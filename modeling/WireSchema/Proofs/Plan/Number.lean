import WireSchema.Plan.Enum
import Mathlib.Logic.Relation
set_option autoImplicit false

/-!
The numbers of members as equations, without any order of evaluation. The least solution is
approached from below: a member is known at some stage if all that it refers to is known before, so
nothing on a cycle of references, or behind one, is ever known.
-/

namespace WireSchema.Plan

/-- Numbers for the members of a schema, as far as they are known. -/
abbrev Numbering := Member → Option UInt64

/-- One numbering is known wherever another is, with the same numbers. -/
def Numbering.Below (σ τ : Numbering) : Prop := ∀ m bits, σ m = some bits → τ m = some bits

def termNumber (σ : Numbering) : Reference → Option UInt64
  | .weak name => (Literal.parse? name).map Literal.value
  | .strong _ none => none
  | .strong decl (some member) => σ (decl,member)

def unionNumber (σ : Numbering) (terms : List Reference) (bits : UInt64) : Option UInt64 :=
  (terms.mapM (termNumber σ)).map fun more => more.foldl (· ||| ·) bits

/-- An expression is the union of its terms, if there are any and all of them are known. -/
def expressionNumber (σ : Numbering) (terms : List Reference) : Option UInt64 :=
  if terms = [] then none else unionNumber σ terms 0

/-- The value at an index has an expression, or is the first one, or continues from the value in
front of it. -/
def valueNumber (σ : Numbering) (declName : Text) (e : Schema.Enum) (i : Nat)
    (v : Schema.EnumValue) : Option UInt64 :=
  if v.default ≠ [] then expressionNumber σ v.default
  else if i = 0 then some 0
  else (e.values[i - 1]?).bind fun before => (σ (declName,before.name)).map (· + 1)

/-- The right side of the equation for a member. -/
def memberNumber (schema : Schema) (σ : Numbering) (m : Member) : Option UInt64 :=
  match schema.decl? m.1 with
  | none => none
  | some (.enum e) => do
    let i ← e.values.findIdx? fun v => v.name == m.2
    let v ← e.values[i]?
    let bits ← valueNumber σ m.1 e i v
    return e.storage.mask bits
  | some (.class c) => do
    let p ← c.property? m.2
    if p.flag = some .const then expressionNumber σ p.default else none

/-- The numbering gives every member what its equation says. -/
def Numbering.Solves (σ : Numbering) (schema : Schema) : Prop := ∀ m, σ m = memberNumber schema σ m

inductive Refers (schema : Schema) : Member → Member → Prop
  | const {declName name other member : Text} {c : Schema.Class} {p : Schema.Property}
      (decl : schema.decl? declName = some (.class c)) (property : c.property? name = some p)
      (flag : p.flag = some .const) (term : .strong other (some member) ∈ p.default) :
      Refers schema (declName,name) (other,member)
  | value {declName name other member : Text} {e : Schema.Enum} {i : Nat} {v : Schema.EnumValue}
      (decl : schema.decl? declName = some (.enum e))
      (index : e.values.findIdx? (fun v => v.name == name) = some i) (value : e.values[i]? = some v)
      (term : .strong other (some member) ∈ v.default) :
      Refers schema (declName,name) (other,member)
  | previous {declName name : Text} {e : Schema.Enum} {i : Nat} {v before : Schema.EnumValue}
      (decl : schema.decl? declName = some (.enum e))
      (index : e.values.findIdx? (fun v => v.name == name) = some (i + 1))
      (value : e.values[i + 1]? = some v) (implicit : v.default = [])
      (previous : e.values[i]? = some before) :
      Refers schema (declName,name) (declName,before.name)

section Monotone

variable {σ τ : Numbering}

theorem termNumber_mono (h : σ.Below τ) {term : Reference} {bits : UInt64}
    (ht : termNumber σ term = some bits) : termNumber τ term = some bits := by
  cases term with
  | weak name => exact ht
  | strong decl member =>
    cases member with
    | none => exact ht
    | some member => exact h _ _ ht

theorem unionNumber_nil (σ : Numbering) (bits : UInt64) : unionNumber σ [] bits = some bits := rfl

theorem unionNumber_cons (σ : Numbering) (term : Reference) (terms : List Reference)
    (bits : UInt64) :
    unionNumber σ (term :: terms) bits =
      (termNumber σ term).bind fun more => unionNumber σ terms (bits ||| more) := by
  cases ht : termNumber σ term with
  | none => simp [unionNumber,ht]
  | some more =>
    cases hts : terms.mapM (termNumber σ) with
    | none => simp [unionNumber,ht,hts]
    | some rest => simp [unionNumber,ht,hts]

theorem unionNumber_mono (h : σ.Below τ) {terms : List Reference} {start bits : UInt64}
    (ht : unionNumber σ terms start = some bits) : unionNumber τ terms start = some bits := by
  induction terms generalizing start with
  | nil => exact ht
  | cons term terms ih =>
    rw [unionNumber_cons,Option.bind_eq_some_iff] at ht ⊢
    obtain ⟨more,hterm,hrest⟩ := ht
    exact ⟨more,termNumber_mono h hterm,ih hrest⟩

theorem expressionNumber_mono (h : σ.Below τ) {terms : List Reference} {bits : UInt64}
    (ht : expressionNumber σ terms = some bits) : expressionNumber τ terms = some bits := by
  unfold expressionNumber at ht ⊢
  split at ht
  · cases ht
  · rename_i hterms
    rw [if_neg hterms]
    exact unionNumber_mono h ht

theorem valueNumber_mono (h : σ.Below τ) {declName : Text} {e : Schema.Enum} {i : Nat}
    {v : Schema.EnumValue} {bits : UInt64} (hv : valueNumber σ declName e i v = some bits) :
    valueNumber τ declName e i v = some bits := by
  unfold valueNumber at hv ⊢
  split at hv
  · rename_i hdefault
    rw [if_pos hdefault]
    exact expressionNumber_mono h hv
  · rename_i hdefault
    rw [if_neg hdefault]
    split at hv
    · rename_i hfirst
      rw [if_pos hfirst]
      exact hv
    · rename_i hfirst
      rw [if_neg hfirst]
      simp only [Option.bind_eq_some_iff,Option.map_eq_some_iff] at hv ⊢
      obtain ⟨before,hbefore,more,hmore,heq⟩ := hv
      exact ⟨before,hbefore,more,h _ _ hmore,heq⟩

theorem memberNumber_mono (h : σ.Below τ) (schema : Schema) :
    Numbering.Below (memberNumber schema σ) (memberNumber schema τ) := by
  intro m bits hm
  unfold memberNumber at hm ⊢
  cases hdecl : schema.decl? m.1 with
  | none => simp [hdecl] at hm
  | some d =>
    cases d with
    | enum e =>
      simp only [hdecl,Option.bind_eq_bind,Option.bind_eq_some_iff,Option.pure_def] at hm ⊢
      obtain ⟨i,hi,v,hv,more,hmore,heq⟩ := hm
      exact ⟨i,hi,v,hv,more,valueNumber_mono h hmore,heq⟩
    | «class» c =>
      simp only [hdecl,Option.bind_eq_bind,Option.bind_eq_some_iff] at hm ⊢
      obtain ⟨p,hp,hm⟩ := hm
      refine ⟨p,hp,?_⟩
      split at hm
      · rename_i hflag
        rw [if_pos hflag]
        exact expressionNumber_mono h hm
      · cases hm

end Monotone

/-- What is known once as many steps have been made as the stage says. -/
def approx (schema : Schema) : Nat → Numbering
  | 0 => fun _ => none
  | stage + 1 => memberNumber schema (approx schema stage)

section Stages

variable {schema : Schema}

theorem approx_below_succ (schema : Schema) (stage : Nat) :
    (approx schema stage).Below (approx schema (stage + 1)) := by
  induction stage with
  | zero => intro m bits h; cases h
  | succ stage ih => exact memberNumber_mono ih schema

theorem approx_below {stage later : Nat} (h : stage ≤ later) :
    (approx schema stage).Below (approx schema later) := by
  induction h with
  | refl => exact fun _ _ hm => hm
  | step _ ih => exact fun m bits hm => approx_below_succ schema _ m bits (ih m bits hm)

theorem approx_below_solution {τ : Numbering} (h : τ.Solves schema) (stage : Nat) :
    (approx schema stage).Below τ := by
  induction stage with
  | zero => intro m bits hm; cases hm
  | succ stage ih =>
    intro m bits hm
    rw [h m]
    exact memberNumber_mono ih schema m bits hm

theorem term_known {σ : Numbering} {terms : List Reference} {start bits : UInt64}
    (h : unionNumber σ terms start = some bits) {term : Reference} (ht : term ∈ terms) :
    ∃ more, termNumber σ term = some more := by
  induction terms generalizing start with
  | nil => simp at ht
  | cons first rest ih =>
    rw [unionNumber_cons,Option.bind_eq_some_iff] at h
    obtain ⟨more,hfirst,hrest⟩ := h
    rcases List.mem_cons.mp ht with rfl | ht
    · exact ⟨more,hfirst⟩
    · exact ih hrest ht

theorem member_known {σ : Numbering} {terms : List Reference} {bits : UInt64}
    (h : expressionNumber σ terms = some bits) {decl member : Text}
    (ht : .strong decl (some member) ∈ terms) : ∃ more, σ (decl,member) = some more := by
  unfold expressionNumber at h
  split at h
  · cases h
  · exact term_known h ht

theorem known_of_refers {σ : Numbering} {m n : Member} {bits : UInt64}
    (hm : memberNumber schema σ m = some bits) (h : Refers schema m n) :
    ∃ more, σ n = some more := by
  cases h with
  | const hdecl hproperty hflag hterm =>
    simp only [memberNumber,hdecl,hproperty,hflag,Option.bind_eq_bind,Option.bind_some,
      if_true] at hm
    exact member_known hm hterm
  | @value _ _ _ _ e i v hdecl hindex hvalue hterm =>
    simp only [memberNumber,hdecl,hindex,hvalue,Option.bind_eq_bind,Option.bind_some,
      Option.bind_eq_some_iff] at hm
    obtain ⟨more,hmore,-⟩ := hm
    have hdefault : v.default ≠ [] := List.ne_nil_of_mem hterm
    rw [valueNumber,if_pos hdefault] at hmore
    exact member_known hmore hterm
  | @previous _ _ e i v before hdecl hindex hvalue himplicit hprevious =>
    simp only [memberNumber,hdecl,hindex,hvalue,Option.bind_eq_bind,Option.bind_some,
      Option.bind_eq_some_iff] at hm
    obtain ⟨more,hmore,-⟩ := hm
    simp only [valueNumber,himplicit,hprevious,ne_eq,not_true_eq_false,if_false,
      Nat.add_one_ne_zero,Nat.add_sub_cancel,Option.bind_some,Option.map_eq_some_iff] at hmore
    obtain ⟨less,hless,-⟩ := hmore
    exact ⟨less,hless⟩

theorem known_earlier {stage : Nat} {m n : Member} {bits : UInt64}
    (hm : approx schema stage m = some bits) (h : Relation.TransGen (Refers schema) m n) :
    ∃ earlier < stage, ∃ more, approx schema earlier n = some more := by
  induction h with
  | single href =>
    cases stage with
    | zero => cases hm
    | succ stage => exact ⟨stage,by omega,known_of_refers hm href⟩
  | tail _ href ih =>
    obtain ⟨earlier,hlt,more,hmore⟩ := ih
    cases earlier with
    | zero => cases hmore
    | succ earlier => exact ⟨earlier,by omega,known_of_refers hmore href⟩

theorem unknown_of_cycle {m : Member} (h : Relation.TransGen (Refers schema) m m) (stage : Nat) :
    approx schema stage m = none := by
  -- A member of a cycle that is known would have been known before.
  induction stage using Nat.strongRecOn with
  | ind stage ih =>
    cases hm : approx schema stage m with
    | none => rfl
    | some bits =>
      obtain ⟨earlier,hlt,more,hmore⟩ := known_earlier hm h
      rw [ih earlier hlt] at hmore
      cases hmore

theorem unknown_of_reaches_cycle {m n : Member} (hmn : Relation.ReflTransGen (Refers schema) m n)
    (hn : Relation.TransGen (Refers schema) n n) (stage : Nat) : approx schema stage m = none := by
  rcases Relation.reflTransGen_iff_eq_or_transGen.mp hmn with rfl | hreach
  · exact unknown_of_cycle hn stage
  · cases hm : approx schema stage m with
    | none => rfl
    | some bits =>
      obtain ⟨earlier,-,more,hmore⟩ := known_earlier hm hreach
      rw [unknown_of_cycle hn earlier] at hmore
      cases hmore

end Stages

end WireSchema.Plan
