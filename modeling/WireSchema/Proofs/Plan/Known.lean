import WireSchema.Proofs.Basic
import WireSchema.Proofs.Plan.Calls
import WireSchema.Proofs.Plan.Number
import Mathlib.Data.List.Perm.Subperm
set_option autoImplicit false

/-!
A planner gives the least numbering, whatever was asked before and in whatever order. A member that
is under way when it is asked for lies on a cycle, because every member that is under way leads to
the one that is being looked at; so what is remembered as unknown meanwhile is unknown for good.
-/

namespace WireSchema.Plan

variable {schema : Schema}

/-- The answer is what a part of the equations comes to at some stage, if it ever does. -/
def Limit (schema : Schema) (part : Numbering → Option UInt64) (answer : Option UInt64) : Prop :=
  ∀ bits, answer = some bits ↔ ∃ stage, part (approx schema stage) = some bits

def Rising (part : Numbering → Option UInt64) : Prop :=
  ∀ σ τ : Numbering, σ.Below τ → ∀ bits, part σ = some bits → part τ = some bits

theorem limit_of_unknown {part : Numbering → Option UInt64} (h : ∀ stage,
    part (approx schema stage) = none) : Limit schema part none := by
  intro bits
  simp [h]

theorem limit_of_known {part : Numbering → Option UInt64} {bits : UInt64}
    (h : ∀ σ, part σ = some bits) : Limit schema part (some bits) := by
  intro other
  simp [h]

theorem Rising.eq {part : Numbering → Option UInt64} (h : Rising part) {first second : Nat}
    {bits more : UInt64} (hfirst : part (approx schema first) = some bits)
    (hsecond : part (approx schema second) = some more) : bits = more := by
  have hbits := h _ _ (approx_below (Nat.le_max_left first second)) bits hfirst
  have hmore := h _ _ (approx_below (Nat.le_max_right first second)) more hsecond
  rw [hbits] at hmore
  exact Option.some.inj hmore

theorem Limit.map {part : Numbering → Option UInt64} {answer : Option UInt64}
    (h : Limit schema part answer) (f : UInt64 → UInt64) :
    Limit schema (fun σ => (part σ).map f) (answer.map f) := by
  intro bits
  simp only [Option.map_eq_some_iff]
  constructor
  · rintro ⟨more,hmore,rfl⟩
    obtain ⟨stage,hstage⟩ := (h more).mp hmore
    exact ⟨stage,more,hstage,rfl⟩
  · rintro ⟨stage,more,hstage,rfl⟩
    exact ⟨more,(h more).mpr ⟨stage,hstage⟩,rfl⟩

theorem Limit.bind_none {part : Numbering → Option UInt64} (h : Limit schema part none)
    (next : UInt64 → Numbering → Option UInt64) :
    Limit schema (fun σ => (part σ).bind fun bits => next bits σ) none := by
  refine limit_of_unknown fun stage => ?_
  cases hpart : part (approx schema stage) with
  | none => rfl
  | some bits => cases (h bits).mpr ⟨stage,hpart⟩

theorem Limit.bind_some {part : Numbering → Option UInt64} {bits : UInt64} (hpart : Rising part)
    (h : Limit schema part (some bits)) {next : UInt64 → Numbering → Option UInt64}
    (hnext : Rising (next bits)) {answer : Option UInt64}
    (hanswer : Limit schema (next bits) answer) :
    Limit schema (fun σ => (part σ).bind fun bits => next bits σ) answer := by
  intro result
  obtain ⟨first,hfirst⟩ := (h bits).mp rfl
  rw [hanswer result]
  simp only [Option.bind_eq_some_iff]
  constructor
  · rintro ⟨second,hsecond⟩
    refine ⟨max first second,bits,?_,?_⟩
    · exact hpart _ _ (approx_below (Nat.le_max_left _ _)) bits hfirst
    · exact hnext _ _ (approx_below (Nat.le_max_right _ _)) result hsecond
  · rintro ⟨stage,other,hother,hresult⟩
    rw [hpart.eq hother hfirst] at hresult
    exact ⟨stage,hresult⟩

theorem limit_member {m : Member} {answer : Option UInt64}
    (h : Limit schema (fun σ => memberNumber schema σ m) answer) :
    Limit schema (fun σ => σ m) answer := by
  intro bits
  rw [h bits]
  constructor
  · rintro ⟨stage,hstage⟩
    exact ⟨stage + 1,hstage⟩
  · rintro ⟨stage,hstage⟩
    cases stage with
    | zero => cases hstage
    | succ stage => exact ⟨stage,hstage⟩

theorem limit_of_cycle {m : Member} (h : Relation.TransGen (Refers schema) m m) :
    Limit schema (fun σ => σ m) none := limit_of_unknown fun stage => unknown_of_cycle h stage

/-- What is remembered is right, so much is under way, and no evaluation has used up its steps. -/
structure Memo.Sound (schema : Schema) (busy : List Member) (memo : Memo) : Prop where
  busy : memo.busy = busy
  unexhausted : memo.exhausted = false
  done : ∀ m answer, (m,answer) ∈ memo.done → Limit schema (fun σ => σ m) answer

/-- A step that gives the right answer and leaves nothing wrong behind. -/
def Answers (schema : Schema) (busy : List Member) (x : Eval (Option UInt64))
    (part : Numbering → Option UInt64) : Prop :=
  ∀ memo, memo.Sound schema busy → (x memo).2.Sound schema busy ∧ Limit schema part (x memo).1

section Expression

variable {busy : List Member} {ask : Member → Eval (Option UInt64)}

theorem Answers.pure {part : Numbering → Option UInt64} {answer : Option UInt64}
    (h : Limit schema part answer) : Answers schema busy (pure answer) part :=
  fun _ hmemo => ⟨hmemo,h⟩

theorem term_answers {term : Reference}
    (h : ∀ decl member, term = .strong decl (some member) →
      Answers schema busy (ask (decl,member)) fun σ => σ (decl,member)) :
    Answers schema busy (Plan.term ask term) fun σ => termNumber σ term := by
  cases term with
  | weak name =>
    cases hl : Literal.parse? name with
    | none =>
      simp only [Plan.term,hl]
      exact .pure (limit_of_unknown fun _ => by simp [termNumber,hl])
    | some literal =>
      simp only [Plan.term,hl]
      exact .pure (limit_of_known fun _ => by simp [termNumber,hl])
  | strong decl member =>
    cases member with
    | none => exact .pure (limit_of_unknown fun _ => rfl)
    | some member => exact h decl member rfl

theorem union_answers {terms : List Reference} {bits : UInt64}
    (h : ∀ decl member, .strong decl (some member) ∈ terms →
      Answers schema busy (ask (decl,member)) fun σ => σ (decl,member)) :
    Answers schema busy (union ask terms bits) fun σ => unionNumber σ terms bits := by
  induction terms generalizing bits with
  | nil => exact .pure (limit_of_known fun σ => unionNumber_nil σ bits)
  | cons term terms ih =>
    have hterm : Answers schema busy (Plan.term ask term) fun σ => termNumber σ term :=
      term_answers fun decl member heq => h decl member (by simp [heq])
    intro memo hmemo
    obtain ⟨hnext,hanswer⟩ := hterm memo hmemo
    simp only [unionNumber_cons]
    have hrun : union ask (term :: terms) bits memo = match Plan.term ask term memo with
        | (none,next) => (none,next)
        | (some more,next) => union ask terms (bits ||| more) next := by
      rw [union]
      simp only [bind,StateT.bind]
      cases Plan.term ask term memo with
      | mk answer next => cases answer <;> rfl
    rw [hrun]
    cases hr : Plan.term ask term memo with
    | mk answer next =>
      rw [hr] at hnext hanswer
      cases answer with
      | none => exact ⟨hnext,hanswer.bind_none _⟩
      | some more =>
        have hrest : Answers schema busy (union ask terms (bits ||| more)) fun σ =>
            unionNumber σ terms (bits ||| more) :=
          ih fun decl member hmem => h decl member (by simp [hmem])
        obtain ⟨hlast,hunion⟩ := hrest next hnext
        refine ⟨hlast,hanswer.bind_some ?_ ?_ hunion⟩
        · exact fun _ _ hστ _ => termNumber_mono hστ
        · exact fun _ _ hστ _ => unionNumber_mono hστ

theorem expression_answers {terms : List Reference}
    (h : ∀ decl member, .strong decl (some member) ∈ terms →
      Answers schema busy (ask (decl,member)) fun σ => σ (decl,member)) :
    Answers schema busy (expression ask terms) fun σ => expressionNumber σ terms := by
  cases terms with
  | nil => exact .pure (limit_of_unknown fun _ => rfl)
  | cons term terms => exact union_answers h

end Expression

section Member

theorem value?_index {e : Schema.Enum} {name : Text} {v : Schema.EnumValue}
    (h : e.value? name = some v) :
    ∃ i, e.values.findIdx? (fun v => v.name == name) = some i ∧ e.values[i]? = some v := by
  unfold Schema.Enum.value? at h
  generalize e.values = values at h ⊢
  induction values with
  | nil => simp at h
  | cons first rest ih =>
    rw [List.find?_cons] at h
    rw [List.findIdx?_cons]
    split at h
    · rename_i hfirst
      cases h
      exact ⟨0,by simp [hfirst],rfl⟩
    · rename_i hfirst
      obtain ⟨i,hi,hv⟩ := ih h
      exact ⟨i + 1,by simp [hfirst,hi],by simpa using hv⟩

theorem findIdx?_of_value?_none {e : Schema.Enum} {name : Text} (h : e.value? name = none) :
    e.values.findIdx? (fun v => v.name == name) = none := by
  simpa [Schema.Enum.value?] using h

theorem predecessor?_index {values : List Schema.EnumValue} {name : Text} {i : Nat}
    (h : values.findIdx? (fun v => v.name == name) = some i) :
    predecessor? name values = if i = 0 then none else values[i - 1]? := by
  induction values generalizing i with
  | nil => simp at h
  | cons first rest ih =>
    rw [List.findIdx?_cons] at h
    cases rest with
    | nil =>
      split at h
      · cases h
        rfl
      · simp at h
    | cons second rest =>
      rw [predecessor?]
      split at h
      · rename_i hfirst
        cases h
        simp [hfirst]
      · rename_i hfirst
        obtain ⟨j,hj,rfl⟩ := Option.map_eq_some_iff.mp h
        have hrest := ih hj
        rw [if_neg hfirst,hrest]
        rw [List.findIdx?_cons] at hj
        split at hj
        · rename_i hsecond
          cases hj
          simp [hsecond]
        · rename_i hsecond
          obtain ⟨k,-,rfl⟩ := Option.map_eq_some_iff.mp hj
          simp [hsecond]

def members (schema : Schema) : List Member :=
  schema.decls.flatMap fun
    | .class c => c.properties.map fun p => (c.name,p.name)
    | .enum e => e.values.map fun v => (e.name,v.name)

theorem length_members (schema : Schema) : (members schema).length = memberCount schema := by
  unfold members memberCount
  rw [List.length_flatMap]
  congr 1
  refine List.map_congr_left fun d _ => ?_
  cases d <;> simp

theorem mem_members_of_value? {declName name : Text} {e : Schema.Enum} {v : Schema.EnumValue}
    (hdecl : schema.decl? declName = some (.enum e)) (hv : e.value? name = some v) :
    (declName,name) ∈ members schema := by
  refine List.mem_flatMap.mpr ⟨_,List.mem_of_find?_eq_some hdecl,?_⟩
  have he : e.name = declName := by simpa [Schema.Decl.name] using List.find?_some hdecl
  have hname : v.name = name := by simpa using List.find?_some hv
  exact List.mem_map.mpr ⟨v,List.mem_of_find?_eq_some hv,by rw [he,hname]⟩

theorem mem_members_of_property? {declName name : Text} {c : Schema.Class} {p : Schema.Property}
    (hdecl : schema.decl? declName = some (.class c)) (hp : c.property? name = some p) :
    (declName,name) ∈ members schema := by
  refine List.mem_flatMap.mpr ⟨_,List.mem_of_find?_eq_some hdecl,?_⟩
  have hc : c.name = declName := by simpa [Schema.Decl.name] using List.find?_some hdecl
  have hname : p.name = name := by simpa using List.find?_some hp
  exact List.mem_map.mpr ⟨p,List.mem_of_find?_eq_some hp,by rw [hc,hname]⟩

/-- What is looked up for a value of an enumeration, before it is cut to the storage. -/
def valueBits (ask : Member → Eval (Option UInt64)) (declName name : Text) (e : Schema.Enum)
    (v : Schema.EnumValue) : Eval (Option UInt64) :=
  if v.default.isEmpty then
    match predecessor? name e.values with
    | none => pure (some 0)
    | some before => Option.map (· + 1) <$> ask (declName,before.name)
  else expression ask v.default

theorem member_value {declName name : Text} {e : Schema.Enum} {v : Schema.EnumValue}
    (hdecl : schema.decl? declName = some (.enum e)) (hv : e.value? name = some v) (fuel : Nat)
    (memo : Memo) :
    member schema (fuel + 1) (declName,name) memo = match memo.done.lookup (declName,name) with
      | some bits => (bits,memo)
      | none =>
        if memo.busy.contains (declName,name) then (none,memo)
        else
          let (bits,next) :=
            valueBits (member schema fuel) declName name e v (memo.enter (declName,name))
          let masked := bits.map e.storage.mask
          (masked,(next.leave (declName,name)).finish (declName,name) masked) := by
  have hget : ∀ f : Memo → Eval (Option UInt64), (get >>= f) memo = f memo memo := fun _ => rfl
  simp only [member,hdecl,hv,hget,valueBits]
  cases memo.done.lookup (declName,name) with
  | some bits => rfl
  | none =>
    by_cases hbusy : memo.busy.contains (declName,name) = true
    · simp only [hbusy,if_true]
      rfl
    · simp only [hbusy]
      by_cases hdefault : v.default.isEmpty = true
      · simp only [hdefault,if_true]
        cases predecessor? name e.values <;> rfl
      · simp only [hdefault]
        rfl

theorem member_const {declName name : Text} {c : Schema.Class} {p : Schema.Property}
    (hdecl : schema.decl? declName = some (.class c)) (hp : c.property? name = some p)
    (hflag : p.flag = some .const) (fuel : Nat) (memo : Memo) :
    member schema (fuel + 1) (declName,name) memo =
      if memo.busy.contains (declName,name) then (none,memo)
      else
        let (bits,next) :=
          expression (member schema fuel) p.default (memo.enter (declName,name))
        (bits,next.leave (declName,name)) := by
  have hget : ∀ f : Memo → Eval (Option UInt64), (get >>= f) memo = f memo memo := fun _ => rfl
  simp only [member,hdecl,hp,hflag,ne_eq,not_true_eq_false,if_false,hget]
  by_cases hbusy : memo.busy.contains (declName,name) = true
  · simp only [hbusy,if_true]
    rfl
  · simp only [hbusy]
    rfl

theorem memberNumber_value {declName name : Text} {e : Schema.Enum} {i : Nat}
    {v : Schema.EnumValue} (hdecl : schema.decl? declName = some (.enum e))
    (hi : e.values.findIdx? (fun v => v.name == name) = some i) (hv : e.values[i]? = some v)
    (σ : Numbering) : memberNumber schema σ (declName,name) =
      (valueNumber σ declName e i v).map e.storage.mask := by
  simp only [memberNumber,hdecl,hi]
  change (e.values[i]?.bind fun v => (valueNumber σ declName e i v).bind fun bits =>
    some (e.storage.mask bits)) = _
  rw [hv,Option.map_eq_bind]
  rfl

theorem valueBits_answers {declName name : Text} {e : Schema.Enum} {i : Nat} {v : Schema.EnumValue}
    (hdecl : schema.decl? declName = some (.enum e))
    (hi : e.values.findIdx? (fun v => v.name == name) = some i) (hv : e.values[i]? = some v)
    {busy : List Member} {ask : Member → Eval (Option UInt64)}
    (hask : ∀ n, Refers schema (declName,name) n → Answers schema busy (ask n) fun σ => σ n) :
    Answers schema busy (valueBits ask declName name e v) fun σ =>
      valueNumber σ declName e i v := by
  unfold valueBits valueNumber
  cases hdefault : v.default with
  | cons term terms =>
    simp only [List.isEmpty_cons,Bool.false_eq_true,if_false,ne_eq,reduceCtorEq,not_false_eq_true,
      if_true]
    refine expression_answers fun decl member hmem => hask _ (.value hdecl hi hv ?_)
    rw [hdefault]
    exact hmem
  | nil =>
    simp only [List.isEmpty_nil,if_true,ne_eq,not_true_eq_false,if_false,predecessor?_index hi]
    cases i with
    | zero => exact .pure (limit_of_known fun _ => rfl)
    | succ i =>
      have hlt : i + 1 < e.values.length := by
        obtain ⟨hlt,-⟩ := List.getElem?_eq_some_iff.mp hv
        exact hlt
      obtain ⟨before,hbefore⟩ : ∃ before, e.values[i]? = some before :=
        ⟨_,List.getElem?_eq_getElem (by omega)⟩
      simp only [Nat.add_one_ne_zero,if_false,Nat.add_sub_cancel,hbefore,Option.bind_some]
      have hprevious := hask _ (.previous hdecl hi hv hdefault hbefore)
      intro memo hmemo
      obtain ⟨hnext,hlimit⟩ := hprevious memo hmemo
      exact ⟨hnext,hlimit.map (· + 1)⟩

theorem Memo.Sound.enter {memo : Memo} {busy : List Member} (h : memo.Sound schema busy)
    (m : Member) : (memo.enter m).Sound schema (m :: busy) :=
  ⟨by simp [Memo.enter,h.busy],h.unexhausted,h.done⟩

theorem Memo.Sound.leave {memo : Memo} {busy : List Member} {m : Member}
    (h : memo.Sound schema (m :: busy)) : (memo.leave m).Sound schema busy :=
  ⟨by simp [Memo.leave,h.busy],h.unexhausted,h.done⟩

theorem Memo.Sound.finish {memo : Memo} {busy : List Member} (h : memo.Sound schema busy)
    {m : Member} {answer : Option UInt64} (ha : Limit schema (fun σ => σ m) answer) :
    (memo.finish m answer).Sound schema busy := by
  refine ⟨h.busy,h.unexhausted,?_⟩
  intro n other hmem
  rcases List.mem_cons.mp hmem with heq | hmem
  · cases heq
    exact ha
  · exact h.done n other hmem

theorem value_answers {declName name : Text} {e : Schema.Enum} {v : Schema.EnumValue}
    (hdecl : schema.decl? declName = some (.enum e)) (hv : e.value? name = some v) {fuel : Nat}
    {busy : List Member}
    (hcycle : (declName,name) ∈ busy →
      Relation.TransGen (Refers schema) (declName,name) (declName,name))
    (hask : (declName,name) ∉ busy → ∀ n, Refers schema (declName,name) n →
      Answers schema ((declName,name) :: busy) (member schema fuel n) fun σ => σ n) :
    Answers schema busy (member schema (fuel + 1) (declName,name)) fun σ => σ (declName,name) := by
  intro memo hmemo
  rw [member_value hdecl hv]
  cases hlookup : memo.done.lookup (declName,name) with
  | some bits => exact ⟨hmemo,hmemo.done _ _ (mem_of_lookup hlookup)⟩
  | none =>
    by_cases hbusy : (declName,name) ∈ busy
    · simp only [hmemo.busy,List.contains_eq_mem,hbusy,decide_true,if_true]
      exact ⟨hmemo,limit_of_cycle (hcycle hbusy)⟩
    · simp only [hmemo.busy,List.contains_eq_mem,hbusy,decide_false,Bool.false_eq_true,if_false]
      obtain ⟨i,hi,hvi⟩ := value?_index hv
      obtain ⟨hnext,hbits⟩ := valueBits_answers hdecl hi hvi (hask hbusy) _ (hmemo.enter _)
      have hlimit := hbits.map e.storage.mask
      simp only [← memberNumber_value hdecl hi hvi] at hlimit
      exact ⟨hnext.leave.finish (limit_member hlimit),limit_member hlimit⟩

theorem const_answers {declName name : Text} {c : Schema.Class} {p : Schema.Property}
    (hdecl : schema.decl? declName = some (.class c)) (hp : c.property? name = some p)
    (hflag : p.flag = some .const) {fuel : Nat} {busy : List Member}
    (hcycle : (declName,name) ∈ busy →
      Relation.TransGen (Refers schema) (declName,name) (declName,name))
    (hask : (declName,name) ∉ busy → ∀ n, Refers schema (declName,name) n →
      Answers schema ((declName,name) :: busy) (member schema fuel n) fun σ => σ n) :
    Answers schema busy (member schema (fuel + 1) (declName,name)) fun σ => σ (declName,name) := by
  intro memo hmemo
  rw [member_const hdecl hp hflag]
  by_cases hbusy : (declName,name) ∈ busy
  · simp only [hmemo.busy,List.contains_eq_mem,hbusy,decide_true,if_true]
    exact ⟨hmemo,limit_of_cycle (hcycle hbusy)⟩
  · simp only [hmemo.busy,List.contains_eq_mem,hbusy,decide_false,Bool.false_eq_true,if_false]
    have hterms : Answers schema ((declName,name) :: busy)
        (expression (member schema fuel) p.default) fun σ => expressionNumber σ p.default :=
      expression_answers fun decl member hmem =>
        hask hbusy _ (.const hdecl hp hflag hmem)
    obtain ⟨hnext,hbits⟩ := hterms _ (hmemo.enter _)
    refine ⟨hnext.leave,limit_member ?_⟩
    have heq : ∀ σ, memberNumber schema σ (declName,name) = expressionNumber σ p.default := by
      intro σ
      simp [memberNumber,hdecl,hp,hflag]
    simp only [heq]
    exact hbits

/-- Every member that is under way leads to the one that is asked for, and there is a step left for
each member that is not under way. -/
theorem member_answers (fuel : Nat) (m : Member) {busy : List Member} (hnodup : busy.Nodup)
    (hmembers : ∀ x ∈ busy, x ∈ members schema)
    (hfuel : memberCount schema < fuel + busy.length)
    (hstack : ∀ x ∈ busy, Relation.TransGen (Refers schema) x m) :
    Answers schema busy (member schema fuel m) fun σ => σ m := by
  induction fuel generalizing m busy with
  | zero =>
    -- There would be more members under way than there are.
    have hle := (hnodup.subperm hmembers).length_le
    rw [length_members] at hle
    omega
  | succ fuel ih =>
    obtain ⟨declName,name⟩ := m
    -- Whatever this member refers to is asked for while it is under way itself.
    have hask : (declName,name) ∈ members schema → (declName,name) ∉ busy → ∀ n,
        Refers schema (declName,name) n →
        Answers schema ((declName,name) :: busy) (member schema fuel n) fun σ => σ n := by
      intro hmember hbusy n href
      refine ih n (List.nodup_cons.mpr ⟨hbusy,hnodup⟩) ?_ (by simp; omega) ?_
      · intro x hx
        rcases List.mem_cons.mp hx with rfl | hx
        · exact hmember
        · exact hmembers x hx
      · intro x hx
        rcases List.mem_cons.mp hx with rfl | hx
        · exact .single href
        · exact .tail (hstack x hx) href
    have hunknown : (∀ σ, memberNumber schema σ (declName,name) = none) →
        Answers schema busy (pure none) fun σ => σ (declName,name) := by
      intro h
      exact .pure (limit_member (limit_of_unknown fun _ => h _))
    cases hdecl : schema.decl? declName with
    | none =>
      rw [member,hdecl]
      exact hunknown fun σ => by simp [memberNumber,hdecl]
    | some d =>
      cases d with
      | enum e =>
        cases hv : e.value? name with
        | none =>
          simp only [member,hdecl,hv]
          exact hunknown fun σ => by simp [memberNumber,hdecl,findIdx?_of_value?_none hv]
        | some v =>
          exact value_answers hdecl hv (hstack _) (hask (mem_members_of_value? hdecl hv))
      | «class» c =>
        cases hp : c.property? name with
        | none =>
          simp only [member,hdecl,hp]
          exact hunknown fun σ => by simp [memberNumber,hdecl,hp]
        | some p =>
          by_cases hflag : p.flag = some .const
          · exact const_answers hdecl hp hflag (hstack _) (hask (mem_members_of_property? hdecl hp))
          · simp only [member,hdecl,hp,ne_eq,hflag,not_false_eq_true,if_true]
            exact hunknown fun σ => by simp [memberNumber,hdecl,hp,hflag]

theorem value_answers_afresh (m : Member) :
    Answers schema [] (value schema m) fun σ => σ m :=
  member_answers (depth schema) m .nil (by simp) (by simp [depth]) (by simp)

end Member

/-- The number that is found for a member if nothing has been found out before. -/
def number (schema : Schema) : Numbering := fun m => (value schema m Memo.empty).1

theorem Memo.sound_empty : Memo.empty.Sound schema [] := ⟨rfl,rfl,by simp [Memo.empty]⟩

theorem limit_number (m : Member) : Limit schema (fun σ => σ m) (number schema m) :=
  (value_answers_afresh m Memo.empty Memo.sound_empty).2

theorem Limit.eq {part : Numbering → Option UInt64} {first second : Option UInt64}
    (hfirst : Limit schema part first) (hsecond : Limit schema part second) : first = second :=
  Option.ext fun bits => (hfirst bits).trans (hsecond bits).symm

theorem approx_below_number (stage : Nat) : (approx schema stage).Below (number schema) :=
  fun m bits h => (limit_number m bits).mpr ⟨stage,h⟩

theorem mem_members_of_known {σ : Numbering} {m : Member} {bits : UInt64}
    (h : memberNumber schema σ m = some bits) : m ∈ members schema := by
  obtain ⟨declName,name⟩ := m
  cases hdecl : schema.decl? declName with
  | none => simp [memberNumber,hdecl] at h
  | some d =>
    cases d with
    | enum e =>
      cases hv : e.value? name with
      | none => simp [memberNumber,hdecl,findIdx?_of_value?_none hv] at h
      | some v => exact mem_members_of_value? hdecl hv
    | «class» c =>
      cases hp : c.property? name with
      | none => simp [memberNumber,hdecl,hp] at h
      | some p => exact mem_members_of_property? hdecl hp

theorem exists_stage (schema : Schema) : ∃ stage, approx schema stage = number schema := by
  have hlist : ∀ ms : List Member, ∃ stage, ∀ m ∈ ms, ∀ bits, number schema m = some bits →
      approx schema stage m = some bits := by
    intro ms
    induction ms with
    | nil => exact ⟨0,by simp⟩
    | cons m ms ih =>
      obtain ⟨stage,hstage⟩ := ih
      cases hm : number schema m with
      | none =>
        refine ⟨stage,fun n hn bits hbits => ?_⟩
        rcases List.mem_cons.mp hn with rfl | hn
        · rw [hm] at hbits
          cases hbits
        · exact hstage n hn bits hbits
      | some bits =>
        obtain ⟨first,hfirst⟩ := (limit_number m bits).mp hm
        refine ⟨max first stage,fun n hn more hmore => ?_⟩
        rcases List.mem_cons.mp hn with rfl | hn
        · rw [hm] at hmore
          cases hmore
          exact approx_below (Nat.le_max_left _ _) n _ hfirst
        · exact approx_below (Nat.le_max_right _ _) n _ (hstage n hn more hmore)
  obtain ⟨stage,hstage⟩ := hlist (members schema)
  refine ⟨stage,funext fun m => ?_⟩
  refine Option.ext fun bits => ⟨fun h => approx_below_number stage m bits h,fun h => ?_⟩
  obtain ⟨first,hfirst⟩ := (limit_number m bits).mp h
  cases first with
  | zero => cases hfirst
  | succ first => exact hstage m (mem_members_of_known hfirst) bits h

theorem number_solves (schema : Schema) : (number schema).Solves schema := by
  obtain ⟨stage,hstage⟩ := exists_stage schema
  intro m
  have hnext : approx schema (stage + 1) m = number schema m := by
    refine Option.ext fun bits => ⟨fun h => approx_below_number (stage + 1) m bits h,fun h => ?_⟩
    rw [← hstage] at h
    exact approx_below_succ schema stage m bits h
  rw [← hnext,approx,hstage]

theorem limit_expression (terms : List Reference) {answer : Option UInt64}
    (h : Limit schema (fun σ => expressionNumber σ terms) answer) :
    answer = expressionNumber (number schema) terms := by
  obtain ⟨stage,hstage⟩ := exists_stage schema
  refine Option.ext fun bits => ?_
  rw [h bits]
  constructor
  · rintro ⟨first,hfirst⟩
    exact expressionNumber_mono (approx_below_number first) hfirst
  · intro hbits
    exact ⟨stage,by rw [hstage]; exact hbits⟩

theorem value_eq_number {memo : Memo} (h : memo.Sound schema []) (m : Member) :
    (value schema m memo).2.Sound schema [] ∧ (value schema m memo).1 = number schema m := by
  obtain ⟨hnext,hlimit⟩ := value_answers_afresh m memo h
  exact ⟨hnext,hlimit.eq (limit_number m)⟩

theorem eval_eq_number {memo : Memo} (h : memo.Sound schema []) (terms : List Reference) :
    (eval schema terms memo).2.Sound schema [] ∧
      (eval schema terms memo).1 = expressionNumber (number schema) terms := by
  have hanswers : Answers schema [] (eval schema terms) fun σ => expressionNumber σ terms :=
    expression_answers fun _ _ _ => value_answers_afresh _
  obtain ⟨hnext,hlimit⟩ := hanswers memo h
  exact ⟨hnext,limit_expression terms hlimit⟩

theorem eval_bind {α β : Type} (x : Eval α) (f : α → Eval β) (memo : Memo) :
    (x >>= f) memo = f (x memo).1 (x memo).2 := rfl

theorem eval_pure {α : Type} (a : α) (memo : Memo) : (pure a : Eval α) memo = (a,memo) := rfl

theorem enum_eq_number {memo : Memo} (h : memo.Sound schema []) (e : Schema.Enum) :
    (enum schema e memo).2.Sound schema [] ∧ (enum schema e memo).1 =
      ⟨e,(e.values.filter (!·.removed)).map fun v => ⟨v,number schema (e.name,v.name)⟩⟩ := by
  have hvalues : ∀ (vs : List Schema.EnumValue) (memo : Memo), memo.Sound schema [] →
      ∃ next : Memo, next.Sound schema [] ∧ (vs.mapM fun v => do
        return ({ value := v, bits := ← value schema (e.name,v.name) } : EnumValue) : Eval _) memo =
          (vs.map fun v => ⟨v,number schema (e.name,v.name)⟩,next) := by
    intro vs
    induction vs with
    | nil => exact fun memo hmemo => ⟨memo,hmemo,rfl⟩
    | cons v vs ih =>
      intro memo hmemo
      obtain ⟨hnext,hbits⟩ := value_eq_number hmemo (e.name,v.name)
      obtain ⟨last,hlast,hrest⟩ := ih _ hnext
      refine ⟨last,hlast,?_⟩
      simp only [List.mapM_cons,eval_bind,eval_pure] at hrest ⊢
      rw [hrest,hbits]
      rfl
  obtain ⟨next,hnext,hrun⟩ := hvalues (e.values.filter (!·.removed)) memo h
  unfold enum
  rw [eval_bind,hrun]
  exact ⟨hnext,rfl⟩

end WireSchema.Plan

namespace WireSchema.Planner

open Plan (number Member Numbering)

theorem memo_after (schema : Schema) (supportsGc : Bool) (calls : List Call) :
    ((new schema supportsGc).after calls).schema = schema ∧
      ((new schema supportsGc).after calls).memo.Sound schema [] := by
  have hstep : ∀ (p : Planner) (q : Call), p.schema = schema ∧ p.memo.Sound schema [] →
      (p.call q).schema = schema ∧ (p.call q).memo.Sound schema [] := by
    rintro p q ⟨rfl,hmemo⟩
    cases q with
    | layout className =>
      simp only [call]
      split
      · exact ⟨rfl,hmemo⟩
      · exact ⟨rfl,hmemo⟩
    | enum e => exact ⟨rfl,(Plan.enum_eq_number hmemo e).1⟩
    | value m => exact ⟨rfl,(Plan.value_eq_number hmemo m).1⟩
    | eval terms => exact ⟨rfl,(Plan.eval_eq_number hmemo terms).1⟩
  exact after_keeps hstep calls ⟨rfl,Plan.Memo.sound_empty⟩

theorem eval_after (schema : Schema) (supportsGc : Bool) (calls : List Call)
    (terms : List Reference) :
    (((new schema supportsGc).after calls).ask fun s => Plan.eval s terms).1 =
      Plan.expressionNumber (number schema) terms := by
  obtain ⟨hschema,hmemo⟩ := memo_after schema supportsGc calls
  simp only [ask,hschema]
  exact (Plan.eval_eq_number hmemo terms).2

/-- The numbers that a fresh planner finds are the least solution of the equations, none of them
lies on a cycle of references or behind one, and any other planner of the schema gives the same
answers, however many steps more it may make. None ever uses up its steps. -/
theorem answers_eq_least (schema : Schema) :
    (number schema).Solves schema ∧
    (∀ τ : Numbering, τ.Solves schema → (number schema).Below τ) ∧
    (∀ m n, Relation.ReflTransGen (Plan.Refers schema) m n →
      Relation.TransGen (Plan.Refers schema) n n → number schema m = none) ∧
    ∀ (supportsGc : Bool) (calls : List Call),
      (∀ m, (((new schema supportsGc).after calls).ask fun s => Plan.value s m).1 =
        number schema m) ∧
      (∀ terms, (((new schema supportsGc).after calls).ask fun s => Plan.eval s terms).1 =
        Plan.expressionNumber (number schema) terms) ∧
      (∀ e, (((new schema supportsGc).after calls).ask fun s => Plan.enum s e).1 =
        ⟨e,(e.values.filter (!·.removed)).map fun v => ⟨v,number schema (e.name,v.name)⟩⟩) ∧
      ((new schema supportsGc).after calls).memo.exhausted = false ∧
      ∀ fuel m, Plan.depth schema ≤ fuel →
        (Plan.member schema fuel m ((new schema supportsGc).after calls).memo).1 =
          number schema m ∧
        (Plan.member schema fuel m ((new schema supportsGc).after calls).memo).2.exhausted =
          false := by
  refine ⟨Plan.number_solves schema,?_,?_,?_⟩
  · intro τ hτ m bits hm
    obtain ⟨stage,hstage⟩ := (Plan.limit_number m bits).mp hm
    exact Plan.approx_below_solution hτ stage m bits hstage
  · intro m n hmn hn
    obtain ⟨stage,hstage⟩ := Plan.exists_stage schema
    rw [← hstage]
    exact Plan.unknown_of_reaches_cycle hmn hn stage
  · intro supportsGc calls
    obtain ⟨hschema,hmemo⟩ := memo_after schema supportsGc calls
    simp only [ask,hschema]
    refine ⟨fun m => (Plan.value_eq_number hmemo m).2,
      fun terms => (Plan.eval_eq_number hmemo terms).2,
      fun e => (Plan.enum_eq_number hmemo e).2,hmemo.unexhausted,?_⟩
    intro fuel m hfuel
    have hanswers := Plan.member_answers fuel m .nil (by simp)
      (by simp only [Plan.depth] at hfuel; simp; omega) (by simp) _ hmemo
    exact ⟨hanswers.2.eq (Plan.limit_number m),hanswers.1.unexhausted⟩

/-- Two values that stand for each other have no number, nor has the one that continues from them.
-/
example : ["A","B","C","D"].map (fun name => number
    ⟨[],[.enum ⟨"E",.byte,false,[⟨"A",[],none,false⟩,⟨"B",[.strong "E" (some "C")],none,false⟩,
      ⟨"C",[.strong "E" (some "B")],none,false⟩,⟨"D",[],none,false⟩]⟩]⟩ ("E",name)) =
    [some 0,none,none,none] := by decide +kernel

end WireSchema.Planner
