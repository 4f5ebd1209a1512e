import WireSchema.Proofs.Record.Steps
set_option autoImplicit false

namespace WireSchema.Record

variable {reg : Registry} {className : Text} {f : Plan.Field Plan.Class}
  {fields : List (Plan.Field Plan.Class)} {plan p : Plan.Class} {values : Fields} {r : Record}

/-- The field of the header that the tag of a message is put in, and the tag. -/
def tagged? (reg : Registry) (plan : Plan.Class) : Option (Plan.Field Plan.Class × UInt64) := do
  let p ← plan.parent
  let f ← p.tagField?
  let tag ← identity? reg plan.decl
  if plan.role = .message then return (f,tag) else none

def createHeader (reg : Registry) (plan : Plan.Class) : Except Fault (Option Record) :=
  match plan.parent with
  | none => .ok none
  | some p => do return some (stamp reg plan.decl plan.role p (← create reg p))

def createValue (reg : Registry) (className : Text) (f : Plan.Field Plan.Class) :
    Except Fault Value :=
  match f.shape with
  | .scalar carrier => within className f.name do
    return scalarValue f.head.transform (some carrier) (← defaultBits reg f.head.property.default)
  | .array carrier count => .ok (numbers carrier (List.replicate count 0))
  | .slice carrier => .ok (numbers carrier [])
  | .external type => match reg.externals.find? type with
    | some kind => .ok (.external kind.fresh)
    | none => .ok (.bytes [])
  | .nested plan => do return .record (some (← create reg plan))

theorem create_eq (reg : Registry) (plan : Plan.Class) : create reg plan = do
    let header ← createHeader reg plan
    return .mk plan.name header (← createFields reg plan.name plan.fields) := by
  obtain ⟨decl,parent,role,_,fields,_⟩ := plan
  cases parent with
  | none => rw [create]; rfl
  | some p =>
    rw [create]
    simp only [createHeader]
    cases create reg p <;> rfl

theorem createFields_cons (reg : Registry) (className : Text) (f : Plan.Field Plan.Class)
    (rest : List (Plan.Field Plan.Class)) : createFields reg className (f :: rest) = (do
      let value ← createValue reg className f
      return (← createFields reg className rest).set f.name value) := by
  obtain ⟨head,shape⟩ := f
  cases shape with
  | external type =>
    rw [createFields]
    simp only [createValue]
    cases reg.externals.find? type <;> rfl
  | nested plan =>
    rw [createFields]
    simp only [createValue]
    cases create reg plan <;> rfl
  | _ =>
    rw [createFields]
    rfl

theorem stamp_eq (hp : plan.parent = some p) (header : Record) :
    stamp reg plan.decl plan.role p header = match tagged? reg plan with
      | some (f,tag) => header.withFields
          (header.fields.set f.name (scalarValue f.head.transform f.carrier? tag))
      | none => header := by
  simp only [stamp,tagged?,hp,Option.bind_eq_bind,Option.bind_some]
  cases p.tagField? with
  | none => simp
  | some f =>
    cases identity? reg plan.decl with
    | none => simp
    | some tag => by_cases hrole : plan.role = .message <;> simp [hrole]

theorem create_ok (h : create reg plan = .ok r) :
    ∃ header values, createHeader reg plan = .ok header ∧
      createFields reg plan.name plan.fields = .ok values ∧ r = .mk plan.name header values := by
  rw [create_eq] at h
  simp only [Result.bind_eq_ok,Result.pure_eq_ok,Except.ok.injEq] at h
  obtain ⟨header,hheader,values,hvalues,rfl⟩ := h
  exact ⟨header,values,hheader,hvalues,rfl⟩

theorem createHeader_none (hp : plan.parent = none) {header : Option Record}
    (h : createHeader reg plan = .ok header) : header = none := by
  simp only [createHeader,hp,Except.ok.injEq] at h
  exact h.symm

theorem createHeader_some (hp : plan.parent = some p) {header : Option Record}
    (h : createHeader reg plan = .ok header) : ∃ fresh, create reg p = .ok fresh ∧
      header = some (stamp reg plan.decl plan.role p fresh) := by
  simp only [createHeader,hp,Result.bind_eq_ok,Result.pure_eq_ok,Except.ok.injEq] at h
  obtain ⟨fresh,hfresh,rfl⟩ := h
  exact ⟨fresh,hfresh,rfl⟩

theorem createFields_ok (hnames : (fields.map Plan.Field.name).Nodup)
    (h : createFields reg className fields = .ok values) :
    (∀ f ∈ fields, ∃ value, createValue reg className f = .ok value ∧
      values.get? f.name = some value) ∧
    ∀ name value, values.get? name = some value → ∃ f ∈ fields, f.name = name := by
  induction fields generalizing values with
  | nil =>
    rw [createFields] at h
    cases h
    exact ⟨by simp,fun name value hget => by cases hget⟩
  | cons f fields ih =>
    obtain ⟨hfirst,hrest⟩ := List.nodup_cons.mp hnames
    rw [createFields_cons] at h
    simp only [Result.bind_eq_ok,Result.pure_eq_ok,Except.ok.injEq] at h
    obtain ⟨value,hvalue,more,hmore,rfl⟩ := h
    obtain ⟨hvalues,hknown⟩ := ih hrest hmore
    refine ⟨?_,?_⟩
    · intro g hg
      rcases List.mem_cons.mp hg with rfl | hg
      · exact ⟨value,hvalue,by rw [Fields.get?_set,if_pos rfl]⟩
      · have hne : g.name ≠ f.name := fun heq => hfirst (heq ▸ List.mem_map_of_mem hg)
        obtain ⟨other,hother,hget⟩ := hvalues g hg
        exact ⟨other,hother,by rw [Fields.get?_set,if_neg hne,hget]⟩
    · intro name other hget
      rw [Fields.get?_set] at hget
      split at hget
      · rename_i heq
        exact ⟨f,by simp,heq.symm⟩
      · obtain ⟨g,hg,hname⟩ := hknown name other hget
        exact ⟨g,by simp [hg],hname⟩

theorem default_of_create {carrier : Primitive} (hnames : (plan.fields.map Plan.Field.name).Nodup)
    (h : create reg plan = .ok r) (hf : f ∈ plan.fields) (hshape : f.shape = .scalar carrier) :
    ∃ bits, defaultBits reg f.head.property.default = .ok bits ∧
      r.fields.get? f.name = some (scalarValue f.head.transform (some carrier) bits) := by
  obtain ⟨header,values,-,hvalues,rfl⟩ := create_ok h
  obtain ⟨value,hvalue,hget⟩ := (createFields_ok hnames hvalues).1 f hf
  simp only [createValue,hshape,within,Result.mapError_eq_ok,Result.bind_eq_ok,
    Result.pure_eq_ok,Except.ok.injEq] at hvalue
  obtain ⟨bits,hbits,rfl⟩ := hvalue
  exact ⟨bits,hbits,hget⟩

theorem tagged?_mem {tag : UInt64} (hp : plan.parent = some p)
    (h : tagged? reg plan = some (f,tag)) : f ∈ p.fields := by
  simp only [tagged?,hp,Option.bind_eq_bind,Option.bind_some] at h
  obtain ⟨g,hg,h⟩ := Option.bind_eq_some_iff.mp h
  obtain ⟨other,-,h⟩ := Option.bind_eq_some_iff.mp h
  split at h
  · simp only [Option.pure_def,Option.some.injEq,Prod.mk.injEq] at h
    obtain ⟨rfl,rfl⟩ := h
    unfold Plan.Class.tagField? at hg
    split at hg
    · exact List.mem_of_find?_eq_some hg
    · cases hg
  · cases h

end WireSchema.Record
