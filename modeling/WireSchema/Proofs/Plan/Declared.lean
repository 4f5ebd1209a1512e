import WireSchema.Proofs.Plan.Known
import WireSchema.Proofs.Record.Bits
import WireSchema.Proofs.Schema.Compile
set_option autoImplicit false

namespace WireSchema

theorem Plan.evalOnce_singleton (schema : Schema) (term : Reference) :
    evalOnce schema [term] = termNumber (number schema) term := by
  rw [evalOnce,(eval_eq_number Memo.sound_empty _).2,expressionNumber,
    if_neg (List.cons_ne_nil _ _),unionNumber_cons]
  cases termNumber (number schema) term <;> simp [unionNumber_nil]

theorem Plan.value?_of_known {schema : Schema} {name value : Text} {e : Schema.Enum}
    (hdecl : schema.decl? name = some (.enum e)) {bits : UInt64}
    (h : number schema (name,value) = some bits) : ∃ v, e.value? value = some v := by
  cases hv : e.value? value with
  | some v => exact ⟨v,rfl⟩
  | none =>
    rw [number_solves schema (name,value)] at h
    simp [memberNumber,hdecl,findIdx?_of_value?_none hv] at h

theorem Plan.mem_of_predecessor? {name : Text} {values : List Schema.EnumValue}
    {before : Schema.EnumValue} (h : predecessor? name values = some before) :
    before ∈ values := by
  induction values with
  | nil => cases h
  | cons first rest ih =>
    cases rest with
    | nil => cases h
    | cons second rest =>
      rw [predecessor?] at h
      split at h
      · cases h
      · split at h
        · cases h
          exact List.mem_cons_self
        · exact List.mem_cons_of_mem _ (ih h)

namespace Schema

def memberType? (s : Schema) (m : Plan.Member) : Option Primitive :=
  match s.decl? m.1 with
  | none => none
  | some (.enum e) => (e.value? m.2).map fun _ => e.storage
  | some (.class c) => do
    let p ← c.property? m.2
    if p.flag = some .const then s.storage? p.type else none

variable {schema : Schema} {m : Plan.Member} {bits : UInt64}

theorem memberType_of_known {path : Text} {doc : Document} {ws : List Warning}
    (h : compile path doc = .ok (schema,ws)) (hm : Plan.number schema m = some bits) :
    ∃ own, schema.memberType? m = some own := by
  have hsolved := (Plan.number_solves schema m).symm.trans hm
  unfold memberType?
  cases hdecl : schema.decl? m.1 with
  | none => simp [Plan.memberNumber,hdecl] at hsolved
  | some d =>
    cases d with
    | enum e =>
      obtain ⟨v,hv⟩ := Plan.value?_of_known hdecl hm
      exact ⟨e.storage,by simp [hv]⟩
    | «class» c =>
      simp only [Plan.memberNumber,hdecl,Option.bind_eq_bind,Option.bind_eq_some_iff] at hsolved
      obtain ⟨p,hp,hsolved⟩ := hsolved
      split at hsolved
      · rename_i hflag
        have hc : c ∈ schema.classes :=
          List.mem_filterMap.mpr ⟨_,List.mem_of_find?_eq_some hdecl,rfl⟩
        obtain ⟨own,hown⟩ := storage_of_const h hc (List.mem_of_find?_eq_some hp) hflag
        exact ⟨own,by simp [hp,hflag,hown]⟩
      · cases hsolved

theorem fits_of_known {own : Primitive} (henum : (schema.enum? m.1).isSome = true)
    (hown : schema.memberType? m = some own) (hm : Plan.number schema m = some bits) :
    own.Fits bits := by
  obtain ⟨e,he⟩ := Option.isSome_iff_exists.mp henum
  have hdecl := enum?_eq_some.mp he
  rw [Plan.number_solves schema m] at hm
  simp only [Plan.memberNumber,hdecl,Option.bind_eq_bind,Option.bind_eq_some_iff,Option.pure_def,
    Option.some.injEq] at hm
  obtain ⟨-,-,-,-,more,-,rfl⟩ := hm
  simp only [memberType?,hdecl,Option.map_eq_some_iff] at hown
  obtain ⟨-,-,rfl⟩ := hown
  exact e.storage.fits_mask more

end Schema

end WireSchema
