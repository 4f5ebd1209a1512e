import WireSchema.Proofs.Plan.Declared
import WireSchema.Proofs.Record.Fresh
import WireSchema.Proofs.Record.Residue
set_option autoImplicit false

/-!
Fields whose default is a single value or constant. What such a field starts with is the pattern of
the member as the type of the field reads it, which is not always the number that the type of the
member reads.
-/

namespace WireSchema

def Value.integer? : Value → Option Int
  | .word bits => some bits.toNat
  | .int n => some n.toInt
  | _ => none

namespace Record

theorem integer_number (carrier : Primitive) (bits : UInt64) :
    (number carrier bits).integer? = some (carrier.denote bits) := by
  rw [← Primitive.denote_mask]
  unfold number Primitive.denote
  cases hp : carrier.unsigned with
  | true => simp [Value.integer?,Primitive.mask_of_fits (carrier.fits_mask bits)]
  | false => simp [Value.integer?]

theorem defaultBits_member {reg : Registry} {decl member : Text} {bits : UInt64}
    (h : defaultBits reg [.strong decl (some member)] = .ok bits) :
    Plan.number reg.schema (decl,member) = some bits := by
  simp only [defaultBits,List.isEmpty_cons,Bool.false_eq_true,if_false,Plan.evalOnce_singleton,
    Plan.termNumber] at h
  cases hn : Plan.number reg.schema (decl,member) with
  | none => simp [hn] at h
  | some more =>
    simp only [hn,Except.ok.injEq] at h
    rw [h]

end Record

namespace Codec

/-- A field that refers to a single member starts with the pattern of the member, read in the type
of the field. If that type has the number of the member, then this is the number that the field
starts with exactly if the pattern has its residue; so it is if the field is no wider than the
member, and a value of an enumeration keeps its number in a wider field exactly if it is not
negative. -/
theorem create_reference {path : Text} {doc : Document} {schema : Schema}
    {ws : List Schema.Warning} (h : Schema.compile path doc = .ok (schema,ws)) {supportsGc : Bool}
    {calls : List Planner.Call} {c : Codec}
    (hc : c.planner = (Planner.new schema supportsGc).after calls) {name : Text} {r : Record}
    (hr : (c.create name).1 = .ok r) {plan : Plan.Class} (hplan : (c.plan name).1 = .ok plan)
    {f : Plan.Field Plan.Class} (hf : f ∈ plan.fields) {carrier : Primitive}
    (hshape : f.shape = .scalar carrier) (htransform : f.head.transform = .none)
    {decl member : Text} (hdefault : f.head.property.default = [.strong decl (some member)]) :
    ∃ own bits value, schema.memberType? (decl,member) = some own ∧
      Plan.number schema (decl,member) = some bits ∧ r.fields.get? f.name = some value ∧
      value.integer? = some (carrier.denote bits) ∧
      (carrier.Holds (own.denote bits) →
        (value.integer? = some (own.denote bits) ↔
          ((256 ^ carrier.size : Nat) : Int) ∣ bits.toNat - own.denote bits) ∧
        (carrier.size ≤ own.size → value.integer? = some (own.denote bits)) ∧
        ((schema.enum? decl).isSome = true →
          (value.integer? = some (own.denote bits) ↔
            0 ≤ own.denote bits ∨ carrier.size ≤ own.size))) := by
  have hs := Schema.sound_of_compile h
  have hplanner : c.planner.Sound schema supportsGc := hc ▸ Planner.sound_after hs calls
  obtain ⟨other,hother,hcreate⟩ := plan_of_create hr
  obtain rfl : other = plan := by simpa [hother] using hplan
  have hwf := ((plan_forall hs hplanner hplan).2.imp fun _ hl => hl.wellFormed hs).own
  obtain ⟨bits,hbits,hget⟩ := Record.default_of_create hwf.names hcreate hf hshape
  rw [hdefault] at hbits
  have hnumber : Plan.number schema (decl,member) = some bits := by
    rw [← hplanner.schema]
    exact Record.defaultBits_member hbits
  obtain ⟨own,hown⟩ := Schema.memberType_of_known h hnumber
  have hinteger := Record.integer_number carrier bits
  refine ⟨own,bits,Record.number carrier bits,hown,hnumber,?_,hinteger,fun hholds => ?_⟩
  · rw [hget,htransform]
    rfl
  rw [hinteger,Option.some.injEq]
  refine ⟨?_,fun hle => Primitive.denote_of_size_le hle hholds,fun henum => ?_⟩
  · rw [Primitive.denote_eq_iff]
    exact and_iff_right hholds
  · exact Primitive.denote_of_fits (Schema.fits_of_known henum hown hnumber) hholds

def stepDocument : Document where
  span := ⟨0,0⟩
  directives := []
  decls := [
    .enum ⟨⟨0,0⟩,⟨"Step",0⟩,some ⟨"sbyte",0⟩,false,[
      ⟨⟨0,0⟩,⟨"Up",0⟩,[⟨"1",0⟩],none,none⟩,
      ⟨⟨0,0⟩,⟨"Down",0⟩,[⟨"-1",0⟩],none,none⟩]⟩,
    .class ⟨⟨0,0⟩,⟨"Walk",0⟩,none,none,none,[
      { property none none "int" "ahead" with defaults := [⟨"Step::Up",0⟩] },
      { property none none "int" "back" with defaults := [⟨"Step::Down",0⟩] }]⟩]

def stepSchema : Schema :=
  ((Schema.compile [] stepDocument).toOption.map Prod.fst).getD default

theorem compile_step : ∃ ws, Schema.compile [] stepDocument = .ok (stepSchema,ws) := by
  obtain ⟨result,h⟩ : ∃ result, Schema.compile [] stepDocument = .ok result :=
    Result.exists_of_isOk (by decide +kernel)
  exact ⟨result.2,by simp [stepSchema,h,Except.toOption]⟩

def walk : Record := .mk "Walk" none [("ahead",.int 1),("back",.int 255)]

theorem create_walk : ((new stepSchema false .empty).create "Walk").1 = .ok walk := rfl

def walkPlan : Plan.Class := ((new stepSchema false .empty).plan "Walk").1.toOption.getD default

theorem plan_walk : ((new stepSchema false .empty).plan "Walk").1 = .ok walkPlan := rfl

def walkField (name : Text) : Plan.Field Plan.Class := (walkPlan.field? name).getD default

theorem walk_ahead : walk.fields.get? "ahead" = some (.int 1) ∧
    ∃ own bits value, stepSchema.memberType? ("Step","Up") = some own ∧
      walk.fields.get? "ahead" = some value ∧
      value.integer? = some (Primitive.int.denote bits) := by
  obtain ⟨ws,hcompile⟩ := compile_step
  have hplanner : (new stepSchema false .empty).planner =
      (Planner.new stepSchema false).after [] := rfl
  have hfield : walkPlan.field? "ahead" = some (walkField "ahead") := rfl
  have hshape : (walkField "ahead").shape = .scalar .int := rfl
  obtain ⟨own,bits,value,hown,-,hget,hvalue,-⟩ := create_reference hcompile hplanner create_walk
    plan_walk (List.mem_of_find?_eq_some hfield) hshape rfl rfl
  exact ⟨rfl,own,bits,value,hown,hget,hvalue⟩

/-- A step back is read as a large step ahead, although the field has the number. -/
theorem walk_back :
    (∃ ws, Schema.compile [] stepDocument = .ok (stepSchema,ws)) ∧
    walkPlan.field? "back" = some (walkField "back") ∧
    (walkField "back").shape = .scalar .int ∧ (walkField "back").head.transform = .none ∧
    (walkField "back").head.property.default = [.strong "Step" (some "Down")] ∧
    stepSchema.memberType? ("Step","Down") = some .sbyte ∧
    Plan.number stepSchema ("Step","Down") = some 255 ∧
    Primitive.sbyte.denote 255 = -1 ∧ Primitive.int.Holds (-1) ∧
    ((new stepSchema false .empty).create "Walk").1 = .ok walk ∧
    walk.fields.get? "back" = some (.int 255) :=
  ⟨compile_step,rfl,rfl,rfl,rfl,rfl,rfl,by decide,by decide,create_walk,rfl⟩

end Codec

end WireSchema
