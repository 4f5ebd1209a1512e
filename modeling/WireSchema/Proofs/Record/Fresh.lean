import WireSchema.Proofs.Record.Codec
import WireSchema.Proofs.Record.Create
import WireSchema.Proofs.Record.Proper
import WireSchema.Proofs.Record.Typed
import WireSchema.Record.Protobuf
set_option autoImplicit false

/-!
Fresh records. Every default is a value of the right type, and only the tag that is put in the
header of a message need not suit the field that it is put in; so a fresh record can be written
unless it has such a tag, or a payload that is too long.
-/

namespace WireSchema

/-- A message in which nothing has been set can be written, whatever its type. -/
def External.Kinds.Writable (known : External.Kinds) : Prop :=
  ∀ name kind, known name = some kind → kind.fresh.bytes.isSome = true

theorem External.Kinds.Writable.fresh {known : External.Kinds} (h : known.Writable) {type : Text}
    {kind : External.Kind} (hfind : known.find? type = some kind) :
    kind.fresh.bytes.isSome = true := by
  unfold External.Kinds.find? at hfind
  split at hfind
  · rename_i found hfound
    obtain rfl : found = kind := Option.some.inj hfind
    exact h _ _ hfound
  · exact h _ _ hfind

theorem Protobuf.kinds_writable (known : List Kind) : (kinds known).Writable := by
  intro name kind hkind
  obtain ⟨k,-,rfl⟩ := Option.map_eq_some_iff.mp hkind
  rfl

namespace Record

/-- The tag is put in a field that holds one number. -/
def TagFits (reg : Registry) (plan : Plan.Class) : Prop :=
  ∀ f tag, tagged? reg plan = some (f,tag) → ∃ carrier, f.shape = .scalar carrier

variable {reg : Registry} {externals : External.Kinds} {className : Text}
  {f : Plan.Field Plan.Class} {plan p : Plan.Class} {r : Record}

theorem single_number (carrier : Primitive) (bits : UInt64) :
    carrier.Single (number carrier bits) := by
  have hfits := Primitive.fits_mask carrier bits
  unfold number
  cases hsign : carrier.unsigned with
  | true => exact ⟨hsign,hfits⟩
  | false =>
    have hholds := carrier.holds_denote (carrier.mask bits)
    rw [Primitive.denote,hsign] at hholds
    exact ⟨hsign,hholds⟩

theorem lists_numbers {carrier : Primitive} {bits : List UInt64} (h : ∀ b ∈ bits, carrier.Fits b) :
    carrier.Lists bits.length (numbers carrier bits) := by
  unfold numbers
  cases hsign : carrier.unsigned with
  | true =>
    by_cases hsize : carrier.size = 1
    · simp [hsize,Primitive.Lists,hsign]
    · simpa [hsize,Primitive.Lists,hsign] using h
  | false =>
    simp only [Bool.false_and,Bool.false_eq_true,if_false]
    refine ⟨hsign,by simp,?_⟩
    intro n hn
    obtain ⟨b,hb,rfl⟩ := List.mem_map.mp hn
    have hholds := carrier.holds_denote b
    rw [Primitive.denote,hsign] at hholds
    exact hholds

theorem fitting_scalar {carrier : Primitive} (h : f.shape = .scalar carrier) (bits : UInt64) :
    Fitting externals f (scalarValue f.head.transform (some carrier) bits) := by
  have hnumber := single_number carrier bits
  simp only [Fitting,h]
  cases f.head.transform with
  | steamId => exact ⟨_,rfl⟩
  | gameId => exact ⟨_,rfl⟩
  | bool => exact ⟨_,rfl⟩
  | none => exact hnumber
  | protoMask => exact hnumber
  | protoMaskGc => exact hnumber

theorem fitting_createValue (hexternals : reg.externals.Writable) {value : Value}
    (h : createValue reg className f = .ok value) :
    Fitting reg.externals f value := by
  cases hshape : f.shape with
  | scalar carrier =>
    simp only [createValue,hshape,within,Result.mapError_eq_ok,Result.bind_eq_ok,
      Result.pure_eq_ok,Except.ok.injEq] at h
    obtain ⟨bits,-,rfl⟩ := h
    exact fitting_scalar hshape bits
  | array carrier count =>
    simp only [createValue,hshape,Except.ok.injEq] at h
    have hzeros : ∀ b ∈ List.replicate count (0 : UInt64), carrier.Fits b := by
      intro b hb
      rw [List.eq_of_mem_replicate hb]
      exact Nat.pow_pos (by decide)
    have hlists := lists_numbers hzeros
    rw [List.length_replicate] at hlists
    simpa only [Fitting,hshape,← h] using hlists
  | slice carrier =>
    simp only [createValue,hshape,Except.ok.injEq] at h
    simp only [Fitting,hshape,← h]
    exact ⟨0,lists_numbers (by simp)⟩
  | external type =>
    simp only [createValue,hshape] at h
    simp only [Fitting,hshape]
    cases hkind : reg.externals.find? type with
    | none =>
      rw [hkind] at h
      cases h
      exact ⟨[],rfl⟩
    | some kind =>
      rw [hkind] at h
      cases h
      exact ⟨_,rfl,rfl,hexternals.fresh hkind⟩
  | nested plan =>
    simp only [createValue,hshape,Result.bind_eq_ok,Result.pure_eq_ok,Except.ok.injEq] at h
    obtain ⟨r,-,rfl⟩ := h
    simp only [Fitting,hshape]
    exact ⟨r,rfl⟩

theorem proper_of_create (hexternals : reg.externals.Writable)
    (hwf : plan.Forall Plan.Class.WellFormed)
    (hfits : plan.Forall (TagFits reg)) (hr : create reg plan = .ok r) :
    Proper reg.externals plan r := by
  induction hwf generalizing r with
  | @mk plan hwf hparents _ hparent hnested =>
    obtain ⟨header,values,hheader,hvalues,rfl⟩ := create_ok hr
    obtain ⟨hcreated,hknown⟩ := createFields_ok hwf.names hvalues
    refine ⟨hknown,?_,?_,?_,?_⟩
    · intro f hf
      obtain ⟨value,hvalue,hget⟩ := hcreated f hf
      exact ⟨value,hget,fitting_createValue hexternals hvalue⟩
    · cases hp : plan.parent with
      | none =>
        rw [createHeader_none hp hheader]
        rfl
      | some p =>
        obtain ⟨fresh,-,rfl⟩ := createHeader_some hp hheader
        rfl
    · rintro p _ hp rfl
      obtain ⟨fresh,hfresh,heq⟩ := createHeader_some hp hheader
      cases heq
      have hproper := hparent p hp (hfits.parent hp) hfresh
      rw [stamp_eq hp]
      cases htagged : tagged? reg plan with
      | none => exact hproper
      | some pair =>
        obtain ⟨f,tag⟩ := pair
        obtain ⟨carrier,hshape⟩ := hfits.own f tag htagged
        have hcarrier : f.carrier? = some carrier := by rw [Plan.Field.carrier?,hshape]
        simp only [hcarrier]
        exact hproper.set (hparents p hp).own.names (tagged?_mem hp htagged)
          (fitting_scalar hshape tag) (by rw [hshape]; simp)
    · intro f hf p q hshape hget
      obtain ⟨value,hvalue,hvalue'⟩ := hcreated f hf
      rw [hget] at hvalue'
      cases hvalue'
      simp only [createValue,hshape,Result.bind_eq_ok,Result.pure_eq_ok,Except.ok.injEq] at hvalue
      obtain ⟨fresh,hfresh,heq⟩ := hvalue
      cases heq
      exact hnested f hf p hshape (hfits.nested hf hshape) hfresh

theorem shape_of_tagged {header : Record} {tag : UInt64} (hp : plan.parent = some p)
    (htagged : tagged? reg plan = some (f,tag))
    (h : Unmixed p (stamp reg plan.decl plan.role p header)) :
    ∃ carrier, f.shape = .scalar carrier := by
  by_contra hne
  rw [stamp_eq hp,htagged] at h
  cases h with
  | mk own _ _ =>
    have hnumber := own f (tagged?_mem hp htagged) (fun carrier hshape => hne ⟨carrier,hshape⟩)
      (scalarValue f.head.transform f.carrier? tag)
      (by rw [fields_withFields,Fields.get?_set,if_pos rfl])
    rw [isNumber_scalarValue] at hnumber
    cases hnumber

theorem tagFits_of_unmixed (hwf : plan.Forall Plan.Class.WellFormed)
    (hr : create reg plan = .ok r) (h : Unmixed plan r) : plan.Forall (TagFits reg) := by
  induction hwf generalizing r with
  | @mk plan hwf hparents _ hparent hnested =>
    obtain ⟨header,values,hheader,hvalues,rfl⟩ := create_ok hr
    obtain ⟨hcreated,-⟩ := createFields_ok hwf.names hvalues
    cases h with
    | mk _ parent nested =>
    have hfits : TagFits reg plan := by
      intro f tag htagged
      cases hp : plan.parent with
      | none => simp [tagged?,hp] at htagged
      | some p =>
        obtain ⟨fresh,-,rfl⟩ := createHeader_some hp hheader
        exact shape_of_tagged hp htagged (parent p _ hp rfl)
    refine ⟨hfits,?_,?_⟩
    · intro p hp
      obtain ⟨fresh,hfresh,rfl⟩ := createHeader_some hp hheader
      refine hparent p hp hfresh ?_
      have hstamped := parent p _ hp rfl
      rw [stamp_eq hp] at hstamped
      cases htagged : tagged? reg plan with
      | none =>
        rw [htagged] at hstamped
        exact hstamped
      | some pair =>
        obtain ⟨f,tag⟩ := pair
        rw [htagged] at hstamped
        obtain ⟨carrier,hshape⟩ := hfits f tag htagged
        exact hstamped.unset (hparents p hp).own.names (tagged?_mem hp htagged) hshape
    · intro f hf p hshape
      obtain ⟨value,hvalue,hget⟩ := hcreated f hf
      simp only [createValue,hshape,Result.bind_eq_ok,Result.pure_eq_ok,Except.ok.injEq] at hvalue
      obtain ⟨fresh,hfresh,rfl⟩ := hvalue
      exact hnested f hf p hshape hfresh (nested f hf p fresh hshape hget)

end Record

namespace Codec

open Record (Proper TagFits Written)

theorem plan_of_create {c : Codec} {name : Text} {r : Record} (h : (c.create name).1 = .ok r) :
    ∃ plan, (c.plan name).1 = .ok plan ∧ Record.create c.registry plan = .ok r := by
  have hcreate : (c.create name).1 =
      (c.plan name).1.bind (Record.create (c.plan name).2.registry) := rfl
  rw [hcreate,registry_plan] at h
  exact Result.bind_eq_ok.mp h

theorem encode_of_create {c : Codec} {name : Text} {r : Record} {plan : Plan.Class}
    (hplan : (c.plan name).1 = .ok plan) (hname : plan.name = name)
    (hr : Record.create c.registry plan = .ok r) :
    ((c.create name).2.encode r).1 = (Record.encode c.registry plan r).1 := by
  have hnext : (c.create name).2 = (c.plan name).2 := rfl
  obtain ⟨header,values,-,-,rfl⟩ := Record.create_ok hr
  have hagain : ((c.plan name).2.plan (Record.mk plan.name header values).className).1 =
      .ok plan := by
    rw [Record.className_mk,hname,plan_again hplan]
  rw [hnext,encode_of_plan hagain,registry_plan]

/-- A fresh record has values of the right types exactly if every tag suits the field of the header
that it is put in. Such a record is written unless a payload in it is too long, and no other fresh
record is. -/
theorem create_proper {path : Text} {doc : Document} {schema : Schema} {ws : List Schema.Warning}
    (h : Schema.compile path doc = .ok (schema,ws)) {supportsGc : Bool} {calls : List Planner.Call}
    {c : Codec} (hc : c.planner = (Planner.new schema supportsGc).after calls)
    (hexternals : c.externals.Writable) {name : Text} {r : Record}
    (hr : (c.create name).1 = .ok r) :
    ∃ plan, (c.plan name).1 = .ok plan ∧
      (Proper c.externals plan r ↔ plan.Forall (TagFits c.registry)) ∧
      (Proper c.externals plan r → Written ((c.create name).2.encode r).1) ∧
      ∀ bytes, ((c.create name).2.encode r).1 = .ok bytes → Proper c.externals plan r := by
  have hs := Schema.sound_of_compile h
  have hplanner : c.planner.Sound schema supportsGc := hc ▸ Planner.sound_after hs calls
  obtain ⟨plan,hplan,hcreate⟩ := plan_of_create hr
  obtain ⟨hname,hlaid⟩ := plan_forall hs hplanner hplan
  have hwf : plan.Forall Plan.Class.WellFormed := hlaid.imp fun _ hl => hl.wellFormed hs
  have hproper : Record.Unmixed plan r → Proper c.externals plan r := fun hmixed =>
    Record.proper_of_create hexternals hwf (Record.tagFits_of_unmixed hwf hcreate hmixed) hcreate
  have hencode : ((c.create name).2.encode r).1 = (Record.encode c.registry plan r).1 := by
    rw [encode_of_create hplan hname hcreate]
  refine ⟨plan,hplan,⟨?_,?_⟩,?_,?_⟩
  · exact fun hproper => Record.tagFits_of_unmixed hwf hcreate hproper.unmixed
  · exact fun hfits => Record.proper_of_create hexternals hwf hfits hcreate
  · intro hproper
    rw [hencode]
    exact hproper.written hwf
  · intro bytes hbytes
    rw [hencode] at hbytes
    exact hproper (Record.unmixed_of_encode hwf hbytes)

def greetingDocument (tag : Document.Property) : Document where
  span := ⟨0,0⟩
  directives := []
  decls := [
    .class ⟨⟨0,0⟩,⟨"Hdr",0⟩,none,none,none,[tag]⟩,
    .class ⟨⟨0,0⟩,⟨"Hello",0⟩,some ⟨"7",0⟩,some ⟨"Hdr",0⟩,none,[
      { property none none "uint" "version" with defaults := [⟨"3",0⟩] }]⟩]

def greetingSchema (tag : Document.Property) : Schema :=
  ((Schema.compile [] (greetingDocument tag)).toOption.map Prod.fst).getD default

theorem compile_greeting (tag : Document.Property)
    (h : (Schema.compile [] (greetingDocument tag)).isOk = true) :
    ∃ ws, Schema.compile [] (greetingDocument tag) = .ok (greetingSchema tag,ws) := by
  obtain ⟨result,hresult⟩ := Result.exists_of_isOk h
  exact ⟨result.2,by simp [greetingSchema,hresult,Except.toOption]⟩

def greeting (tag : Value) : Record :=
  .mk "Hello" (some (.mk "Hdr" none [("msg",tag)])) [("version",.word 3)]

def tagNumber : Document.Property := property none none "uint" "msg"

def tagBytes : Document.Property := property none (some "4") "byte" "msg"

def greeter (tag : Document.Property) : Codec :=
  new (greetingSchema tag) false (Protobuf.kinds Protobuf.Kind.standard)

theorem greeting_proper : ∃ plan, ((greeter tagNumber).plan "Hello").1 = .ok plan ∧
    (greeter tagNumber).externals.Writable ∧
    Proper (greeter tagNumber).externals plan (greeting (.word 7)) ∧
    plan.Forall (TagFits (greeter tagNumber).registry) := by
  obtain ⟨ws,hcompile⟩ := compile_greeting tagNumber (by decide +kernel)
  have hplanner : (greeter tagNumber).planner =
      (Planner.new (greetingSchema tagNumber) false).after [] := rfl
  have hexternals : (greeter tagNumber).externals.Writable := Protobuf.kinds_writable _
  have hcreate : ((greeter tagNumber).create "Hello").1 = .ok (greeting (.word 7)) := rfl
  obtain ⟨plan,hplan,hfits,-,hproper⟩ := create_proper hcompile hplanner hexternals hcreate
  have hbytes : (((greeter tagNumber).create "Hello").2.encode (greeting (.word 7))).1 =
      .ok [7,0,0,0,3,0,0,0] := rfl
  exact ⟨plan,hplan,hexternals,hproper _ hbytes,hfits.mp (hproper _ hbytes)⟩

/-- A number is put in a field of four bytes, and the record cannot be written. -/
theorem greeting_mixed :
    (∃ ws, Schema.compile [] (greetingDocument tagBytes) = .ok (greetingSchema tagBytes,ws)) ∧
    ((new (greetingSchema tagBytes) false .empty).create "Hello").1 = .ok (greeting (.word 7)) ∧
    ((new (greetingSchema tagBytes) false .empty).encode (greeting (.word 7))).1 =
      .error (.inField "Hdr" "msg" (.notList "uint64")) ∧
    (Record.Fault.inField "Hdr" "msg" (.notList "uint64")).isWrongType = true :=
  ⟨compile_greeting tagBytes (by decide +kernel),rfl,rfl,rfl⟩

end Codec

end WireSchema
