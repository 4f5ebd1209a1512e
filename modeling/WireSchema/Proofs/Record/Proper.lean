import WireSchema.Proofs.Record.Frame
import WireSchema.Proofs.Record.RoundTrip
set_option autoImplicit false

/-!
Records with values of the right types. Such a record is written unless a payload in it is too long,
and no record is written that has a number where a list, a message of another format or a record is
expected.
-/

namespace WireSchema

def Primitive.Lists (p : Primitive) (count : Nat) : Value → Prop
  | .bytes t => p.unsigned = true ∧ p.size = 1 ∧ t.length = count
  | .words bits => p.unsigned = true ∧ p.size ≠ 1 ∧ bits.length = count ∧ ∀ b ∈ bits, p.Fits b
  | .ints ns => p.unsigned = false ∧ ns.length = count ∧ ∀ n ∈ ns, p.Holds n.toInt
  | _ => False

def Primitive.Single (p : Primitive) : Value → Prop
  | .word bits => p.unsigned = true ∧ p.Fits bits
  | .int n => p.unsigned = false ∧ p.Holds n.toInt
  | _ => False

def Value.isNumber : Value → Bool
  | .word _ | .int _ | .bool _ | .steamId _ | .gameId _ => true
  | _ => false

namespace Record

/-- The value is of the type that a field wants. -/
def Fitting (externals : External.Kinds) (f : Plan.Field Plan.Class) (value : Value) : Prop :=
  match f.shape with
  | .scalar carrier => match f.head.transform with
    | .steamId => ∃ id, value = .steamId id
    | .gameId => ∃ id, value = .gameId id
    | .bool => ∃ b, value = .bool b
    | _ => carrier.Single value
  | .array carrier count => carrier.Lists count value
  | .slice carrier => ∃ count, carrier.Lists count value
  | .external type => match externals.find? type with
    | some kind => ∃ m, value = .external m ∧ m.type = kind.fresh.type ∧ m.bytes.isSome = true
    | none => ∃ t, value = .bytes t
  | .nested _ => ∃ r, value = .record (some r)

/-- A record of a class with a value of the right type in every field, and so on for the records in
it. -/
inductive Proper (externals : External.Kinds) : Plan.Class → Record → Prop
  | mk {plan : Plan.Class} {header : Option Record} {values : Fields}
      (known : ∀ name value, values.get? name = some value → ∃ f ∈ plan.fields, f.name = name)
      (fitting : ∀ f ∈ plan.fields, ∃ value, values.get? f.name = some value ∧
        Fitting externals f value)
      (headed : header.isSome = plan.parent.isSome)
      (parent : ∀ p h, plan.parent = some p → header = some h → Proper externals p h)
      (nested : ∀ f ∈ plan.fields, ∀ p r, f.shape = .nested p →
        values.get? f.name = some (.record (some r)) → Proper externals p r) :
      Proper externals plan (.mk plan.name header values)

variable {reg : Registry} {externals : External.Kinds} {className : Text}
  {f : Plan.Field Plan.Class} {fields : List (Plan.Field Plan.Class)} {plan : Plan.Class}
  {values : Fields} {r : Record}

theorem Proper.set (h : Proper externals plan r) (hnames : (plan.fields.map Plan.Field.name).Nodup)
    (hf : f ∈ plan.fields) {value : Value} (hvalue : Fitting externals f value)
    (hplain : ∀ p, f.shape ≠ .nested p) :
    Proper externals plan (r.withFields (r.fields.set f.name value)) := by
  cases h with
  | mk known fitting headed parent nested =>
    refine ⟨?_,?_,headed,parent,?_⟩
    · intro name other hget
      rw [Fields.get?_set] at hget
      split at hget
      · rename_i heq
        exact ⟨f,hf,heq.symm⟩
      · exact known name other hget
    · intro g hg
      rw [Fields.get?_set]
      split
      · rename_i heq
        rw [eq_of_name_eq hnames hg hf heq]
        exact ⟨value,rfl,hvalue⟩
      · exact fitting g hg
    · intro g hg p q hshape hget
      rw [Fields.get?_set] at hget
      split at hget
      · rename_i heq
        exact absurd (eq_of_name_eq hnames hg hf heq ▸ hshape) (hplain p)
      · exact nested g hg p q hshape hget

theorem isNumber_number (carrier : Primitive) (bits : UInt64) :
    (number carrier bits).isNumber = true := by
  unfold number
  split <;> rfl

/-- Some bytes, or the complaint that a payload is too long. -/
def Written (result : Except Fault Text) : Prop := (∃ bytes, result = .ok bytes) ∨ TooLong result

theorem bitsOf_isNumber {value : Value} (h : value.isNumber = true) :
    ∃ bits, bitsOf value = .ok bits := by
  cases value with
  | word bits => exact ⟨_,rfl⟩
  | int n => exact ⟨_,rfl⟩
  | bool b => exact ⟨_,rfl⟩
  | steamId id => exact ⟨_,rfl⟩
  | gameId id => exact ⟨_,rfl⟩
  | _ => cases h

theorem encodeFixedField_isNumber {carrier : Primitive} (hshape : f.shape = .scalar carrier)
    {value : Value} (h : value.isNumber = true) :
    ∃ bytes, encodeFixedField f value = .ok bytes := by
  obtain ⟨bits,hbits⟩ := bitsOf_isNumber h
  exact ⟨store carrier.size (maskBits f.head.transform bits),
    by simp only [encodeFixedField,hshape,hbits,Result.ok_bind,Result.pure_eq_ok]⟩

theorem isNumber_of_fitting {carrier : Primitive} (hshape : f.shape = .scalar carrier)
    {value : Value} (h : Fitting externals f value) : value.isNumber = true := by
  have hsingle : carrier.Single value → value.isNumber = true := by
    cases value <;> simp [Primitive.Single,Value.isNumber]
  simp only [Fitting,hshape] at h
  cases htransform : f.head.transform <;> rw [htransform] at h
  case steamId => obtain ⟨id,rfl⟩ := h; rfl
  case gameId => obtain ⟨id,rfl⟩ := h; rfl
  case bool => obtain ⟨b,rfl⟩ := h; rfl
  all_goals exact hsingle h

theorem elements_lists {carrier : Primitive} {count : Nat} {value : Value}
    (h : carrier.Lists count value) : ∃ bits, elements value = .ok bits ∧ bits.length = count := by
  cases value with
  | bytes t => exact ⟨_,rfl,by simpa using h.2.2⟩
  | words bits => exact ⟨_,rfl,h.2.2.1⟩
  | ints ns => exact ⟨_,rfl,by simpa using h.2.1⟩
  | _ => exact h.elim

theorem encodeFixedField_fitting (hf : Regular f) (hfixed : f.isFixed = true) {value : Value}
    (h : Fitting externals f value) : ∃ bytes, encodeFixedField f value = .ok bytes := by
  rcases hf.fixed.mp ((isFixed_iff f).mp hfixed) with ⟨carrier,hshape⟩ | ⟨carrier,count,hshape⟩
  · exact encodeFixedField_isNumber hshape (isNumber_of_fitting hshape h)
  · simp only [Fitting,hshape] at h
    obtain ⟨bits,hbits,hlength⟩ := elements_lists h
    refine ⟨(bits ++ List.replicate (count - bits.length) 0).flatMap (store carrier.size),?_⟩
    simp only [encodeFixedField,hshape,hbits,Result.ok_bind,hlength,Nat.lt_irrefl,if_false]

theorem encodeFixed_written (h : ∀ f ∈ fields, f.isFixed = true →
      ∃ bytes, encodeFixedField f ((values.get? f.name).getD .nil) = .ok bytes) :
    ∃ bytes, encodeFixed className values fields = .ok bytes := by
  induction fields with
  | nil => exact ⟨[],rfl⟩
  | cons f fields ih =>
    obtain ⟨more,hmore⟩ := ih fun g hg => h g (by simp [hg])
    rw [encodeFixed,hmore]
    cases hfixed : f.isFixed with
    | false => exact ⟨more,rfl⟩
    | true =>
      obtain ⟨bytes,hbytes⟩ := h f (by simp) hfixed
      exact ⟨bytes ++ more,by simp [hbytes,within,Except.mapError]⟩

theorem encodePayload_written (hf : Regular f) (hfixed : f.isFixed = false) {value : Value}
    (hget : values.get? f.name = some value) (hvalue : Fitting externals f value)
    (hnested : ∀ p q, f.shape = .nested p → value = .record (some q) →
      Written (encode reg p q).1) : Written (encodePayload reg f values).1 := by
  rcases hf.payload hfixed with ⟨carrier,hshape⟩ | ⟨type,hshape⟩ | ⟨p,hshape⟩
  · simp only [Fitting,hshape] at hvalue
    obtain ⟨count,hlists⟩ := hvalue
    obtain ⟨bits,hbits,-⟩ := elements_lists hlists
    refine .inl ⟨bits.flatMap (store carrier.size),?_⟩
    rw [encodePayload_plain reg (by simp [hshape]),hget,hshape]
    simp only [encodePlain,Option.getD_some,hbits,Result.ok_bind,Result.pure_eq_ok]
  · simp only [Fitting,hshape] at hvalue
    rw [encodePayload_plain reg (by simp [hshape]),hget,hshape]
    cases hkind : externals.find? type with
    | none =>
      rw [hkind] at hvalue
      obtain ⟨t,rfl⟩ := hvalue
      exact .inl ⟨t,rfl⟩
    | some kind =>
      rw [hkind] at hvalue
      obtain ⟨m,rfl,-,hbytes⟩ := hvalue
      obtain ⟨t,ht⟩ := Option.isSome_iff_exists.mp hbytes
      exact .inl ⟨t,by simp only [encodePlain,Option.getD_some,ht]⟩
  · simp only [Fitting,hshape] at hvalue
    obtain ⟨q,rfl⟩ := hvalue
    rw [encodePayload_nested reg hshape hget]
    exact hnested p q hshape rfl

theorem encodePayloads_written (hfields : Arranged fields)
    (h : ∀ f ∈ fields, f.isFixed = false → Written (encodePayload reg f values).1) :
    Written (encodePayloads reg className fields values).1 := by
  induction fields generalizing values with
  | nil => exact .inl ⟨[],by simp [encodePayloads]⟩
  | cons f fields ih =>
    cases hfixed : f.isFixed with
    | true =>
      rw [encodePayloads_of_fixed hfixed]
      exact ih hfields.tail fun g hg => h g (by simp [hg])
    | false =>
      rcases h f (by simp) hfixed with ⟨part,hpart⟩ | ⟨fault,size,hpart,hroot⟩
      · by_cases hlong : Overlong f part.length
        · rw [encodePayloads_cons,if_neg (by simp [hfixed])]
          refine .inr (encodeThen_tooLong ⟨.tooLong part.length,part.length,?_,rfl⟩)
          rw [hpart,Result.ok_bind,setLength_error hlong]
        · have hset := setLength_eq hlong (encodePayload reg f values).2
          rw [encodePayloads_of_part hfixed hpart hset]
          have hrest : Written (encodePayloads reg className fields (withLength f.head.lengthField
              part.length (encodePayload reg f values).2)).1 := by
            refine ih hfields.tail fun g hg hvariable => ?_
            rw [encodePayload_congr (hfields.get?_behind hset hg hvariable)]
            exact h g (by simp [hg]) hvariable
          rcases hrest with ⟨more,hmore⟩ | hlong'
          · exact .inl ⟨part ++ more,by rw [hmore]; rfl⟩
          · exact .inr (hlong'.map _)
      · rw [encodePayloads_cons,if_neg (by simp [hfixed])]
        refine .inr (encodeThen_tooLong ⟨fault,size,?_,hroot⟩)
        rw [hpart,Result.error_bind]

theorem Proper.written (hwf : plan.Forall Plan.Class.WellFormed) (h : Proper externals plan r) :
    Written (encode reg plan r).1 := by
  induction hwf generalizing r with
  | @mk plan hwf _ _ hparent hnested =>
    have hfields := arranged_of_wellFormed hwf
    cases h with
    | @mk _ header values _ fitting headed parent nested =>
    have hpayloads : Written (encodePayloads reg plan.name plan.fields values).1 := by
      refine encodePayloads_written hfields fun f hf hfixed => ?_
      obtain ⟨value,hget,hvalue⟩ := fitting f hf
      refine encodePayload_written (hfields.regular f hf) hfixed hget hvalue ?_
      rintro p q hshape rfl
      exact hnested f hf p hshape (nested f hf p q hshape hget)
    have hheader : Written (encodeHeader reg plan.parent header).1 := by
      cases hp : plan.parent with
      | none => exact .inl ⟨[],rfl⟩
      | some p =>
        rw [hp] at headed
        obtain ⟨h,rfl⟩ := Option.isSome_iff_exists.mp headed
        exact hparent p hp (parent p h hp rfl)
    rcases hpayloads with ⟨payloads,hpayloads⟩ | hlong
    · rcases hheader with ⟨front,hfront⟩ | hlong
      · -- The numbers are as they were given, or lengths that have been set.
        obtain ⟨fixed,hfixed⟩ : ∃ fixed, encodeFixed plan.name
            (encodePayloads reg plan.name plan.fields values).2 plan.fields = .ok fixed := by
          refine encodeFixed_written fun f hf hfixed => ?_
          rcases get?_encodePayloads_cases reg plan.name
            (fun g hg hg' => hfields.name_ne hf hfixed hg hg') values with
            hsame | ⟨g,hg,holder,bits,hl,hname,hset⟩
          · obtain ⟨value,hget,hvalue⟩ := fitting f hf
            rw [hsame,hget]
            exact encodeFixedField_fitting (hfields.regular f hf) hfixed hvalue
          · obtain ⟨k,hk,hkname,hshape,-⟩ := hwf.holder hg hl
            rw [eq_of_name_eq hwf.names hk hf (hkname.trans hname)] at hshape
            rw [hset]
            exact encodeFixedField_isNumber hshape (isNumber_number _ _)
        refine .inl ⟨front ++ (fixed ++ payloads),encode_eq_ok.mpr ⟨front,_,hfront,?_,rfl⟩⟩
        rw [encodeBody,fields_mk,hpayloads,Result.ok_bind,hfixed,Result.ok_bind,Result.pure_eq_ok]
      · rw [encode_eq]
        exact .inr (encodeAround_tooLong (.inr ⟨⟨payloads,hpayloads⟩,hlong⟩))
    · rw [encode_eq]
      exact .inr (encodeAround_tooLong (.inl hlong))

/-- No field of another kind holds a number, and so on for the records in the record. -/
inductive Unmixed : Plan.Class → Record → Prop
  | mk {plan : Plan.Class} {r : Record}
      (own : ∀ f ∈ plan.fields, (∀ carrier, f.shape ≠ .scalar carrier) → ∀ value,
        r.fields.get? f.name = some value → value.isNumber = false)
      (parent : ∀ p h, plan.parent = some p → r.header = some h → Unmixed p h)
      (nested : ∀ f ∈ plan.fields, ∀ p q, f.shape = .nested p →
        r.fields.get? f.name = some (.record (some q)) → Unmixed p q) : Unmixed plan r

theorem isNumber_scalarValue (transform : Transform) (carrier : Option Primitive) (bits : UInt64) :
    (scalarValue transform carrier bits).isNumber = true := by
  have hnumber : ∀ p, (number p bits).isNumber = true := fun p => isNumber_number p bits
  cases transform <;> cases carrier <;> first | rfl | exact hnumber _

theorem not_isNumber_of_fitting (hshape : ∀ carrier, f.shape ≠ .scalar carrier) {value : Value}
    (h : Fitting externals f value) : value.isNumber = false := by
  have hlists : ∀ {carrier : Primitive} {count : Nat}, carrier.Lists count value →
      value.isNumber = false := by
    cases value <;> simp [Primitive.Lists,Value.isNumber]
  unfold Fitting at h
  cases hf : f.shape with
  | scalar carrier => exact absurd hf (hshape carrier)
  | array carrier count =>
    rw [hf] at h
    exact hlists h
  | slice carrier =>
    rw [hf] at h
    obtain ⟨count,h⟩ := h
    exact hlists h
  | external type =>
    rw [hf] at h
    simp only at h
    split at h
    · obtain ⟨m,rfl,-⟩ := h
      rfl
    · obtain ⟨t,rfl⟩ := h
      rfl
  | nested p =>
    rw [hf] at h
    obtain ⟨q,rfl⟩ := h
    rfl

theorem Proper.unmixed (h : Proper externals plan r) : Unmixed plan r := by
  induction h with
  | mk _ fitting _ _ _ hparent hnested =>
    refine ⟨fun f hf hshape value hget => ?_,hparent,hnested⟩
    obtain ⟨other,hother,hfitting⟩ := fitting f hf
    rw [fields_mk,hother] at hget
    cases hget
    exact not_isNumber_of_fitting hshape hfitting

theorem elements_isNumber {value : Value} (h : value.isNumber = true) :
    elements value = .error (.notList value.typeName) := by
  cases value <;> first | rfl | cases h

theorem encodePlain_isNumber (type : Text) {value : Value} (h : value.isNumber = true) :
    encodePlain (.external type) value = .error (.unsuited value.typeName "proto") := by
  cases value <;> first | rfl | cases h

theorem recordIn_isNumber {value : Value} (h : value.isNumber = true) :
    recordIn value = .error (.unsuited value.typeName "class") := by
  cases value <;> first | rfl | cases h

theorem writeField_number (reg : Registry) {before after : Fields}
    (hshape : ∀ carrier, f.shape ≠ .scalar carrier)
    (hsame : f.isFixed = true → after.get? f.name = before.get? f.name) {value : Value}
    (hget : before.get? f.name = some value) (hvalue : value.isNumber = true) :
    ∃ fault, writeField reg before after f = .error fault := by
  unfold writeField
  cases hfixed : f.isFixed with
  | true =>
    rw [if_pos rfl,hsame hfixed,hget]
    unfold encodeFixedField
    cases hf : f.shape with
    | scalar carrier => exact absurd hf (hshape carrier)
    | array carrier count => exact ⟨_,by simp only [Option.getD_some,elements_isNumber hvalue]; rfl⟩
    | slice carrier => exact ⟨_,rfl⟩
    | external type => exact ⟨_,rfl⟩
    | nested p => exact ⟨_,rfl⟩
  | false =>
    simp only [Bool.false_eq_true,if_false,encodePayload,hget,Option.getD_some]
    cases hf : f.shape with
    | scalar carrier => exact absurd hf (hshape carrier)
    | array carrier count => exact ⟨_,rfl⟩
    | slice carrier => exact ⟨_,by simp only [encodePlain,elements_isNumber hvalue]; rfl⟩
    | external type => exact ⟨_,encodePlain_isNumber type hvalue⟩
    | nested p => exact ⟨_,by simp only [recordIn_isNumber hvalue]; rfl⟩

theorem unmixed_of_encode (hwf : plan.Forall Plan.Class.WellFormed) {bytes : Text}
    (h : (encode reg plan r).1 = .ok bytes) : Unmixed plan r := by
  induction hwf generalizing r bytes with
  | @mk plan hwf _ _ hparent hnested =>
    have hfields := arranged_of_wellFormed hwf
    obtain ⟨header,parts,hheader,-,hparts⟩ := encode_parts hwf h
    have hpart : ∀ f ∈ plan.fields, ∃ part,
        writeField reg r.fields (encode reg plan r).2.fields f = .ok part := by
      intro f hf
      have hmem : f ∈ plan.wireOrder := by
        cases hfixed : f.isFixed <;>
          simp [Plan.Class.wireOrder,Plan.Class.fixed,Plan.Class.variableSized,hf,hfixed]
      obtain ⟨part,-,hpart⟩ := exists_of_forall₂ hparts.flip hmem
      exact ⟨part,hpart⟩
    refine ⟨?_,?_,?_⟩
    · intro f hf hshape value hget
      by_contra hvalue
      have hsame : f.isFixed = true →
          (encode reg plan r).2.fields.get? f.name = r.fields.get? f.name := by
        intro hfixed
        rw [fields_encode]
        refine get?_encodePayloads (spares_of_lengthOf hwf hf hfixed ?_) hfields.unframed r.fields
        by_contra hlength
        obtain ⟨⟨carrier,hcarrier,-⟩,-⟩ := hwf.holders f hf hlength
        exact hshape carrier hcarrier
      obtain ⟨fault,hfault⟩ := writeField_number reg hshape hsame hget
        (by simpa using hvalue)
      obtain ⟨part,hpart⟩ := hpart f hf
      rw [hfault] at hpart
      cases hpart
    · intro p q hp hq
      rw [hp,hq] at hheader
      exact hparent p hp hheader
    · intro f hf p q hshape hget
      obtain ⟨part,hpart⟩ := hpart f hf
      have hvariable : f.isFixed = false := by
        by_contra hne
        exact (hfields.regular f hf).not_nested (by simpa using hne) p hshape
      rw [writeField,hvariable] at hpart
      simp only [Bool.false_eq_true,if_false,encodePayload_nested reg hshape hget] at hpart
      exact hnested f hf p hshape hpart

theorem Unmixed.unset {value : Value} (h : Unmixed plan (r.withFields (r.fields.set f.name value)))
    (hnames : (plan.fields.map Plan.Field.name).Nodup) (hf : f ∈ plan.fields) {carrier : Primitive}
    (hshape : f.shape = .scalar carrier) : Unmixed plan r := by
  have hother : ∀ g ∈ plan.fields, (∀ carrier, g.shape ≠ .scalar carrier) →
      (r.withFields (r.fields.set f.name value)).fields.get? g.name = r.fields.get? g.name := by
    intro g hg hplain
    have hne : g.name ≠ f.name :=
      fun heq => hplain carrier (eq_of_name_eq hnames hg hf heq ▸ hshape)
    rw [fields_withFields,Fields.get?_set,if_neg hne]
  cases h with
  | mk own parent nested =>
    rw [header_withFields] at parent
    refine ⟨?_,parent,?_⟩
    · intro g hg hplain other hget
      exact own g hg hplain other ((hother g hg hplain).trans hget)
    · intro g hg p q hnested hget
      exact nested g hg p q hnested ((hother g hg (by rw [hnested]; simp)).trans hget)

end Record

end WireSchema
