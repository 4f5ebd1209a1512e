import WireSchema.Proofs.Record.Measured
import WireSchema.Proofs.Record.Reencode
set_option autoImplicit false

/-!
Reading what has been written. A record whose payloads can be told apart comes back from its bytes
as it was left when they were written, that is, with its lengths set; and it is written unless a
payload is too long.
-/

namespace WireSchema.Record

theorem number_make {tag : UInt32} (h : tag.toNat < 2 ^ 31) :
    Tag.number (Tag.make tag true) = tag := by
  refine UInt32.toNat_inj.mp ?_
  have hmake : (Tag.make tag true).toNat = 2 ^ 31 * 1 + tag.toNat := by
    rw [Nat.two_pow_add_eq_or_of_lt h,Nat.or_comm]
    rfl
  have hmask : (~~~Tag.protoMask).toNat = 2 ^ 31 - 1 := rfl
  rw [Tag.number,UInt32.toNat_and,hmask,Nat.and_two_pow_sub_one_eq_mod,hmake]
  omega

theorem unmask_make {p : Primitive} (hp : p.size = 4) {bits more : UInt64}
    (hsmall : bits.toNat < 2 ^ 31) (h : p.mask more = bits) :
    (Tag.number (p.mask (Tag.make more.toUInt32 true).toUInt64).toUInt32).toUInt64 = bits := by
  have hpow : (256 ^ 4 : Nat) = 2 ^ 32 := by decide
  have hfits : p.Fits (Tag.make more.toUInt32 true).toUInt64 := by
    rw [Primitive.Fits,hp,hpow]
    exact (Tag.make more.toUInt32 true).toNat_lt
  have hmore : more.toUInt32.toNat = bits.toNat := by
    rw [← h,Primitive.toNat_mask,hp,hpow,UInt64.toNat_toUInt32]
  rw [Primitive.mask_of_fits hfits,UInt32.toUInt32_toUInt64,number_make (by omega)]
  exact UInt64.toNat_inj.mp (by rw [UInt32.toNat_toUInt64,hmore])

/-- Bytes that are written for a value and read as it, whatever follows them. -/
structure FieldWritten (f : Plan.Field Plan.Class) (value : Value) (bytes : Text) : Prop where
  written : encodeFixedField f value = .ok bytes
  length : bytes.length = f.size
  read : ∀ rest, decodeFixedField f (bytes ++ rest) = .ok (value,rest)

theorem scalar_written {f : Plan.Field Plan.Class} {p : Primitive} (hf : Regular f)
    (hshape : f.shape = .scalar p) {bits : UInt64} (hfits : p.Fits bits)
    (hmask : f.head.transform.isMask = true → bits.toNat < 2 ^ 31) :
    ∃ bytes, FieldWritten f (scalarValue f.head.transform (some p) bits) bytes := by
  have hsize : f.size = p.size := by rw [hf.size,hshape,Plan.Shape.fixedSize]
  -- It is enough that the bits which are read are as good as those which are written.
  have hread : ∀ more, bitsOf (scalarValue f.head.transform (some p) bits) = .ok more →
      scalarValue f.head.transform (some p) (unmaskBits f.head.transform
        (p.mask (maskBits f.head.transform more))) =
          scalarValue f.head.transform (some p) bits →
      ∃ bytes, FieldWritten f (scalarValue f.head.transform (some p) bits) bytes := by
    intro more hmore hback
    refine ⟨store p.size (maskBits f.head.transform more),?_,?_,?_⟩
    · simp only [encodeFixedField,hshape,hmore,Result.ok_bind,Result.pure_eq_ok]
    · rw [length_store,hsize]
    · intro rest
      simp only [decodeFixedField,hshape]
      rw [readBits_append (length_store _ _)]
      simp only [Result.ok_bind,Result.pure_eq_ok,load_store,hback]
  cases hbool : decide (f.head.transform = .bool) with
  | true =>
    have htransform : f.head.transform = .bool := by simpa using hbool
    refine hread (if bits = 0 then 0 else 1) ?_ ?_
    · rw [htransform]
      simp only [scalarValue,bitsOf,Primitive.mask_of_fits hfits]
      by_cases hzero : bits = 0 <;> simp [hzero]
    · have hzero : p.mask 0 = 0 := by cases p <;> rfl
      have hone : p.mask 1 = 1 := by cases p <;> rfl
      rw [htransform]
      simp only [scalarValue,unmaskBits,maskBits,Transform.isMask,Bool.false_eq_true,if_false,
        Primitive.mask_of_fits hfits]
      by_cases h : bits = 0 <;> simp [h,hzero,hone]
  | false =>
    have htransform : f.head.transform ≠ .bool := by simpa using hbool
    obtain ⟨more,hmore,heq⟩ := bitsOf_scalarValue htransform hfits
    refine hread more hmore ?_
    cases htag : f.head.transform.isMask with
    | true =>
      simp only [unmaskBits,maskBits,htag,if_true]
      rw [unmask_make (hf.mask p hshape htag) (hmask htag) heq]
    | false =>
      simp only [unmaskBits,maskBits,htag,Bool.false_eq_true,if_false,heq]

theorem readMany_fits {p : Primitive} {bits : List UInt64} (h : ∀ b ∈ bits, p.Fits b)
    (rest : Text) : readMany p.size bits.length (bits.flatMap (store p.size) ++ rest) =
      .ok (bits,rest) := by
  have hmask : bits.map p.mask = bits.map id :=
    List.map_congr_left fun b hb => Primitive.mask_of_fits (h b hb)
  rw [readMany_store,hmask,List.map_id]

theorem array_written {f : Plan.Field Plan.Class} {p : Primitive} {n : Nat} (hf : Regular f)
    (hshape : f.shape = .array p n) {bits : List UInt64} (hlength : bits.length = n)
    (hfits : ∀ b ∈ bits, p.Fits b) :
    ∃ bytes, FieldWritten f (numbers p bits) bytes := by
  refine ⟨_,encodeFixedField_array hshape hlength hfits,?_,?_⟩
  · rw [length_flatMap_store,hlength,hf.size,hshape,Plan.Shape.fixedSize]
  · intro rest
    simp only [decodeFixedField,hshape]
    rw [← hlength,readMany_fits hfits]
    rfl

theorem field_written {externals : External.Kinds} {f : Plan.Field Plan.Class} (hf : Regular f)
    (hfixed : f.isFixed = true) {value : Value} (h : Suits externals f value) :
    ∃ bytes, FieldWritten f value bytes := by
  unfold Suits at h
  rcases hf.fixed.mp ((isFixed_iff f).mp hfixed) with ⟨p,hshape⟩ | ⟨p,n,hshape⟩
  · rw [hshape] at h
    obtain ⟨bits,hfits,hmask,rfl⟩ := h
    exact scalar_written hf hshape hfits hmask
  · rw [hshape] at h
    obtain ⟨bits,hlength,hfits,rfl⟩ := h
    exact array_written hf hshape hlength hfits

def Same (values : Fields) (f : Plan.Field Plan.Class) (value : Value) : Prop :=
  values.get? f.name = some value

theorem get?_of_same {fixed : Bool} {fields : List (Plan.Field Plan.Class)}
    {values start last : Fields} (h : ReadInto fixed (Same values) fields start last)
    {f : Plan.Field Plan.Class} (hf : f ∈ fields) (hfixed : f.isFixed = fixed) :
    last.get? f.name = values.get? f.name := by
  obtain ⟨value,hget,hsame⟩ := h.suits f hf hfixed
  exact hget.trans hsame.symm

theorem fixed_written {externals : External.Kinds} {fields : List (Plan.Field Plan.Class)}
    (hfields : Arranged fields) (className : Text) {values : Fields}
    (h : ∀ f ∈ fields, f.isFixed = true →
      ∃ value, values.get? f.name = some value ∧ Suits externals f value) :
    ∃ bytes, encodeFixed className values fields = .ok bytes ∧
      bytes.length = width (fixedPieces fields) ∧
      ∀ start rest, ∃ last, decodeFixed className fields start (bytes ++ rest) = .ok (last,rest) ∧
        ReadInto true (Same values) fields start last := by
  induction fields with
  | nil => exact ⟨[],rfl,rfl,fun start rest => ⟨start,rfl,readInto_nil⟩⟩
  | cons f fields ih =>
    obtain ⟨more,hmore,hlength,hread⟩ := ih hfields.tail fun g hg => h g (by simp [hg])
    cases hfixed : f.isFixed with
    | true =>
      obtain ⟨value,hget,hsuits⟩ := h f (by simp) hfixed
      obtain ⟨bytes,hfirst⟩ := field_written (hfields.regular f (by simp)) hfixed hsuits
      refine ⟨bytes ++ more,?_,?_,?_⟩
      · rw [encodeFixed,hget,hmore]
        simp only [hfixed,if_true,within,Option.getD_some,hfirst.written,Except.mapError,
          Result.ok_bind,Result.pure_eq_ok]
      · rw [fixedPieces_cons,if_pos hfixed,List.length_append,hfirst.length,hlength]
        simp [width,pieceOf]
      · intro start rest
        obtain ⟨last,hlast,hinto⟩ := hread (start.set f.name value) rest
        refine ⟨last,?_,hinto.cons hfields hfixed hget⟩
        rw [decodeFixed,List.append_assoc]
        simp only [hfixed,if_true,within,hfirst.read,Except.mapError,Result.ok_bind,hlast]
    | false =>
      refine ⟨more,?_,?_,?_⟩
      · rw [encodeFixed,hmore]
        simp [hfixed]
      · rw [fixedPieces_cons,if_neg (by simp [hfixed]),hlength]
      · intro start rest
        obtain ⟨last,hlast,hinto⟩ := hread start rest
        refine ⟨last,?_,hinto.skip (by simp [hfixed])⟩
        rw [decodeFixed,hlast]
        simp [hfixed]

def Overlong (f : Plan.Field Plan.Class) (size : Nat) : Prop :=
  ∃ holder, f.head.lengthField = some holder ∧
    (Payload.maxSize < size ∨ holder.carrier.greatest < size)

theorem setLength_eq {f : Plan.Field Plan.Class} {payload : Text} (h : ¬ Overlong f payload.length)
    (values : Fields) : setLength f.head.lengthField payload values =
      .ok (withLength f.head.lengthField payload.length values) := by
  cases hl : f.head.lengthField with
  | none => rfl
  | some holder =>
    have hfits : payload.length ≤ Payload.maxSize ∧ payload.length ≤ holder.carrier.greatest := by
      by_contra hne
      exact h ⟨holder,hl,by omega⟩
    simp [setLength,lengthBits_eq,hfits,withLength]

theorem setLength_error {f : Plan.Field Plan.Class} {payload : Text} (h : Overlong f payload.length)
    (values : Fields) :
    setLength f.head.lengthField payload values = .error (.tooLong payload.length) := by
  obtain ⟨holder,hl,hlong⟩ := h
  have hfits : ¬ (payload.length ≤ Payload.maxSize ∧
      payload.length ≤ holder.carrier.greatest) := by omega
  simp [setLength,hl,lengthBits_eq,hfits]

/-- The result is the complaint that a payload is too long. -/
def TooLong {α : Type} (result : Except Fault α) : Prop :=
  ∃ fault size, result = .error fault ∧ fault.root = .tooLong size

/-- A result is a complaint that a payload is too long if there is one, and else it is some bytes
that are as they should be. -/
def Writes (overflow : Prop) (result : Except Fault Text) (good : Text → Prop) : Prop :=
  overflow ∧ TooLong result ∨ ¬ overflow ∧ ∃ bytes, good bytes

theorem encodeThen_tooLong {className name : Text} {holder : Option Plan.Holder}
    {next : Fields → Except Fault Text × Fields} {payload : Except Fault Text × Fields}
    (h : TooLong (do
      let bytes ← payload.1
      setLength holder bytes payload.2)) :
    TooLong (encodeThen className name holder next payload).1 := by
  obtain ⟨fault,size,herror,hroot⟩ := h
  refine ⟨.inField className name fault,size,?_,hroot⟩
  have hpair : (do
      let bytes ← payload.1
      return (bytes,← setLength holder bytes payload.2)) = (.error fault : Except Fault _) := by
    rcases Result.bind_eq_error.mp herror with hfirst | ⟨bytes,hfirst,hset⟩
    · rw [hfirst]
      rfl
    · rw [hfirst]
      simp only [Result.ok_bind,hset,Result.error_bind]
  simp only [encodeThen,hpair,within,Except.mapError]

/-- No payload of the class itself that takes all the bytes that are left has another one behind
it. -/
def Lone (plan : Plan.Class) : Prop :=
  ∀ front f back, plan.fields = front ++ f :: back → Unframed f → ∀ g ∈ back, g.isFixed = true

/-- A class with a payload that takes all the bytes that are left has nothing behind it, except
where a length tells them apart: it is no header in front of fields, and no field in front of others
or, if something may follow, at all. -/
inductive Guarded : Bool → Plan.Class → Prop
  | mk {tail : Bool} {plan : Plan.Class} (own : tail = false → Delimited plan)
      (parent : ∀ p, plan.parent = some p → Guarded (tail && plan.fields.isEmpty) p)
      (nested : ∀ front f back, plan.fields = front ++ f :: back → ∀ p, f.shape = .nested p →
        Guarded (f.head.lengthField.isSome || tail && back.all (·.isFixed)) p) :
      Guarded tail plan

theorem lone_of_delimited {plan : Plan.Class} (h : Delimited plan) : Lone plan :=
  fun front f back heq hunframed => absurd hunframed (h f (by rw [heq]; simp))

theorem guarded_of_delimited {plan : Plan.Class} (h : plan.Forall Delimited) (tail : Bool) :
    Guarded tail plan := by
  induction h generalizing tail with
  | mk own _ _ hparent hnested =>
    refine ⟨fun _ => own,fun p hp => hparent p hp _,fun front f back heq p hp => ?_⟩
    exact hnested f (by rw [heq]; simp) p hp _

theorem OpenEnded.guarded {plan : Plan.Class} (h : OpenEnded plan) : Guarded true plan := by
  refine ⟨by simp,fun p hp => guarded_of_delimited (h.parent p hp) _,?_⟩
  intro front f back heq p hp
  exact guarded_of_delimited (h.nested f (by rw [heq]; simp) p hp) _

theorem OpenEnded.lone {plan : Plan.Class} (h : OpenEnded plan) : plan.Forall Lone := by
  refine ⟨h.last,fun p hp => ?_,fun f hf p hp => ?_⟩
  · exact (h.parent p hp).imp fun _ => lone_of_delimited
  · exact (h.nested f hf p hp).imp fun _ => lone_of_delimited

/-- The record is read from its bytes, and if its class has an open end, only where they end. -/
structure RecordWritten (reg : Registry) (plan : Plan.Class) (r : Record)
    (bytes : Text) : Prop where
  written : encode reg plan r = (.ok bytes,measured plan r)
  length : bytes.length = width (pieces plan r)
  reads : ∀ tail rest, (tail = true → rest = []) → Guarded tail plan → plan.Forall Lone →
    decode reg plan (bytes ++ rest) = .ok (measured plan r,rest)

/-- Nothing that is not part of the record can be taken for a part of it. -/
def Ends (plan : Plan.Class)
    (rest : Text) : Prop := plan.Forall Delimited ∨ OpenEnded plan ∧ rest = []

theorem RecordWritten.read {reg : Registry} {plan : Plan.Class} {r : Record} {bytes : Text}
    (h : RecordWritten reg plan r bytes) (rest : Text) (hends : Ends plan rest) :
    decode reg plan (bytes ++ rest) = .ok (measured plan r,rest) := by
  rcases hends with hdelimited | ⟨hopen,rfl⟩
  · exact h.reads false rest (by simp) (guarded_of_delimited hdelimited _)
      (hdelimited.imp fun _ => lone_of_delimited)
  · exact h.reads true [] (fun _ => rfl) hopen.guarded hopen.lone

/-- Every record of the class that a reader could have left is written, unless a payload in it is
too long, and is read again. -/
def RoundTrips (reg : Registry) (plan : Plan.Class) : Prop :=
  ∀ {r : Record}, Canonical reg.externals plan r →
    Writes (Overflows plan r) (encode reg plan r).1 (RecordWritten reg plan r)

def OverflowsInside (f : Plan.Field Plan.Class) (value : Value) : Prop :=
  ∃ p r, f.shape = .nested p ∧ value = .record (some r) ∧ Overflows p r

def Announced (f : Plan.Field Plan.Class) (start : Fields) (size : Nat) : Prop :=
  ∀ holder, f.head.lengthField = some holder →
    start.get? holder.name = some (number holder.carrier size.toUInt64)

structure PayloadWritten (reg : Registry) (f : Plan.Field Plan.Class) (value : Value)
    (bytes : Text) : Prop where
  written : ∀ values : Fields, values.get? f.name = some value →
    encodePayload reg f values = (.ok bytes,keep f.name values (measuredValue f.shape (some value)))
  length : bytes.length = width (valuePieces f.shape (some value))
  reads : ∀ tail start rest, (tail = true → rest = []) → (Unframed f → tail = true) →
    (∀ p, f.shape = .nested p →
      Guarded (f.head.lengthField.isSome || tail) p ∧ p.Forall Lone) →
    Announced f start bytes.length → ¬ Overlong f bytes.length →
    decodePayload reg f start (bytes ++ rest) = .ok (settled f.shape value,rest)

theorem readPayload_announced {f : Plan.Field Plan.Class} {start : Fields} {bytes rest : Text}
    (h : Announced f start bytes.length) (hfits : ¬ Overlong f bytes.length)
    (hend : f.head.lengthField = none → rest = []) :
    readPayload f.head.lengthField start (bytes ++ rest) = .ok (bytes,rest) := by
  cases hl : f.head.lengthField with
  | none =>
    rw [hend hl,List.append_nil]
    rfl
  | some holder =>
    have hmax : bytes.length ≤ Payload.maxSize ∧ bytes.length ≤ holder.carrier.greatest := by
      by_contra hne
      exact hfits ⟨holder,hl,by omega⟩
    exact readPayload_append hmax.1 hmax.2 (h holder hl) rest

theorem plain_written {reg : Registry} {f : Plan.Field Plan.Class}
    (hvariable : (∃ carrier, f.shape = .slice carrier) ∨ ∃ type, f.shape = .external type)
    {value : Value} (h : Suits reg.externals f value) :
    ∃ bytes, encodePlain f.shape value = .ok bytes ∧
      bytes.length = width (valuePieces f.shape (some value)) ∧
      decodePlain reg f.shape bytes = .ok value := by
  unfold Suits at h
  rcases hvariable with ⟨p,hshape⟩ | ⟨type,hshape⟩
  · rw [hshape] at h ⊢
    obtain ⟨bits,hfits,rfl⟩ := h
    obtain ⟨more,hmore,hlength,hbytes⟩ := elements_numbers hfits
    have hsize : 0 < p.size := by cases p <;> decide
    have hread := readMany_fits hfits []
    refine ⟨bits.flatMap (store p.size),?_,?_,?_⟩
    · simp only [encodePlain,hmore,Result.ok_bind,Result.pure_eq_ok,hbytes]
    · rw [length_flatMap_store]
      simp [valuePieces,width,count_numbers]
    · rw [List.append_nil] at hread
      simp only [decodePlain,length_flatMap_store,Nat.mul_mod_right,ne_eq,not_true_eq_false,
        if_false,Nat.mul_div_cancel_left _ hsize,hread,Result.ok_bind,Result.pure_eq_ok]
  · rw [hshape] at h ⊢
    obtain ⟨hnone,t,rfl⟩ := h
    exact ⟨t,rfl,by simp [valuePieces,width],by simp [decodePlain,hnone]⟩

theorem nested_written {reg : Registry} {f : Plan.Field Plan.Class} {p : Plan.Class}
    (hshape : f.shape = .nested p) {r : Record} {bytes : Text}
    (h : RecordWritten reg p r bytes) : PayloadWritten reg f (.record (some r)) bytes := by
  refine ⟨?_,?_,?_⟩
  · intro values hget
    rw [encodePayload_nested reg hshape hget,h.written,hshape,measuredValue]
    rfl
  · rw [hshape,valuePieces,h.length]
  · intro tail start rest hrest _ hnested hannounced hfits
    obtain ⟨hguarded,hlone⟩ := hnested p hshape
    rw [settled_nested hshape]
    unfold decodePayload
    cases hl : f.head.lengthField with
    | none =>
      rw [hl] at hguarded
      simp only [hshape,h.reads tail rest hrest hguarded hlone,Result.ok_bind,Result.pure_eq_ok]
    | some holder =>
      rw [hl] at hguarded
      have hwhole := h.reads true [] (fun _ => rfl) hguarded hlone
      rw [List.append_nil] at hwhole
      have hpayload : readPayload (some holder) start (bytes ++ rest) = .ok (bytes,rest) :=
        hl ▸ readPayload_announced hannounced hfits (by simp [hl])
      simp only [hshape,hpayload,Result.ok_bind,hwhole,whole,List.isEmpty_nil,if_true,
        Result.pure_eq_ok]

theorem unnested_written {reg : Registry} {f : Plan.Field Plan.Class}
    (hkind : (∃ carrier, f.shape = .slice carrier) ∨ ∃ type, f.shape = .external type)
    (hslice : ∀ carrier, f.shape = .slice carrier → f.head.lengthField ≠ none)
    (hplain : ∀ p, f.shape ≠ .nested p) {value : Value} (h : Suits reg.externals f value) :
    ∃ bytes, PayloadWritten reg f value bytes := by
  obtain ⟨bytes,hencode,hlength,hdecode⟩ := plain_written hkind h
  refine ⟨bytes,?_,hlength,?_⟩
  · intro values hget
    have hnone : measuredValue f.shape (some value) = none := by
      cases hshape : f.shape with
      | nested p => exact absurd hshape (hplain p)
      | _ => rw [measuredValue]; simp
    rw [encodePayload_plain reg hplain,hget,Option.getD_some,hencode,hnone]
    rfl
  · intro tail start rest hrest htail _ hannounced hfits
    have hpayload := readPayload_announced hannounced hfits fun hnone => by
      rcases hkind with ⟨carrier,hshape⟩ | htype
      · exact absurd hnone (hslice carrier hshape)
      · exact hrest (htail ⟨htype,hnone⟩)
    rw [decodePayload_plain reg hplain,settled_plain hplain,hpayload]
    simp only [Result.ok_bind,hdecode,Result.pure_eq_ok]

theorem payload_written {reg : Registry} {f : Plan.Field Plan.Class} (hf : Regular f)
    (hfixed : f.isFixed = false)
    (hslice : ∀ carrier, f.shape = .slice carrier → f.head.lengthField ≠ none)
    (hnested : ∀ p, f.shape = .nested p → RoundTrips reg p) {value : Value}
    (h : PayloadSuits reg.externals f value) {values : Fields}
    (hget : values.get? f.name = some value) :
    Writes (OverflowsInside f value) (encodePayload reg f values).1
      (PayloadWritten reg f value) := by
  rcases h with ⟨p,r,hshape,rfl,hcanonical⟩ | ⟨hplain,hsuits⟩
  · have hinside : OverflowsInside f (.record (some r)) ↔ Overflows p r := by
      constructor
      · rintro ⟨q,s,hq,hs,hlong⟩
        rw [hshape] at hq
        cases hq
        cases hs
        exact hlong
      · exact fun hlong => ⟨p,r,hshape,rfl,hlong⟩
    rw [encodePayload_nested reg hshape hget,Writes,hinside]
    rcases hnested p hshape hcanonical with hlong | ⟨hshort,bytes,hbytes⟩
    · exact .inl hlong
    · exact .inr ⟨hshort,bytes,nested_written hshape hbytes⟩
  · refine .inr ⟨?_,?_⟩
    · rintro ⟨p,_,hp,-⟩
      exact hplain p hp
    · rcases hf.payload hfixed with hkind | hkind | ⟨p,hp⟩
      · exact unnested_written (.inl hkind) hslice hplain hsuits
      · exact unnested_written (.inr hkind) hslice hplain hsuits
      · exact absurd hp (hplain p)

def OverflowsIn (fields : List (Plan.Field Plan.Class)) (values : Fields) : Prop :=
  ∃ f ∈ fields, f.isFixed = false ∧ ∃ value, values.get? f.name = some value ∧
    (Overlong f (width (valuePieces f.shape (some value))) ∨ OverflowsInside f value)

theorem overflowsIn_skip {f : Plan.Field Plan.Class} (hf : f.isFixed = true)
    (fields : List (Plan.Field Plan.Class))
    (values : Fields) : OverflowsIn (f :: fields) values ↔ OverflowsIn fields values := by
  simp [OverflowsIn,hf]

theorem overflowsIn_step {f : Plan.Field Plan.Class} {fields : List (Plan.Field Plan.Class)}
    (hfields : Arranged (f :: fields)) (hf : f.isFixed = false) {values : Fields} {value : Value}
    (hget : values.get? f.name = some value) : OverflowsIn (f :: fields) values ↔
      (Overlong f (width (valuePieces f.shape (some value))) ∨ OverflowsInside f value) ∨
        OverflowsIn fields (measuredField f values) := by
  have hkept : ∀ g ∈ fields, g.isFixed = false →
      (measuredField f values).get? g.name = values.get? g.name :=
    fun g hg hg' => get?_measuredField (hfields.spares hg hg') values
  constructor
  · rintro ⟨g,hg,hg',other,hother,hlong⟩
    rcases List.mem_cons.mp hg with rfl | hg
    · rw [hget] at hother
      cases hother
      exact .inl hlong
    · exact .inr ⟨g,hg,hg',other,(hkept g hg hg').trans hother,hlong⟩
  · rintro (hlong | ⟨g,hg,hg',other,hother,hlong⟩)
    · exact ⟨f,by simp,hf,value,hget,hlong⟩
    · exact ⟨g,by simp [hg],hg',other,(hkept g hg hg').symm.trans hother,hlong⟩

theorem payloadPieces_congr {fields : List (Plan.Field Plan.Class)} {values other : Fields}
    (h : ∀ f ∈ fields, f.isFixed = false → other.get? f.name = values.get? f.name) :
    payloadPieces fields other = payloadPieces fields values := by
  induction fields with
  | nil => simp [payloadPieces]
  | cons f fields ih =>
    rw [payloadPieces_cons,payloadPieces_cons,ih fun g hg => h g (by simp [hg])]
    cases hfixed : f.isFixed with
    | true => rfl
    | false => rw [h f (by simp) hfixed]

theorem payloadPieces_of_fixed {fields : List (Plan.Field Plan.Class)}
    (h : ∀ f ∈ fields, f.isFixed = true) (values : Fields) : payloadPieces fields values = [] := by
  induction fields with
  | nil => simp [payloadPieces]
  | cons f fields ih =>
    rw [payloadPieces_cons,if_pos (h f (by simp)),ih fun g hg => h g (by simp [hg])]
    rfl

structure EndsIn (fields : List (Plan.Field Plan.Class)) (tail : Bool) : Prop where
  last : ∀ front f back, fields = front ++ f :: back → Unframed f →
    (tail && back.all (·.isFixed)) = true
  nested : ∀ front f back, fields = front ++ f :: back → ∀ p, f.shape = .nested p →
    Guarded (f.head.lengthField.isSome || tail && back.all (·.isFixed)) p ∧ p.Forall Lone

theorem EndsIn.tail {f : Plan.Field Plan.Class} {fields : List (Plan.Field Plan.Class)}
    {tail : Bool} (h : EndsIn (f :: fields) tail) : EndsIn fields tail where
  last := by
    intro front g back heq
    exact h.last (f :: front) g back (by rw [heq]; rfl)
  nested := by
    intro front g back heq
    exact h.nested (f :: front) g back (by rw [heq]; rfl)

structure PayloadsWritten (reg : Registry) (className : Text)
    (fields : List (Plan.Field Plan.Class)) (values : Fields) (bytes : Text) : Prop where
  written : encodePayloads reg className fields values = (.ok bytes,measuredFields fields values)
  length : bytes.length = width (payloadPieces fields values)
  reads : ∀ tail start rest, (tail = true → rest = []) → EndsIn fields tail →
    (∀ f ∈ fields, ∀ holder, f.head.lengthField = some holder →
      start.get? holder.name = (measuredFields fields values).get? holder.name) →
    ∃ last, decodePayloads reg className fields start (bytes ++ rest) = .ok (last,rest) ∧
      ReadInto false (Same (measuredFields fields values)) fields start last

theorem TooLong.map {α β : Type} {result : Except Fault α} (h : TooLong result) (g : α → β) :
    TooLong (result.map g) := by
  obtain ⟨fault,size,rfl,hroot⟩ := h
  exact ⟨fault,size,rfl,hroot⟩

theorem PayloadWritten.encodeThen {reg : Registry} {f : Plan.Field Plan.Class} {value : Value}
    {bytes : Text} (h : PayloadWritten reg f value bytes) {values : Fields}
    (hget : values.get? f.name = some value) (hshort : ¬ Overlong f bytes.length)
    (className : Text) (next : Fields → Except Fault Text × Fields) :
    encodeThen className f.name f.head.lengthField next (encodePayload reg f values) =
      ((next (measuredField f values)).1.map (bytes ++ ·),(next (measuredField f values)).2) := by
  have hstep : withLength f.head.lengthField bytes.length
      (keep f.name values (measuredValue f.shape (some value))) = measuredField f values := by
    rw [measuredField,payloadSize,hget,h.length]
  rw [h.written values hget,encodeThen_ok (setLength_eq hshort _),hstep]

theorem PayloadsWritten.skip {reg : Registry} {className : Text} {f : Plan.Field Plan.Class}
    {fields : List (Plan.Field Plan.Class)} {values : Fields} {bytes : Text} (hf : f.isFixed = true)
    (h : PayloadsWritten reg className fields values bytes) :
    PayloadsWritten reg className (f :: fields) values bytes := by
  refine ⟨?_,?_,?_⟩
  · rw [encodePayloads_cons,if_pos hf,h.written,measuredFields_skip hf]
  · rw [payloadPieces_cons,if_pos hf,h.length]
    rfl
  · intro tail start rest hrest hends hholders
    rw [measuredFields_skip hf] at hholders ⊢
    obtain ⟨last,hlast,hinto⟩ :=
      h.reads tail start rest hrest hends.tail fun g hg => hholders g (by simp [hg])
    refine ⟨last,?_,hinto.skip (by simp [hf])⟩
    rw [decodePayloads_cons,if_pos hf,hlast]

theorem PayloadsWritten.cons {reg : Registry} {className : Text} {f : Plan.Field Plan.Class}
    {fields : List (Plan.Field Plan.Class)} (hfields : Arranged (f :: fields))
    (hf : f.isFixed = false)
    {values : Fields} {value : Value} (hget : values.get? f.name = some value)
    {bytes more : Text} (hfirst : PayloadWritten reg f value bytes)
    (hshort : ¬ Overlong f bytes.length)
    (h : PayloadsWritten reg className fields (measuredField f values) more) :
    PayloadsWritten reg className (f :: fields) values (bytes ++ more) := by
  have hsize : payloadSize f values = bytes.length := by rw [payloadSize,hget,hfirst.length]
  have hpieces : payloadPieces fields (measuredField f values) = payloadPieces fields values :=
    payloadPieces_congr fun g hg hg' => get?_measuredField (hfields.spares hg hg') values
  have hmeasured := measuredFields_step hf fields values
  refine ⟨?_,?_,?_⟩
  · rw [encodePayloads_cons,if_neg (by simp [hf]),hfirst.encodeThen hget hshort,h.written,
      hmeasured]
    rfl
  · rw [payloadPieces_cons,if_neg (by simp [hf]),hget,width_append,List.length_append,
      hfirst.length,h.length,hpieces]
  · intro tail start rest hrest hends hholders
    have hannounced : Announced f start bytes.length := by
      intro holder hl
      rw [hholders f (by simp) holder hl,get?_measuredFields_holder hfields (by simp) hl,hsize]
    -- If no payload is behind this one, there are no bytes behind it either.
    have hend : (tail && fields.all (·.isFixed)) = true → more ++ rest = [] := by
      intro hlast
      obtain ⟨htail,hback⟩ := Bool.and_eq_true_iff.mp hlast
      have hmore := h.length
      rw [hpieces,payloadPieces_of_fixed (List.all_eq_true.mp hback)] at hmore
      rw [hrest htail,List.append_nil]
      exact List.eq_nil_of_length_eq_zero hmore
    have hread := hfirst.reads _ start (more ++ rest) hend (hends.last [] f fields rfl)
      (hends.nested [] f fields rfl) hannounced hshort
    obtain ⟨last,hlast,hinto⟩ := h.reads tail (start.set f.name (settled f.shape value)) rest hrest
      hends.tail fun g hg holder hl => by
        rw [Fields.get?_set,if_neg (hfields.apart f (by simp) hf g (by simp [hg]) holder hl),
          hholders g (by simp [hg]) holder hl,hmeasured]
    rw [← hmeasured] at hinto
    refine ⟨last,?_,hinto.cons hfields hf ?_⟩
    · rw [decodePayloads_cons,if_neg (by simp [hf]),List.append_assoc,hread]
      simp only [within,Except.mapError,Result.ok_bind,hlast]
    · exact get?_measuredFields_self hfields (by simp) hf hget

theorem payloads_written {reg : Registry} {fields : List (Plan.Field Plan.Class)}
    (hfields : Arranged fields)
    (hnested : ∀ f ∈ fields, ∀ p, f.shape = .nested p → RoundTrips reg p) (className : Text)
    {values : Fields} (h : ∀ f ∈ fields, f.isFixed = false →
      ∃ value, values.get? f.name = some value ∧ PayloadSuits reg.externals f value) :
    Writes (OverflowsIn fields values) (encodePayloads reg className fields values).1
      (PayloadsWritten reg className fields values) := by
  induction fields generalizing values with
  | nil =>
    refine .inr ⟨by simp [OverflowsIn],[],?_,by simp [payloadPieces,width],?_⟩
    · rw [encodePayloads,measuredFields]
    · exact fun _ start rest _ _ _ => ⟨start,by rw [decodePayloads]; rfl,readInto_nil⟩
  | cons f fields ih =>
    have hnested' : ∀ g ∈ fields, ∀ p, g.shape = .nested p → RoundTrips reg p :=
      fun g hg => hnested g (by simp [hg])
    cases hf : f.isFixed with
    | true =>
      rw [Writes,overflowsIn_skip hf,encodePayloads_cons,if_pos hf]
      rcases ih hfields.tail hnested' fun g hg => h g (by simp [hg]) with
        hlong | ⟨hshort,bytes,hbytes⟩
      · exact .inl hlong
      · exact .inr ⟨hshort,bytes,hbytes.skip hf⟩
    | false =>
      obtain ⟨value,hget,hsuits⟩ := h f (by simp) hf
      rw [Writes,overflowsIn_step hfields hf hget,encodePayloads_cons,if_neg (by simp [hf])]
      rcases payload_written (hfields.regular f (by simp)) hf (hfields.slices f (by simp))
        (hnested f (by simp)) hsuits hget with ⟨hinside,hlong⟩ | ⟨hinside,bytes,hbytes⟩
      · -- The payload is not even written, so its own length does not matter.
        refine .inl ⟨.inl (.inr hinside),encodeThen_tooLong ?_⟩
        obtain ⟨fault,size,hfault,hroot⟩ := hlong
        exact ⟨fault,size,by rw [hfault]; rfl,hroot⟩
      rw [← hbytes.length]
      by_cases hshort : Overlong f bytes.length
      · refine .inl ⟨.inl (.inl hshort),encodeThen_tooLong ?_⟩
        rw [hbytes.written values hget]
        exact ⟨_,_,setLength_error hshort _,rfl⟩
      rw [hbytes.encodeThen hget hshort]
      -- The payloads behind this one are still as they were in the record.
      have hvalues : ∀ g ∈ fields, g.isFixed = false → ∃ value,
          (measuredField f values).get? g.name = some value ∧
            PayloadSuits reg.externals g value := by
        intro g hg hg'
        rw [get?_measuredField (hfields.spares hg hg')]
        exact h g (by simp [hg]) hg'
      rcases ih hfields.tail hnested' hvalues with ⟨hin,hlong⟩ | ⟨hin,more,hmore⟩
      · exact .inl ⟨.inr hin,hlong.map _⟩
      · refine .inr ⟨?_,bytes ++ more,hmore.cons hfields hf hget hbytes hshort⟩
        rintro ((hlong | hlong) | hlong)
        · exact hshort hlong
        · exact hinside hlong
        · exact hin hlong

structure HeaderWritten (reg : Registry) (parent : Option Plan.Class) (header : Option Record)
    (bytes : Text) : Prop where
  written : encodeHeader reg parent header = (.ok bytes,measuredHeader parent header)
  length : bytes.length = width (headerPieces parent header)
  reads : ∀ tail rest, (tail = true → rest = []) →
    (∀ p, parent = some p → Guarded tail p ∧ p.Forall Lone) →
    decodeHeader reg parent (bytes ++ rest) = .ok (measuredHeader parent header,rest)

theorem header_written {reg : Registry} {parent : Option Plan.Class}
    (hparent : ∀ p, parent = some p → RoundTrips reg p) {header : Option Record}
    (hheaded : header.isSome = parent.isSome)
    (h : ∀ p q, parent = some p → header = some q → Canonical reg.externals p q) :
    Writes (∃ p q, parent = some p ∧ header = some q ∧ Overflows p q)
      (encodeHeader reg parent header).1 (HeaderWritten reg parent header) := by
  cases parent with
  | none =>
    have hnone : header = none := by simpa using hheaded
    subst hnone
    refine .inr ⟨by simp,[],?_,?_,?_⟩
    · rw [measuredHeader] <;> simp [encodeHeader]
    · rw [headerPieces] <;> simp [width]
    · intro _ rest _ _
      rw [measuredHeader] <;> simp [decodeHeader]
  | some p =>
    obtain ⟨q,rfl⟩ := Option.isSome_iff_exists.mp hheaded
    have hiff : (∃ p' q', some p = some p' ∧ some q = some q' ∧ Overflows p' q') ↔
        Overflows p q := by simp
    have hencode : encodeHeader reg (some p) (some q) =
        ((encode reg p q).1,some (encode reg p q).2) := rfl
    rw [Writes,hiff,hencode]
    rcases hparent p rfl (h p q rfl rfl) with hlong | ⟨hshort,bytes,hbytes⟩
    · exact .inl hlong
    · refine .inr ⟨hshort,bytes,?_,?_,?_⟩
      · rw [hencode,hbytes.written,measuredHeader]
      · rw [headerPieces,hbytes.length]
      · intro tail rest hrest hends
        obtain ⟨hguarded,hlone⟩ := hends p rfl
        simp only [decodeHeader,hbytes.reads tail rest hrest hguarded hlone,Result.ok_bind,
          Result.pure_eq_ok,measuredHeader]

section Record

variable {externals : External.Kinds} {plan : Plan.Class} {header : Option Record}
    {values : Fields}

theorem Canonical.payload (h : Canonical externals plan (.mk plan.name header values))
    (hwf : plan.WellFormed) {f : Plan.Field Plan.Class} (hf : f ∈ plan.fields)
    (hfixed : f.isFixed = false) :
    ∃ value, values.get? f.name = some value ∧ PayloadSuits externals f value := by
  cases h with
  | mk _ _ _ _ plain records nested =>
    by_cases hrecord : ∃ p, f.shape = .nested p
    · obtain ⟨p,hshape⟩ := hrecord
      obtain ⟨r,hget⟩ := records f hf p hshape
      exact ⟨_,hget,.inl ⟨p,r,hshape,rfl,nested f hf p r hshape hget⟩⟩
    · have hplain : ∀ p, f.shape ≠ .nested p := fun p hp => hrecord ⟨p,hp⟩
      have hlengthOf : f.head.lengthOf = none := by
        by_contra hne
        obtain ⟨⟨carrier,hshape,-⟩,-⟩ := hwf.holders f hf hne
        rw [((arranged_of_wellFormed hwf).regular f hf).isFixed_scalar hshape] at hfixed
        cases hfixed
      obtain ⟨value,hget,hsuits⟩ := plain f hf hlengthOf hplain
      exact ⟨value,hget,.inr ⟨hplain,hsuits⟩⟩

theorem overflows_iff (h : Canonical externals plan (.mk plan.name header values))
    (hwf : plan.WellFormed) : Overflows plan (.mk plan.name header values) ↔
      OverflowsIn plan.fields values ∨
        ∃ p q, plan.parent = some p ∧ header = some q ∧ Overflows p q := by
  have hfields := arranged_of_wellFormed hwf
  constructor
  · rintro (⟨hf,hl,hlong⟩ | ⟨hp,hq,hlong⟩ | ⟨hf,hshape,hvalue,hlong⟩)
    · rename_i f holder
      have hfixed : f.isFixed = false := hfields.not_isFixed hf hl
      obtain ⟨value,hget,-⟩ := h.payload hwf hf hfixed
      rw [payloadSize,fields_mk,hget] at hlong
      exact .inl ⟨f,hf,hfixed,value,hget,.inl ⟨holder,hl,hlong⟩⟩
    · exact .inr ⟨_,_,hp,hq,hlong⟩
    · rename_i p q f
      have hfixed : f.isFixed = false := by
        by_contra hne
        exact (hfields.regular f hf).not_nested (by simpa using hne) p hshape
      exact .inl ⟨f,hf,hfixed,_,hvalue,.inr ⟨p,q,hshape,rfl,hlong⟩⟩
  · rintro (⟨f,hf,hfixed,value,hget,⟨holder,hl,hlong⟩ | ⟨p,q,hshape,rfl,hlong⟩⟩ | ⟨p,q,hp,hq,hlong⟩)
    · refine .here hf hl ?_
      rwa [payloadSize,fields_mk,hget]
    · exact .inField hf hshape hget hlong
    · exact .inHeader hp hq hlong

theorem Canonical.suits (h : Canonical externals plan (.mk plan.name header values))
    (hwf : plan.WellFormed) (hshort : ¬ OverflowsIn plan.fields values) {f : Plan.Field Plan.Class}
    (hf : f ∈ plan.fields) (hfixed : f.isFixed = true) :
    ∃ value, (measuredFields plan.fields values).get? f.name = some value ∧
      Suits externals f value := by
  have hfields := arranged_of_wellFormed hwf
  cases hlengthOf : f.head.lengthOf with
  | some name =>
    obtain ⟨g,hg,rfl⟩ := hwf.holding f hf name hlengthOf
    obtain ⟨carrier,hshape,hl⟩ := (hwf.matched g hg f hf).mpr hlengthOf
    obtain ⟨-,htransform,-⟩ := hwf.holders f hf (by simp [hlengthOf])
    have hvariable : g.isFixed = false := hfields.not_isFixed hg hl
    obtain ⟨value,hget,-⟩ := h.payload hwf hg hvariable
    have hsize : payloadSize g values ≤ Payload.maxSize ∧
        payloadSize g values ≤ carrier.greatest := by
      rw [payloadSize,hget]
      by_contra hne
      exact hshort ⟨g,hg,hvariable,value,hget,.inl ⟨_,hl,by simp only; omega⟩⟩
    have hfits : carrier.Fits (payloadSize g values).toUInt64 := by
      have hlt := greatest_lt carrier
      rw [Primitive.Fits,(toNat_of_le_maxSize hsize.1).1]
      omega
    refine ⟨_,get?_measuredFields_holder hfields hg hl,?_⟩
    simp only [Suits,hshape,htransform]
    exact ⟨_,hfits,by simp [Transform.isMask],rfl⟩
  | none =>
    -- No payload has its length here, so the value is still the one of the record.
    rw [get?_measuredFields (spares_of_lengthOf hwf hf hfixed hlengthOf)]
    cases h with
    | mk _ _ _ _ plain _ _ =>
      exact plain f hf hlengthOf ((hfields.regular f hf).not_nested hfixed)

theorem Guarded.endsIn {tail : Bool} (h : Guarded tail plan) (hlone : plan.Forall Lone) :
    EndsIn plan.fields tail := by
  cases h with
  | mk own _ nested =>
    refine ⟨fun front f back heq hunframed => ?_,fun front f back heq p hp => ?_⟩
    · have hback := hlone.own front f back heq hunframed
      cases htail : tail with
      | true => simpa using hback
      | false => exact absurd hunframed (own htail f (by rw [heq]; simp))
    · exact ⟨nested front f back heq p hp,hlone.nested (by rw [heq]; simp) hp⟩

theorem Canonical.eq_of_read (h : Canonical externals plan (.mk plan.name header values))
    (hwf : plan.WellFormed) {start last : Fields}
    (hstart : ReadInto true (Same (measuredFields plan.fields values)) plan.fields [] start)
    (hlast : ReadInto false (Same (measuredFields plan.fields values)) plan.fields start last) :
    last = measuredFields plan.fields values := by
  have hfields := arranged_of_wellFormed hwf
  cases h with
  | mk ordered known _ _ _ _ _ =>
    refine Fields.eq_of_get?_eq (hlast.ordered (hstart.ordered Fields.ordered_nil))
      (measuredFields_ordered ordered) fun name => ?_
    by_cases hname : ∃ f ∈ plan.fields, f.name = name
    · obtain ⟨f,hf,rfl⟩ := hname
      cases hfixed : f.isFixed with
      | true =>
        rw [hlast.kept hfields hf hfixed,get?_of_same hstart hf hfixed]
      | false => exact get?_of_same hlast hf hfixed
    · have hother : ∀ f ∈ plan.fields, f.name ≠ name := fun f hf heq => hname ⟨f,hf,heq⟩
      have hvalues : values.get? name = none := by
        cases hget : values.get? name with
        | none => rfl
        | some value => exact absurd (known name value hget) hname
      have hspares : ∀ f ∈ plan.fields, f.isFixed = false → Spares name f := by
        intro f hf _
        refine ⟨hother f hf,?_⟩
        intro holder hl
        obtain ⟨g,hg,heq,-,-⟩ := hwf.holder hf hl
        rw [← heq]
        exact hother g hg
      rw [hlast.frame name fun f hf _ => hother f hf,hstart.frame name fun f hf _ => hother f hf,
        get?_measuredFields hspares,hvalues]
      rfl

end Record

theorem encodeAround_tooLong {declName : Text} {fields : List (Plan.Field Plan.Class)}
    {className : Text}
    {header : Option Record} {front : Option Record → Except Fault Text × Option Record}
    {payloads : Except Fault Text × Fields}
    (h : TooLong payloads.1 ∨ (∃ bytes, payloads.1 = .ok bytes) ∧ TooLong (front header).1) :
    TooLong (encodeAround declName fields className header front payloads).1 := by
  obtain ⟨result,values⟩ := payloads
  rcases h with ⟨fault,size,rfl,hroot⟩ | ⟨⟨bytes,rfl⟩,fault,size,hfront,hroot⟩
  · exact ⟨fault,size,rfl,hroot⟩
  · refine ⟨fault,size,?_,hroot⟩
    simp only [encodeAround,hfront,Result.error_bind]

theorem roundTrips (reg : Registry) {plan : Plan.Class} (h : plan.Forall Plan.Class.WellFormed) :
    RoundTrips reg plan := by
  induction h with
  | @mk plan hwf _ _ hparent hnested =>
    intro r hr
    have hcanonical := hr
    cases hr with
    | @mk _ header values _ _ headed parent _ _ _ =>
    have hfields := arranged_of_wellFormed hwf
    rw [Writes,overflows_iff hcanonical hwf,encode_eq]
    simp only [fields_mk,header_mk,className_mk]
    rcases payloads_written hfields hnested plan.name fun f hf hfixed =>
      hcanonical.payload hwf hf hfixed with ⟨hin,hlong⟩ | ⟨hin,payloads,hpayloads⟩
    · exact .inl ⟨.inl hin,encodeAround_tooLong (.inl hlong)⟩
    rcases header_written hparent headed parent with ⟨hin',hlong⟩ | ⟨hin',front,hfront⟩
    · refine .inl ⟨.inr hin',encodeAround_tooLong (.inr ⟨⟨payloads,?_⟩,hlong⟩)⟩
      rw [hpayloads.written]
    obtain ⟨fixed,hwritten,hlength,hread⟩ := fixed_written hfields plan.name
      fun f hf hfixed => hcanonical.suits hwf hin hf hfixed
    refine .inr ⟨not_or.mpr ⟨hin,hin'⟩,front ++ fixed ++ payloads,?_,?_,?_⟩
    · rw [encode_eq,measured_eq]
      simp only [fields_mk,header_mk,className_mk,encodeAround,hpayloads.written,hfront.written,
        hwritten,Result.ok_bind,Result.pure_eq_ok]
    · rw [pieces_eq,width_append,width_append]
      simp only [fields_mk,header_mk,List.length_append,hfront.length,hlength,hpayloads.length]
    · intro tail rest hrest hguarded hlone
      have hendsIn := hguarded.endsIn hlone
      -- Nothing is behind the header of a class without fields.
      have hbehind : (tail && plan.fields.isEmpty) = true → fixed ++ (payloads ++ rest) = [] := by
        intro hlast
        obtain ⟨htail,hempty⟩ := Bool.and_eq_true_iff.mp hlast
        have hnone : plan.fields = [] := List.isEmpty_iff.mp hempty
        have hfixed : fixed = [] :=
          List.eq_nil_of_length_eq_zero (by rw [hlength,hnone]; rfl)
        have hpayload : payloads = [] := List.eq_nil_of_length_eq_zero (by
          rw [hpayloads.length,hnone,payloadPieces_of_fixed (by simp)]
          rfl)
        rw [hfixed,hpayload,hrest htail]
        rfl
      have hparents : ∀ p, plan.parent = some p →
          Guarded (tail && plan.fields.isEmpty) p ∧ p.Forall Lone := by
        intro p hp
        cases hguarded with
        | mk _ hparent _ => exact ⟨hparent p hp,hlone.parent hp⟩
      obtain ⟨start,hstart,hinto⟩ := hread [] (payloads ++ rest)
      -- The fields of fixed size are read first, so that the lengths are known.
      have hholders : ∀ f ∈ plan.fields, ∀ holder, f.head.lengthField = some holder →
          start.get? holder.name = (measuredFields plan.fields values).get? holder.name := by
        intro f hf holder hl
        obtain ⟨g,hg,hname,hshape,-⟩ := hwf.holder hf hl
        rw [← hname]
        exact get?_of_same hinto hg ((hfields.regular g hg).isFixed_scalar hshape)
      obtain ⟨last,hlast,hinto'⟩ := hpayloads.reads tail start rest hrest hendsIn hholders
      rw [decode_eq,List.append_assoc,List.append_assoc,hfront.reads _ _ hbehind hparents]
      simp only [Result.ok_bind,hstart,hlast,Result.pure_eq_ok]
      rw [hcanonical.eq_of_read hwf hinto hinto',measured_eq]
      rfl

end WireSchema.Record

namespace WireSchema.Codec

open Record (Canonical Delimited OpenEnded Overflows measured)

/-- A record as a reader would leave it is written unless one of its payloads is too long, and comes
back from its bytes as the writing has left it. -/
theorem decode_encode {path : Text} {doc : Document} {schema : Schema} {ws : List Schema.Warning}
    (h : Schema.compile path doc = .ok (schema,ws)) {supportsGc : Bool} {calls : List Planner.Call}
    {c : Codec} (hc : c.planner = (Planner.new schema supportsGc).after calls) {r : Record}
    {plan : Plan.Class} (hplan : (c.plan r.className).1 = .ok plan)
    (hends : plan.Forall Delimited ∨ OpenEnded plan) (hr : Canonical c.externals plan r) :
    ((∃ fault, (c.encode r).1 = .error fault) ↔ Overflows plan r) ∧
    (∀ fault, (c.encode r).1 = .error fault → ∃ size, fault.root = .tooLong size) ∧
    ∀ bytes, (c.encode r).1 = .ok bytes → (c.encode r).2.1 = measured plan r ∧
      ((c.encode r).2.2.decode r.className bytes).1 = .ok (measured plan r) := by
  have hs := Schema.sound_of_compile h
  have hplanner : c.planner.Sound schema supportsGc := hc ▸ Planner.sound_after hs calls
  obtain ⟨-,hlaid⟩ := plan_forall hs hplanner hplan
  have hwf : plan.Forall Plan.Class.WellFormed := hlaid.imp fun _ hl => hl.wellFormed hs
  rw [encode_of_plan hplan]
  rcases Record.roundTrips c.registry hwf hr with ⟨hin,fault,size,herror,hroot⟩ | ⟨hin,bytes,hbytes⟩
  · rw [herror]
    refine ⟨⟨fun _ => hin,fun _ => ⟨fault,rfl⟩⟩,?_,?_⟩
    · rintro _ ⟨⟩
      exact ⟨size,hroot⟩
    · rintro _ ⟨⟩
  · rw [hbytes.written]
    refine ⟨⟨?_,fun hlong => absurd hlong hin⟩,?_,?_⟩
    · rintro ⟨_,⟨⟩⟩
    · rintro _ ⟨⟩
    · rintro _ ⟨⟩
      have hagain : ((c.plan r.className).2.plan r.className).1 = .ok plan := by
        rw [plan_again hplan]
      have hread := hbytes.read [] (hends.imp id fun hopen => ⟨hopen,rfl⟩)
      rw [List.append_nil] at hread
      rw [decode_of_plan hagain,registry_plan,hread]
      exact ⟨rfl,rfl⟩

theorem delimited_of_laid {schema : Schema} {supportsGc : Bool} {plan : Plan.Class}
    (h : ∀ c ∈ schema.classes, ∀ p ∈ c.properties, p.flag = some .proto →
      (Plan.holderOf? schema c p).isSome = true) (hlaid : Plan.Laid schema supportsGc plan) :
    Delimited plan := by
  rintro f hf ⟨⟨type,htype⟩,hnone⟩
  obtain ⟨p,hp⟩ := hlaid.property hf
  rcases hp.shape.cases with ⟨hflag,-⟩ | ⟨-,_,_,-,-,hshape⟩ | ⟨-,-,_,hshape⟩
  · have hsome := h plan.decl hlaid.decl p hp.property hflag
    rw [hp.head] at hnone
    simp only [Plan.headOf] at hnone
    rw [hnone] at hsome
    cases hsome
  · rw [htype] at hshape
    unfold Plan.numbers at hshape
    split at hshape
    · cases hshape
    · split at hshape <;> cases hshape
  · rw [htype] at hshape
    cases hshape

theorem hello_decode_encode : ∃ plan bytes,
    ((new helloSchema true .empty).plan "MsgHello").1 = .ok plan ∧
    ((new helloSchema true .empty).encode helloRecord).1 = .ok bytes ∧
    (((new helloSchema true .empty).encode helloRecord).2.2.decode "MsgHello" bytes).1 =
      .ok (measured plan helloRecord) := by
  obtain ⟨ws,hcompile⟩ := compile_hello
  obtain ⟨plan,hplan⟩ := plan_hello
  have hs := Schema.sound_of_compile hcompile
  have hplanner : (new helloSchema true .empty).planner = (Planner.new helloSchema true).after [] :=
    rfl
  have hsound : (new helloSchema true .empty).planner.Sound helloSchema true :=
    Planner.sound_after hs []
  have hlaid := (plan_forall hs hsound hplan).2
  have hdelimited : plan.Forall Delimited :=
    hlaid.imp fun _ hl => delimited_of_laid (by decide +kernel) hl
  have hcanonical := canonical_of_decode hs hsound hplan (hlaid.imp fun _ _ _ _ _ _ => rfl)
    decode_hello
  obtain ⟨bytes,hbytes⟩ :
      ∃ bytes, ((new helloSchema true .empty).encode helloRecord).1 = .ok bytes :=
    Result.exists_of_isOk (by decide +kernel)
  have hname : helloRecord.className = "MsgHello" := by decide +kernel
  have hread := (decode_encode hcompile hplanner (by rw [hname,hplan]) (.inl hdelimited)
    hcanonical).2.2 bytes hbytes
  rw [hname] at hread
  exact ⟨plan,bytes,hplan,hbytes,hread.2⟩

end WireSchema.Codec
