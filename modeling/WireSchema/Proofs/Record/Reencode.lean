import WireSchema.Proofs.Record.Codec
import WireSchema.Proofs.Record.Wire
set_option autoImplicit false

namespace WireSchema.Record

theorem store_zero (size : Nat) : store size 0 = List.replicate size 0 := by
  simp [store,List.map_const']

theorem store_one (p : Primitive) : store p.size 1 = 1 :: List.replicate (p.size - 1) 0 := by
  cases p <;> decide

theorem load_eq_zero_iff {p : Primitive} {bytes : Text} (h : bytes.length = p.size) :
    load bytes = 0 ↔ bytes.all (· == 0) = true := by
  have hzero : (∀ b ∈ bytes, b = 0) ↔ bytes = List.replicate p.size 0 := by
    rw [List.eq_replicate_iff]
    simp [h]
  simp only [List.all_eq_true,beq_iff_eq]
  rw [hzero]
  constructor
  · intro hload
    rw [← store_load h p.size_le,hload,store_zero]
  · intro hbytes
    rw [hbytes,← store_zero,load_store]
    exact Primitive.mask_of_fits (by rw [Primitive.Fits]; exact Nat.pow_pos (by decide))

theorem testBit_store {size i : Nat} (bits : UInt64) (hi : i < (store size bits).length)
    (h8 : i < 8) (j : Nat) :
    ((store size bits)[i]).toNat.testBit j =
      (decide (j < 8) && bits.toNat.testBit (8 * i + j)) := by
  have hshift : (8 * i).toUInt64.toNat % 64 = 8 * i := by
    rw [UInt64.toNat_ofNat']
    omega
  simp only [store,List.getElem_map,List.getElem_range,UInt64.toNat_toUInt8,
    UInt64.toNat_shiftRight,hshift]
  rw [Nat.testBit_mod_two_pow,Nat.testBit_shiftRight]

theorem store_make (bits : UInt64) :
    store 4 (Tag.make bits.toUInt32 true).toUInt64 = (store 4 bits).modify 3 (· ||| 0x80) := by
  refine List.ext_getElem (by simp [length_store]) fun i hi _ => ?_
  have hlt : i < 4 := by simpa [length_store] using hi
  refine UInt8.toNat_inj.mp (Nat.eq_of_testBit_eq fun j => ?_)
  have hmake : (Tag.make bits.toUInt32 true).toUInt64.toNat = bits.toNat % 2 ^ 32 ||| 2 ^ 31 := by
    simp [Tag.make,Tag.protoMask]
  have h80 : (0x80 : UInt8).toNat = 2 ^ 7 := rfl
  rw [testBit_store _ _ (by omega),hmake,Nat.testBit_or,Nat.testBit_mod_two_pow,
    Nat.testBit_two_pow,List.getElem_modify]
  split
  · rw [UInt8.toNat_or,Nat.testBit_or,testBit_store _ _ (by omega),h80,Nat.testBit_two_pow]
    by_cases hj : j < 8
    · have h32 : 8 * i + j < 32 := by omega
      have h31 : (31 = 8 * i + j) = (7 = j) := propext (by omega)
      simp [hj,h32,h31]
    · have h7 : 7 ≠ j := by omega
      simp [hj,h7]
  · rw [testBit_store _ _ (by omega)]
    by_cases hj : j < 8
    · have h32 : 8 * i + j < 32 := by omega
      have h31 : 31 ≠ 8 * i + j := by omega
      simp [hj,h32,h31]
    · simp [hj]

theorem make_number {p : Primitive} (hp : p.size = 4) {bits more : UInt64}
    (h : p.mask more = (Tag.number bits.toUInt32).toUInt64) :
    Tag.make more.toUInt32 true = Tag.make bits.toUInt32 true := by
  have hcut : more.toUInt32 = Tag.number bits.toUInt32 := by
    refine UInt32.toNat_inj.mp ?_
    have hpow : (256 ^ 4 : Nat) = 2 ^ 32 := by decide
    have hnat := congrArg UInt64.toNat h
    rw [Primitive.toNat_mask,hp,UInt32.toNat_toUInt64,hpow] at hnat
    rw [UInt64.toNat_toUInt32,hnat]
  rw [hcut]
  simp only [Tag.make,Tag.number,if_true]
  refine UInt32.toBitVec_inj.mp ?_
  ext i hi
  simp
  grind

theorem fits_number {p : Primitive} (hp : p.size = 4) (tag : UInt32) :
    p.Fits (Tag.number tag).toUInt64 := by
  have hlt := (Tag.number tag).toNat_lt
  have hpow : (256 ^ 4 : Nat) = 2 ^ 32 := by decide
  rw [Primitive.Fits,hp,UInt32.toNat_toUInt64,hpow]
  exact hlt

theorem number_lt (tag : UInt32) : (Tag.number tag).toUInt64.toNat < 2 ^ 31 := by
  have hmask : (~~~Tag.protoMask).toNat = 2 ^ 31 - 1 := rfl
  rw [UInt32.toNat_toUInt64,Tag.number,UInt32.toNat_and,hmask,Nat.and_two_pow_sub_one_eq_mod]
  exact Nat.mod_lt _ (by decide)

theorem encodeFixedField_scalar {f : Plan.Field Plan.Class} {p : Primitive}
    (hshape : f.shape = .scalar p)
    (hsize : f.size = p.size) (hmask : f.head.transform.isMask = true → p.size = 4) {bytes : Text}
    (hlength : bytes.length = p.size) :
    encodeFixedField f (scalarValue f.head.transform (some p)
      (unmaskBits f.head.transform (load bytes))) = .ok ((pieceOf f).respell bytes) := by
  have hpiece : pieceOf f = ⟨f.head.transform,p.size⟩ := by simp [pieceOf,hshape,hsize]
  rw [hpiece]
  simp only [encodeFixedField,hshape]
  have hfits : p.Fits (load bytes) := fits_load hlength
  -- What is not transformed comes back as it was, with a sign or without.
  have hsame : ∀ transform : Transform, transform ≠ .bool → transform.isMask = false →
      (do return store p.size (maskBits transform
        (← bitsOf (scalarValue transform (some p) (unmaskBits transform (load bytes))))) :
          Except Fault Text) = .ok bytes := by
    intro transform hbool hplain
    obtain ⟨more,hmore,heq⟩ := bitsOf_scalarValue hbool hfits
    simp only [unmaskBits,maskBits,hplain,Bool.false_eq_true,if_false,hmore,Result.ok_bind,
      Result.pure_eq_ok]
    rw [← store_mask,heq,store_load hlength p.size_le]
  have htag : ∀ transform : Transform, transform ≠ .bool → transform.isMask = true →
      p.size = 4 → (do return store p.size (maskBits transform
        (← bitsOf (scalarValue transform (some p) (unmaskBits transform (load bytes))))) :
          Except Fault Text) = .ok (bytes.modify 3 (· ||| 0x80)) := by
    intro transform hbool htagged hfour
    have hnumber : p.Fits (Tag.number (load bytes).toUInt32).toUInt64 := fits_number hfour _
    obtain ⟨more,hmore,heq⟩ := bitsOf_scalarValue hbool hnumber
    simp only [unmaskBits,maskBits,htagged,if_true,hmore,Result.ok_bind,Result.pure_eq_ok]
    rw [make_number hfour heq,hfour,store_make,← hfour,store_load hlength p.size_le]
  cases htransform : f.head.transform with
  | none => exact hsame .none (by simp) rfl
  | steamId => exact hsame .steamId (by simp) rfl
  | gameId => exact hsame .gameId (by simp) rfl
  | protoMask => exact htag .protoMask (by simp) rfl (hmask (by simp [htransform,Transform.isMask]))
  | protoMaskGc =>
    exact htag .protoMaskGc (by simp) rfl (hmask (by simp [htransform,Transform.isMask]))
  | bool =>
    have hload := load_eq_zero_iff hlength
    simp only [unmaskBits,maskBits,Transform.isMask,Bool.false_eq_true,if_false,scalarValue,bitsOf,
      Result.ok_bind,Result.pure_eq_ok,Piece.respell,Primitive.mask_of_fits hfits]
    by_cases hzero : load bytes = 0
    · rw [if_pos (hload.mp hzero)]
      have hbytes := store_load hlength p.size_le
      rw [hzero] at hbytes
      simp [hzero,hbytes]
    · rw [if_neg fun hall => hzero (hload.mpr hall),hlength]
      simp [hzero,store_one]

theorem encodeFixedField_array {f : Plan.Field Plan.Class} {p : Primitive} {n : Nat}
    (hshape : f.shape = .array p n) {bits : List UInt64} (hlength : bits.length = n)
    (hfits : ∀ b ∈ bits, p.Fits b) :
    encodeFixedField f (numbers p bits) = .ok (bits.flatMap (store p.size)) := by
  obtain ⟨more,hmore,hcount,hbytes⟩ := elements_numbers hfits
  rw [hlength] at hcount
  simp only [encodeFixedField,hshape,hmore,Result.ok_bind,hcount,Nat.lt_irrefl,if_false,
    Nat.sub_self,List.replicate_zero,List.append_nil,hbytes]

theorem decodeFixedField_ok {f : Plan.Field Plan.Class} (hf : Regular f) (hsize : 0 < f.size)
    {input rest : Text} {value : Value} (h : decodeFixedField f input = .ok (value,rest)) :
    (∃ bytes, input = bytes ++ rest ∧ bytes.length = f.size ∧
      encodeFixedField f value = .ok ((pieceOf f).respell bytes)) ∧
    ∀ externals, Suits externals f value := by
  have hfixed := hf.size
  unfold decodeFixedField at h
  rcases hf.fixed.mp hsize with ⟨carrier,hshape⟩ | ⟨carrier,n,hshape⟩
  · simp only [hshape,Result.bind_eq_ok,Result.pure_eq_ok,Except.ok.injEq,Prod.mk.injEq] at h
    obtain ⟨⟨bits,next⟩,hread,rfl,rfl⟩ := h
    obtain ⟨bytes,rfl,hlength,rfl⟩ := readBits_ok hread
    rw [hshape,Plan.Shape.fixedSize] at hfixed
    refine ⟨⟨bytes,rfl,by omega,?_⟩,?_⟩
    · exact encodeFixedField_scalar hshape hfixed (hf.mask carrier hshape) hlength
    · intro externals
      simp only [Suits,hshape]
      refine ⟨_,?_,?_,rfl⟩
      · unfold unmaskBits
        split
        · rename_i htag
          exact fits_number (hf.mask carrier hshape htag) _
        · exact fits_load hlength
      · intro htag
        rw [unmaskBits,if_pos htag]
        exact number_lt _
  · simp only [hshape,Result.bind_eq_ok,Result.pure_eq_ok,Except.ok.injEq,Prod.mk.injEq] at h
    obtain ⟨⟨bits,next⟩,hread,rfl,rfl⟩ := h
    obtain ⟨rfl,hlength,hfits⟩ := readMany_ok hread
    rw [hshape,Plan.Shape.fixedSize] at hfixed
    refine ⟨⟨bits.flatMap (store carrier.size),rfl,?_,?_⟩,?_⟩
    · rw [length_flatMap_store,hlength,hfixed]
    · rw [encodeFixedField_array hshape hlength hfits]
      simp [pieceOf,hshape,Piece.respell]
    · intro externals
      simp only [Suits,hshape]
      exact ⟨bits,hlength,hfits,rfl⟩

/-- The fields of fixed size once they have been read: any values that have the same numbers are
written as the same bytes. -/
structure FixedRead (className : Text) (fields : List (Plan.Field Plan.Class))
    (start values : Fields) (input rest : Text) : Prop where
  into : ReadInto true (fun f value => ∀ externals, Suits externals f value) fields start values
  written : ∃ bytes, input = bytes ++ rest ∧ bytes.length = width (fixedPieces fields) ∧
    ∀ later : Fields, (∀ f ∈ fields, f.isFixed = true →
      later.get? f.name = values.get? f.name) →
      encodeFixed className later fields = .ok (respell (fixedPieces fields) bytes)

theorem decodeFixed_ok {className : Text} {fields : List (Plan.Field Plan.Class)}
    (hfields : Arranged fields) {start values : Fields} {input rest : Text}
    (h : decodeFixed className fields start input = .ok (values,rest)) :
    FixedRead className fields start values input rest := by
  induction fields generalizing start input with
  | nil =>
    cases h
    exact ⟨readInto_nil,[],rfl,rfl,fun _ _ => rfl⟩
  | cons f fields ih =>
    rw [decodeFixed] at h
    cases hfixed : f.isFixed with
    | true =>
      simp only [hfixed,if_true,Result.bind_eq_ok,within,Result.mapError_eq_ok] at h
      obtain ⟨⟨value,next⟩,hfirst,hrest⟩ := h
      obtain ⟨⟨bytes,hinput,hlength,hvalue⟩,hsuits⟩ :=
        decodeFixedField_ok (hfields.regular f (by simp)) ((isFixed_iff f).mp hfixed) hfirst
      have hread : FixedRead className fields (start.set f.name value) values next rest :=
        ih hfields.tail hrest
      obtain ⟨hinto,more,hnext,hmore,hwritten⟩ := hread
      refine ⟨hinto.cons hfields hfixed hsuits,bytes ++ more,?_,?_,?_⟩
      · rw [hinput,hnext,List.append_assoc]
      · rw [fixedPieces_cons,if_pos hfixed,List.length_append,hlength,hmore]
        simp [width,pieceOf]
      · intro later hlater
        rw [encodeFixed,hlater f (by simp) hfixed,hinto.get? hfields]
        simp only [hfixed,if_true,within,Option.getD_some,hvalue,Except.mapError,Result.ok_bind]
        rw [hwritten later fun g hg => hlater g (by simp [hg]),fixedPieces_cons,if_pos hfixed,
          respell_cons (by simp [pieceOf,hlength])]
        rfl
    | false =>
      simp only [hfixed,Bool.false_eq_true,if_false] at h
      obtain ⟨hinto,more,hnext,hmore,hwritten⟩ := ih hfields.tail h
      refine ⟨hinto.skip (by simp [hfixed]),more,hnext,?_,?_⟩
      · rw [fixedPieces_cons,if_neg (by simp [hfixed]),hmore]
      · intro later hlater
        rw [encodeFixed,fixedPieces_cons]
        simp only [hfixed,Bool.false_eq_true,if_false]
        exact hwritten later fun g hg => hlater g (by simp [hg])

/-- Whatever is read by a layout is written as the same bytes, respelt. -/
def Reencodes (reg : Registry) (plan : Plan.Class) : Prop :=
  ∀ {input rest : Text} {r : Record}, decode reg plan input = .ok (r,rest) →
    Canonical reg.externals plan r ∧
    ∃ bytes, input = bytes ++ rest ∧ bytes.length = width (pieces plan r) ∧
      encode reg plan r = (.ok (respell (pieces plan r) bytes),r)

theorem setLength_same {holder : Plan.Holder} {values : Fields} (hordered : values.Ordered)
    {payload : Text} (hmax : payload.length ≤ Payload.maxSize)
    (hgreat : payload.length ≤ holder.carrier.greatest)
    (hget : values.get? holder.name = some (number holder.carrier payload.length.toUInt64)) :
    setLength (some holder) payload values = .ok values := by
  simp only [setLength,lengthBits_eq,hmax,hgreat,and_self,if_true,Result.ok_bind,Result.pure_eq_ok,
    Fields.set_of_get? hordered hget]

theorem decodePlain_ok {reg : Registry} {f : Plan.Field Plan.Class}
    (hplain : (∃ type, f.shape = .external type ∧
      reg.externals.find? type = none) ∨ ∃ carrier, f.shape = .slice carrier)
    {payload : Text} {value : Value} (h : decodePlain reg f.shape payload = .ok value) :
    Suits reg.externals f value ∧ encodePlain f.shape value = .ok payload ∧
      payload.length = width (valuePieces f.shape (some value)) ∧
      respell (valuePieces f.shape (some value)) payload = payload := by
  unfold Suits
  rcases hplain with ⟨type,hshape,hfind⟩ | ⟨carrier,hshape⟩
  · rw [hshape] at h ⊢
    simp only [decodePlain,hfind,Except.ok.injEq] at h
    subst h
    simp [hfind,encodePlain,valuePieces,width,respell,Piece.respell]
  · rw [hshape] at h ⊢
    simp only [decodePlain] at h
    split at h
    · cases h
    · rename_i haligned
      simp only [Result.bind_eq_ok,Result.pure_eq_ok,Except.ok.injEq] at h
      obtain ⟨⟨bits,rest⟩,hread,rfl⟩ := h
      obtain ⟨hpayload,hcount,hfits⟩ := readMany_ok hread
      obtain ⟨more,hmore,-,hbytes⟩ := elements_numbers hfits
      have hlength : payload.length = carrier.size * bits.length := by
        rw [hcount]
        exact (Nat.mul_div_cancel' (Nat.dvd_of_mod_eq_zero (by omega))).symm
      have hrest : rest = [] := by
        have hsum := congrArg List.length hpayload
        rw [List.length_append,length_flatMap_store] at hsum
        exact List.eq_nil_of_length_eq_zero (by omega)
      rw [hrest,List.append_nil] at hpayload
      refine ⟨⟨bits,hfits,rfl⟩,?_,?_,?_⟩
      · simp [encodePlain,hmore,hbytes,← hpayload]
      · simp [valuePieces,width,count_numbers,hlength]
      · simp [valuePieces,respell,Piece.respell]

theorem whole_ok {x : Except Fault (Record × Text)} {r : Record} (h : whole x = .ok r) :
    x = .ok (r,[]) := by
  simp only [whole,Result.bind_eq_ok] at h
  obtain ⟨⟨q,rest⟩,rfl,hrest⟩ := h
  cases rest with
  | nil =>
    cases hrest
    rfl
  | cons b rest => cases hrest

/-- A payload that has been taken from the input. Any bytes of its length may be written in its
place without another length being set. -/
theorem readPayload_same {holder : Option Plan.Holder} {start : Fields}
    (hholder : ∀ h, holder = some h → ∃ bits, h.carrier.Fits bits ∧
      start.get? h.name = some (number h.carrier bits))
    {input payload rest : Text} (h : readPayload holder start input = .ok (payload,rest)) :
    input = payload ++ rest ∧ ∀ (later : Fields) (bytes : Text), later.Ordered →
      (∀ h, holder = some h → later.get? h.name = start.get? h.name) →
      bytes.length = payload.length → setLength holder bytes later = .ok later := by
  cases holder with
  | none =>
    cases h
    exact ⟨(List.append_nil _).symm,fun _ _ _ _ _ => rfl⟩
  | some holder =>
    obtain ⟨bits,hfits,hget⟩ := hholder holder rfl
    obtain ⟨hinput,hmax,hgreat,hbits⟩ := readPayload_ok hfits hget h
    refine ⟨hinput,?_⟩
    intro later bytes hordered hsame hlength
    rw [← hlength] at hmax hgreat hbits
    refine setLength_same hordered hmax hgreat ?_
    rw [hsame holder rfl,hget,hbits]

/-- One payload once it has been read. The values that it is written from may have come by more
values since, as long as they have this one and its length. -/
structure PayloadRead (reg : Registry) (f : Plan.Field Plan.Class) (start : Fields) (value : Value)
    (bytes : Text) : Prop where
  suits : PayloadSuits reg.externals f value
  length : bytes.length = width (valuePieces f.shape (some value))
  written : ∀ later : Fields, later.Ordered → later.get? f.name = some value →
    (∀ holder, f.head.lengthField = some holder →
      later.get? holder.name = start.get? holder.name) →
    encodePayload reg f later = (.ok (respell (valuePieces f.shape (some value)) bytes),later) ∧
    setLength f.head.lengthField (respell (valuePieces f.shape (some value)) bytes) later =
      .ok later

theorem payloadRead_nested {reg : Registry} {f : Plan.Field Plan.Class} {plan : Plan.Class}
    (hshape : f.shape = .nested plan) {start : Fields} {r : Record} {bytes : Text}
    (hcanonical : Canonical reg.externals plan r) (hlength : bytes.length = width (pieces plan r))
    (hencode : encode reg plan r = (.ok (respell (pieces plan r) bytes),r))
    (hset : ∀ (later : Fields) (more : Text), later.Ordered →
      (∀ h, f.head.lengthField = some h → later.get? h.name = start.get? h.name) →
      more.length = bytes.length → setLength f.head.lengthField more later = .ok later) :
    PayloadRead reg f start (.record (some r)) bytes := by
  have hpieces : valuePieces f.shape (some (.record (some r))) = pieces plan r := by
    rw [hshape,valuePieces]
  refine ⟨.inl ⟨plan,r,hshape,rfl,hcanonical⟩,by rw [hpieces,hlength],?_⟩
  intro later hordered hget hsame
  rw [hpieces,encodePayload_nested reg hshape hget,hencode,Fields.set_of_get? hordered hget]
  exact ⟨rfl,hset later _ hordered hsame (length_respell _ _)⟩

theorem decodePayload_ok {reg : Registry} {f : Plan.Field Plan.Class}
    (hvariable : (∃ carrier, f.shape = .slice carrier) ∨ (∃ type, f.shape = .external type) ∨
      ∃ p, f.shape = .nested p)
    (hnested : ∀ p, f.shape = .nested p → Reencodes reg p)
    (hexternal : ∀ type, f.shape = .external type →
      reg.externals.find? type = none)
    {start : Fields} (hholder : ∀ holder, f.head.lengthField = some holder →
      ∃ bits, holder.carrier.Fits bits ∧
        start.get? holder.name = some (number holder.carrier bits))
    {input rest : Text} {value : Value}
    (h : decodePayload reg f start input = .ok (value,rest)) :
    ∃ bytes, input = bytes ++ rest ∧ PayloadRead reg f start value bytes := by
  by_cases hrecord : ∃ p, f.shape = .nested p
  · obtain ⟨plan,hshape⟩ := hrecord
    unfold decodePayload at h
    cases hl : f.head.lengthField with
    | none =>
      simp only [hshape,hl,Result.bind_eq_ok,Result.pure_eq_ok,Except.ok.injEq,Prod.mk.injEq] at h
      obtain ⟨⟨r,next⟩,hdecode,rfl,rfl⟩ := h
      obtain ⟨hcanonical,bytes,hinput,hlength,hencode⟩ := hnested plan hshape hdecode
      refine ⟨bytes,hinput,payloadRead_nested hshape hcanonical hlength hencode ?_⟩
      rw [hl]
      exact fun _ _ _ _ _ => rfl
    | some holder =>
      simp only [hshape,hl,Result.bind_eq_ok,Result.pure_eq_ok,Except.ok.injEq,Prod.mk.injEq] at h
      obtain ⟨⟨payload,next⟩,hread,r,hwhole,rfl,rfl⟩ := h
      obtain ⟨hcanonical,bytes,hpayload,hlength,hencode⟩ := hnested plan hshape (whole_ok hwhole)
      rw [List.append_nil] at hpayload
      subst hpayload
      rw [← hl] at hread
      obtain ⟨hinput,hset⟩ := readPayload_same hholder hread
      exact ⟨payload,hinput,payloadRead_nested hshape hcanonical hlength hencode hset⟩
  · have hplain : ∀ p, f.shape ≠ .nested p := fun p hp => hrecord ⟨p,hp⟩
    rw [decodePayload_plain reg hplain] at h
    simp only [Result.bind_eq_ok,Result.pure_eq_ok,Except.ok.injEq,Prod.mk.injEq] at h
    obtain ⟨⟨payload,next⟩,hread,_,hdecode,rfl,rfl⟩ := h
    obtain ⟨hinput,hset⟩ := readPayload_same hholder hread
    have hkind : (∃ type, f.shape = .external type ∧
        reg.externals.find? type = none) ∨ ∃ carrier, f.shape = .slice carrier := by
      rcases hvariable with hslice | ⟨type,htype⟩ | hnest
      · exact .inr hslice
      · exact .inl ⟨type,htype,hexternal type htype⟩
      · exact absurd hnest hrecord
    obtain ⟨hsuits,hencode,hlength,hrespell⟩ := decodePlain_ok hkind hdecode
    refine ⟨payload,hinput,.inr ⟨hplain,hsuits⟩,hlength,?_⟩
    intro later hordered hget hsame
    rw [hrespell,encodePayload_plain reg hplain,hget,Option.getD_some,hencode]
    exact ⟨rfl,hset later payload hordered hsame rfl⟩

/-- The payloads once they have been read: the values that come of it are written as their bytes,
and are left as they are. -/
structure PayloadsRead (reg : Registry) (className : Text) (fields : List (Plan.Field Plan.Class))
    (start values : Fields) (input rest : Text) : Prop where
  into : ReadInto false (PayloadSuits reg.externals) fields start values
  written : ∃ bytes, input = bytes ++ rest ∧ bytes.length = width (payloadPieces fields values) ∧
    encodePayloads reg className fields values =
      (.ok (respell (payloadPieces fields values) bytes),values)

theorem PayloadsRead.skip {reg : Registry} {className : Text} {f : Plan.Field Plan.Class}
    {fields : List (Plan.Field Plan.Class)} {start values : Fields} {input rest : Text}
    (h : PayloadsRead reg className fields start values input rest) (hf : f.isFixed = true) :
    PayloadsRead reg className (f :: fields) start values input rest := by
  obtain ⟨hinto,bytes,hinput,hlength,hencode⟩ := h
  refine ⟨hinto.skip (by simp [hf]),bytes,hinput,?_⟩
  rw [payloadPieces_cons,encodePayloads_cons]
  simp only [hf,if_true,List.nil_append]
  exact ⟨hlength,hencode⟩

theorem PayloadsRead.cons {reg : Registry} {className : Text} {f : Plan.Field Plan.Class}
    {fields : List (Plan.Field Plan.Class)} (hfields : Arranged (f :: fields))
    (hf : f.isFixed = false) {start values : Fields} (hordered : start.Ordered) {value : Value}
    {bytes next rest : Text} (hfirst : PayloadRead reg f start value bytes)
    (h : PayloadsRead reg className fields (start.set f.name value) values next rest) :
    PayloadsRead reg className (f :: fields) start values (bytes ++ next) rest := by
  obtain ⟨hinto,more,hnext,hmore,hencode⟩ := h
  have hget := hinto.get? hfields
  -- Neither this payload nor those behind it take the place of its length.
  have hholder : ∀ holder, f.head.lengthField = some holder →
      values.get? holder.name = start.get? holder.name := by
    intro holder hl
    rw [hinto.frame holder.name fun g hg hg' =>
      Ne.symm (hfields.apart g (by simp [hg]) hg' f (by simp) holder hl),Fields.get?_set,
      if_neg (hfields.apart f (by simp) hf f (by simp) holder hl)]
  obtain ⟨hpayload,hset⟩ :=
    hfirst.written values (hinto.ordered (hordered.set _ _)) hget hholder
  refine ⟨hinto.cons hfields hf hfirst.suits,bytes ++ more,?_,?_,?_⟩
  · rw [hnext,List.append_assoc]
  · rw [payloadPieces_cons,hget]
    simp only [hf,Bool.false_eq_true,if_false,width_append,List.length_append,hfirst.length,hmore]
  · rw [payloadPieces_cons,encodePayloads_cons,hget]
    simp only [hf,Bool.false_eq_true,if_false]
    rw [hpayload,encodeThen_ok hset,hencode,respell_append hfirst.length]
    rfl

theorem decodePayloads_ok {reg : Registry} {className : Text}
    {fields : List (Plan.Field Plan.Class)} (hfields : Arranged fields)
    (hnested : ∀ f ∈ fields, ∀ p, f.shape = .nested p → Reencodes reg p)
    (hexternal : ∀ f ∈ fields, ∀ type, f.shape = .external type →
      reg.externals.find? type = none)
    {start values : Fields} (hordered : start.Ordered)
    (hholders : ∀ f ∈ fields, ∀ holder, f.head.lengthField = some holder →
      ∃ bits, holder.carrier.Fits bits ∧
        start.get? holder.name = some (number holder.carrier bits))
    {input rest : Text} (h : decodePayloads reg className fields start input = .ok (values,rest)) :
    PayloadsRead reg className fields start values input rest := by
  induction fields generalizing start input with
  | nil =>
    rw [decodePayloads] at h
    cases h
    exact ⟨readInto_nil,[],rfl,rfl,by rw [encodePayloads]; rfl⟩
  | cons f fields ih =>
    have hnested' : ∀ g ∈ fields, ∀ p, g.shape = .nested p → Reencodes reg p :=
      fun g hg => hnested g (by simp [hg])
    have hexternal' : ∀ g ∈ fields, ∀ type, g.shape = .external type →
        reg.externals.find? type = none := fun g hg => hexternal g (by simp [hg])
    rw [decodePayloads_cons] at h
    cases hfixed : f.isFixed with
    | true =>
      simp only [hfixed,if_true] at h
      have hread := ih hfields.tail hnested' hexternal' hordered
        (fun g hg => hholders g (by simp [hg])) h
      exact hread.skip hfixed
    | false =>
      simp only [hfixed,Bool.false_eq_true,if_false,Result.bind_eq_ok,within,
        Result.mapError_eq_ok] at h
      obtain ⟨⟨value,next⟩,hfirst,h⟩ := h
      obtain ⟨bytes,rfl,hpayload⟩ := decodePayload_ok
        ((hfields.regular f (by simp)).payload hfixed) (hnested f (by simp))
        (hexternal f (by simp)) (hholders f (by simp)) hfirst
      refine PayloadsRead.cons hfields hfixed hordered hpayload ?_
      refine ih hfields.tail hnested' hexternal' (hordered.set _ _) ?_ h
      intro g hg holder hl
      rw [Fields.get?_set,if_neg (hfields.apart f (by simp) hfixed g (by simp [hg]) holder hl)]
      exact hholders g (by simp [hg]) holder hl

theorem decodeHeader_ok {reg : Registry} {parent : Option Plan.Class}
    (hparent : ∀ p, parent = some p → Reencodes reg p) {input rest : Text} {header : Option Record}
    (h : decodeHeader reg parent input = .ok (header,rest)) :
    header.isSome = parent.isSome ∧
    (∀ p q, parent = some p → header = some q → Canonical reg.externals p q) ∧
    ∃ bytes, input = bytes ++ rest ∧ bytes.length = width (headerPieces parent header) ∧
      encodeHeader reg parent header =
        (.ok (respell (headerPieces parent header) bytes),header) := by
  cases parent with
  | none =>
    cases h
    have hnone : headerPieces none none = [] := by simp [headerPieces]
    rw [hnone]
    exact ⟨rfl,by simp,[],rfl,rfl,rfl⟩
  | some p =>
    simp only [decodeHeader,Result.bind_eq_ok,Result.pure_eq_ok,Except.ok.injEq,
      Prod.mk.injEq] at h
    obtain ⟨⟨r,next⟩,hdecode,rfl,rfl⟩ := h
    obtain ⟨hcanonical,bytes,hinput,hlength,hencode⟩ := hparent p rfl hdecode
    refine ⟨rfl,?_,bytes,hinput,?_⟩
    · rintro _ _ ⟨⟩ ⟨⟩
      exact hcanonical
    rw [headerPieces]
    refine ⟨hlength,?_⟩
    simp only [encodeHeader,encodeOr,hencode]

theorem canonical_of_read {externals : External.Kinds} {plan : Plan.Class}
    (hfields : Arranged plan.fields) {header : Option Record}
    (hheaded : header.isSome = plan.parent.isSome)
    (hparent : ∀ p h, plan.parent = some p → header = some h → Canonical externals p h)
    {start values : Fields}
    (hstart : ReadInto true (fun f value => ∀ externals, Suits externals f value) plan.fields []
      start)
    (hread : ReadInto false (PayloadSuits externals) plan.fields start values) :
    Canonical externals plan (.mk plan.name header values) := by
  have hrecords : ∀ f ∈ plan.fields, ∀ p, f.shape = .nested p →
      ∃ r, values.get? f.name = some (.record (some r)) ∧ Canonical externals p r := by
    intro f hf p hshape
    cases hfixed : f.isFixed with
    | true => exact absurd hshape ((hfields.regular f hf).not_nested hfixed p)
    | false =>
      obtain ⟨value,hget,⟨q,r,hq,rfl,hr⟩ | ⟨hplain,-⟩⟩ := hread.suits f hf hfixed
      · rw [hshape] at hq
        cases hq
        exact ⟨r,hget,hr⟩
      · exact absurd hshape (hplain p)
  refine .mk (hread.ordered (hstart.ordered Fields.ordered_nil)) ?_ hheaded hparent ?_ ?_ ?_
  · intro name value hget
    by_contra hne
    have hother : ∀ f ∈ plan.fields, f.name ≠ name := fun f hf heq => hne ⟨f,hf,heq⟩
    rw [hread.frame name fun f hf _ => hother f hf,
      hstart.frame name fun f hf _ => hother f hf] at hget
    cases hget
  · intro f hf _ hplain
    cases hfixed : f.isFixed with
    | true =>
      obtain ⟨value,hget,hsuits⟩ := hstart.suits f hf hfixed
      exact ⟨value,by rw [hread.kept hfields hf hfixed,hget],hsuits externals⟩
    | false =>
      obtain ⟨value,hget,⟨p,_,hp,-⟩ | ⟨-,hsuits⟩⟩ := hread.suits f hf hfixed
      · exact absurd hp (hplain p)
      · exact ⟨value,hget,hsuits⟩
  · intro f hf p hshape
    obtain ⟨r,hget,-⟩ := hrecords f hf p hshape
    exact ⟨r,hget⟩
  · intro f hf p r hshape hget
    obtain ⟨q,hget',hq⟩ := hrecords f hf p hshape
    rw [hget] at hget'
    cases hget'
    exact hq

theorem reencodes {reg : Registry} {plan : Plan.Class}
    (h : plan.Forall fun c => c.WellFormed ∧ Unregistered reg.externals c) :
    Reencodes reg plan := by
  induction h with
  | @mk plan hown _ _ hparent hnested =>
    obtain ⟨hwf,hunregistered⟩ := hown
    intro input rest r h
    rw [decode_eq] at h
    simp only [Result.bind_eq_ok,Result.pure_eq_ok,Except.ok.injEq,Prod.mk.injEq] at h
    obtain ⟨⟨header,input₁⟩,hheader,⟨start,input₂⟩,hfixed,⟨values,input₃⟩,hpayloads,rfl,rfl⟩ := h
    have hfields : Arranged plan.fields := arranged_of_wellFormed hwf
    obtain ⟨hheaded,hcanonical,front,hinput,hfront,hencodeHeader⟩ := decodeHeader_ok hparent hheader
    have hstart : FixedRead plan.name plan.fields [] start input₁ input₂ :=
      decodeFixed_ok hfields hfixed
    have hholders : ∀ f ∈ plan.fields, ∀ holder, f.head.lengthField = some holder →
        ∃ bits, holder.carrier.Fits bits ∧
          start.get? holder.name = some (number holder.carrier bits) := by
      intro f hf holder hl
      obtain ⟨g,hg,hname,hshape,htransform⟩ := hwf.holder hf hl
      obtain ⟨value,hget,hsuits⟩ :=
        hstart.into.suits g hg ((hfields.regular g hg).isFixed_scalar hshape)
      have hnumber := hsuits reg.externals
      simp only [Suits,hshape,htransform] at hnumber
      obtain ⟨bits,hfits,-,rfl⟩ := hnumber
      exact ⟨bits,hfits,by rw [← hname,hget]; rfl⟩
    have hread : PayloadsRead reg plan.name plan.fields start values input₂ input₃ :=
      decodePayloads_ok hfields hnested hunregistered (hstart.into.ordered Fields.ordered_nil)
        hholders hpayloads
    obtain ⟨fixed,hinput₁,hlength,hencodeFixed⟩ := hstart.written
    obtain ⟨payloads,hinput₂,hlength',hencodePayloads⟩ := hread.written
    refine ⟨canonical_of_read hfields hheaded hcanonical hstart.into hread.into,
      front ++ fixed ++ payloads,?_,?_,?_⟩
    · rw [hinput,hinput₁,hinput₂]
      simp
    · rw [pieces_eq]
      simp [width_append,hfront,hlength,hlength']
    · rw [encode_eq,pieces_eq]
      simp only [header_mk,fields_mk,className_mk,hencodePayloads,encodeAround,hencodeHeader,
        hencodeFixed values fun f hf hfixed => hread.into.kept hfields hf hfixed,
        Result.ok_bind,Result.pure_eq_ok]
      rw [respell_append (by simp [width_append,hfront,hlength]),respell_append hfront]

def Piece.IsPlain (piece : Piece) : Prop :=
  piece.transform ≠ .bool ∧ piece.transform.isMask = false

theorem respell_of_isPlain {ps : List Piece} (h : ∀ piece ∈ ps, piece.IsPlain) (bytes : Text) :
    respell ps bytes = bytes := by
  induction ps generalizing bytes with
  | nil => rfl
  | cons piece ps ih =>
    have hpiece : ∀ t : Text, piece.respell t = t := by
      obtain ⟨hbool,hmask⟩ := h piece (by simp)
      intro t
      unfold Piece.respell
      cases ht : piece.transform with
      | bool => exact absurd ht hbool
      | protoMask => simp [ht,Transform.isMask] at hmask
      | protoMaskGc => simp [ht,Transform.isMask] at hmask
      | _ => rfl
    rw [respell,hpiece,ih fun q hq => h q (by simp [hq]),List.take_append_drop]

theorem isPlain_fixedPieces {fields : List (Plan.Field Plan.Class)}
    (h : ∀ f ∈ fields, f.head.transform ≠ .bool ∧ f.head.transform.isMask = false) :
    ∀ piece ∈ fixedPieces fields, piece.IsPlain := by
  intro piece hpiece
  obtain ⟨f,hf,rfl⟩ := List.mem_map.mp hpiece
  have hf := h f (List.mem_filter.mp hf).1
  unfold pieceOf Piece.IsPlain
  split
  · exact hf
  · exact ⟨by simp,rfl⟩

theorem isPlain_valuePieces {shape : Plan.Shape Plan.Class}
    (h : ∀ p, shape = .nested p → ∀ r, ∀ piece ∈ pieces p r, piece.IsPlain)
    (value : Option Value) : ∀ piece ∈ valuePieces shape value, piece.IsPlain := by
  intro piece hpiece
  unfold valuePieces at hpiece
  split at hpiece
  · exact h _ rfl _ piece hpiece
  · rw [List.mem_singleton.mp hpiece]
    exact ⟨by simp,rfl⟩
  · rw [List.mem_singleton.mp hpiece]
    exact ⟨by simp,rfl⟩
  · cases hpiece

theorem isPlain_payloadPieces {fields : List (Plan.Field Plan.Class)}
    (h : ∀ f ∈ fields, ∀ p, f.shape = .nested p → ∀ r, ∀ piece ∈ pieces p r, piece.IsPlain)
    (values : Fields) : ∀ piece ∈ payloadPieces fields values, piece.IsPlain := by
  induction fields with
  | nil => simp [payloadPieces]
  | cons f fields ih =>
    intro piece hpiece
    rw [payloadPieces_cons,List.mem_append] at hpiece
    rcases hpiece with hpiece | hpiece
    · split at hpiece
      · cases hpiece
      · exact isPlain_valuePieces (h f (by simp)) _ piece hpiece
    · exact ih (fun g hg => h g (by simp [hg])) piece hpiece

theorem isPlain_pieces {plan : Plan.Class} (h : plan.Forall Untransformed) (r : Record) :
    ∀ piece ∈ pieces plan r, piece.IsPlain := by
  induction h generalizing r with
  | @mk plan hown _ _ hparent hnested =>
    intro piece hpiece
    rw [pieces_eq,List.mem_append,List.mem_append] at hpiece
    rcases hpiece with (hpiece | hpiece) | hpiece
    · unfold headerPieces at hpiece
      split at hpiece
      · rename_i p q hp hq
        exact hparent p hp q piece hpiece
      · cases hpiece
    · exact isPlain_fixedPieces hown piece hpiece
    · exact isPlain_payloadPieces (fun f hf p hp r => hnested f hf p hp r) r.fields piece hpiece

end WireSchema.Record

namespace WireSchema.Codec

open Record (Canonical Unregistered Untransformed pieces respell width)

variable {schema : Schema} {supportsGc : Bool} {c : Codec} {name : Text} {plan : Plan.Class}

theorem reencodes (hs : schema.Sound) (hc : c.planner.Sound schema supportsGc)
    (hplan : (c.plan name).1 = .ok plan) (hexternals : plan.Forall (Unregistered c.externals)) :
    Record.Reencodes c.registry plan :=
  Record.reencodes (((plan_forall hs hc hplan).2.imp fun _ hl => hl.wellFormed hs).and hexternals)

theorem canonical_of_decode (hs : schema.Sound) (hc : c.planner.Sound schema supportsGc)
    (hplan : (c.plan name).1 = .ok plan) (hexternals : plan.Forall (Unregistered c.externals))
    {buf : Text} {r : Record} (h : (c.decode name buf).1 = .ok r) :
    Canonical c.externals plan r := by
  rw [decode_of_plan hplan] at h
  exact (reencodes hs hc hplan hexternals (Record.whole_ok h)).1

/-- A record that has been read is written again as the bytes that it was read from, but for flags
and tags, which are respelt; without these, as the very bytes. -/
theorem encode_decode {path : Text} {doc : Document} {ws : List Schema.Warning}
    (h : Schema.compile path doc = .ok (schema,ws)) {calls : List Planner.Call}
    (hc : c.planner = (Planner.new schema supportsGc).after calls)
    (hplan : (c.plan name).1 = .ok plan) (hexternals : plan.Forall (Unregistered c.externals))
    {buf : Text} {r : Record} (hdecode : (c.decode name buf).1 = .ok r) :
    ((c.decode name buf).2.encode r).1 = .ok (respell (pieces plan r) buf) ∧
    ((c.decode name buf).2.encode r).2.1 = r ∧
    width (pieces plan r) = buf.length ∧
    (respell (pieces plan r) buf).length = buf.length ∧
    (plan.Forall Untransformed → ((c.decode name buf).2.encode r).1 = .ok buf) := by
  have hs := Schema.sound_of_compile h
  have hplanner : c.planner.Sound schema supportsGc := hc ▸ Planner.sound_after hs calls
  have hname := (plan_forall hs hplanner hplan).1
  have hread : Record.Reencodes c.registry plan := reencodes hs hplanner hplan hexternals
  rw [decode_of_plan hplan] at hdecode ⊢
  have hrecord := Record.whole_ok hdecode
  obtain ⟨hcanonical,bytes,hbuf,hlength,hencode⟩ := hread hrecord
  rw [List.append_nil] at hbuf
  subst hbuf
  have hclass : r.className = name := hcanonical.className.trans hname
  have hagain : ((c.plan name).2.plan r.className).1 = .ok plan := by
    rw [hclass,plan_again hplan]
  have hwritten : ((c.plan name).2.encode r).1 = .ok (respell (pieces plan r) buf) ∧
      ((c.plan name).2.encode r).2.1 = r := by
    rw [encode_of_plan hagain,registry_plan,hencode]
    exact ⟨rfl,rfl⟩
  refine ⟨hwritten.1,hwritten.2,hlength.symm,Record.length_respell _ _,?_⟩
  intro hplain
  rw [hwritten.1,Record.respell_of_isPlain (Record.isPlain_pieces hplain r)]

theorem hello_encode_decode : ∃ plan, ((new helloSchema true .empty).plan "MsgHello").1 = .ok plan ∧
    (((new helloSchema true .empty).decode "MsgHello" helloBytes).2.encode helloRecord).1 =
      .ok (respell (pieces plan helloRecord) helloBytes) := by
  obtain ⟨ws,hcompile⟩ := compile_hello
  obtain ⟨plan,hplan⟩ := plan_hello
  have hs := Schema.sound_of_compile hcompile
  have hexternals : plan.Forall (Unregistered (new helloSchema true .empty).externals) :=
    (plan_forall hs (Planner.sound_after hs []) hplan).2.imp fun _ _ _ _ _ _ => rfl
  have hplanner : (new helloSchema true .empty).planner = (Planner.new helloSchema true).after [] :=
    rfl
  exact ⟨plan,hplan,(encode_decode hcompile hplanner hplan hexternals decode_hello).1⟩

end WireSchema.Codec
