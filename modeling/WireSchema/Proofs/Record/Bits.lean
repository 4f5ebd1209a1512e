import WireSchema.Proofs.Basic
import WireSchema.Record.Codec
import Mathlib.Data.Nat.Bitwise
set_option autoImplicit false

namespace WireSchema

namespace Bits

theorem toNat_ofInt (n : Int) : (UInt64.ofInt n).toNat = (n % 2 ^ 64).toNat := by
  unfold UInt64.ofInt
  rw [UInt64.toNat_ofNat']
  omega

theorem ofInt_natCast (n : Nat) : UInt64.ofInt n = n.toUInt64 := by
  refine UInt64.toNat_inj.mp ?_
  rw [toNat_ofInt,UInt64.toNat_ofNat']
  omega

end Bits

namespace Payload

theorem valueOf_lt (bytes : Text) : valueOf bytes < 256 ^ bytes.length := by
  induction bytes with
  | nil => simp [valueOf]
  | cons b rest ih =>
    have hb : b.toNat < 256 := b.toNat_lt
    rw [valueOf,List.length_cons,Nat.pow_succ]
    omega

theorem valueOf_bytesOf (width n : Nat) : valueOf (bytesOf width n) = n % 256 ^ width := by
  induction width generalizing n with
  | zero => simp [bytesOf,valueOf,Nat.mod_one]
  | succ width ih =>
    have hbyte : (n % 256).toUInt8.toNat = n % 256 := by
      rw [UInt8.toNat_ofNat']
      omega
    rw [bytesOf,valueOf,ih,hbyte,Nat.pow_succ,Nat.mul_comm (256 ^ width),Nat.mod_mul]

theorem bytesOf_valueOf (bytes : Text) : bytesOf bytes.length (valueOf bytes) = bytes := by
  induction bytes with
  | nil => rfl
  | cons b rest ih =>
    have hb : b.toNat < 256 := b.toNat_lt
    have hmod : (b.toNat + 256 * valueOf rest) % 256 = b.toNat := by omega
    have hdiv : (b.toNat + 256 * valueOf rest) / 256 = valueOf rest := by omega
    rw [valueOf,List.length_cons,bytesOf,hmod,hdiv,ih]
    simp

theorem bytesOf_eq_map (width n : Nat) :
    bytesOf width n = (List.range width).map fun i => (n / 256 ^ i % 256).toUInt8 := by
  induction width generalizing n with
  | zero => rfl
  | succ width ih =>
    rw [bytesOf,ih,List.range_succ_eq_map]
    simp [Nat.div_div_eq_div_mul,Nat.pow_succ,Nat.mul_comm]

end Payload

namespace Record

theorem length_store (size : Nat) (bits : UInt64) : (store size bits).length = size := by
  simp [store]

theorem store_eq_bytesOf {size : Nat} (h : size ≤ 8) (bits : UInt64) :
    store size bits = Payload.bytesOf size bits.toNat := by
  rw [Payload.bytesOf_eq_map,store]
  refine List.map_congr_left fun i hi => ?_
  have hi8 : i < 8 := by
    have := List.mem_range.mp hi
    omega
  have hshift : (8 * i).toUInt64.toNat % 64 = 8 * i := by
    rw [UInt64.toNat_ofNat']
    omega
  refine UInt8.toNat_inj.mp ?_
  have h256 : (2 ^ 8 : Nat) = 256 := rfl
  rw [UInt64.toNat_toUInt8,UInt64.toNat_shiftRight,hshift,Nat.shiftRight_eq_div_pow,
    UInt8.toNat_ofNat',Nat.pow_mul,h256,Nat.mod_mod]

theorem toNat_load {bytes : Text} (h : bytes.length ≤ 8) :
    (load bytes).toNat = Payload.valueOf bytes := by
  induction bytes with
  | nil => rfl
  | cons b rest ih =>
    have hrest : rest.length ≤ 7 := Nat.le_of_succ_le_succ h
    have hlt := Payload.valueOf_lt rest
    have hpow : 256 ^ rest.length ≤ 256 ^ 7 := Nat.pow_le_pow_right (by omega) hrest
    have hb : b.toNat < 2 ^ 8 := b.toNat_lt
    have hload : load (b :: rest) = b.toUInt64 ||| (load rest <<< 8) := rfl
    have hshift : Payload.valueOf rest <<< 8 % 2 ^ 64 = 2 ^ 8 * Payload.valueOf rest := by
      rw [Nat.shiftLeft_eq]
      omega
    rw [hload,UInt64.toNat_or,UInt64.toNat_shiftLeft,ih (by omega),UInt8.toNat_toUInt64]
    have h8 : (8 : UInt64).toNat % 64 = 8 := rfl
    rw [h8,hshift,Payload.valueOf,Nat.or_comm,← Nat.two_pow_add_eq_or_of_lt hb]
    omega

theorem store_load {size : Nat} {bytes : Text} (hlength : bytes.length = size) (h : size ≤ 8) :
    store size (load bytes) = bytes := by
  rw [store_eq_bytesOf h,toNat_load (by omega),← hlength,Payload.bytesOf_valueOf]

end Record

namespace Primitive

/-- The pattern has no bits beyond the width of the type. -/
def Fits (p : Primitive) (bits : UInt64) : Prop := bits.toNat < 256 ^ p.size

theorem toNat_mask (p : Primitive) (bits : UInt64) :
    (p.mask bits).toNat = bits.toNat % 256 ^ p.size := by
  have hlt : bits.toNat < 2 ^ 64 := bits.toNat_lt
  have hcut : ∀ (k : Nat) (m : UInt64), m.toNat = 2 ^ k - 1 →
      (bits &&& m).toNat = bits.toNat % 2 ^ k := by
    intro k m hm
    rw [UInt64.toNat_and,hm,Nat.and_two_pow_sub_one_eq_mod]
  cases p with
  | long => exact (Nat.mod_eq_of_lt hlt).symm
  | ulong => exact (Nat.mod_eq_of_lt hlt).symm
  | byte => exact hcut 8 _ rfl
  | sbyte => exact hcut 8 _ rfl
  | char => exact hcut 8 _ rfl
  | short => exact hcut 16 _ rfl
  | ushort => exact hcut 16 _ rfl
  | int => exact hcut 32 _ rfl
  | uint => exact hcut 32 _ rfl

theorem fits_mask (p : Primitive) (bits : UInt64) : p.Fits (p.mask bits) := by
  rw [Fits,toNat_mask]
  exact Nat.mod_lt _ (Nat.pow_pos (by decide))

theorem mask_of_fits {p : Primitive} {bits : UInt64} (h : p.Fits bits) : p.mask bits = bits :=
  UInt64.toNat_inj.mp (by rw [toNat_mask,Nat.mod_eq_of_lt h])

def greatest (p : Primitive) : Nat :=
  if p.unsigned then 256 ^ p.size - 1 else 256 ^ p.size / 2 - 1

theorem toInt_shift_back (bits s : UInt64) (n : Nat) (hleft : s.toNat % 64 = n)
    (hright : (s.toBitVec.smod 64).toNat = n) :
    ((bits <<< s).toInt64 >>> s.toInt64).toInt =
      Int.bmod (bits.toNat * 2 ^ n) (2 ^ 64) / 2 ^ n := by
  have hbits : (bits <<< s).toInt64.toBitVec = bits.toBitVec <<< n := by
    rw [UInt64.toBitVec_toInt64,UInt64.toBitVec_shiftLeft]
    simp [hleft]
  have hshift : (s.toInt64.toBitVec.smod 64).toNat = n := hright
  rw [← Int64.toInt_toBitVec,Int64.toBitVec_shiftRight,BitVec.toInt_sshiftRight',hbits,hshift,
    BitVec.toInt_shiftLeft,Int.shiftRight_eq_div_pow,Nat.shiftLeft_eq]
  push_cast
  rfl

theorem toInt_signed {p : Primitive} (hp : p.unsigned = false) (bits : UInt64) :
    (p.signed bits).toInt = Int.bmod bits.toNat (256 ^ p.size) := by
  have hlt : bits.toNat < 2 ^ 64 := bits.toNat_lt
  cases p with
  | sbyte =>
    refine (toInt_shift_back bits _ 56 rfl rfl).trans ?_
    simp only [size,Int.bmod]
    omega
  | short =>
    refine (toInt_shift_back bits _ 48 rfl rfl).trans ?_
    simp only [size,Int.bmod]
    omega
  | int =>
    refine (toInt_shift_back bits _ 32 rfl rfl).trans ?_
    simp only [size,Int.bmod]
    omega
  | long => exact BitVec.toInt_eq_toNat_bmod bits.toBitVec
  | _ => cases hp

theorem mask_toUInt64_signed {p : Primitive} (hp : p.unsigned = false) {bits : UInt64}
    (h : p.Fits bits) : p.mask (p.signed bits).toUInt64 = bits := by
  refine UInt64.toNat_inj.mp ?_
  have hint := toInt_signed hp bits
  have hback : (p.signed bits).toInt = Int.bmod (p.signed bits).toUInt64.toNat (2 ^ 64) :=
    BitVec.toInt_eq_toNat_bmod (p.signed bits).toBitVec
  rw [hback] at hint
  rw [toNat_mask]
  unfold Fits at h
  cases p with
  | sbyte =>
    simp only [size,Int.bmod] at h hint ⊢
    omega
  | short =>
    simp only [size,Int.bmod] at h hint ⊢
    omega
  | int =>
    simp only [size,Int.bmod] at h hint ⊢
    omega
  | long =>
    simp only [size,Int.bmod] at h hint ⊢
    omega
  | _ => cases hp

theorem toInt_signed_of_le {p : Primitive} {bits : UInt64} (h : p.Fits bits)
    (hsmall : bits.toNat < 2 ^ 63) :
    (0 ≤ (p.signed bits).toInt ↔ bits.toNat ≤ p.greatest) ∧
      (0 ≤ (p.signed bits).toInt → (p.signed bits).toInt = bits.toNat) := by
  have hsigned : (p.signed bits).toInt =
      Int.bmod bits.toNat (if p.unsigned then 2 ^ 64 else 256 ^ p.size) := by
    cases hp : p.unsigned with
    | false => exact toInt_signed hp bits
    | true =>
      have heq : p.signed bits = bits.toInt64 := by simp [signed,Bits.signed,hp]
      rw [heq]
      exact BitVec.toInt_eq_toNat_bmod bits.toBitVec
  rw [hsigned]
  unfold Fits at h
  cases p <;>
  · simp only [size,unsigned,greatest,Int.bmod,if_true,Bool.false_eq_true,if_false] at h ⊢
    omega

def least (p : Primitive) : Int := if p.unsigned then 0 else -(256 ^ p.size / 2 : Nat)

def Holds (p : Primitive) (n : Int) : Prop := p.least ≤ n ∧ n ≤ p.greatest

instance (p : Primitive) (n : Int) : Decidable (p.Holds n) :=
  inferInstanceAs (Decidable (_ ∧ _))

theorem denote_eq (p : Primitive) (bits : UInt64) :
    p.denote bits = if p.unsigned then ((bits.toNat % 256 ^ p.size : Nat) : Int)
      else Int.bmod bits.toNat (256 ^ p.size) := by
  cases hp : p.unsigned with
  | true => simp [denote,hp,toNat_mask]
  | false => simp [denote,hp,toInt_signed hp]

theorem denote_mask (p : Primitive) (bits : UInt64) : p.denote (p.mask bits) = p.denote bits := by
  rw [denote_eq,denote_eq,toNat_mask]
  cases p.unsigned with
  | true => simp
  | false => simp [Int.bmod_def]

theorem denote_of_nonneg {p : Primitive} {bits : UInt64} (h : 0 ≤ p.denote bits) :
    p.denote bits = (p.mask bits).toNat := by
  rw [denote_eq] at h ⊢
  rw [toNat_mask]
  cases hp : p.unsigned with
  | true => rfl
  | false =>
    have hpos : 0 < 256 ^ p.size := Nat.pow_pos (by decide)
    simp only [hp,Bool.false_eq_true,if_false,Int.bmod_def] at h ⊢
    split at h
    · rename_i hlow
      rw [if_pos hlow]
      rfl
    · have hlt := Int.emod_lt_of_pos bits.toNat (Int.natCast_pos.mpr hpos)
      omega

theorem holds_denote (p : Primitive) (bits : UInt64) : p.Holds (p.denote bits) := by
  rw [Holds,denote_eq]
  cases p <;>
  · simp only [size,unsigned,least,greatest,Int.bmod,if_true,Bool.false_eq_true,if_false]
    omega

theorem denote_congr {p q : Primitive} (hsize : p.size = q.size) (hsign : p.unsigned = q.unsigned)
    (bits : UInt64) : p.denote bits = q.denote bits := by
  rw [denote_eq,denote_eq,hsize,hsign]

end Primitive

namespace Record

theorem load_store (p : Primitive) (bits : UInt64) : load (store p.size bits) = p.mask bits := by
  refine UInt64.toNat_inj.mp ?_
  rw [toNat_load (by rw [length_store]; exact p.size_le),store_eq_bytesOf p.size_le,
    Payload.valueOf_bytesOf,Primitive.toNat_mask]

theorem store_mask (p : Primitive) (bits : UInt64) :
    store p.size (p.mask bits) = store p.size bits := by
  rw [← load_store,store_load (length_store _ _) p.size_le]

theorem fits_load {p : Primitive} {bytes : Text} (h : bytes.length = p.size) :
    p.Fits (load bytes) := by
  rw [Primitive.Fits,toNat_load (by rw [h]; exact p.size_le),← h]
  exact Payload.valueOf_lt bytes

theorem bitsOf_number {p : Primitive} {bits : UInt64} (h : p.Fits bits) :
    ∃ more, bitsOf (number p bits) = .ok more ∧ p.mask more = bits := by
  unfold number
  rw [Primitive.mask_of_fits h]
  cases hp : p.unsigned with
  | true => exact ⟨bits,rfl,Primitive.mask_of_fits h⟩
  | false => exact ⟨_,rfl,Primitive.mask_toUInt64_signed hp h⟩

theorem bitsOf_scalarValue {transform : Transform} (ht : transform ≠ .bool) {p : Primitive}
    {bits : UInt64} (h : p.Fits bits) :
    ∃ more, bitsOf (scalarValue transform (some p) bits) = .ok more ∧ p.mask more = bits := by
  cases transform with
  | bool => exact absurd rfl ht
  | steamId => exact ⟨bits,rfl,Primitive.mask_of_fits h⟩
  | gameId => exact ⟨bits,rfl,Primitive.mask_of_fits h⟩
  | none => exact bitsOf_number h
  | protoMask => exact bitsOf_number h
  | protoMaskGc => exact bitsOf_number h

theorem flatMap_store_mask (p : Primitive) (bits : List UInt64) :
    (bits.map p.mask).flatMap (store p.size) = bits.flatMap (store p.size) := by
  simp [List.flatMap_map,store_mask]

theorem elements_numbers {p : Primitive} {bits : List UInt64} (h : ∀ b ∈ bits, p.Fits b) :
    ∃ more, elements (numbers p bits) = .ok more ∧ more.length = bits.length ∧
      more.flatMap (store p.size) = bits.flatMap (store p.size) := by
  have hsame : ∀ more : List UInt64, more.map p.mask = bits → more.length = bits.length ∧
      more.flatMap (store p.size) = bits.flatMap (store p.size) := by
    intro more hmore
    refine ⟨by rw [← hmore,List.length_map],?_⟩
    rw [← hmore,flatMap_store_mask]
  have hmask : ∀ {f : UInt64 → UInt64}, (∀ b ∈ bits, f b = b) → bits.map f = bits := by
    intro f hf
    rw [List.map_congr_left hf,List.map_id']
  unfold numbers
  split
  · rename_i hbyte
    simp only [Bool.and_eq_true,beq_iff_eq] at hbyte
    refine ⟨_,rfl,hsame _ ?_⟩
    simp only [List.map_map]
    refine hmask fun b hb => ?_
    have hfits := h b hb
    have hcut : b.toUInt8.toUInt64 = b := by
      refine UInt64.toNat_inj.mp ?_
      rw [Primitive.Fits,hbyte.2] at hfits
      rw [UInt8.toNat_toUInt64,UInt64.toNat_toUInt8]
      omega
    simp only [Function.comp_apply,hcut]
    exact Primitive.mask_of_fits hfits
  · split
    · exact ⟨bits,rfl,rfl,rfl⟩
    · rename_i hsigned
      refine ⟨_,rfl,hsame _ ?_⟩
      simp only [List.map_map]
      refine hmask fun b hb => ?_
      exact Primitive.mask_toUInt64_signed (by simpa using hsigned) (h b hb)

theorem readBits_append {size : Nat} {bytes : Text} (h : bytes.length = size) (rest : Text) :
    readBits size (bytes ++ rest) = .ok (load bytes,rest) := by
  unfold readBits
  rw [if_neg (by simp [h])]
  simp [← h]

theorem readBits_ok {size : Nat} {input rest : Text} {bits : UInt64}
    (h : readBits size input = .ok (bits,rest)) :
    ∃ bytes, input = bytes ++ rest ∧ bytes.length = size ∧ bits = load bytes := by
  unfold readBits at h
  split at h
  · cases h
  · rename_i hlength
    cases h
    exact ⟨input.take size,(List.take_append_drop size input).symm,by simp; omega,rfl⟩

theorem readMany_store (p : Primitive) (bits : List UInt64) (rest : Text) :
    readMany p.size bits.length (bits.flatMap (store p.size) ++ rest) =
      .ok (bits.map p.mask,rest) := by
  induction bits with
  | nil => rfl
  | cons b bits ih =>
    rw [List.flatMap_cons,List.append_assoc,List.length_cons,readMany,
      readBits_append (length_store p.size b),Result.ok_bind]
    simp only [ih,Result.ok_bind,Result.pure_eq_ok,List.map_cons,load_store]

theorem readMany_ok {p : Primitive} {count : Nat} {input rest : Text} {bits : List UInt64}
    (h : readMany p.size count input = .ok (bits,rest)) :
    input = bits.flatMap (store p.size) ++ rest ∧ bits.length = count ∧ ∀ b ∈ bits, p.Fits b := by
  induction count generalizing input bits with
  | zero =>
    cases h
    simp
  | succ count ih =>
    simp only [readMany,Result.bind_eq_ok] at h
    obtain ⟨⟨b,next⟩,hfirst,⟨more,last⟩,hmore,heq⟩ := h
    simp only [Result.pure_eq_ok,Except.ok.injEq,Prod.mk.injEq] at heq
    obtain ⟨rfl,rfl⟩ := heq
    obtain ⟨bytes,rfl,hlength,rfl⟩ := readBits_ok hfirst
    obtain ⟨rfl,hcount,hfits⟩ := ih hmore
    refine ⟨?_,by simp [hcount],?_⟩
    · simp [store_load hlength p.size_le]
    · intro b hb
      rcases List.mem_cons.mp hb with rfl | hb
      · exact fits_load hlength
      · exact hfits b hb

theorem length_flatMap_store (p : Primitive) (bits : List UInt64) :
    (bits.flatMap (store p.size)).length = p.size * bits.length := by
  induction bits with
  | nil => rfl
  | cons b bits ih =>
    rw [List.flatMap_cons,List.length_append,length_store,ih,List.length_cons,Nat.mul_succ,
      Nat.add_comm]

theorem toNat_of_le_maxSize {n : Nat} (h : n ≤ Payload.maxSize) :
    n.toUInt64.toNat = n ∧ n.toUInt64.toNat < 2 ^ 63 := by
  have hmax : Payload.maxSize = 0x7ff00000 := rfl
  have hn : n.toUInt64.toNat = n % 2 ^ 64 := UInt64.toNat_ofNat'
  omega

theorem greatest_lt (p : Primitive) : p.greatest < 256 ^ p.size := by
  cases p <;> decide

theorem lengthBits_eq (p : Primitive) (n : Nat) :
    lengthBits p n = if n ≤ Payload.maxSize ∧ n ≤ p.greatest then .ok n.toUInt64
      else .error (.tooLong n) := by
  have hneg : ¬ (n : Int) < 0 := by omega
  simp only [lengthBits,Bits.ofInt_natCast,hneg,false_or,Int.ofNat_lt]
  by_cases hmax : n ≤ Payload.maxSize
  · obtain ⟨hn,hsmall⟩ := toNat_of_le_maxSize hmax
    by_cases hfits : p.Fits n.toUInt64
    · obtain ⟨hiff,-⟩ := Primitive.toInt_signed_of_le hfits hsmall
      have hneg : p.signed n.toUInt64 < 0 ↔ ¬ n ≤ p.greatest := by
        rw [Int64.lt_iff_toInt_lt,← hn,← hiff]
        simp [hn]
      simp only [Primitive.mask_of_fits hfits,hneg,hmax]
      by_cases hgreat : n ≤ p.greatest
      · simp [hgreat,Nat.not_lt.mpr hmax]
      · simp [hgreat]
    · have hmask : p.mask n.toUInt64 ≠ n.toUInt64 := by
        intro heq
        exact hfits (heq ▸ p.fits_mask n.toUInt64)
      have hgreat : ¬ n ≤ p.greatest := by
        intro hle
        have hlt := greatest_lt p
        exact hfits (by rw [Primitive.Fits,hn]; omega)
      simp [hmask,hgreat]
  · simp [hmax,Nat.lt_of_not_le hmax]

theorem readPayload_number {holder : Plan.Holder} {values : Fields} {bits : UInt64}
    (hfits : holder.carrier.Fits bits)
    (h : values.get? holder.name = some (number holder.carrier bits)) (input : Text) :
    readPayload (some holder) values input =
      (Payload.read (holder.carrier.denote bits) input).mapError .payload := by
  unfold readPayload
  cases hp : holder.carrier.unsigned with
  | true => simp [h,number,hp,Primitive.denote]
  | false => simp [h,number,hp,Primitive.denote,Primitive.mask_of_fits hfits]

theorem denote_of_le {p : Primitive} {bits : UInt64} (hmax : bits.toNat ≤ Payload.maxSize)
    (hgreat : bits.toNat ≤ p.greatest) : p.denote bits = bits.toNat := by
  have hlt := greatest_lt p
  have hfits : p.Fits bits := Nat.lt_of_le_of_lt hgreat hlt
  have hsize : Payload.maxSize < 2 ^ 63 := by decide
  obtain ⟨hiff,heq⟩ := Primitive.toInt_signed_of_le hfits (by omega)
  rw [Primitive.denote,Primitive.mask_of_fits hfits]
  split
  · rfl
  · exact heq (hiff.mpr hgreat)

theorem le_of_denote {p : Primitive} {bits : UInt64} (hfits : p.Fits bits)
    (hneg : 0 ≤ p.denote bits) (hmax : p.denote bits ≤ Payload.maxSize) :
    bits.toNat ≤ Payload.maxSize ∧ bits.toNat ≤ p.greatest := by
  have hsize : Payload.maxSize < 2 ^ 63 := by decide
  rw [Primitive.denote,Primitive.mask_of_fits hfits] at hneg hmax
  cases hp : p.unsigned with
  | true =>
    simp only [hp,if_true] at hmax
    refine ⟨by omega,?_⟩
    unfold Primitive.Fits at hfits
    simp only [Primitive.greatest,hp,if_true]
    omega
  | false =>
    simp only [hp,Bool.false_eq_true,if_false] at hneg hmax
    by_cases hsmall : bits.toNat < 2 ^ 63
    · obtain ⟨hiff,heq⟩ := Primitive.toInt_signed_of_le hfits hsmall
      have heq := heq hneg
      exact ⟨by omega,hiff.mp hneg⟩
    · -- Only the widest type has patterns so large, and they are negative in it.
      have hint := Primitive.toInt_signed hp bits
      unfold Primitive.Fits at hfits
      rw [hint] at hneg
      cases p <;> simp only [Primitive.size,Int.bmod] at hfits hneg <;> omega

theorem readPayload_append {holder : Plan.Holder} {values : Fields} {payload : Text}
    (hmax : payload.length ≤ Payload.maxSize) (hgreat : payload.length ≤ holder.carrier.greatest)
    (h : values.get? holder.name = some (number holder.carrier payload.length.toUInt64))
    (rest : Text) :
    readPayload (some holder) values (payload ++ rest) = .ok (payload,rest) := by
  obtain ⟨hn,-⟩ := toNat_of_le_maxSize hmax
  have hfits : holder.carrier.Fits payload.length.toUInt64 := by
    rw [Primitive.Fits,hn]
    exact Nat.lt_of_le_of_lt hgreat (greatest_lt _)
  rw [readPayload_number hfits h,denote_of_le (by omega) (by omega),hn]
  have hrange : ¬ ((payload.length : Int) < 0 ∨ (Payload.maxSize : Int) < payload.length) := by
    omega
  rw [Payload.read,Payload.checkLength,if_neg hrange,Result.ok_bind]
  simp

theorem readPayload_ok {holder : Plan.Holder} {values : Fields} {bits : UInt64}
    (hfits : holder.carrier.Fits bits)
    (h : values.get? holder.name = some (number holder.carrier bits)) {input payload rest : Text}
    (hread : readPayload (some holder) values input = .ok (payload,rest)) :
    input = payload ++ rest ∧ payload.length ≤ Payload.maxSize ∧
      payload.length ≤ holder.carrier.greatest ∧ payload.length.toUInt64 = bits := by
  rw [readPayload_number hfits h,Result.mapError_eq_ok] at hread
  simp only [Payload.read,Payload.checkLength,Result.bind_eq_ok] at hread
  obtain ⟨size,hsize,hread⟩ := hread
  split at hsize
  · cases hsize
  · rename_i hrange
    cases hsize
    obtain ⟨hmax,hgreat⟩ := le_of_denote hfits (by omega) (by omega)
    rw [denote_of_le hmax hgreat,Int.toNat_natCast] at hread
    split at hread
    · cases hread
    · rename_i hlength
      cases hread
      have htake : (input.take bits.toNat).length = bits.toNat := by
        simp
        omega
      rw [htake]
      exact ⟨(List.take_append_drop _ _).symm,hmax,hgreat,by simp⟩

end Record

end WireSchema
