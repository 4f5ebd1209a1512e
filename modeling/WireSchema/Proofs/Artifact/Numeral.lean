import WireSchema.Artifact.Constant
import WireSchema.Proofs.Record.Bits
import Mathlib.Data.Int.Bitwise
import Mathlib.Tactic.IntervalCases
set_option autoImplicit false

/-!
Numerals of the artifacts. What is written for a pattern in a storage type reads back as the number
that the pattern denotes there, so it always fits the type; and the number of a union of patterns is
the bitwise union of their numbers, with or without a sign.
-/

namespace WireSchema

namespace Text

theorem digits_of_lt {base n : Nat} (h : n < base) :
    digits base n = [byte (Nat.digitChar n)] := by
  rw [digits,Nat.toDigits_of_lt_base h]
  rfl

theorem digits_of_le {base n : Nat} (hbase : 1 < base) (h : base ≤ n) :
    digits base n = digits base (n / base) ++ [byte (Nat.digitChar (n % base))] := by
  rw [digits,Nat.toDigits_of_base_le hbase h,List.map_append]
  rfl

theorem natIn?_singleton {base d : Nat} {c : UInt8} (hc : digitValue? c = some d) (hd : d < base) :
    natIn? base [c] = some d := by
  simp [natIn?,hc,hd]

theorem natIn?_concat {base n d : Nat} {t : Text} {c : UInt8} (ht : natIn? base t = some n)
    (hc : digitValue? c = some d) (hd : d < base) :
    natIn? base (t ++ [c]) = some (n * base + d) := by
  cases t with
  | nil => simp [natIn?] at ht
  | cons first rest =>
    simp only [natIn?,List.cons_append,List.isEmpty_cons,Bool.false_eq_true,if_false] at ht ⊢
    rw [← List.cons_append,List.foldl_append,ht]
    simp [hc,hd]

theorem natIn?_digits {base : Nat} (hbase : 1 < base) (hle : base ≤ 16) {spell : UInt8 → UInt8}
    (hspell : ∀ d < 16, digitValue? (spell (byte (Nat.digitChar d))) = some d) (n : Nat) :
    natIn? base ((digits base n).map spell) = some n := by
  induction n using Nat.strongRecOn with
  | ind n ih =>
    by_cases hn : n < base
    · rw [digits_of_lt hn]
      exact natIn?_singleton (hspell n (by omega)) hn
    · have hmod : n % base < base := Nat.mod_lt n (by omega)
      have hfront := ih (n / base) (Nat.div_lt_self (by omega) hbase)
      rw [digits_of_le hbase (by omega),List.map_append]
      have hback := natIn?_concat hfront (hspell (n % base) (by omega)) hmod
      rw [Nat.div_add_mod'] at hback
      exact hback

theorem natIn?_ofNat (n : Nat) : natIn? 10 (ofNat n) = some n := by
  have hread : natIn? 10 ((digits 10 n).map id) = some n :=
    natIn?_digits (by decide) (by decide) (by decide) n
  rwa [List.map_id] at hread

theorem natIn?_upper (n : Nat) : natIn? 16 ((digits 16 n).map upper) = some n :=
  natIn?_digits (by decide) (by decide) (by decide) n

theorem ofNat_cons {n : Nat} (h : 0 < n) :
    ∃ d rest, 0 < d ∧ d < 10 ∧ ofNat n = byte (Nat.digitChar d) :: rest := by
  induction n using Nat.strongRecOn with
  | ind n ih =>
    by_cases hn : n < 10
    · exact ⟨n,[],h,hn,digits_of_lt hn⟩
    · obtain ⟨d,rest,hpos,hlt,heq⟩ := ih (n / 10) (by omega) (by omega)
      refine ⟨d,rest ++ [byte (Nat.digitChar (n % 10))],hpos,hlt,?_⟩
      rw [ofNat] at heq ⊢
      rw [digits_of_le (by decide) (by omega),heq]
      rfl

end Text

namespace Bits

theorem toInt_sign {width : Nat} (x : BitVec width) :
    x.toInt = if x.msb then Int.negSucc (~~~x).toNat else Int.ofNat x.toNat := by
  have hlt := x.isLt
  rw [BitVec.toInt_eq_msb_cond]
  cases x.msb with
  | false => rfl
  | true =>
    have hpow : ((2 ^ width : Nat) : Int) = 2 ^ width := by push_cast; rfl
    simp only [if_true,BitVec.toNat_not]
    omega

theorem ldiff_not {width : Nat} (x y : BitVec width) :
    Nat.ldiff (~~~x).toNat y.toNat = (~~~(x ||| y)).toNat := by
  refine Nat.eq_of_testBit_eq fun i => ?_
  rw [Nat.testBit_ldiff,BitVec.testBit_toNat,BitVec.testBit_toNat,BitVec.testBit_toNat]
  simp only [BitVec.getLsbD_not,BitVec.getLsbD_or]
  cases x.getLsbD i <;> cases y.getLsbD i <;> simp

theorem toInt_or {width : Nat} (x y : BitVec width) :
    (x ||| y).toInt = Int.lor x.toInt y.toInt := by
  rw [toInt_sign,toInt_sign x,toInt_sign y,BitVec.msb_or]
  cases x.msb with
  | false =>
    cases y.msb with
    | false => exact congrArg Int.ofNat (BitVec.toNat_or x y)
    | true =>
      rw [BitVec.or_comm]
      exact congrArg Int.negSucc (ldiff_not y x).symm
  | true =>
    cases y.msb with
    | false => exact congrArg Int.negSucc (ldiff_not x y).symm
    | true =>
      rw [BitVec.not_or]
      exact congrArg Int.negSucc (BitVec.toNat_and _ _)

end Bits

theorem Primitive.denote_or (p : Primitive) (a b : UInt64) :
    p.denote (a ||| b) = Int.lor (p.denote a) (p.denote b) := by
  have hpow : 256 ^ p.size = 2 ^ (8 * p.size) := by rw [Nat.pow_mul]
  rw [denote_eq,denote_eq,denote_eq,UInt64.toNat_or,hpow]
  cases p.unsigned with
  | true =>
    simp only [if_true]
    rw [Nat.or_mod_two_pow]
    rfl
  | false =>
    have hresidue : ∀ n : Nat, Int.bmod n (2 ^ (8 * p.size)) =
        (BitVec.ofNat (8 * p.size) n).toInt :=
      fun n => (BitVec.toInt_ofNat n).symm
    simp only [Bool.false_eq_true,if_false,hresidue]
    rw [BitVec.ofNat_or,Bits.toInt_or]

namespace Artifact

/-- The number that digits spell: in decimal without a zero in front, or in hexadecimal. -/
def magnitude? : Text → Option Nat
  | 48 :: 120 :: digits => Text.natIn? 16 digits
  | [48] => some 0
  | 48 :: _ => none
  | digits => Text.natIn? 10 digits

/-- The number that a numeral stands for in the artifacts. -/
def constant? : Text → Option Int
  | 45 :: digits => (magnitude? digits).map fun n : Nat => -(n : Int)
  | digits => (magnitude? digits).map Int.ofNat

theorem byte_digitChar {d : Nat} (hpos : 0 < d) (hlt : d < 10) :
    Text.byte (Nat.digitChar d) ≠ 45 ∧ Text.byte (Nat.digitChar d) ≠ 48 := by
  interval_cases d <;> decide

theorem magnitude?_cons {c : UInt8} (h : c ≠ 48) (rest : Text) :
    magnitude? (c :: rest) = Text.natIn? 10 (c :: rest) := by
  unfold magnitude?
  split <;> simp_all

theorem constant?_cons {c : UInt8} (h : c ≠ 45) (rest : Text) :
    constant? (c :: rest) = (magnitude? (c :: rest)).map Int.ofNat := by
  unfold constant?
  split <;> simp_all

theorem magnitude?_ofNat (n : Nat) : magnitude? (Text.ofNat n) = some n := by
  by_cases hn : n = 0
  · subst n
    rfl
  · obtain ⟨d,rest,hpos,hlt,heq⟩ := Text.ofNat_cons (Nat.pos_of_ne_zero hn)
    rw [heq,magnitude?_cons (byte_digitChar hpos hlt).2,← heq,Text.natIn?_ofNat]

theorem constant?_ofNat (n : Nat) : constant? (Text.ofNat n) = some (n : Int) := by
  by_cases hn : n = 0
  · subst n
    rfl
  · obtain ⟨d,rest,hpos,hlt,heq⟩ := Text.ofNat_cons (Nat.pos_of_ne_zero hn)
    rw [heq,constant?_cons (byte_digitChar hpos hlt).1,← heq,magnitude?_ofNat]
    rfl

theorem constant?_upper (n : Nat) :
    constant? ("0x" ++ (Text.digits 16 n).map Text.upper) = some (n : Int) := by
  have hread : constant? ("0x" ++ (Text.digits 16 n).map Text.upper) =
      (Text.natIn? 16 ((Text.digits 16 n).map Text.upper)).map Int.ofNat := rfl
  rw [hread,Text.natIn?_upper]
  rfl

theorem constant?_ofInt (n : Int) : constant? (Text.ofInt n) = some n := by
  by_cases hn : n < 0
  · have hread : constant? (Text.ofInt n) =
        (magnitude? (Text.ofNat n.natAbs)).map fun n : Nat => -(n : Int) := by
      rw [Text.ofInt,if_pos hn]
      rfl
    rw [hread,magnitude?_ofNat,Option.map_some,Int.ofNat_natAbs_of_nonpos (by omega),Int.neg_neg]
  · rw [Text.ofInt,if_neg hn,constant?_ofNat,Int.natAbs_of_nonneg (by omega)]

/-- A pattern is written as the number that it denotes: in hexadecimal if asked and not negative,
and otherwise in decimal. -/
theorem numeral_eq (storage : Primitive) (hex : Bool) (bits : UInt64) :
    numeral storage hex bits =
      if hex ∧ 0 ≤ storage.denote bits then
        "0x" ++ (Text.digits 16 (storage.denote bits).toNat).map Text.upper
      else Text.ofInt (storage.denote bits) := by
  have hsigned : storage.unsigned = false →
      storage.denote bits = (storage.signed (storage.mask bits)).toInt := by
    intro hs
    rw [← storage.denote_mask bits,Primitive.denote,if_neg (by simp [hs])]
  by_cases hneg : (!storage.unsigned && storage.signed (storage.mask bits) < 0) = true
  · obtain ⟨hs,hlt⟩ : storage.unsigned = false ∧ storage.signed (storage.mask bits) < 0 := by
      simpa using hneg
    have hdenote : storage.denote bits < 0 := by
      rw [hsigned hs]
      exact Int64.lt_iff_toInt_lt.mp hlt
    rw [numeral,if_pos hneg,if_neg (by omega),hsigned hs]
  · have hpos : 0 ≤ storage.denote bits := by
      cases hs : storage.unsigned with
      | true => simp [Primitive.denote,hs]
      | false =>
        rw [hsigned hs]
        simpa [hs,Int64.lt_iff_toInt_lt] using hneg
    rw [numeral,if_neg hneg,Primitive.denote_of_nonneg hpos]
    cases hex with
    | true => simp
    | false => simp [Text.ofInt]

theorem constant?_numeral (storage : Primitive) (hex : Bool) (bits : UInt64) :
    constant? (numeral storage hex bits) = some (storage.denote bits) := by
  rw [numeral_eq]
  split
  · rename_i hhex
    rw [constant?_upper,Int.toNat_of_nonneg hhex.2]
  · exact constant?_ofInt _

theorem numeral_congr {p q : Primitive} (hsize : p.size = q.size) (hsign : p.unsigned = q.unsigned)
    (hex : Bool) (bits : UInt64) : numeral p hex bits = numeral q hex bits := by
  have hmask : p.mask = q.mask := funext fun bits => by rw [Primitive.mask,Primitive.mask,hsize]
  have hsigned : p.signed = q.signed :=
    funext fun bits => by rw [Primitive.signed,Primitive.signed,hsize,hsign]
  rw [numeral,numeral,hmask,hsigned,hsign]

end Artifact

end WireSchema
