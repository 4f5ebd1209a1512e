import WireSchema.Proofs.Artifact.Numeral
import WireSchema.Proofs.Record.Residue
set_option autoImplicit false

/-!
Numbers that are written and read again. A schema reads every number of the artifacts as the
artifacts do, so a pattern that is written out in its storage keeps its bits, and a literal that is
copied from a schema keeps its value and its sign.
-/

namespace WireSchema

namespace Literal

/-- The integer that a literal stands for. -/
def number (l : Literal) : Int :=
  if l.negative then -((0 - l.value).toNat : Int) else l.value.toNat

theorem ofInt_number (l : Literal) : UInt64.ofInt l.number = l.value := by
  refine UInt64.toNat_inj.mp ?_
  have hneg : (0 - l.value).toNat = (2 ^ 64 - l.value.toNat) % 2 ^ 64 := by
    rw [UInt64.toNat_sub]
    rfl
  have hlt := l.value.toNat_lt
  rw [Bits.toNat_ofInt,number]
  split <;> omega

theorem ext_number {l m : Literal} (hnumber : l.number = m.number)
    (hnegative : l.negative = m.negative) : l = m := by
  have hvalue : l.value = m.value := by rw [← ofInt_number l,hnumber,ofInt_number]
  cases l
  cases m
  cases hvalue
  cases hnegative
  rfl

theorem constant?_named : ∀ entry ∈ named, Artifact.constant? entry.1 = none := by
  decide

theorem lookup_of_constant? {t : Text} {n : Int} (h : Artifact.constant? t = some n) :
    named.lookup t = none := by
  rw [List.lookup_eq_none_iff]
  intro entry hentry
  rw [bne_iff_ne]
  rintro rfl
  rw [constant?_named entry hentry] at h
  cases h

theorem magnitude?_of_artifact {t : Text} {n : Nat} (h : Artifact.magnitude? t = some n) :
    magnitude? t = some n := by
  unfold Artifact.magnitude? at h
  split at h
  · exact h
  · exact h
  · cases h
  · rename_i hhex hzero hfront
    unfold magnitude?
    split
    · exact absurd rfl (hhex _)
    · exact absurd rfl (hfront _)
    · exact h

/-- A number of the artifacts whose magnitude fits 64 bits is a literal of the same number, and
negative if it has a sign. -/
theorem parse?_of_constant? {t : Text} {n : Int} (h : Artifact.constant? t = some n)
    (hfits : n.natAbs < 2 ^ 64) :
    ∃ l, parse? t = some l ∧ l.number = n ∧ l.negative = (t.head? == some (Text.byte '-')) := by
  have hname := lookup_of_constant? h
  unfold Artifact.constant? at h
  split at h
  · rename_i digits
    obtain ⟨m,hm,rfl⟩ := Option.map_eq_some_iff.mp h
    have hlt : m < 0x10000000000000000 := by omega
    have hvalue : (0 - (0 - m.toUInt64)).toNat = m := by
      simp [hlt]
    refine ⟨⟨0 - m.toUInt64,true⟩,?_,?_,rfl⟩
    · unfold parse?
      rw [hname]
      simp [Text.byte,magnitude?_of_artifact hm,hlt]
    · rw [number,if_pos rfl,hvalue]
  · rename_i hsign
    obtain ⟨m,hm,rfl⟩ := Option.map_eq_some_iff.mp h
    have hlt : m < 0x10000000000000000 := hfits
    have hhead : (t.head? == some (Text.byte '-')) = false := by
      cases t with
      | nil => rfl
      | cons c rest =>
        rw [List.head?_cons,beq_eq_false_iff_ne]
        rintro hc
        cases hc
        exact hsign rest rfl
    refine ⟨⟨m.toUInt64,false⟩,?_,?_,hhead.symm⟩
    · unfold parse?
      rw [hname]
      simp [hhead,magnitude?_of_artifact hm,hlt]
    · rw [number,if_neg Bool.false_ne_true,UInt64.toNat_ofNat',Nat.mod_eq_of_lt hlt]
      rfl

theorem natAbs_number_lt (l : Literal) : l.number.natAbs < 2 ^ 64 := by
  have hvalue := l.value.toNat_lt
  have hneg := (0 - l.value).toNat_lt
  rw [number]
  split <;> omega

theorem constant?_decimal (l : Literal) : Artifact.constant? l.decimal = some l.number := by
  rw [decimal,number]
  split
  · show (Artifact.magnitude? (Text.ofNat _)).map _ = _
    rw [Artifact.magnitude?_ofNat]
    rfl
  · exact Artifact.constant?_ofNat _

theorem head?_decimal (l : Literal) :
    (l.decimal.head? == some (Text.byte '-')) = l.negative := by
  rw [decimal]
  cases l.negative with
  | true => rfl
  | false =>
    obtain heq | ⟨d,rest,hpos,hlt,heq⟩ :=
      (Nat.eq_zero_or_pos l.value.toNat).imp_right Text.ofNat_cons
    · rw [heq]
      rfl
    · rw [if_neg (by decide),heq]
      exact beq_eq_false_iff_ne.mpr fun h =>
        (Artifact.byte_digitChar hpos hlt).1 (Option.some.inj h)

theorem parse?_decimal (l : Literal) : parse? l.decimal = some l := by
  obtain ⟨m,hparse,hnumber,hnegative⟩ :=
    parse?_of_constant? l.constant?_decimal l.natAbs_number_lt
  rw [hparse,ext_number hnumber (hnegative.trans l.head?_decimal)]

end Literal

namespace Primitive

theorem mask_ofInt_denote (p : Primitive) (bits : UInt64) :
    p.mask (UInt64.ofInt (p.denote bits)) = p.mask bits := by
  refine UInt64.toNat_inj.mp ?_
  obtain ⟨k,hk⟩ := dvd_denote p bits
  rw [toNat_mask,toNat_mask,Bits.toNat_ofInt]
  cases p <;>
  · simp only [size] at hk ⊢
    omega

theorem natAbs_denote_lt (p : Primitive) (bits : UInt64) : (p.denote bits).natAbs < 2 ^ 64 := by
  have hrange := holds_denote p bits
  unfold Holds least greatest at hrange
  cases p <;>
  · simp only [size,unsigned,if_true,Bool.false_eq_true,if_false] at hrange
    omega

end Primitive

namespace Artifact

/-- Whatever is written for a pattern in a storage is the number that the pattern denotes there: the
storage has it, the artifacts and the schemas read it, and it has the bits of the pattern. A literal
that is copied from a schema is written in decimal, and is the same literal when it is read again.
-/
theorem numbers_read_back :
    (∀ (storage : Primitive) (hex : Bool) (bits : UInt64), ∃ n : Int,
      storage.Holds n ∧ ((256 ^ storage.size : Nat) : Int) ∣ bits.toNat - n ∧
      n = storage.denote (storage.mask bits) ∧
      numeral storage hex bits = (if hex ∧ 0 ≤ n then
        "0x" ++ (Text.digits 16 n.toNat).map Text.upper else Text.ofInt n) ∧
      constant? (numeral storage hex bits) = some n ∧
      ∃ l, Literal.parse? (numeral storage hex bits) = some l ∧ l.number = n ∧
        storage.mask l.value = storage.mask bits) ∧
    ∀ (b : Batch) (imports : Imports) (name : Text) (l : Literal),
      Literal.parse? name = some l →
      (operand b (.weak name) imports).1 = .ok (.numeral l.decimal) ∧
        constant? l.decimal = some l.number ∧ Literal.parse? l.decimal = some l := by
  constructor
  · intro storage hex bits
    have hconstant := constant?_numeral storage hex bits
    obtain ⟨l,hparse,hnumber,-⟩ :=
      Literal.parse?_of_constant? hconstant (storage.natAbs_denote_lt bits)
    refine ⟨storage.denote bits,storage.holds_denote bits,storage.dvd_denote bits,
      (storage.denote_mask bits).symm,numeral_eq storage hex bits,hconstant,l,hparse,hnumber,?_⟩
    rw [← l.ofInt_number,hnumber,storage.mask_ofInt_denote]
  · intro b imports name l hname
    refine ⟨?_,l.constant?_decimal,l.parse?_decimal⟩
    rw [operand]
    simp only [hname]
    rfl

theorem negated_maximum_reads_back :
    Literal.parse? "-0xFFFFFFFFFFFFFFFF" = some ⟨1,true⟩ ∧
      (operand default (.weak "-0xFFFFFFFFFFFFFFFF") default).1 =
        .ok (.numeral "-18446744073709551615") ∧
      Literal.parse? "-18446744073709551615" = some ⟨1,true⟩ ∧
      numeral .sbyte true 0xFFFFFFFFFFFFFF80 = "-128" ∧
      ∃ l, Literal.parse? "-128" = some l ∧ l.number = -128 ∧
        Primitive.sbyte.mask l.value = 0x80 := by
  have hname : Literal.parse? "-0xFFFFFFFFFFFFFFFF" = some ⟨1,true⟩ := by decide
  have hdecimal : Literal.decimal ⟨1,true⟩ = "-18446744073709551615" := by decide
  have hleast : numeral .sbyte true 0xFFFFFFFFFFFFFF80 = "-128" := by decide
  obtain ⟨hpatterns,hliterals⟩ := numbers_read_back
  obtain ⟨hoperand,-,hagain⟩ := hliterals default default _ _ hname
  obtain ⟨n,-,-,hn,-,-,l,hparse,hnumber,hmask⟩ := hpatterns .sbyte true 0xFFFFFFFFFFFFFF80
  rw [hdecimal] at hoperand hagain
  rw [hleast] at hparse
  exact ⟨hname,hoperand,hagain,hleast,l,hparse,hnumber.trans hn,hmask⟩

end Artifact

end WireSchema
