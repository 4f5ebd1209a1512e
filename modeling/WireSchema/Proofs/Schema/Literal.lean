import WireSchema.Proofs.Record.Bits
import WireSchema.Schema.Literal
import Mathlib.Data.Nat.Digits.Lemmas
set_option autoImplicit false

/-!
Which texts are integer literals, and which numbers they are. Digits are read from the front with
the most significant one first, so zeros in front do not matter and an empty run is no number. A
sign and the mark of a base are each taken away once: what is left must be digits.
-/

namespace WireSchema

namespace Text

inductive Digit (c : UInt8) : Nat → Prop where
  | decimal (low : 48 ≤ c.toNat) (high : c.toNat ≤ 57) : Digit c (c.toNat - 48)
  | small (low : 97 ≤ c.toNat) (high : c.toNat ≤ 102) : Digit c (c.toNat - 87)
  | capital (low : 65 ≤ c.toNat) (high : c.toNat ≤ 70) : Digit c (c.toNat - 55)

theorem digitValue?_eq_some {c : UInt8} {d : Nat} : digitValue? c = some d ↔ Digit c d := by
  simp only [digitValue?,isDigit,Bool.and_eq_true,decide_eq_true_eq,UInt8.le_iff_toNat_le]
  constructor
  · intro h
    split at h
    · cases h
      rename_i hdigit
      exact .decimal hdigit.1 hdigit.2
    split at h
    · cases h
      rename_i hsmall
      exact .small hsmall.1 hsmall.2
    split at h
    · cases h
      rename_i hcapital
      exact .capital hcapital.1 hcapital.2
    · cases h
  · have hzero : (byte '0').toNat = 48 := rfl
    have hnine : (byte '9').toNat = 57 := rfl
    have ha : (byte 'a').toNat = 97 := rfl
    have hf : (byte 'f').toNat = 102 := rfl
    have hA : (byte 'A').toNat = 65 := rfl
    have hF : (byte 'F').toNat = 70 := rfl
    rintro (⟨low,high⟩ | ⟨low,high⟩ | ⟨low,high⟩)
    · rw [if_pos (by omega)]
    · rw [if_neg (by omega),if_pos (by omega)]
    · rw [if_neg (by omega),if_neg (by omega),if_pos (by omega)]

/-- A text is some digits of a base, and these make a number. -/
def Spells (base : Nat) (t : Text) (n : Nat) : Prop :=
  t ≠ [] ∧ ∃ digits : List Nat, List.Forall₂ Digit t digits ∧ (∀ d ∈ digits, d < base) ∧
    n = Nat.ofDigits base digits.reverse

def shift (base : Nat) (number : Option Nat) (c : UInt8) : Option Nat := do
  let n ← number
  let d ← digitValue? c
  if d < base then some (n * base + d) else none

theorem foldl_shift_none (base : Nat) (t : Text) : t.foldl (shift base) none = none := by
  induction t with
  | nil => rfl
  | cons c rest ih => exact ih

theorem shift_eq_some {base m n : Nat} {c : UInt8} :
    shift base (some m) c = some n ↔ ∃ d, Digit c d ∧ d < base ∧ n = m * base + d := by
  have hbind : shift base (some m) c = (digitValue? c).bind fun d =>
      if d < base then some (m * base + d) else none := rfl
  rw [hbind,Option.bind_eq_some_iff]
  simp only [digitValue?_eq_some,Option.ite_none_right_eq_some,Option.some.injEq,eq_comm (a := n)]

theorem foldl_shift {base : Nat} (t : Text) (m n : Nat) :
    t.foldl (shift base) (some m) = some n ↔
      ∃ digits : List Nat, List.Forall₂ Digit t digits ∧ (∀ d ∈ digits, d < base) ∧
        n = m * base ^ t.length + Nat.ofDigits base digits.reverse := by
  induction t generalizing m with
  | nil => simp [eq_comm]
  | cons c rest ih =>
    have hvalue : ∀ (d : Nat) (digits : List Nat), List.Forall₂ Digit rest digits →
        (m * base + d) * base ^ rest.length + Nat.ofDigits base digits.reverse =
          m * base ^ (c :: rest).length + Nat.ofDigits base (d :: digits).reverse := by
      intro d digits hdigits
      rw [List.reverse_cons,Nat.ofDigits_append,List.length_reverse,← hdigits.length_eq,
        Nat.ofDigits_singleton,List.length_cons]
      ring
    rw [List.foldl_cons]
    constructor
    · intro h
      cases hshift : shift base (some m) c with
      | none =>
        rw [hshift,foldl_shift_none] at h
        cases h
      | some k =>
        obtain ⟨d,hd,hlt,rfl⟩ := shift_eq_some.mp hshift
        rw [hshift] at h
        obtain ⟨digits,hdigits,hbase,rfl⟩ := (ih _).mp h
        refine ⟨d :: digits,.cons hd hdigits,?_,hvalue d digits hdigits⟩
        simpa using ⟨hlt,hbase⟩
    · rintro ⟨_,hall,hbase,rfl⟩
      cases hall with
      | @cons _ d _ digits hd hdigits =>
        rw [shift_eq_some.mpr ⟨d,hd,hbase d List.mem_cons_self,rfl⟩,ih]
        exact ⟨digits,hdigits,fun e he => hbase e (List.mem_cons_of_mem d he),
          (hvalue d digits hdigits).symm⟩

theorem natIn?_eq_some {base n : Nat} {t : Text} : natIn? base t = some n ↔ Spells base t n := by
  have hfold : natIn? base t = if t.isEmpty then none else t.foldl (shift base) (some 0) := rfl
  rw [hfold,Spells]
  cases t with
  | nil => simp
  | cons c rest =>
    rw [if_neg (by simp),foldl_shift]
    simp

theorem Spells.head {base n : Nat} {c : UInt8} {rest : Text} (h : Spells base (c :: rest) n) :
    ∃ d, Digit c d ∧ d < base := by
  obtain ⟨-,_,hall,hbase,-⟩ := h
  cases hall with
  | cons hd _ => exact ⟨_,hd,hbase _ List.mem_cons_self⟩

theorem Spells.tail {base n : Nat} {c : UInt8} {rest : Text} (h : Spells base (c :: rest) n)
    (hrest : rest ≠ []) : ∃ m, Spells base rest m := by
  obtain ⟨-,_,hall,hbase,-⟩ := h
  cases hall with
  | cons _ hdigits => exact ⟨_,hrest,_,hdigits,fun e he => hbase e (List.mem_cons_of_mem _ he),rfl⟩

end Text

namespace Literal

open Text (Spells Digit)

/-- A number without a sign: in decimal, or in hexadecimal behind its mark. -/
inductive Magnitude : Text → Nat → Prop where
  | decimal {t : Text} {n : Nat} (digits : Spells 10 t n) : Magnitude t n
  | hexadecimal {t : Text} {n : Nat} (mark : Text) (known : mark = "0x" ∨ mark = "0X")
      (digits : Spells 16 t n) : Magnitude (mark ++ t) n

/-- What a text is as a literal: the largest number of an integer type by its name, or a number of
at most 64 bits, whose value is its residue if there is a sign. -/
inductive Denotes : Text → Literal → Prop where
  | maximum (p : Primitive) (counts : p.integer = true) (value : UInt64)
      (greatest : value.toNat = p.greatest) :
      Denotes (Text.cat [p.name,".MaxValue"]) ⟨value,false⟩
  | plain {t : Text} {n : Nat} (number : Magnitude t n) (fits : n < 2 ^ 64) (value : UInt64)
      (same : value.toNat = n) : Denotes t ⟨value,false⟩
  | signed {t : Text} {n : Nat} (number : Magnitude t n) (fits : n < 2 ^ 64) (value : UInt64)
      (residue : (value.toNat : Int) = -n % 2 ^ 64) : Denotes ("-" ++ t) ⟨value,true⟩

theorem Magnitude.head {t : Text} {n : Nat} (h : Magnitude t n) :
    ∃ c rest d, t = c :: rest ∧ Digit c d ∧ d < 10 := by
  cases h with
  | decimal digits =>
    cases t with
    | nil => exact absurd rfl digits.1
    | cons c rest =>
      obtain ⟨d,hd,hlt⟩ := digits.head
      exact ⟨c,rest,d,rfl,hd,hlt⟩
  | hexadecimal mark known digits =>
    have hzero : Digit 48 0 := .decimal (by decide) (by decide)
    rcases known with rfl | rfl
    · exact ⟨48,120 :: _,0,rfl,hzero,by decide⟩
    · exact ⟨48,88 :: _,0,rfl,hzero,by decide⟩

theorem magnitude?_eq_some {t : Text} {n : Nat} : magnitude? t = some n ↔ Magnitude t n := by
  constructor
  · intro h
    unfold magnitude? at h
    split at h
    · exact .hexadecimal "0x" (.inl rfl) (Text.natIn?_eq_some.mp h)
    · exact .hexadecimal "0X" (.inr rfl) (Text.natIn?_eq_some.mp h)
    · exact .decimal (Text.natIn?_eq_some.mp h)
  · intro h
    cases h with
    | decimal digits =>
      -- No decimal digit is the letter of a mark.
      have hletter : ∀ c rest, t = 48 :: c :: rest → c ≠ 120 ∧ c ≠ 88 := by
        rintro c rest rfl
        obtain ⟨m,hm⟩ := digits.tail (List.cons_ne_nil c rest)
        obtain ⟨d,hd,hlt⟩ := hm.head
        constructor <;>
        · rintro rfl
          have hvalue := Text.digitValue?_eq_some.mpr hd
          simp [Text.digitValue?,Text.isDigit,Text.byte] at hvalue
          try omega
      unfold magnitude?
      split
      · exact absurd rfl (hletter _ _ rfl).1
      · exact absurd rfl (hletter _ _ rfl).2
      · exact Text.natIn?_eq_some.mpr digits
    | hexadecimal mark known digits =>
      rcases known with rfl | rfl
      · exact Text.natIn?_eq_some.mpr digits
      · exact Text.natIn?_eq_some.mpr digits

theorem named_eq : named = (Primitive.all.filter Primitive.integer).map fun p =>
    (Text.cat [p.name,".MaxValue"],p.greatest.toUInt64) := by
  decide

theorem lookup_named {t : Text} {value : UInt64} : named.lookup t = some value ↔
    ∃ p : Primitive, p.integer = true ∧ t = Text.cat [p.name,".MaxValue"] ∧
      value.toNat = p.greatest := by
  constructor
  · intro h
    have hmem := mem_of_lookup h
    rw [named_eq] at hmem
    obtain ⟨p,hp,heq⟩ := List.mem_map.mp hmem
    obtain ⟨rfl,rfl⟩ := Prod.mk.inj heq
    refine ⟨p,(List.mem_filter.mp hp).2,rfl,?_⟩
    cases p <;> decide
  · rintro ⟨p,hinteger,rfl,hvalue⟩
    have hgreatest : value = p.greatest.toUInt64 := by
      rw [← hvalue]
      exact value.ofNat_toNat.symm
    rw [hgreatest]
    cases p with
    | char => cases hinteger
    | _ => decide

theorem lookup_of_head {c : UInt8} {rest : Text} (h : c = 45 ∨ ∃ d, Digit c d ∧ d < 10) :
    named.lookup (c :: rest) = none := by
  have hheads : ∀ entry ∈ named, ∀ first ∈ entry.1.head?, first.toNat ≥ 98 := by decide +kernel
  rw [List.lookup_eq_none_iff]
  intro entry hentry
  rw [bne_iff_ne]
  intro heq
  have hlarge := hheads entry hentry c (by rw [← heq]; rfl)
  rcases h with rfl | ⟨d,hd,hlt⟩
  · exact absurd hlarge (by decide)
  · cases hd <;> omega

theorem parse?_of_name {t : Text} {value : UInt64} (h : named.lookup t = some value) :
    parse? t = some ⟨value,false⟩ := by
  rw [parse?,h]

theorem parse?_minus {rest : Text} {l : Literal} : parse? (45 :: rest) = some l ↔
    ∃ n, Magnitude rest n ∧ n < 2 ^ 64 ∧ l = ⟨0 - n.toUInt64,true⟩ := by
  have hname : named.lookup (45 :: rest) = none := lookup_of_head (.inl rfl)
  have hsign : ((45 :: rest).head? == some (Text.byte '-')) = true := rfl
  simp only [parse?,hname,hsign,if_true,List.tail_cons,← magnitude?_eq_some]
  cases magnitude? rest with
  | none => simp
  | some n => simp [eq_comm]

theorem parse?_plain {t : Text} {l : Literal} (hname : named.lookup t = none)
    (hhead : t.head? ≠ some 45) : parse? t = some l ↔
      ∃ n, Magnitude t n ∧ n < 2 ^ 64 ∧ l = ⟨n.toUInt64,false⟩ := by
  have hsign : (t.head? == some (Text.byte '-')) = false := beq_eq_false_iff_ne.mpr hhead
  simp only [parse?,hname,hsign,Bool.false_eq_true,if_false,← magnitude?_eq_some]
  cases magnitude? t with
  | none => simp
  | some n => simp [eq_comm]

theorem toNat_of_fits {n : Nat} (h : n < 2 ^ 64) : n.toUInt64.toNat = n := by
  rw [Nat.toUInt64,UInt64.toNat_ofNat',Nat.mod_eq_of_lt h]

theorem toNat_negated {n : Nat} (h : n < 2 ^ 64) :
    ((0 - n.toUInt64).toNat : Int) = -n % 2 ^ 64 := by
  have hsub : (0 - n.toUInt64).toNat = (2 ^ 64 - n.toUInt64.toNat) % 2 ^ 64 := by
    rw [UInt64.toNat_sub]
    rfl
  rw [hsub,toNat_of_fits h]
  omega

/-- A text is a literal exactly if it is the name of a largest number, or at most one minus sign in
front of a number in decimal or behind a hexadecimal mark that fits 64 bits; and then it has the
value and the sign of this one reading. -/
theorem parse?_eq_some_iff (t : Text) (l : Literal) : parse? t = some l ↔ Denotes t l := by
  constructor
  · intro h
    cases hname : named.lookup t with
    | some value =>
      rw [parse?_of_name hname] at h
      obtain rfl := Option.some.inj h
      obtain ⟨p,hinteger,rfl,hvalue⟩ := lookup_named.mp hname
      exact .maximum p hinteger value hvalue
    | none =>
      by_cases hhead : t.head? = some 45
      · obtain ⟨rest,rfl⟩ := List.head?_eq_some_iff.mp hhead
        obtain ⟨n,hn,hfits,rfl⟩ := parse?_minus.mp h
        exact .signed hn hfits _ (toNat_negated hfits)
      · obtain ⟨n,hn,hfits,rfl⟩ := (parse?_plain hname hhead).mp h
        exact .plain hn hfits _ (toNat_of_fits hfits)
  · intro h
    cases h with
    | maximum p counts value greatest =>
      exact parse?_of_name (lookup_named.mpr ⟨p,counts,rfl,greatest⟩)
    | plain number fits value same =>
      obtain ⟨c,rest,d,rfl,hd,hlt⟩ := number.head
      have hvalue : value = Nat.toUInt64 _ :=
        UInt64.toNat_inj.mp (same.trans (toNat_of_fits fits).symm)
      refine (parse?_plain (lookup_of_head (.inr ⟨d,hd,hlt⟩)) ?_).mpr ⟨_,number,fits,by rw [hvalue]⟩
      rintro ⟨⟩
      cases hd <;> contradiction
    | signed number fits value residue =>
      have hvalue : value = 0 - Nat.toUInt64 _ :=
        UInt64.toNat_inj.mp (Int.ofNat_inj.mp (residue.trans (toNat_negated fits).symm))
      exact parse?_minus.mpr ⟨_,number,fits,by rw [hvalue]⟩

example : parse? "-0X10" = some ⟨0xFFFFFFFFFFFFFFF0,true⟩ ∧ parse? "-0" = some ⟨0,true⟩ := by decide

example : (["","-","--1","0x","0x0x1","-byte.MaxValue","18446744073709551616"].map
    Text.ofString).all fun t => parse? t == none := by decide

end Literal

end WireSchema
