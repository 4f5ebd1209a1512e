import WireSchema.Proofs.Record.Bits
import Mathlib.Data.Int.ModEq
set_option autoImplicit false

namespace WireSchema.Primitive

variable {p q : Primitive} {n m : Int} {bits : UInt64}

theorem dvd_denote (p : Primitive) (bits : UInt64) :
    ((256 ^ p.size : Nat) : Int) ∣ bits.toNat - p.denote bits := by
  have hmod : p.denote bits % (256 ^ p.size : Nat) = (bits.toNat : Int) % (256 ^ p.size : Nat) := by
    rw [denote_eq]
    split
    · rw [Int.natCast_emod,Int.emod_emod]
    · exact Int.bmod_emod
  exact Int.ModEq.dvd hmod

theorem eq_of_dvd (hn : p.Holds n) (hm : p.Holds m) (h : ((256 ^ p.size : Nat) : Int) ∣ n - m) :
    n = m := by
  obtain ⟨k,hk⟩ := h
  unfold Holds least greatest at hn hm
  cases p <;>
  · simp only [size,unsigned,if_true,Bool.false_eq_true,if_false] at hn hm hk
    omega

/-- A type reads a number from a pattern exactly if it has the number, and the number has the
residue of the pattern. -/
theorem denote_eq_iff :
    p.denote bits = n ↔ p.Holds n ∧ ((256 ^ p.size : Nat) : Int) ∣ bits.toNat - n := by
  constructor
  · rintro rfl
    exact ⟨holds_denote p bits,dvd_denote p bits⟩
  · rintro ⟨hn,hdvd⟩
    refine eq_of_dvd (holds_denote p bits) hn ?_
    have hsub : p.denote bits - n = (bits.toNat - n) - (bits.toNat - p.denote bits) := by omega
    rw [hsub]
    exact Int.dvd_sub hdvd (dvd_denote p bits)

theorem dvd_of_size_le (h : p.size ≤ q.size) :
    ((256 ^ p.size : Nat) : Int) ∣ ((256 ^ q.size : Nat) : Int) :=
  Int.natCast_dvd_natCast.mpr (Nat.pow_dvd_pow 256 h)

theorem denote_of_size_le (h : p.size ≤ q.size) (hholds : p.Holds (q.denote bits)) :
    p.denote bits = q.denote bits :=
  denote_eq_iff.mpr ⟨hholds,Int.dvd_trans (dvd_of_size_le h) (dvd_denote q bits)⟩

/-- The bytes in front of a pattern that has been cut are zero, so that a wider type reads every
number but a negative one. -/
theorem denote_of_fits (hfits : q.Fits bits) (hholds : p.Holds (q.denote bits)) :
    p.denote bits = q.denote bits ↔ 0 ≤ q.denote bits ∨ p.size ≤ q.size := by
  rw [denote_eq_iff]
  by_cases hneg : 0 ≤ q.denote bits
  · have hsame : q.denote bits = bits.toNat := by
      rw [denote_of_nonneg hneg,mask_of_fits hfits]
    simp [hsame,hsame ▸ hholds]
  · have hdiff : bits.toNat - q.denote bits = (256 ^ q.size : Nat) := by
      obtain ⟨k,hk⟩ := dvd_denote q bits
      have hrange := holds_denote q bits
      unfold Fits at hfits
      unfold Holds least greatest at hrange
      cases q <;>
      · simp only [size,unsigned,if_true,Bool.false_eq_true,if_false] at hfits hrange hk ⊢
        omega
    rw [hdiff]
    constructor
    · rintro ⟨-,hdvd⟩
      exact .inr (Nat.pow_dvd_pow_iff_le_right (by decide) |>.mp (Int.natCast_dvd_natCast.mp hdvd))
    · rintro (hpos | hle)
      · exact absurd hpos hneg
      · exact ⟨hholds,dvd_of_size_le hle⟩

end WireSchema.Primitive
