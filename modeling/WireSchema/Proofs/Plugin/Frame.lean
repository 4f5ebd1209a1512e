import WireSchema.Plugin.Frame
import WireSchema.Proofs.Record.Bits
set_option autoImplicit false

/-!
What a frame gives back. Frames are as good as their lengths: what is framed comes back whatever
follows it, except that the end of a frame is counted in 32 bits, where the longest four lengths do
not fit behind their prefix.
-/

namespace WireSchema.Frame

open Payload (valueOf)

variable {bytes payload junk : Text}

def longest : Nat := 2 ^ 32 - 5

theorem valueOf_take_lt (bytes : Text) : valueOf (bytes.take 4) < 2 ^ 32 :=
  calc valueOf (bytes.take 4) < 256 ^ (bytes.take 4).length := Payload.valueOf_lt _
    _ ≤ 256 ^ 4 := Nat.pow_le_pow_right (by decide) (List.length_take_le 4 bytes)
    _ = 2 ^ 32 := by decide

theorem toNat_lengthOf (bytes : Text) :
    (lengthOf (bytes.take 4)).toNat = valueOf (bytes.take 4) := by
  have hlt := valueOf_take_lt bytes
  rw [lengthOf,Nat.toUInt32,UInt32.toNat_ofNat',Nat.mod_eq_of_lt hlt]

theorem toNat_stop (bytes : Text) :
    (4 + lengthOf (bytes.take 4)).toNat =
      if valueOf (bytes.take 4) ≤ longest then 4 + valueOf (bytes.take 4)
      else valueOf (bytes.take 4) - (longest + 1) := by
  have hlt := valueOf_take_lt bytes
  have hfour : (4 : UInt32).toNat = 4 := rfl
  rw [UInt32.toNat_add,toNat_lengthOf,hfour]
  unfold longest
  split <;> omega

theorem decode_eq (bytes : Text) :
    decode bytes =
      if bytes.length < 4 ∨ bytes.length < 4 + valueOf (bytes.take 4) then .error .short
      else if valueOf (bytes.take 4) ≤ longest then
        .ok ((bytes.drop 4).take (valueOf (bytes.take 4)))
      else .error .overflow := by
  have hlt := valueOf_take_lt bytes
  have hstop := toNat_stop bytes
  by_cases hlength : bytes.length < 4
  · simp [decode,hlength]
  simp only [decode,hlength,if_false,toNat_lengthOf,false_or]
  by_cases hshort : bytes.length < 4 + valueOf (bytes.take 4)
  · rw [if_pos (by omega),if_pos hshort]
  rw [if_neg (by omega),if_neg hshort]
  -- An end that does not fit is smaller than the start, so comparing the two tells if it does.
  by_cases hfits : valueOf (bytes.take 4) ≤ longest
  · rw [if_pos hfits] at hstop
    rw [hstop,if_neg (by omega),if_pos hfits,Nat.add_sub_cancel_left]
  · rw [if_neg hfits] at hstop
    rw [hstop,if_neg hfits,if_pos (by unfold longest; omega)]

theorem decode_encode_append (h : payload.length < 2 ^ 32) (junk : Text) :
    decode (encode payload ++ junk) =
      if payload.length ≤ longest then .ok payload else .error .overflow := by
  have hlength : payload.length.toUInt32.toNat = payload.length := by
    rw [Nat.toUInt32,UInt32.toNat_ofNat',Nat.mod_eq_of_lt h]
  have hcount : (lengthBytes payload.length.toUInt32).length = 4 := by
    simp [lengthBytes,Payload.bytesOf]
  have htake : (encode payload ++ junk).take 4 = lengthBytes payload.length.toUInt32 := by
    rw [encode,List.append_assoc,List.take_append_of_le_length (by omega),
      List.take_of_length_le (by omega)]
  have hdrop : (encode payload ++ junk).drop 4 = payload ++ junk := by
    rw [encode,List.append_assoc,← hcount,List.drop_left]
  have hvalue : valueOf ((encode payload ++ junk).take 4) = payload.length := by
    rw [htake,lengthBytes,Payload.valueOf_bytesOf,hlength,Nat.mod_eq_of_lt (by simpa using h)]
  have henough : 4 + payload.length ≤ (encode payload ++ junk).length := by
    simp only [encode,List.length_append,hcount]
    omega
  rw [decode_eq,hvalue,hdrop,if_neg (by omega),List.take_left]

theorem decode_eq_short {bytes : Text} : decode bytes = .error .short ↔
    bytes.length < 4 ∨ bytes.length < 4 + valueOf (bytes.take 4) := by
  rw [decode_eq]
  split
  · simp [*]
  · split <;> simp [*]

theorem decode_eq_overflow {bytes : Text} : decode bytes = .error .overflow ↔
    4 + valueOf (bytes.take 4) ≤ bytes.length ∧ longest < valueOf (bytes.take 4) := by
  rw [decode_eq]
  split
  · rename_i hshort
    have hnone : ¬ 4 + valueOf (bytes.take 4) ≤ bytes.length := by omega
    simp [hnone]
  · rename_i hlong
    rw [not_or,Nat.not_lt,Nat.not_lt] at hlong
    split
    · rename_i hfits
      simp [Nat.not_lt.mpr hfits]
    · rename_i hfits
      simp [hlong.2,Nat.not_le.mp hfits]

theorem decode_eq_ok {bytes payload : Text} : decode bytes = .ok payload ↔
    (4 ≤ bytes.length ∧ 4 + valueOf (bytes.take 4) ≤ bytes.length) ∧
      valueOf (bytes.take 4) ≤ longest ∧
      payload.length = valueOf (bytes.take 4) ∧ payload <+: bytes.drop 4 := by
  rw [decode_eq]
  split
  · rename_i hshort
    have hnone : ¬ 4 + valueOf (bytes.take 4) ≤ bytes.length := by omega
    simp [hnone]
  rename_i hlong
  rw [not_or,Nat.not_lt,Nat.not_lt] at hlong
  split
  · rename_i hfits
    have htaken : ((bytes.drop 4).take (valueOf (bytes.take 4))).length =
        valueOf (bytes.take 4) := by
      rw [List.length_take,List.length_drop]
      omega
    rw [Except.ok.injEq,List.prefix_iff_eq_take]
    constructor
    · rintro rfl
      exact ⟨hlong,hfits,htaken,by rw [htaken]⟩
    · rintro ⟨-,-,hlength,heq⟩
      rw [← hlength,← heq]
  · rename_i hfits
    simp [hfits]

/-- Bytes hold no frame exactly if they are shorter than a length or than the length they start with
says. Otherwise they hold the bytes behind that length, as many as it says, unless it is one of the
last four numbers of 32 bits: the end of the frame is then counted as a place in front of its start.
So what is framed comes back, whatever follows it, exactly if it is not that long. -/
theorem decode_exactly (bytes : Text) :
    (decode bytes = .error .short ↔
      bytes.length < 4 ∨ bytes.length < 4 + valueOf (bytes.take 4)) ∧
    (decode bytes = .error .overflow ↔
      4 + valueOf (bytes.take 4) ≤ bytes.length ∧ longest < valueOf (bytes.take 4)) ∧
    (∀ payload, decode bytes = .ok payload ↔
      (4 ≤ bytes.length ∧ 4 + valueOf (bytes.take 4) ≤ bytes.length) ∧
        valueOf (bytes.take 4) ≤ longest ∧
        payload.length = valueOf (bytes.take 4) ∧ payload <+: bytes.drop 4) ∧
    ∀ payload junk : Text, payload.length < 2 ^ 32 →
      decode (encode payload ++ junk) =
        if payload.length ≤ longest then .ok payload else .error .overflow :=
  ⟨decode_eq_short,decode_eq_overflow,fun _ => decode_eq_ok,
    fun _ junk h => decode_encode_append h junk⟩

theorem longest_exactly :
    (List.replicate longest (0 : UInt8)).length < 2 ^ 32 ∧
    decode (encode (List.replicate longest 0) ++ [255]) = .ok (List.replicate longest 0) := by
  have hlength : (List.replicate longest (0 : UInt8)).length = longest := List.length_replicate
  have hlt : (List.replicate longest (0 : UInt8)).length < 2 ^ 32 := by
    rw [hlength]
    decide
  refine ⟨hlt,?_⟩
  rw [(decode_exactly []).2.2.2 _ [255] hlt,if_pos (Nat.le_of_eq hlength)]

/-- One byte more still has a length of 32 bits, and does not come back. -/
theorem longer_overflows :
    (List.replicate (longest + 1) (0 : UInt8)).length < 2 ^ 32 ∧
    decode (encode (List.replicate (longest + 1) 0)) = .error .overflow := by
  have hlength : (List.replicate (longest + 1) (0 : UInt8)).length = longest + 1 :=
    List.length_replicate
  have hlt : (List.replicate (longest + 1) (0 : UInt8)).length < 2 ^ 32 := by
    rw [hlength]
    decide
  refine ⟨hlt,?_⟩
  have hdecode := decode_encode_append hlt []
  rwa [List.append_nil,if_neg (by omega)] at hdecode

end WireSchema.Frame
