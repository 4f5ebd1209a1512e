import WireSchema.Proofs.Record.Bits
set_option autoImplicit false

/-!
Payloads in programs with typed fields and in records. The two write the same lengths and the same
runs of numbers and read the same back, although one counts in integers that wrap around and the
other in patterns of 64 bits that are cut and extended.
-/

namespace WireSchema

def Primitive.number (p : Primitive) : Payload.Number := .ofBytes p.size p.unsigned

/-- The length of the longest payload that can stand behind a length field of the type. -/
def Primitive.longest (p : Primitive) : Nat := min Payload.maxSize p.greatest

namespace Payload

theorem bitCount_number (p : Primitive) : Nat.pow 2 p.number.bitCount = 256 ^ p.size :=
  Nat.pow_mul 2 8 p.size

theorem wrap_number (p : Primitive) (n : Int) :
    p.number.wrap n = if p.unsigned then n % (256 ^ p.size : Nat) else n.bmod (256 ^ p.size) := by
  rw [Number.wrap,bitCount_number]
  rfl

theorem wrap_eq_iff (p : Primitive) (n : Int) : p.number.wrap n = n ↔ p.Holds n := by
  rw [wrap_number,Primitive.Holds]
  cases p <;>
  · simp only [Primitive.size,Primitive.unsigned,Primitive.least,Primitive.greatest,Int.bmod,
      if_true,Bool.false_eq_true,if_false]
    omega

theorem least_nonpos (p : Primitive) : p.least ≤ 0 := by
  cases p <;> decide

theorem lengthOf_eq (p : Primitive) (n : Int) :
    lengthOf p.number n = if 0 ≤ n ∧ n ≤ p.longest then .ok n else .error .tooLarge := by
  have hwrap := wrap_eq_iff p n
  have hleast := least_nonpos p
  rw [Primitive.Holds] at hwrap
  have hlongest : p.longest = min maxSize p.greatest := rfl
  unfold lengthOf
  by_cases h : 0 ≤ n ∧ n ≤ p.longest
  · have hself : p.number.wrap n = n := hwrap.mpr (by omega)
    rw [if_pos h,hself,if_neg (by simp; omega)]
  · rw [if_neg h,if_pos ?_]
    by_contra hne
    simp only [not_or,ne_eq,not_not] at hne
    have hholds := hwrap.mp hne.2.2
    omega

theorem lengthBits_eq (p : Primitive) (n : Int) : Record.lengthBits p n =
    if 0 ≤ n ∧ n ≤ p.longest then .ok (UInt64.ofInt n) else .error (.tooLong n) := by
  by_cases hneg : n < 0
  · rw [if_neg (by omega),Record.lengthBits,if_pos (.inl hneg)]
  · obtain ⟨size,rfl⟩ := Int.eq_ofNat_of_zero_le (by omega : 0 ≤ n)
    have hlongest : (0 ≤ (size : Int) ∧ (size : Int) ≤ p.longest) ↔
        size ≤ maxSize ∧ size ≤ p.greatest := by
      rw [Primitive.longest]
      omega
    rw [Record.lengthBits_eq,Bits.ofInt_natCast]
    simp only [hlongest]

theorem denote_ofInt (p : Primitive) (n : Int) :
    p.denote (UInt64.ofInt n) = p.number.wrap n := by
  rw [Primitive.denote_eq,Bits.toNat_ofInt,wrap_number]
  cases p <;>
  · simp only [Primitive.size,Primitive.unsigned,Int.bmod,if_true,Bool.false_eq_true,if_false]
    omega

theorem denote_of_holds {p : Primitive} {n : Int} (h : p.Holds n) :
    p.denote (UInt64.ofInt n) = n := by
  rw [denote_ofInt,(wrap_eq_iff p n).mpr h]

theorem checkLength_eq (n : Int) : checkLength n =
    if 0 ≤ n ∧ n ≤ maxSize then .ok n.toNat else .error .tooLarge := by
  unfold checkLength
  by_cases h : 0 ≤ n ∧ n ≤ maxSize
  · rw [if_pos h,if_neg (by omega)]
  · rw [if_neg h,if_pos (by omega)]

/-- A program and a codec set the same lengths, each as the number itself, and the reader takes
every one of them. Any other length is refused as too large. -/
theorem lengths_agree (p : Primitive) (n : Int) :
    (if 0 ≤ n ∧ n ≤ p.longest then
      lengthOf p.number n = .ok n ∧
      (∃ bits, Record.lengthBits p n = .ok bits ∧ p.denote bits = n) ∧
      ∃ size, checkLength n = .ok size ∧ size = n
    else
      lengthOf p.number n = .error .tooLarge ∧ Record.lengthBits p n = .error (.tooLong n)) ∧
    if 0 ≤ n ∧ n ≤ maxSize then ∃ size, checkLength n = .ok size ∧ size = n
    else checkLength n = .error .tooLarge := by
  have hlongest : p.longest = min maxSize p.greatest := rfl
  have hcheck : 0 ≤ n ∧ n ≤ maxSize → ∃ size, checkLength n = .ok size ∧ size = n := by
    intro h
    exact ⟨n.toNat,by rw [checkLength_eq,if_pos h],Int.toNat_of_nonneg h.1⟩
  refine ⟨?_,?_⟩
  · rw [lengthOf_eq,lengthBits_eq]
    by_cases h : 0 ≤ n ∧ n ≤ p.longest
    · have hholds : p.Holds n := ⟨Int.le_trans (least_nonpos p) h.1,by omega⟩
      simp only [if_pos h,true_and]
      exact ⟨⟨_,rfl,denote_of_holds hholds⟩,hcheck (by omega)⟩
    · simp only [if_neg h,and_self]
  · by_cases h : 0 ≤ n ∧ n ≤ maxSize
    · rw [if_pos h]
      exact hcheck h
    · rw [if_neg h,checkLength_eq,if_neg h]

theorem bytesOf_mod (width n : Nat) : bytesOf width (n % 256 ^ width) = bytesOf width n := by
  have hlength : (bytesOf width n).length = width := by
    rw [bytesOf_eq_map]
    simp
  have hback := bytesOf_valueOf (bytesOf width n)
  rwa [hlength,valueOf_bytesOf] at hback

theorem bytesOf_ofInt (p : Primitive) (n : Int) :
    bytesOf p.size (n % (256 ^ p.size : Nat)).toNat = Record.store p.size (UInt64.ofInt n) := by
  have hresidue : (UInt64.ofInt n).toNat % 256 ^ p.size = (n % (256 ^ p.size : Nat)).toNat := by
    rw [Bits.toNat_ofInt]
    cases p <;>
    · simp only [Primitive.size]
      omega
  rw [Record.store_eq_bytesOf p.size_le,← hresidue,bytesOf_mod]

theorem marshal_number (p : Primitive) (ns : List Int) :
    marshal p.number ns = (ns.map UInt64.ofInt).flatMap (Record.store p.size) := by
  rw [marshal,bitCount_number,List.flatMap_map]
  exact congrArg ns.flatMap (funext (bytesOf_ofInt p))

end Payload

def Value.run? : Value → Option (List Int)
  | .bytes t => some (t.map fun b => (b.toNat : Int))
  | .words bits => some (bits.map fun b => (b.toNat : Int))
  | .ints ns => some (ns.map Int64.toInt)
  | .numbers _ ns => some ns
  | _ => none

namespace Record

theorem elements_run {value : Value} {ns : List Int} (h : value.run? = some ns) :
    elements value = .ok (ns.map UInt64.ofInt) := by
  cases value with
  | bytes t =>
    cases h
    simp only [elements,List.map_map,Except.ok.injEq]
    refine List.map_congr_left fun b _ => ?_
    exact UInt64.toNat_inj.mp (by simp [Bits.ofInt_natCast])
  | words bits =>
    cases h
    simp [elements,Bits.ofInt_natCast,Function.comp_def]
  | ints ns =>
    cases h
    simp only [elements,List.map_map,Except.ok.injEq]
    refine List.map_congr_left fun n _ => UInt64.toNat_inj.mp ?_
    have hback : n.toInt = Int.bmod n.toUInt64.toNat (2 ^ 64) :=
      BitVec.toInt_eq_toNat_bmod n.toBitVec
    have hlt : n.toUInt64.toNat < 2 ^ 64 := n.toUInt64.toNat_lt
    rw [Function.comp_apply,Bits.toNat_ofInt,hback]
    simp only [Int.bmod]
    omega
  | numbers type ns =>
    cases h
    rfl
  | _ => cases h

theorem encodePlain_run {p : Primitive} {value : Value} {ns : List Int}
    (h : value.run? = some ns) :
    encodePlain (.slice p) value = .ok (Payload.marshal p.number ns) := by
  rw [Payload.marshal_number]
  simp only [encodePlain,elements_run h,Result.ok_bind,Result.pure_eq_ok]

theorem run_numbers {p : Primitive} {bits : List UInt64} (h : ∀ b ∈ bits, p.Fits b) :
    (numbers p bits).run? = some (bits.map p.denote) := by
  unfold numbers
  cases hp : p.unsigned with
  | false =>
    simp only [Bool.false_and,Bool.false_eq_true,if_false,Value.run?,List.map_map]
    refine congrArg some (List.map_congr_left fun b _ => ?_)
    simp [Primitive.denote,hp]
  | true =>
    have hdenote : ∀ b ∈ bits, p.denote b = b.toNat := by
      intro b hb
      simp [Primitive.denote,hp,Primitive.mask_of_fits (h b hb)]
    simp only [Bool.true_and,if_true,beq_iff_eq]
    split
    · rename_i hsize
      simp only [Value.run?,List.map_map]
      refine congrArg some (List.map_congr_left fun b hb => ?_)
      have hfits := h b hb
      rw [Primitive.Fits,hsize] at hfits
      rw [hdenote b hb,Function.comp_apply,UInt64.toNat_toUInt8]
      omega
    · simp only [Value.run?]
      exact congrArg some (List.map_congr_left fun b hb => (hdenote b hb).symm)

theorem readMany_pieces (size count : Nat) {input : Text} (h : size * count ≤ input.length) :
    readMany size count input = .ok ((List.range count).map fun i =>
      load ((input.drop (i * size)).take size),input.drop (size * count)) := by
  induction count generalizing input with
  | zero => rfl
  | succ count ih =>
    rw [Nat.mul_succ] at h
    have hfirst : readBits size input = .ok (load (input.take size),input.drop size) := by
      rw [readBits,if_neg (by omega)]
    have hdrop : ∀ k, (input.drop size).drop k = input.drop (k + size) := by
      intro k
      rw [List.drop_drop,Nat.add_comm]
    have hrest : size * count ≤ (input.drop size).length := by
      rw [List.length_drop]
      omega
    simp only [readMany,hfirst,Result.ok_bind,ih hrest,Result.pure_eq_ok,List.range_succ_eq_map,
      List.map_cons,List.map_map,hdrop,Nat.zero_mul,List.drop_zero,Nat.mul_succ,Function.comp_def,
      Nat.succ_mul]

theorem wrap_load (p : Primitive) {piece : Text} (h : piece.length ≤ 8) :
    p.number.wrap (Payload.valueOf piece) = p.denote (load piece) := by
  rw [Payload.wrap_number,Primitive.denote_eq,toNat_load h]
  rfl

theorem run_of_aligned (reg : Registry) (p : Primitive) {buf : Text} (h : buf.length % p.size = 0) :
    ∃ bits, (∀ b ∈ bits, p.Fits b) ∧ buf = bits.flatMap (store p.size) ∧
      Payload.unmarshal p.number buf = .ok (bits.map p.denote) ∧
      decodePlain reg (.slice p) buf = .ok (numbers p bits) := by
  have hcount : p.size * (buf.length / p.size) = buf.length :=
    Nat.mul_div_cancel' (Nat.dvd_of_mod_eq_zero h)
  have hread := readMany_pieces p.size (buf.length / p.size) (Nat.le_of_eq hcount)
  obtain ⟨hbytes,-,hfits⟩ := readMany_ok hread
  rw [hcount,List.drop_length,List.append_nil] at hbytes
  refine ⟨_,hfits,hbytes,?_,?_⟩
  · have hwidth : p.number.width = some p.size := rfl
    simp only [Payload.unmarshal,hwidth,h,ne_eq,not_true_eq_false,if_false,Payload.chunks,
      List.map_map,Except.ok.injEq]
    refine List.map_congr_left fun i _ => wrap_load p ?_
    exact Nat.le_trans (List.length_take_le _ _) p.size_le
  · simp only [decodePlain,h,ne_eq,not_true_eq_false,if_false,hread,Result.ok_bind,
      Result.pure_eq_ok]

theorem run_of_misaligned (reg : Registry) (p : Primitive) {buf : Text}
    (h : buf.length % p.size ≠ 0) : Payload.unmarshal p.number buf = .error .misaligned ∧
      decodePlain reg (.slice p) buf = .error (.payload .misaligned) := by
  have hwidth : p.number.width = some p.size := rfl
  simp only [Payload.unmarshal,hwidth,decodePlain,h,ne_eq,not_false_eq_true,if_true,and_self]

theorem store_denote (p : Primitive) (b : UInt64) :
    store p.size (UInt64.ofInt (p.denote b)) = store p.size b := by
  have hmask : p.mask (UInt64.ofInt (p.denote b)) = p.mask b := by
    refine UInt64.toNat_inj.mp ?_
    rw [Primitive.toNat_mask,Primitive.toNat_mask,Bits.toNat_ofInt,Primitive.denote_eq]
    have hlt : b.toNat < 2 ^ 64 := b.toNat_lt
    cases p <;>
    · simp only [Primitive.size,Primitive.unsigned,Int.bmod,if_true,Bool.false_eq_true,if_false]
      omega
  rw [← store_mask,hmask,store_mask]

end Record

namespace Payload

open Record (encodePlain decodePlain numbers store)

theorem marshal_denote (p : Primitive) (bits : List UInt64) :
    marshal p.number (bits.map p.denote) = bits.flatMap (store p.size) := by
  rw [marshal_number,List.map_map,List.flatMap_map]
  exact congrArg bits.flatMap (funext (Record.store_denote p))

theorem length_marshal (p : Primitive) (ns : List Int) :
    (marshal p.number ns).length = p.size * ns.length := by
  rw [marshal_number,Record.length_flatMap_store,List.length_map]

theorem mask_of_flatMap_store {p : Primitive} {bits more : List UInt64}
    (h : bits.flatMap (store p.size) = more.flatMap (store p.size)) :
    bits.map p.mask = more.map p.mask := by
  have hcount : bits.length = more.length := by
    have hlength := congrArg List.length h
    rw [Record.length_flatMap_store,Record.length_flatMap_store] at hlength
    exact Nat.eq_of_mul_eq_mul_left p.size_pos hlength
  have hbits := Record.readMany_store p bits []
  rw [hcount,h,Record.readMany_store] at hbits
  simp only [Except.ok.injEq,Prod.mk.injEq,and_true] at hbits
  exact hbits.symm

theorem unmarshal_marshal {p : Primitive} {ns : List Int} (h : ∀ n ∈ ns, p.Holds n) :
    unmarshal p.number (marshal p.number ns) = .ok ns := by
  have haligned : (marshal p.number ns).length % p.size = 0 := by
    rw [length_marshal,Nat.mul_mod_right]
  obtain ⟨bits,-,hbytes,hread,-⟩ := Record.run_of_aligned default p haligned
  rw [marshal_number] at hbytes
  have hmask := mask_of_flatMap_store hbytes
  have hdenote : ∀ more : List UInt64, (more.map p.mask).map p.denote = more.map p.denote := by
    intro more
    rw [List.map_map]
    exact List.map_congr_left fun b _ => p.denote_mask b
  have hback : bits.map p.denote = ns := by
    rw [← hdenote,← hmask,hdenote,List.map_map]
    exact (List.map_congr_left fun n hn => denote_of_holds (h n hn)).trans (List.map_id' ns)
  rw [hread,hback]

/-- A program and a codec write the same bytes for a run of numbers, and read the same numbers from
the same bytes, which have to be a whole number of elements. Reading undoes writing, and writing
undoes reading. -/
theorem runs_agree (reg : Registry) (p : Primitive) :
    (∀ value ns, value.run? = some ns →
      encodePlain (.slice p) value = .ok (marshal p.number ns)) ∧
    (∀ buf, if buf.length % p.size = 0 then
        ∃ ns value, unmarshal p.number buf = .ok ns ∧ decodePlain reg (.slice p) buf = .ok value ∧
          value.run? = some ns ∧ (∀ n ∈ ns, p.Holds n) ∧
          marshal p.number ns = buf ∧ encodePlain (.slice p) value = .ok buf
      else unmarshal p.number buf = .error .misaligned ∧
        decodePlain reg (.slice p) buf = .error (.payload .misaligned)) ∧
    ∀ ns, (∀ n ∈ ns, p.Holds n) → unmarshal p.number (marshal p.number ns) = .ok ns ∧
      ∃ value, decodePlain reg (.slice p) (marshal p.number ns) = .ok value ∧
        value.run? = some ns := by
  have hread : ∀ buf : Text, buf.length % p.size = 0 → ∃ ns value,
      unmarshal p.number buf = .ok ns ∧ decodePlain reg (.slice p) buf = .ok value ∧
      value.run? = some ns ∧ (∀ n ∈ ns, p.Holds n) ∧ marshal p.number ns = buf := by
    intro buf haligned
    obtain ⟨bits,hfits,hbytes,hunmarshal,hdecode⟩ := Record.run_of_aligned reg p haligned
    refine ⟨_,_,hunmarshal,hdecode,Record.run_numbers hfits,?_,?_⟩
    · intro n hn
      obtain ⟨b,-,rfl⟩ := List.mem_map.mp hn
      exact p.holds_denote b
    · rw [marshal_denote,← hbytes]
  refine ⟨fun value ns h => Record.encodePlain_run h,?_,?_⟩
  · intro buf
    split
    · rename_i haligned
      obtain ⟨ns,value,hunmarshal,hdecode,hrun,hholds,hbytes⟩ := hread buf haligned
      exact ⟨ns,value,hunmarshal,hdecode,hrun,hholds,hbytes,hbytes ▸ Record.encodePlain_run hrun⟩
    · rename_i hmisaligned
      exact Record.run_of_misaligned reg p hmisaligned
  · intro ns hns
    have haligned : (marshal p.number ns).length % p.size = 0 := by
      rw [length_marshal,Nat.mul_mod_right]
    obtain ⟨more,value,hunmarshal,hdecode,hrun,-,-⟩ := hread _ haligned
    have hback := unmarshal_marshal hns
    rw [hunmarshal] at hback
    cases hback
    exact ⟨hunmarshal,value,hdecode,hrun⟩

theorem shorts_agree :
    encodePlain (.slice .short) (.ints [258,-2]) = .ok [2,1,0xfe,0xff] ∧
    unmarshal Primitive.short.number [2,1,0xfe,0xff] = .ok [258,-2] ∧
    decodePlain default (.slice .short) [2,1,0xfe] = .error (.payload .misaligned) := by
  obtain ⟨hwrite,hread,hback⟩ := runs_agree default .short
  have hbytes : marshal Primitive.short.number [258,-2] = [2,1,0xfe,0xff] := by decide
  refine ⟨?_,?_,?_⟩
  · rw [hwrite (.ints [258,-2]) [258,-2] (by decide),hbytes]
  · rw [← hbytes]
    exact (hback [258,-2] (by decide)).1
  · have hthree := hread [2,1,0xfe]
    rw [if_neg (by decide)] at hthree
    exact hthree.2

end Payload

end WireSchema
