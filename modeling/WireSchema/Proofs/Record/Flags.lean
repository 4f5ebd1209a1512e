import WireSchema.Proofs.Plan.Known
import WireSchema.Proofs.Plan.WellFormed
import WireSchema.Proofs.Record.Bits
import WireSchema.Proofs.Record.Codec
import WireSchema.Proofs.Schema.Bound
import WireSchema.Record.Dump
set_option autoImplicit false

/-!
Numbers of enumerations in a dump. A number is shown by the name of its value, or as the exact union
of flags, or as it stands, which happens only where the names do not suffice. The number itself is
the one that the storage denotes, but for large numbers of the widest storage without a sign.
-/

namespace WireSchema

namespace Bits

theorem eq_of_testBit {a b : UInt64} (h : ∀ i, a.toNat.testBit i = b.toNat.testBit i) : a = b :=
  UInt64.toNat_inj.mp (Nat.eq_of_testBit_eq h)

theorem testBit_and (a b : UInt64) (i : Nat) :
    (a &&& b).toNat.testBit i = (a.toNat.testBit i && b.toNat.testBit i) := by
  rw [UInt64.toNat_and,Nat.testBit_and]

theorem testBit_or (a b : UInt64) (i : Nat) :
    (a ||| b).toNat.testBit i = (a.toNat.testBit i || b.toNat.testBit i) := by
  rw [UInt64.toNat_or,Nat.testBit_or]

theorem testBit_without (a b : UInt64) (i : Nat) :
    (a &&& ~~~b).toNat.testBit i = (a.toNat.testBit i && !b.toNat.testBit i) := by
  have hnot : (~~~b).toNat = 2 ^ 64 - (b.toNat + 1) := by
    rw [UInt64.toNat_not,UInt64.size]
    omega
  rw [testBit_and,hnot,Nat.testBit_two_pow_sub_succ b.toNat_lt]
  by_cases hi : i < 64
  · simp [hi]
  · have hlt : a.toNat < 2 ^ i :=
      Nat.lt_of_lt_of_le a.toNat_lt (Nat.pow_le_pow_right (by decide) (by omega))
    simp [Nat.testBit_lt_two_pow hlt]

theorem testBit_single {b : UInt64} {i : Nat} (h : b.toNat = 2 ^ i) (j : Nat) :
    b.toNat.testBit j = decide (i = j) := by
  rw [h,Nat.testBit_two_pow]

theorem single_iff {b : UInt64} : b ≠ 0 ∧ b &&& (b - 1) = 0 ↔ ∃ i, b.toNat = 2 ^ i := by
  have hpred : b.toNat ≠ 0 → (b - 1).toNat = b.toNat - 1 := by
    intro hb
    have hlt := b.toNat_lt
    rw [UInt64.toNat_sub,UInt64.toNat_one]
    omega
  constructor
  · rintro ⟨hb,hand⟩
    have hzero : b.toNat ≠ 0 := fun h => hb (UInt64.toNat_inj.mp h)
    have hle := Nat.log2_self_le hzero
    have hlt : b.toNat < 2 ^ (b.toNat.log2 + 1) := Nat.lt_log2_self
    refine ⟨b.toNat.log2,by_contra fun hne => ?_⟩
    -- Another bit below the highest one would keep the highest one when the pattern is lowered.
    have hhigh := Nat.testBit_of_two_pow_le_and_two_pow_add_one_gt hle hlt
    have hsame := Nat.testBit_of_two_pow_le_and_two_pow_add_one_gt
      (show 2 ^ b.toNat.log2 ≤ b.toNat - 1 by omega) (by omega)
    have hbit := congrArg (fun c : UInt64 => c.toNat.testBit b.toNat.log2) hand
    rw [testBit_and,hhigh,hpred hzero,hsame] at hbit
    simp at hbit
  · rintro ⟨i,hi⟩
    have hpos : 0 < 2 ^ i := Nat.two_pow_pos i
    have hzero : b.toNat ≠ 0 := by omega
    refine ⟨fun h => hzero (by rw [h]; rfl),eq_of_testBit fun j => ?_⟩
    rw [testBit_and,hpred hzero,hi,Nat.testBit_two_pow,Nat.testBit_two_pow_sub_one]
    by_cases hj : i = j
    · simp [hj]
    · simp [hj]

def union (patterns : List UInt64) : UInt64 := patterns.foldr (· ||| ·) 0

theorem testBit_union {patterns : List UInt64} {i : Nat} :
    (union patterns).toNat.testBit i = true ↔ ∃ b ∈ patterns, b.toNat.testBit i = true := by
  induction patterns with
  | nil => simp [union]
  | cons b rest ih =>
    rw [union,List.foldr_cons,testBit_or,Bool.or_eq_true]
    rw [union] at ih
    simp [ih]

end Bits

namespace Dump

/-- Flags picked from values for a pattern, and the bits that are left. -/
structure Picked (values : List Plan.EnumValue) (rest left : UInt64)
    (picked : List (Plan.EnumValue × UInt64)) : Prop where
  declared : (picked.map Prod.fst).Sublist values
  single : ∀ p ∈ picked, p.1.bits = some p.2 ∧ ∃ i, p.2.toNat = 2 ^ i
  disjoint : picked.Pairwise fun p q => p.2 &&& q.2 = 0
  whole : Bits.union (picked.map Prod.snd) ||| left = rest
  leftover : ∀ v ∈ values, ∀ b, v.bits = some b → ∀ i, b.toNat = 2 ^ i →
    left.toNat.testBit i = false

namespace Picked

variable {values : List Plan.EnumValue} {rest left bits : UInt64} {v : Plan.EnumValue}
variable {picked : List (Plan.EnumValue × UInt64)} {i : Nat}

theorem nil (rest : UInt64) : Picked [] rest rest [] where
  declared := List.Sublist.refl _
  single := by simp
  disjoint := .nil
  whole := by simp [Bits.union]
  leftover := by simp

theorem testBit_left (h : Picked values rest left picked)
    (hbit : left.toNat.testBit i = true) : rest.toNat.testBit i = true := by
  rw [← h.whole,Bits.testBit_or,hbit,Bool.or_true]

theorem testBit_picked (h : Picked values rest left picked) {p : Plan.EnumValue × UInt64}
    (hp : p ∈ picked) (hbit : p.2.toNat.testBit i = true) : rest.toNat.testBit i = true := by
  have hunion : (Bits.union (picked.map Prod.snd)).toNat.testBit i = true :=
    Bits.testBit_union.mpr ⟨p.2,List.mem_map_of_mem hp,hbit⟩
  rw [← h.whole,Bits.testBit_or,hunion,Bool.true_or]

theorem skip (h : Picked values rest left picked)
    (hv : ∀ b, v.bits = some b → ∀ i, b.toNat = 2 ^ i → rest.toNat.testBit i = false) :
    Picked (v :: values) rest left picked where
  declared := h.declared.cons v
  single := h.single
  disjoint := h.disjoint
  whole := h.whole
  leftover := by
    intro w hw b hb i hi
    rcases List.mem_cons.mp hw with rfl | hw
    · have hrest := hv b hb i hi
      cases hleft : left.toNat.testBit i with
      | false => rfl
      | true => rw [h.testBit_left hleft] at hrest; cases hrest
    · exact h.leftover w hw b hb i hi

theorem take (h : Picked values (rest &&& ~~~bits) left picked) (hv : v.bits = some bits)
    (hi : bits.toNat = 2 ^ i) (hrest : rest.toNat.testBit i = true) :
    Picked (v :: values) rest left ((v,bits) :: picked) where
  declared := h.declared.cons_cons v
  single := by
    intro p hp
    rcases List.mem_cons.mp hp with rfl | hp
    · exact ⟨hv,i,hi⟩
    · exact h.single p hp
  disjoint := by
    refine List.pairwise_cons.mpr ⟨fun p hp => Bits.eq_of_testBit fun j => ?_,h.disjoint⟩
    rw [Bits.testBit_and]
    cases hbit : p.2.toNat.testBit j with
    | false => simp
    | true =>
      have hwithout := h.testBit_picked hp hbit
      rw [Bits.testBit_without] at hwithout
      simp_all
  whole := by
    refine Bits.eq_of_testBit fun j => ?_
    have hwhole := congrArg (fun b : UInt64 => b.toNat.testBit j) h.whole
    simp only [Bits.testBit_or,Bits.testBit_without,Bits.testBit_single hi] at hwhole
    rw [List.map_cons,Bits.union,List.foldr_cons,Bits.testBit_or,Bits.testBit_or,Bool.or_assoc,
      ← Bits.union,hwhole,Bits.testBit_single hi]
    by_cases hj : i = j
    · subst hj
      simp [hrest]
    · simp [hj]
  leftover := by
    intro w hw b hb j hj
    cases hleft : left.toNat.testBit j with
    | false => rfl
    | true =>
      rcases List.mem_cons.mp hw with rfl | hw
      · rw [hv] at hb
        cases hb
        have hwithout := h.testBit_left hleft
        rw [Bits.testBit_without,Bits.testBit_single hj] at hwithout
        simp at hwithout
      · rw [h.leftover w hw b hb j hj] at hleft
        cases hleft

theorem uncovered (h : Picked values rest left picked) (hleft : left ≠ 0) :
    ∃ i, rest.toNat.testBit i = true ∧
      ∀ v ∈ values, ∀ b, v.bits = some b → b.toNat ≠ 2 ^ i := by
  have hzero : left.toNat ≠ 0 := fun hz => hleft (UInt64.toNat_inj.mp hz)
  obtain ⟨i,hi⟩ := Nat.exists_testBit_of_ne_zero hzero
  refine ⟨i,h.testBit_left hi,fun v hv b hb hsingle => ?_⟩
  rw [h.leftover v hv b hb i hsingle] at hi
  cases hi

end Picked

theorem and_single_iff {rest bits : UInt64} {i : Nat} (hi : bits.toNat = 2 ^ i) :
    rest &&& bits = bits ↔ rest.toNat.testBit i = true := by
  constructor
  · intro h
    have hbit := congrArg (fun b : UInt64 => b.toNat.testBit i) h
    simpa [Bits.testBit_and,Bits.testBit_single hi] using hbit
  · intro h
    refine Bits.eq_of_testBit fun j => ?_
    rw [Bits.testBit_and,Bits.testBit_single hi]
    by_cases hj : i = j
    · subst hj
      simp [h]
    · simp [hj]

theorem flagNames_picked (name : Text) (values : List Plan.EnumValue) (rest : UInt64) :
    ∃ picked, Picked values rest (flagNames name values rest).2 picked ∧
      (flagNames name values rest).1 =
        picked.map fun p => Text.cat [name,"::",p.1.name] := by
  induction values generalizing rest with
  | nil => exact ⟨[],.nil rest,rfl⟩
  | cons v values ih =>
    rw [flagNames]
    cases hbits : v.bits with
    | none =>
      obtain ⟨picked,hpicked,hnames⟩ := ih rest
      exact ⟨picked,hpicked.skip (by simp [hbits]),hnames⟩
    | some bits =>
      dsimp only
      split
      · rename_i hflag
        obtain ⟨hnonzero,hlowest,hrest⟩ := hflag
        obtain ⟨i,hi⟩ := Bits.single_iff.mp ⟨hnonzero,hlowest⟩
        obtain ⟨picked,hpicked,hnames⟩ := ih (rest &&& ~~~bits)
        refine ⟨(v,bits) :: picked,hpicked.take hbits hi ((and_single_iff hi).mp hrest),?_⟩
        rw [List.map_cons,← hnames]
      · rename_i hflag
        obtain ⟨picked,hpicked,hnames⟩ := ih rest
        refine ⟨picked,hpicked.skip fun b hb i hi => ?_,hnames⟩
        cases hbits.symm.trans hb
        have hsingle := Bits.single_iff.mpr ⟨i,hi⟩
        rw [← Bool.not_eq_true,← and_single_iff hi]
        exact fun hrest => hflag ⟨hsingle.1,hsingle.2,hrest⟩

/-- How a number of an enumeration may be shown, if the integer for it is as given. -/
inductive Shown (e : Plan.Enum) (bits : UInt64) (n : Int) : Text → Prop
  | value {v : Plan.EnumValue} (declared : v ∈ e.values)
      (known : v.bits = some (e.carrier.mask bits)) :
      Shown e bits n (Text.cat [e.name,"::",v.name])
  | flags {picked : List (Plan.EnumValue × UInt64)} (flags : e.decl.flags = true)
      (nonzero : e.carrier.mask bits ≠ 0)
      (unnamed : ∀ v ∈ e.values, v.bits ≠ some (e.carrier.mask bits))
      (declared : (picked.map Prod.fst).Sublist e.values)
      (names : (picked.map fun p => p.1.name).Nodup)
      (single : ∀ p ∈ picked, p.1.bits = some p.2 ∧ ∃ i, p.2.toNat = 2 ^ i)
      (disjoint : picked.Pairwise fun p q => p.2 &&& q.2 = 0)
      (whole : Bits.union (picked.map Prod.snd) = e.carrier.mask bits) :
      Shown e bits n (Text.join " | " (picked.map fun p => Text.cat [e.name,"::",p.1.name]))
  | number (unnamed : ∀ v ∈ e.values, v.bits ≠ some (e.carrier.mask bits))
      (uncovered : e.decl.flags = true → e.carrier.mask bits ≠ 0 →
        ∃ i, (e.carrier.mask bits).toNat.testBit i = true ∧
          ∀ v ∈ e.values, ∀ b, v.bits = some b → b.toNat ≠ 2 ^ i) :
      Shown e bits n (Text.cat [e.name,"(",Text.ofInt n,")"])

theorem enumText_shown {plan : Plan.Enum} (hnames : (plan.values.map Plan.EnumValue.name).Nodup)
    (bits : UInt64) : Shown plan bits (plan.carrier.signed (plan.carrier.mask bits)).toInt
      (enumText plan bits) := by
  unfold enumText
  cases hfind : plan.values.find? fun v => v.bits == some (plan.carrier.mask bits) with
  | some v =>
    have hknown : v.bits = some (plan.carrier.mask bits) := by simpa using List.find?_some hfind
    simp only [hfind]
    exact .value (List.mem_of_find?_eq_some hfind) hknown
  | none =>
    have hunnamed : ∀ v ∈ plan.values, v.bits ≠ some (plan.carrier.mask bits) := by
      simpa using hfind
    obtain ⟨picked,hpicked,htexts⟩ :=
      flagNames_picked plan.name plan.values (plan.carrier.mask bits)
    simp only [hfind]
    split
    · rename_i hflags
      split
      · rename_i names hrun
        rw [hrun] at hpicked htexts
        have hwhole := hpicked.whole
        rw [UInt64.or_zero] at hwhole
        have hdifferent : (picked.map fun p => p.1.name).Nodup := by
          have hsublist := hpicked.declared.map Plan.EnumValue.name
          rw [List.map_map] at hsublist
          exact hnames.sublist hsublist
        dsimp only at htexts
        rw [htexts]
        exact .flags hflags.1 hflags.2 hunnamed hpicked.declared hdifferent hpicked.single
          hpicked.disjoint hwhole
      · rename_i hleft
        have hleft : (flagNames plan.name plan.values (plan.carrier.mask bits)).2 ≠ 0 :=
          fun hzero => hleft _ (Prod.ext rfl hzero)
        exact .number hunnamed (fun _ _ => hpicked.uncovered hleft)
    · rename_i hflags
      exact .number hunnamed (fun hset hnonzero => absurd ⟨hset,hnonzero⟩ hflags)

/-- The integer that is shown: what the storage denotes, as far as a storage with a sign has it. -/
def shownNumber (storage : Primitive) (bits : UInt64) : Int :=
  if storage = .ulong ∧ 2 ^ 63 ≤ bits.toNat then bits.toNat - 2 ^ 64 else storage.denote bits

theorem toInt_signed_mask (p : Primitive) (bits : UInt64) :
    (p.signed (p.mask bits)).toInt = shownNumber p bits := by
  unfold shownNumber
  cases hp : p.unsigned with
  | false =>
    have hulong : p ≠ .ulong := fun h => by simp [h,Primitive.unsigned] at hp
    rw [if_neg (fun h => hulong h.1),← p.denote_mask bits,Primitive.denote,if_neg (by simp [hp])]
  | true =>
    have hsigned : p.signed (p.mask bits) = (p.mask bits).toInt64 := by
      simp [Primitive.signed,Bits.signed,hp]
    have hint : (p.mask bits).toInt64.toInt = Int.bmod (p.mask bits).toNat (2 ^ 64) :=
      BitVec.toInt_eq_toNat_bmod (p.mask bits).toBitVec
    have hlt := bits.toNat_lt
    rw [hsigned,hint,Primitive.denote,if_pos hp,p.toNat_mask]
    cases p with
    | ulong =>
      simp only [Primitive.size,Int.bmod,true_and]
      omega
    | byte | char | ushort | uint =>
      simp only [Primitive.size,Int.bmod,reduceCtorEq,false_and,if_false]
      omega
    | sbyte | short | int | long => cases hp

theorem toInt_signed_carrier (storage : Primitive) (bits : UInt64) :
    ((Plan.carrierOf storage).signed ((Plan.carrierOf storage).mask bits)).toInt =
      shownNumber storage bits := by
  obtain ⟨hsize,hsign⟩ := Plan.carrierOf_congr storage
  rw [toInt_signed_mask,shownNumber,shownNumber,← Primitive.denote_congr hsize hsign]
  cases storage <;> rfl

theorem nodup_names {path : Text} {doc : Document} {schema : Schema} {ws : List Schema.Warning}
    (hcompile : Schema.compile path doc = .ok (schema,ws)) {e : Schema.Enum}
    (he : e ∈ schema.enums) :
    (((Plan.enumOnce schema e).values).map Plan.EnumValue.name).Nodup := by
  have hdecl : .enum e ∈ schema.decls := by
    obtain ⟨d,hd,hde⟩ := List.mem_filterMap.mp he
    cases d with
    | «class» c => cases hde
    | enum e => cases hde; exact hd
  have hmembers : (e.values.map Schema.EnumValue.name).Nodup :=
    (Schema.bound_of_compile hcompile).members _ hdecl
  have hplan : Plan.enumOnce schema e = _ := (Plan.enum_eq_number Plan.Memo.sound_empty e).2
  rw [hplan,List.map_map]
  exact hmembers.sublist (List.filter_sublist.map _)

/-- A number of an enumeration is shown by names wherever these suffice, and else as what the
storage denotes, unless it is too large for a storage with a sign. -/
theorem enum_shown {path : Text} {doc : Document} {schema : Schema} {ws : List Schema.Warning}
    (hcompile : Schema.compile path doc = .ok (schema,ws)) {e : Schema.Enum}
    (he : e ∈ schema.enums) (bits : UInt64) :
    Shown (Plan.enumOnce schema e) bits (shownNumber e.storage bits)
      (enumText (Plan.enumOnce schema e) bits) := by
  have hdecl : (Plan.enumOnce schema e).decl = e :=
    congrArg Plan.Enum.decl (Plan.enum_eq_number Plan.Memo.sound_empty e).2
  have hshown := enumText_shown (nodup_names hcompile he) bits
  rwa [Plan.Enum.carrier,hdecl,toInt_signed_carrier] at hshown

def accessDocument : Document where
  span := ⟨0,0⟩
  directives := []
  decls := [
    .enum ⟨⟨0,0⟩,⟨"EAccess",0⟩,some ⟨"ulong",0⟩,true,[
      ⟨⟨0,0⟩,⟨"Read",0⟩,[⟨"1",0⟩],none,none⟩,
      ⟨⟨0,0⟩,⟨"Write",0⟩,[⟨"2",0⟩],none,none⟩,
      ⟨⟨0,0⟩,⟨"Both",0⟩,[⟨"Read",0⟩,⟨"Write",0⟩],none,none⟩,
      ⟨⟨0,0⟩,⟨"Share",0⟩,[⟨"4",0⟩],none,none⟩]⟩,
    .class ⟨⟨0,0⟩,⟨"Grant",0⟩,none,none,none,[Codec.property none none "EAccess" "access"]⟩]

def accessSchema : Schema :=
  ((Schema.compile [] accessDocument).toOption.map Prod.fst).getD default

theorem compile_access : ∃ ws, Schema.compile [] accessDocument = .ok (accessSchema,ws) := by
  obtain ⟨result,h⟩ : ∃ result, Schema.compile [] accessDocument = .ok result :=
    Result.exists_of_isOk (by decide +kernel)
  exact ⟨result.2,by simp [accessSchema,h,Except.toOption]⟩

def access : Schema.Enum := (accessSchema.enum? "EAccess").getD default

theorem access_declared : access ∈ accessSchema.enums ∧ access.storage = .ulong := by
  decide +kernel

theorem access_shown :
    (∃ ws, Schema.compile [] accessDocument = .ok (accessSchema,ws)) ∧
      access ∈ accessSchema.enums ∧
      Shown (Plan.enumOnce accessSchema access) 3 3 "EAccess::Both" ∧
      Shown (Plan.enumOnce accessSchema access) 5 5 "EAccess::Read | EAccess::Share" := by
  obtain ⟨ws,hcompile⟩ := compile_access
  have htexts : enumText (Plan.enumOnce accessSchema access) 3 = "EAccess::Both" ∧
      enumText (Plan.enumOnce accessSchema access) 5 = "EAccess::Read | EAccess::Share" := by
    decide +kernel
  have hnumbers : shownNumber access.storage 3 = 3 ∧ shownNumber access.storage 5 = 5 := by
    decide +kernel
  have hboth := enum_shown hcompile access_declared.1 3
  have hunion := enum_shown hcompile access_declared.1 5
  rw [htexts.1,hnumbers.1] at hboth
  rw [htexts.2,hnumbers.2] at hunion
  exact ⟨⟨ws,hcompile⟩,access_declared.1,hboth,hunion⟩

def grant : Record := .mk "Grant" none [("access",.word 0x8000000000000001)]

/-- A number that no flags make up is shown with a sign that its storage does not have. -/
theorem access_negative :
    (∃ ws, Schema.compile [] accessDocument = .ok (accessSchema,ws)) ∧
      access ∈ accessSchema.enums ∧ access.storage = .ulong ∧
      ((Codec.new accessSchema false .empty).dump grant).1 =
        "Grant \x7b\n\taccess = EAccess(-9223372036854775807)\n\x7d\n" ∧
      enumText (Plan.enumOnce accessSchema access) 0x8000000000000001 =
        "EAccess(-9223372036854775807)" ∧
      Primitive.ulong.denote 0x8000000000000001 = 9223372036854775809 ∧
      ¬ Shown (Plan.enumOnce accessSchema access) 0x8000000000000001
        (Primitive.ulong.denote 0x8000000000000001)
        (enumText (Plan.enumOnce accessSchema access) 0x8000000000000001) := by
  have htext : enumText (Plan.enumOnce accessSchema access) 0x8000000000000001 =
      "EAccess(-9223372036854775807)" := by
    decide +kernel
  have hmask : (Plan.enumOnce accessSchema access).carrier.mask 0x8000000000000001 =
      0x8000000000000001 := by
    decide +kernel
  have hhigh : ∀ v ∈ (Plan.enumOnce accessSchema access).values,
      v.bits.all (fun b => !b.toNat.testBit 63) = true := by
    decide +kernel
  have hnone : ∀ v ∈ (Plan.enumOnce accessSchema access).values, ∀ b, v.bits = some b →
      b.toNat.testBit 63 ≠ true := by
    intro v hv b hb
    simpa [hb] using hhigh v hv
  refine ⟨compile_access,access_declared.1,access_declared.2,by decide +kernel,htext,
    by decide +kernel,?_⟩
  rw [htext]
  generalize hshown : Text.ofString "EAccess(-9223372036854775807)" = shown
  intro h
  cases h with
  | value declared known =>
    rw [hmask] at known
    exact hnone _ declared _ known (by decide)
  | flags _ _ _ declared _ single _ whole =>
    rw [hmask] at whole
    obtain ⟨b,hb,hbit⟩ := Bits.testBit_union.mp
      (show (Bits.union _).toNat.testBit 63 = true by rw [whole]; decide)
    obtain ⟨p,hp,rfl⟩ := List.mem_map.mp hb
    exact hnone _ (declared.subset (List.mem_map_of_mem hp)) _ (single p hp).1 hbit
  | number => exact absurd hshown (by decide +kernel)

end Dump

end WireSchema
