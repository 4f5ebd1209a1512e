import WireSchema.Proofs.Source.Located
set_option autoImplicit false

/-!
Positions tell offsets apart. Within a source a later offset has a later position, and an offset of
several sources read as one text is located in the one source that reaches over it, each up to and
with the newline that closes it.
-/

namespace WireSchema

namespace Position

/-- On an earlier line, or in an earlier column of the same line. -/
def Before (p q : Position) : Prop := p.line < q.line ∨ p.line = q.line ∧ p.column < q.column

theorem Before.trans {p q r : Position} (hpq : p.Before q) (hqr : q.Before r) : p.Before r := by
  unfold Before at *
  omega

theorem Before.ne {p q : Position} (h : p.Before q) : p ≠ q := by
  rintro rfl
  unfold Before at h
  omega

theorem before_advance (p : Position) (c : UInt8) : p.Before (p.advance c) := by
  unfold advance
  split
  · exact .inl (Nat.lt_succ_self p.line)
  · exact .inr ⟨rfl,Nat.lt_succ_self p.column⟩

theorem before_foldl {t : Text} (ht : t ≠ []) (p : Position) : p.Before (t.foldl advance p) := by
  induction t generalizing p with
  | nil => exact absurd rfl ht
  | cons c t ih =>
    have hstep := before_advance p c
    cases t with
    | nil => exact hstep
    | cons d t => exact hstep.trans (ih (List.cons_ne_nil d t) (p.advance c))

variable {src : Text} {a b : UInt32}

theorem ofOffset_before (h : a < b) (hb : b.toNat ≤ src.length) :
    (ofOffset src a).Before (ofOffset src b) := by
  have hlt : a.toNat < b.toNat := UInt32.lt_iff_toNat_lt.mp h
  -- What stands between the two offsets moves the position of the first to that of the second.
  have hsplit : src.take b.toNat =
      src.take a.toNat ++ (src.drop a.toNat).take (b.toNat - a.toNat) := by
    rw [← List.take_add,Nat.add_sub_of_le hlt.le]
  have hne : (src.drop a.toNat).take (b.toNat - a.toNat) ≠ [] := by
    refine List.ne_nil_of_length_pos ?_
    rw [List.length_take,List.length_drop]
    omega
  rw [ofOffset,ofOffset,hsplit,List.foldl_append]
  exact before_foldl hne _

theorem ofOffset_injective (ha : a.toNat ≤ src.length) (hb : b.toNat ≤ src.length)
    (h : ofOffset src a = ofOffset src b) : a = b := by
  rcases Nat.lt_trichotomy a.toNat b.toNat with hab | hab | hab
  · exact absurd h (ofOffset_before (UInt32.lt_iff_toNat_lt.mpr hab) hb).ne
  · exact UInt32.toNat_inj.mp hab
  · exact absurd h.symm (ofOffset_before (UInt32.lt_iff_toNat_lt.mpr hab) ha).ne

theorem ofOffset_past (hsize : src.length < 2 ^ 32) {offset : UInt32}
    (h : src.length ≤ offset.toNat) : ofOffset src offset = ofOffset src src.length.toUInt32 := by
  have hend : src.length.toUInt32.toNat = src.length := SourceSet.toNat_toUInt32 hsize
  rw [ofOffset,ofOffset,hend,List.take_length,List.take_of_length_le h]

end Position

namespace SourceSet

def startOf (set : SourceSet) (i : Nat) : Nat := (text (set.take i)).length

theorem startOf_succ (s : Source) (rest : SourceSet) (i : Nat) :
    startOf (s :: rest) (i + 1) = s.text.length + 1 + startOf rest i := by
  rw [startOf,List.take_succ_cons,text_cons,List.length_append,List.length_cons,startOf]
  omega

/-- A source reaches from its first byte to the newline that closes it. -/
structure Reaches (set : SourceSet) (i : Fin set.length) (n : Nat) : Prop where
  start_le : startOf set i ≤ n
  le_newline : n ≤ startOf set i + set[i].text.length

theorem newline_lt {set : SourceSet} {i j : Nat} (hi : i < set.length) (h : i < j) :
    startOf set i + set[i].text.length < startOf set j := by
  induction set generalizing i j with
  | nil => exact absurd hi (Nat.not_lt_zero i)
  | cons s rest ih =>
    cases j with
    | zero => exact absurd h (Nat.not_lt_zero i)
    | succ j =>
      rw [startOf_succ]
      cases i with
      | zero =>
        change 0 + s.text.length < _
        omega
      | succ i =>
        have hrest := ih (Nat.lt_of_succ_lt_succ hi) (Nat.lt_of_succ_lt_succ h)
        rw [startOf_succ,List.getElem_cons_succ]
        omega

theorem exists_reaches {set : SourceSet} {n : Nat} (h : n < (text set).length) :
    ∃ i, set.Reaches i n := by
  induction set generalizing n with
  | nil => exact absurd h (Nat.not_lt_zero n)
  | cons s rest ih =>
    -- Up to the newline of the first source, or behind it and reached by the rest.
    by_cases hs : n ≤ s.text.length
    · exact ⟨⟨0,Nat.zero_lt_succ _⟩,Nat.zero_le n,hs.trans (Nat.le_add_left _ _)⟩
    · rw [text_cons,List.length_append,List.length_cons] at h
      obtain ⟨i,hi⟩ := ih (show n - (s.text.length + 1) < (text rest).length by omega)
      have hstart := hi.start_le
      have hnewline := hi.le_newline
      refine ⟨i.succ,?_,?_⟩
      · rw [Fin.val_succ,startOf_succ]
        omega
      · change n ≤ startOf (s :: rest) (i + 1) + rest[i].text.length
        rw [startOf_succ]
        omega

theorem mem_starts {set : SourceSet} {i : Nat} (hi : i < set.length) (base : Nat) :
    ((base + startOf set i).toUInt32,set[i]) ∈ starts base set := by
  induction set generalizing i base with
  | nil => exact absurd hi (Nat.not_lt_zero i)
  | cons s rest ih =>
    cases i with
    | zero => exact List.mem_cons_self
    | succ i =>
      have hsum : base + startOf (s :: rest) (i + 1) =
          base + s.text.length + 1 + startOf rest i := by
        rw [startOf_succ]
        omega
      rw [hsum]
      exact List.mem_cons_of_mem _ (ih (Nat.lt_of_succ_lt_succ hi) _)

section Reached

variable {set : SourceSet} {i j : Fin set.length} {n : Nat} {a b : UInt32}

theorem Reaches.unique (hi : set.Reaches i n) (hj : set.Reaches j n) : i = j := by
  have hiStart := hi.start_le
  have hjStart := hj.start_le
  have hiNewline : n ≤ startOf set i + set[i.val].text.length := hi.le_newline
  have hjNewline : n ≤ startOf set j + set[j.val].text.length := hj.le_newline
  rcases Nat.lt_trichotomy i.val j.val with hij | hij | hij
  · have hlt := newline_lt i.isLt hij
    omega
  · exact Fin.ext hij
  · have hlt := newline_lt j.isLt hij
    omega

theorem Reaches.toNat_sub (h : set.Reaches i a.toNat) :
    (a - (startOf set i).toUInt32).toNat = a.toNat - startOf set i := by
  have hstart : (startOf set i).toUInt32.toNat = startOf set i :=
    toNat_toUInt32 (h.start_le.trans_lt a.toNat_lt)
  have hle : (startOf set i).toUInt32 ≤ a :=
    UInt32.le_iff_toNat_le.mpr (hstart.trans_le h.start_le)
  rw [UInt32.toNat_sub_of_le _ _ hle,hstart]

theorem Reaches.sub_le (h : set.Reaches i a.toNat) :
    (a - (startOf set i).toUInt32).toNat ≤ set[i].text.length := by
  rw [h.toNat_sub]
  exact Nat.sub_le_iff_le_add'.mpr h.le_newline

theorem locate_reaches (hsize : (text set).length < 2 ^ 32) (h : set.Reaches i a.toNat) :
    locate set a = (set[i].path,.ofOffset set[i].text (a - (startOf set i).toUInt32)) := by
  have hmem := mem_starts i.isLt 0
  rw [Nat.zero_add] at hmem
  have hlocate := locate_within hsize hmem h.sub_le
  rwa [UInt32.sub_add_cancel] at hlocate

theorem eq_of_position (hsize : (text set).length < 2 ^ 32) (ha : set.Reaches i a.toNat)
    (hb : set.Reaches i b.toNat) (h : (locate set a).2 = (locate set b).2) : a = b := by
  rw [locate_reaches hsize ha,locate_reaches hsize hb] at h
  have hsub := congrArg UInt32.toNat (Position.ofOffset_injective ha.sub_le hb.sub_le h)
  rw [ha.toNat_sub,hb.toNat_sub] at hsub
  have hale := ha.start_le
  have hble := hb.start_le
  exact UInt32.toNat_inj.mp (by omega)

theorem eq_of_path (hpaths : (set.map Source.path).Nodup) (h : set[i].path = set[j].path) :
    i = j := by
  have hi : i.val < (set.map Source.path).length := by simp
  have hj : j.val < (set.map Source.path).length := by simp
  have hmap : (set.map Source.path)[i.val] = (set.map Source.path)[j.val] := by
    rw [List.getElem_map,List.getElem_map]
    exact h
  exact Fin.ext (hpaths.getElem_inj_iff.mp hmap)

theorem eq_of_locate (hsize : (text set).length < 2 ^ 32) (hpaths : (set.map Source.path).Nodup)
    (ha : a.toNat < (text set).length) (hb : b.toNat < (text set).length)
    (h : locate set a = locate set b) : a = b := by
  obtain ⟨i,hi⟩ := exists_reaches ha
  obtain ⟨j,hj⟩ := exists_reaches hb
  have hpath : set[i].path = set[j].path := by
    have hfst := congrArg Prod.fst h
    rwa [locate_reaches hsize hi,locate_reaches hsize hj] at hfst
  cases eq_of_path hpaths hpath
  exact eq_of_position hsize hi hj (congrArg Prod.snd h)

end Reached

/-- Within a source a later offset has a later position, the line and the column of which count the
newlines in front of it and the bytes behind the last of them; offsets past the end have the
position of the end. An offset of several sources is reached by one of them, up to the newline that
closes it, and is located there: two of one source have different positions, and two of any have
different positions or paths if no path is given twice. -/
theorem positions_identify :
    (∀ src : Text, src.length < 2 ^ 32 →
      (∀ a b : UInt32, a < b → b.toNat ≤ src.length →
        (Position.ofOffset src a).Before (Position.ofOffset src b)) ∧
      (∀ offset : UInt32, (Position.ofOffset src offset).Of src offset.toNat) ∧
      ∀ offset : UInt32, src.length ≤ offset.toNat →
        Position.ofOffset src offset = Position.ofOffset src src.length.toUInt32) ∧
    ∀ set : SourceSet, (text set).length < 2 ^ 32 →
      (∀ n < (text set).length, ∃! i, set.Reaches i n) ∧
      (∀ i (a : UInt32), set.Reaches i a.toNat →
        locate set a = (set[i].path,.ofOffset set[i].text (a - (startOf set i).toUInt32))) ∧
      (∀ i (a b : UInt32), set.Reaches i a.toNat → set.Reaches i b.toNat → a ≠ b →
        (locate set a).2 ≠ (locate set b).2) ∧
      ((set.map Source.path).Nodup → ∀ a b : UInt32, a.toNat < (text set).length →
        b.toNat < (text set).length → a ≠ b → locate set a ≠ locate set b) := by
  constructor
  · intro src hsize
    exact ⟨fun a b h hb => Position.ofOffset_before h hb,Position.of_ofOffset src,
      fun offset h => Position.ofOffset_past hsize h⟩
  · intro set hsize
    refine ⟨?_,fun i a h => locate_reaches hsize h,?_,?_⟩
    · intro n hn
      obtain ⟨i,hi⟩ := exists_reaches hn
      exact ⟨i,hi,fun j hj => hj.unique hi⟩
    · intro i a b ha hb hne hposition
      exact hne (eq_of_position hsize ha hb hposition)
    · intro hpaths a b ha hb hne h
      exact hne (eq_of_locate hsize hpaths ha hb h)

def blankSource : Source := ⟨"blank.steamd",[]⟩

def shortSource : Source := ⟨"short.steamd","a\nb"⟩

/-- The newline behind a source without text is located in it, the byte behind that in the next
source, and the newline at the very end behind the last byte of the second line. -/
theorem blank_short_identify : shortSource.text.length < 2 ^ 32 ∧ (1 : UInt32) < 2 ∧
    (2 : UInt32).toNat ≤ shortSource.text.length ∧
    (Position.ofOffset shortSource.text 1).Before (Position.ofOffset shortSource.text 2) ∧
    Position.ofOffset shortSource.text 9 = Position.ofOffset shortSource.text 3 ∧
    (text [blankSource,shortSource]).length < 2 ^ 32 ∧
    ([blankSource,shortSource].map Source.path).Nodup ∧
    (∃! i, Reaches [blankSource,shortSource] i 4) ∧
    locate [blankSource,shortSource] 0 = (blankSource.path,⟨1,1⟩) ∧
    locate [blankSource,shortSource] 4 = (shortSource.path,⟨2,2⟩) ∧
    (locate [blankSource,shortSource] 1).2 ≠ (locate [blankSource,shortSource] 4).2 ∧
    locate [blankSource,shortSource] 0 ≠ locate [blankSource,shortSource] 1 := by
  have hshort : shortSource.text.length < 2 ^ 32 := by decide
  have hsize : (text [blankSource,shortSource]).length < 2 ^ 32 := by decide
  have hpaths : ([blankSource,shortSource].map Source.path).Nodup := by decide
  have hblank : Reaches [blankSource,shortSource] 0 (0 : UInt32).toNat := ⟨by decide,by decide⟩
  have hfirst : Reaches [blankSource,shortSource] 1 (1 : UInt32).toNat := ⟨by decide,by decide⟩
  have hlast : Reaches [blankSource,shortSource] 1 (4 : UInt32).toNat := ⟨by decide,by decide⟩
  obtain ⟨hsource,hsets⟩ := positions_identify
  obtain ⟨hbefore,-,hpast⟩ := hsource shortSource.text hshort
  obtain ⟨hreached,hlocate,hown,hdistinct⟩ := hsets [blankSource,shortSource] hsize
  refine ⟨hshort,by decide,by decide,hbefore 1 2 (by decide) (by decide),hpast 9 (by decide),hsize,
    hpaths,hreached 4 (by decide),?_,?_,hown 1 1 4 hfirst hlast (by decide),
    hdistinct hpaths 0 1 (by decide) (by decide) (by decide)⟩
  · exact (hlocate 0 0 hblank).trans (by decide)
  · exact (hlocate 1 4 hlast).trans (by decide)

end SourceSet

end WireSchema
