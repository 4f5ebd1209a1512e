import WireSchema.Files.Basic
import Mathlib.Data.List.Basic
set_option autoImplicit false

namespace WireSchema.Text

theorem byte_digit {c : Char} (h : c.isDigit = true) :
    Char.ofNat (byte c).toNat = c ∧ isDigit (byte c) = true := by
  simp only [Char.isDigit,Bool.and_eq_true,decide_eq_true_eq,ge_iff_le] at h
  have hlow : 48 ≤ c.toNat := UInt32.le_iff_toNat_le.mp h.1
  have hhigh : c.toNat ≤ 57 := UInt32.le_iff_toNat_le.mp h.2
  have hbyte : (byte c).toNat = c.toNat := by
    simp only [byte,Nat.toUInt8,UInt8.toNat_ofNat']
    omega
  refine ⟨by rw [hbyte,Char.ofNat_toNat],?_⟩
  simp only [isDigit,Bool.and_eq_true,decide_eq_true_eq,UInt8.le_iff_toNat_le,hbyte]
  exact ⟨hlow,hhigh⟩

theorem isDigit_of_mem_ofNat {n : Nat} {c : UInt8} (h : c ∈ ofNat n) : isDigit c = true := by
  obtain ⟨d,hd,rfl⟩ := List.mem_map.mp h
  exact (byte_digit (Nat.isDigit_of_mem_toDigits (by decide) (by decide) hd)).2

theorem ofNat_injective : Function.Injective ofNat := by
  have hback : ∀ n, ((ofNat n).map fun c => Char.ofNat c.toNat) = Nat.toDigits 10 n := by
    intro n
    rw [ofNat,digits,List.map_map]
    calc (Nat.toDigits 10 n).map _ = (Nat.toDigits 10 n).map id :=
        List.map_congr_left fun c hc =>
          (byte_digit (Nat.isDigit_of_mem_toDigits (by decide) (by decide) hc)).1
      _ = _ := List.map_id _
  intro m n h
  have hdigits : Nat.toDigits 10 m = Nat.toDigits 10 n := by rw [← hback,h,hback]
  have hvalue := congrArg (Nat.ofDigitChars 10 · 0) hdigits
  simpa [Nat.ofDigitChars_toDigits] using hvalue

theorem splitOn_ne_nil (sep : UInt8) (t : Text) : splitOn sep t ≠ [] := by
  cases t with
  | nil => simp [splitOn]
  | cons c t =>
    simp only [splitOn]
    split
    · simp
    · split <;> simp

theorem splitOn_of_not_mem {sep : UInt8} {t : Text} (h : sep ∉ t) : splitOn sep t = [t] := by
  induction t with
  | nil => rfl
  | cons c t ih =>
    obtain ⟨hc,ht⟩ := not_or.mp (mt List.mem_cons.mpr h)
    simp [splitOn,ih ht,Ne.symm hc]

theorem splitOn_append_cons (sep : UInt8) (front back : Text) :
    splitOn sep (front ++ sep :: back) = splitOn sep front ++ splitOn sep back := by
  induction front with
  | nil => simp [splitOn]
  | cons c front ih =>
    simp only [List.cons_append,splitOn,ih]
    cases hpieces : splitOn sep front with
    | nil => exact absurd hpieces (splitOn_ne_nil sep front)
    | cons piece pieces => split <;> rfl

theorem join_append (sep last : Text) (pieces : List Text) :
    join sep (pieces ++ [last]) = pieces.flatMap (· ++ sep) ++ last := by
  induction pieces with
  | nil => rfl
  | cons piece pieces ih =>
    have hstep : join sep (piece :: (pieces ++ [last])) =
        piece ++ sep ++ join sep (pieces ++ [last]) := by cases pieces <;> rfl
    rw [List.cons_append,hstep,ih]
    simp

theorem not_mem_of_mem_splitOn {sep : UInt8} {t piece : Text} (h : piece ∈ splitOn sep t) :
    sep ∉ piece := by
  induction t generalizing piece with
  | nil =>
    obtain rfl : piece = [] := by simpa [splitOn] using h
    simp
  | cons c t ih =>
    simp only [splitOn] at h
    split at h
    · rcases List.mem_cons.mp h with rfl | h
      · simp
      · exact ih h
    · rename_i hc
      have hne : sep ≠ c := fun heq => hc (by simp [heq])
      cases hpieces : splitOn sep t with
      | nil => exact absurd hpieces (splitOn_ne_nil sep t)
      | cons first pieces =>
        rw [hpieces] at h
        rcases List.mem_cons.mp h with rfl | h
        · have hmem : first ∈ splitOn sep t := by simp [hpieces]
          simp [hne,ih hmem]
        · exact ih (by simp [hpieces,h])

theorem splitOn_join {sep : UInt8} {pieces : List Text} (hpieces : pieces ≠ [])
    (hflat : ∀ piece ∈ pieces, sep ∉ piece) : splitOn sep (join [sep] pieces) = pieces := by
  induction pieces with
  | nil => exact absurd rfl hpieces
  | cons piece rest ih =>
    have hpiece := splitOn_of_not_mem (hflat piece List.mem_cons_self)
    cases rest with
    | nil => exact hpiece
    | cons next rest =>
      have hrest := ih (by simp) fun name hname => hflat name (List.mem_cons_of_mem _ hname)
      have hjoin : join [sep] (piece :: next :: rest) =
          piece ++ sep :: join [sep] (next :: rest) := by simp [join]
      rw [hjoin,splitOn_append_cons,hpiece,hrest,List.singleton_append]

theorem join_eq_append (sep piece : Text) (rest : List Text) :
    ∃ more, join sep (piece :: rest) = piece ++ more := by
  cases rest with
  | nil => exact ⟨[],by simp [join]⟩
  | cons next rest => exact ⟨sep ++ join sep (next :: rest),by simp [join]⟩

end WireSchema.Text

namespace WireSchema.Path

/-- A component that names something in its directory, and not the directory or the one above. -/
structure Plain (name : Text) : Prop where
  nonempty : name ≠ []
  flat : slash ∉ name
  notHere : name ≠ Text.ofString "."
  notAbove : name ≠ Text.ofString ".."

/-- A name can be put behind it. -/
def Opens (front : Text) : Prop := front = [] ∨ ∃ dir, front = dir ++ [slash]

theorem opens_flatMap (components : List Text) :
    Opens (components.flatMap (· ++ [slash])) := by
  rcases List.eq_nil_or_concat components with rfl | ⟨before,last,rfl⟩
  · exact .inl rfl
  · exact .inr ⟨before.flatMap (· ++ [slash]) ++ last,by simp⟩

theorem Opens.cons {front : Text} (h : Opens front) : Opens (slash :: front) := by
  rcases h with rfl | ⟨dir,rfl⟩
  · exact .inr ⟨[],rfl⟩
  · exact .inr ⟨slash :: dir,rfl⟩

theorem step_plain {name : Text} (h : Plain name) (rooted : Bool) (done : List Text) :
    step rooted done name = name :: done := by
  simp [step,h.nonempty,h.notHere,h.notAbove]

theorem split_append {front name : Text} (hfront : Opens front) (hname : slash ∉ name) :
    split (front ++ name) = (front,name) := by
  have hall : ∀ c ∈ name.reverse, (c != slash) = true := by
    intro c hc
    simpa using fun heq : c = slash => hname (heq ▸ List.mem_reverse.mp hc)
  have hlast : (front ++ name).reverse.takeWhile (· != slash) = name.reverse := by
    rw [List.reverse_append,List.takeWhile_append_of_pos hall]
    rcases hfront with rfl | ⟨dir,rfl⟩ <;> simp
  simp only [split,hlast,List.reverse_reverse]
  simp

theorem base_ne_nil (path : Text) : base path ≠ [] := by
  unfold base
  split
  · decide
  · split
    · simp
    · rename_i hne
      -- the last byte that is left is no slash
      cases hbytes : path.reverse.dropWhile (· == slash) with
      | nil => exact absurd (by rw [hbytes,List.reverse_nil]) hne
      | cons c rest =>
        have hc : (c == slash) = false := by
          have hhead := List.head?_dropWhile_not (· == slash) path.reverse
          rw [hbytes] at hhead
          exact hhead
        simp [split,bne,hc]

end WireSchema.Path
