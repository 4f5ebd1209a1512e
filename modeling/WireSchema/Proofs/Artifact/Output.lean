import WireSchema.Artifact.Output
import WireSchema.Proofs.Text.Clean
set_option autoImplicit false

/-!
Where output files go. A file has a place below a root exactly if all of its names are plain, and
its place is then spelled by the names of the root and its own behind them, so that no other file
with the same root has it.
-/

namespace WireSchema.OutputFile

open WireSchema.Path (Plain slash)

/-- A name that can be part of an output path. -/
def Allowed (name : Text) : Prop := Plain name ∧ Text.byte '\\' ∉ name

theorem not_allowed {name : Text} : ¬ Allowed name ↔
    name = [] ∨ name = Text.ofString "." ∨ name = Text.ofString ".." ∨ slash ∈ name ∨
      Text.byte '\\' ∈ name := by
  constructor
  · intro h
    by_contra hnone
    simp only [not_or] at hnone
    obtain ⟨hempty,hhere,habove,hslash,hseparator⟩ := hnone
    exact h ⟨⟨hempty,hslash,hhere,habove⟩,hseparator⟩
  · rintro (h | h | h | h | h) ⟨hplain,hflat⟩
    · exact hplain.nonempty h
    · exact hplain.notHere h
    · exact hplain.notAbove h
    · exact hplain.flat h
    · exact hflat h

theorem refusal?_eq_none {name : Text} : refusal? name = none ↔ Allowed name := by
  constructor
  · intro h
    unfold refusal? at h
    split at h
    · cases h
    rename_i hgood
    simp only [Bool.or_eq_true,List.isEmpty_iff,beq_iff_eq,not_or] at hgood
    obtain ⟨⟨hempty,hhere⟩,habove⟩ := hgood
    split at h
    · cases h
    split at h
    · cases h
    rename_i hseparator
    simp only [List.any_eq_true,Bool.or_eq_true,beq_iff_eq,not_exists,not_and] at hseparator
    exact ⟨⟨hempty,fun hmem => hseparator _ hmem (.inl rfl),hhere,habove⟩,
      fun hmem => hseparator _ hmem (.inr rfl)⟩
  · rintro ⟨hplain,hflat⟩
    have hrooted : Path.isRooted name = false :=
      Path.isRooted_join hplain.nonempty hplain.flat []
    have hseparator : (name.any fun c => c == slash || c == Text.byte '\\') = false := by
      rw [List.any_eq_false]
      intro c hc
      simp only [Bool.or_eq_true,beq_iff_eq,not_or]
      exact ⟨fun heq => hplain.flat (heq ▸ hc),fun heq => hflat (heq ▸ hc)⟩
    simp [refusal?,hplain.nonempty,hplain.notHere,hplain.notAbove,hrooted,hseparator]

theorem join_eq_ok {f : OutputFile} {root path : Text} :
    f.join root = .ok path ↔ f.components ≠ [] ∧ (∀ name ∈ f.components, Allowed name) ∧
      path = Path.join (root :: f.components) := by
  unfold join
  split
  · rename_i hempty
    simp [List.isEmpty_iff.mp hempty]
  rename_i hempty
  split
  · rename_i reason hreason
    obtain ⟨name,hname,hrefused⟩ := List.exists_of_findSome?_eq_some hreason
    refine ⟨fun h => (by cases h),fun ⟨_,hall,_⟩ => ?_⟩
    rw [refusal?_eq_none.mpr (hall name hname)] at hrefused
    cases hrefused
  · rename_i hnone
    have hall : ∀ name ∈ f.components, Allowed name := fun name hname =>
      refusal?_eq_none.mp (List.findSome?_eq_none_iff.mp hnone name hname)
    simp only [Except.ok.injEq]
    exact ⟨fun h => ⟨by simpa using hempty,hall,h.symm⟩,fun h => h.2.2.symm⟩

theorem join_eq_error {f : OutputFile} {root : Text} :
    (∃ fault, f.join root = .error fault) ↔
      f.components = [] ∨ ∃ name ∈ f.components, ¬ Allowed name := by
  have hok : (∃ path, f.join root = .ok path) ↔
      f.components ≠ [] ∧ ∀ name ∈ f.components, Allowed name :=
    ⟨fun ⟨_,h⟩ => ⟨(join_eq_ok.mp h).1,(join_eq_ok.mp h).2.1⟩,
      fun h => ⟨_,join_eq_ok.mpr ⟨h.1,h.2,rfl⟩⟩⟩
  have hnot : (∃ fault, f.join root = .error fault) ↔ ¬ ∃ path, f.join root = .ok path := by
    cases f.join root <;> simp
  rw [hnot,hok]
  simp only [ne_eq,not_and_or,not_not,not_forall,exists_prop]

theorem join_spells {f : OutputFile} {root path : Text} (h : f.join root = .ok path) :
    Path.clean path = path ∧ Path.isRooted path = Path.isRooted root ∧
      Path.components path = Path.components root ++ f.components := by
  obtain ⟨hne,hall,rfl⟩ := join_eq_ok.mp h
  exact Path.join_names root hne fun name hname => (hall name hname).1

/-- A file has no place below a root exactly if it has no name at all, or one of its names is empty,
refers to a directory, or holds a separator. Otherwise its place is a clean path, and what stands
between its slashes are the names of the clean root and then those of the file. So a place below a
root is that of one list of names. -/
theorem join_below (f : OutputFile) (root : Text) :
    ((∃ fault, f.join root = .error fault) ↔ f.components = [] ∨ ∃ name ∈ f.components,
      name = [] ∨ name = Text.ofString "." ∨ name = Text.ofString ".." ∨ slash ∈ name ∨
        Text.byte '\\' ∈ name) ∧
    ∀ path, f.join root = .ok path →
      Path.clean path = path ∧ Path.isRooted path = Path.isRooted root ∧
      Path.names path = Path.names (Path.clean root) ++ f.components ∧
      (root = [] ∨ Path.clean root = Text.ofString "." → Path.names path = f.components) ∧
      ∀ g : OutputFile, g.join root = .ok path → g.components = f.components := by
  constructor
  · simp only [join_eq_error,not_allowed]
  · intro path h
    obtain ⟨hclean,hrooted,hcomponents⟩ := join_spells h
    have hnames : Path.names path = Path.components path := by
      rw [← Path.names_clean path,hclean]
    have hroot := Path.names_clean root
    have hspelled : Path.names path = Path.names (Path.clean root) ++ f.components := by
      rw [hnames,hcomponents,hroot]
    refine ⟨hclean,hrooted,hspelled,fun hnone => ?_,fun g hg => ?_⟩
    · have hhere : Path.clean root = Text.ofString "." := by
        rcases hnone with rfl | hhere
        · decide
        · exact hhere
      have hempty : Path.names (Text.ofString ".") = [] := by decide
      rw [hspelled,hhere,hempty,List.nil_append]
    · have hsame := (join_spells hg).2.2
      rw [hcomponents] at hsame
      exact (List.append_cancel_left hsame).symm

theorem join_below_parent :
    (⟨some ["a","b.go"],none⟩ : OutputFile).join "../out/./" = .ok "../out/a/b.go" ∧
    Path.names "../out/a/b.go" =
      Path.names (Path.clean "../out/./") ++ [Text.ofString "a",Text.ofString "b.go"] := by
  have hplace : (⟨some ["a","b.go"],none⟩ : OutputFile).join "../out/./" =
      .ok "../out/a/b.go" := by rfl
  exact ⟨hplace,((join_below _ _).2 _ hplace).2.2.1⟩

end WireSchema.OutputFile
