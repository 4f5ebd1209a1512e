import WireSchema.Proofs.Files.Staging
set_option autoImplicit false

/-!
What writing files changes, whichever calls fail: nothing but the places of the files that are
written, and each of these has what it had before or all of a file that belongs there. What was only
staged is gone.
-/

namespace WireSchema

namespace Files

theorem get?_putAll_cases (files : List (Text × Text)) (fs : Files) (path : Text) :
    (fs.putAll files).get? path = fs.get? path ∨
      ∃ file ∈ files, key path = key file.1 ∧ (fs.putAll files).get? path = some file.2 := by
  induction files generalizing fs with
  | nil => exact .inl rfl
  | cons file files ih =>
    rcases ih (fs.put file.1 file.2) with hsame | ⟨later,hlater,hkey,hheld⟩
    · have hput : (fs.putAll (file :: files)).get? path =
          if key path = key file.1 then some file.2 else fs.get? path :=
        hsame.trans (get?_put file.1 file.2 fs path)
      by_cases hkey : key path = key file.1
      · exact .inr ⟨file,List.mem_cons_self,hkey,by rw [hput,if_pos hkey]⟩
      · exact .inl (by rw [hput,if_neg hkey])
    · exact .inr ⟨later,List.mem_cons_of_mem _ hlater,hkey,hheld⟩

end Files

namespace Disk

open Files (Alike key)

variable {storage : Storage} {root : Text} {files : List OutputFile}
    {placed : List (Text × Text)} {d d' : Disk} {result : Except Fault (List Text)}

theorem mem_places (h : places root files = .ok placed) {file : Text × Text}
    (hfile : file ∈ placed) : ∃ f ∈ files, f.join root = .ok file.1 ∧ file.2 = f.bytes := by
  obtain ⟨paths,hpaths,⟨⟩⟩ := Result.bind_eq_ok.mp h
  have hjoined := Result.mapM_ok hpaths
  clear hpaths h
  induction hjoined with
  | nil => simp at hfile
  | @cons f path files paths hf _ ih =>
    rcases List.mem_cons.mp hfile with rfl | hfile
    · exact ⟨f,List.mem_cons_self,hf,rfl⟩
    · obtain ⟨g,hg,hplace⟩ := ih hfile
      exact ⟨g,List.mem_cons_of_mem _ hg,hplace⟩

theorem Written.putAll_take (h : Written storage placed d d' result)
    (hclear : Clear storage placed) :
    ∃ k, Alike d'.files (d.files.putAll (placed.take k)) := by
  cases h with
  | all hall => exact ⟨placed.length,by simpa using hall hclear⟩
  | none hrefused => exact ⟨0,hrefused.files⟩
  | @some k _ _ _ _ hsome => exact ⟨k,hsome hclear⟩

/-- A path holds what it did before, or it is the place of a file and holds all of one that belongs
there. -/
theorem writeAll_get? (hfresh : storage.Fresh) (hrun : d.writeAll storage root files = (result,d'))
    (hclear : ∀ placed, places root files = .ok placed → Clear storage placed) (path : Text) :
    d'.files.get? path = d.files.get? path ∨
      ∃ f ∈ files, f.join root = .ok (key path) ∧ d'.files.get? path = some f.bytes := by
  cases hplaces : places root files with
  | error fault =>
    rw [writeAll_error d hplaces] at hrun
    obtain ⟨rfl,rfl⟩ := Prod.mk.inj hrun
    exact .inl rfl
  | ok placed =>
    obtain ⟨k,halike⟩ := (writeAll_written hfresh hplaces hrun).putAll_take (hclear placed hplaces)
    rcases Files.get?_putAll_cases (placed.take k) d.files path with hsame | ⟨file,hmem,hkey,hheld⟩
    · exact .inl ((halike path).trans hsame)
    · obtain ⟨f,hf,hplace,hbytes⟩ := mem_places hplaces (List.mem_of_mem_take hmem)
      rw [← key_of_join hplace,← hkey] at hplace
      exact .inr ⟨f,hf,hplace,(halike path).trans (hbytes ▸ hheld)⟩

theorem clear_of_apart (hfresh : storage.Fresh)
    (hapart : ∀ file ∈ files, ∀ place, file.join root = .ok place →
      ∀ taken dir, place ≠ storage.temporary taken dir) (h : places root files = .ok placed) :
    Clear storage placed := by
  intro file hfile taken dir hkey
  obtain ⟨f,hf,hplace,-⟩ := mem_places h hfile
  rw [key_of_join hplace,hfresh.key_temporary] at hkey
  exact hapart f hf _ hplace taken dir hkey

/-- Whichever calls fail, and whether files can be written or not: nothing that was staged is left,
no file changes but those in the places of the files to be written, and each of these places holds
what it did before or all of a file whose place it is. The one condition is that no such place is
taken for that of a staged file. -/
theorem writeAll_confined (hfresh : storage.Fresh)
    (hrun : d.writeAll storage root files = (result,d'))
    (hapart : ∀ file ∈ files, ∀ place, file.join root = .ok place →
      ∀ taken dir, place ≠ storage.temporary taken dir) :
    (∀ taken dir, d'.files.get? (storage.temporary taken dir) =
      d.files.get? (storage.temporary taken dir)) ∧
    (∀ path, (∀ file ∈ files, file.join root ≠ .ok (key path)) →
      d'.files.get? path = d.files.get? path) ∧
    ∀ file ∈ files, ∀ place, file.join root = .ok place →
      d'.files.get? place = d.files.get? place ∨
        ∃ other ∈ files, other.join root = .ok place ∧
          d'.files.get? place = some other.bytes := by
  have hcases := writeAll_get? hfresh hrun fun placed => clear_of_apart hfresh hapart
  have hframe : ∀ path, (∀ file ∈ files, file.join root ≠ .ok (key path)) →
      d'.files.get? path = d.files.get? path := by
    intro path hnone
    rcases hcases path with hsame | ⟨f,hf,hplace,-⟩
    · exact hsame
    · exact absurd hplace (hnone f hf)
  refine ⟨fun taken dir => hframe _ fun file hfile hplace => ?_,hframe,?_⟩
  · exact hapart file hfile _ hplace taken dir (hfresh.key_temporary taken dir)
  · intro file hfile place hplace
    rcases hcases place with hsame | ⟨other,hother,hplace',hheld⟩
    · exact .inl hsame
    · rw [key_of_join hplace] at hplace'
      exact .inr ⟨other,hother,hplace',hheld⟩

def stock : Disk :=
  ofFiles (Files.ofList [("out/a.go","old"),("out/b.go","old"),("out/c.go","kept")])

def renewed : List OutputFile := [⟨some ["a.go"],some "new"⟩,⟨some ["b.go"],some "new"⟩]

def failAt (call : Call) (number : Nat) : Storage :=
  .counting (fun c n => c == call && n == number) "no space left"

theorem writeAll_confined_half :
    (failAt .rename 2).Fresh ∧
    (∀ file ∈ renewed, ∀ place, file.join "out" = .ok place →
      ∀ taken dir, place ≠ (failAt .rename 2).temporary taken dir) ∧
    (stock.writeAll (failAt .rename 2) "out" renewed).1 = .error (.call .rename "no space left") ∧
    ∀ taken dir,
      (stock.writeAll (failAt .rename 2) "out" renewed).2.files.get?
          ((failAt .rename 2).temporary taken dir) =
        stock.files.get? ((failAt .rename 2).temporary taken dir) := by
  have hfresh : (failAt .rename 2).Fresh := Storage.counting_fresh _ _
  have hapart : ∀ file ∈ renewed, ∀ place, file.join "out" = .ok place →
      ∀ taken dir, place ≠ (failAt .rename 2).temporary taken dir := by
    rintro file hfile place hplace taken dir rfl
    have hreserved := hfresh.reserved taken dir
    have hplaces : ∀ file ∈ renewed, (match file.join "out" with
        | .ok place => !decide (Reserved place)
        | .error _ => true) = true := by decide
    have hfree := hplaces file hfile
    rw [hplace] at hfree
    simp [hreserved] at hfree
  have hfailed : (stock.writeAll (failAt .rename 2) "out" renewed).1 =
      .error (.call .rename "no space left") := by rfl
  exact ⟨hfresh,hapart,hfailed,(writeAll_confined hfresh (Prod.eta _).symm hapart).1⟩

end Disk

end WireSchema
