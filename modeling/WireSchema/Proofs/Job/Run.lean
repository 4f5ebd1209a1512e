import WireSchema.Job.Run
import WireSchema.Proofs.Files.Staging
set_option autoImplicit false

/-!
What a job leaves on the disk. Either it fails and no file has changed, or it succeeds and all of
its files are there, unless a file other than the first one cannot be moved to its place: then those
before it stay where they are.
-/

namespace WireSchema.Job

open Disk (Clear Reserved Written renames)
open Files (Alike)

variable {storage : Storage} {job : Job} {out : Text} {generator : Generator}
    {options : List (Text × Text)}

/-- The files that a job has to write below a directory, by their places. -/
def outputs (job : Job) (out : Text) (generator : Generator) (options : List (Text × Text))
    (fs : Files) : Except Fault (List (Text × Text)) := do
  let compiled ← (Load.compile fs job.source).1.mapError .load
  let files ← job.files generator options compiled
  (Disk.places out files).mapError fun fault => .disk (.path fault)

theorem run_cases (hfresh : storage.Fresh) {s after : State} {result : Except Fault Result}
    (hrun : job.run storage out generator options s = (result,after)) :
    (∃ fault, job.outputs out generator options s.disk.files = .error fault ∧
      result = .error fault ∧ after.disk = s.disk) ∨
    ∃ files written, job.outputs out generator options s.disk.files = .ok files ∧
      Written storage files s.disk after.disk written ∧
      ((∃ fault, written = .error fault ∧ result = .error (.disk fault)) ∨
        ∃ paths warnings, written = .ok paths ∧ result = .ok ⟨paths,warnings⟩) := by
  unfold run at hrun
  unfold outputs
  rcases hcompile : Load.compile s.disk.files job.source with ⟨compiled,log⟩
  rw [hcompile] at hrun
  cases compiled with
  | error fault =>
    obtain ⟨rfl,rfl⟩ := Prod.mk.inj hrun
    exact .inl ⟨_,rfl,rfl,rfl⟩
  | ok compiled =>
  simp only [Except.mapError,Result.ok_bind]
  simp only at hrun
  cases hfiles : job.files generator options compiled with
  | error fault =>
    simp only [hfiles] at hrun
    obtain ⟨rfl,rfl⟩ := Prod.mk.inj hrun
    exact .inl ⟨_,rfl,rfl,rfl⟩
  | ok files =>
  simp only [hfiles] at hrun
  simp only [Result.ok_bind]
  cases hplaces : Disk.places out files with
  | error fault =>
    rw [Disk.writeAll_error _ hplaces] at hrun
    obtain ⟨rfl,rfl⟩ := Prod.mk.inj hrun
    exact .inl ⟨_,rfl,rfl,rfl⟩
  | ok placed =>
  rcases hwrite : s.disk.writeAll storage out files with ⟨written,disk⟩
  have hwritten := Disk.writeAll_written hfresh hplaces hwrite
  simp only [hwrite] at hrun
  cases written with
  | error fault =>
    obtain ⟨rfl,rfl⟩ := Prod.mk.inj hrun
    exact .inr ⟨placed,_,rfl,hwritten,.inl ⟨fault,rfl,rfl⟩⟩
  | ok paths =>
    obtain ⟨rfl,rfl⟩ := Prod.mk.inj hrun
    exact .inr ⟨placed,_,rfl,hwritten,.inr ⟨paths,_,rfl,rfl⟩⟩

def again : Job := { (default : Job) with source := "a.steamd", scope := "a" }

def renew : Generator := fun _ _ =>
  .ok ⟨some [⟨some ["a.go"],some "new"⟩,⟨some ["b.go"],some "new"⟩],[]⟩

def earlier : State :=
  ⟨Disk.ofFiles (Files.ofList
    [("a.steamd","enum A \x7b X; \x7d;"),("out/a.go","old"),("out/b.go","old")]),[]⟩

def secondMove : Storage :=
  .counting (fun call number => call == .rename && number == 2) "no space left"

/-- If a job has nothing to write, it fails and leaves the disk alone. Otherwise all of its files
are in their places once it succeeds, and nothing has changed once it fails, unless a file other
than the first one cannot be moved: then exactly those in front of it are in their places. -/
theorem run_places (hfresh : storage.Fresh) {s after : State} {result : Except Fault Result}
    (hrun : job.run storage out generator options s = (result,after)) :
    (∀ fault, job.outputs out generator options s.disk.files = .error fault →
      result = .error fault ∧ after.disk = s.disk) ∧
    ∀ files, job.outputs out generator options s.disk.files = .ok files →
      (∃ warnings, result = .ok ⟨files.map Prod.fst,warnings⟩ ∧
        ((∀ file ∈ files, ¬ Reserved file.1) →
          Alike after.disk.files (s.disk.files.putAll files))) ∨
      ∃ call, result = .error (.disk (.call call (storage.cause call))) ∧
        storage.fails call (after.disk.calls.count call) = true ∧
        (Alike after.disk.files s.disk.files ∨
          call = .rename ∧ ∃ k, 0 < k ∧ k < files.length ∧
            renames after.disk = renames s.disk + k + 1 ∧
            ((∀ file ∈ files, ¬ Reserved file.1) →
              Alike after.disk.files (s.disk.files.putAll (files.take k)))) := by
  rcases run_cases hfresh hrun with ⟨fault,hout,rfl,hdisk⟩ | ⟨files,written,hout,hwritten,hresult⟩
  · rw [hout]
    refine ⟨fun fault' heq => ⟨?_,hdisk⟩,fun _ heq => (by cases heq)⟩
    rw [Except.error.inj heq]
  rw [hout]
  refine ⟨fun _ heq => (by cases heq),?_⟩
  rintro _ ⟨⟩
  have hclear : (∀ file ∈ files, ¬ Reserved file.1) → Clear storage files := by
    obtain ⟨compiled,-,hmore⟩ := Result.bind_eq_ok.mp hout
    obtain ⟨made,-,hplaces⟩ := Result.bind_eq_ok.mp hmore
    exact Disk.clear_of_places hfresh (Result.mapError_eq_ok.mp hplaces)
  cases hwritten with
  | all hall =>
    obtain ⟨_,⟨⟩,-⟩ | ⟨paths,warnings,⟨⟩,rfl⟩ := hresult
    exact .inl ⟨warnings,rfl,fun hnames => hall (hclear hnames)⟩
  | none hrefused =>
    obtain ⟨fault,⟨⟩,rfl⟩ | ⟨_,_,⟨⟩,-⟩ := hresult
    exact .inr ⟨_,rfl,hrefused.failed,.inl hrefused.files⟩
  | some hpos hk hfails hcount hsome =>
    obtain ⟨fault,⟨⟩,rfl⟩ | ⟨_,_,⟨⟩,-⟩ := hresult
    exact .inr ⟨_,rfl,hfails,.inr ⟨rfl,_,hpos,hk,hcount,fun hnames => hsome (hclear hnames)⟩⟩

theorem run_places_first :
    secondMove.Fresh ∧
    (∃ files, again.outputs "out" renew [] earlier.disk.files = .ok files) ∧
    Alike (again.run secondMove "out" renew [] earlier).2.disk.files
      (earlier.disk.files.put "out/a.go" "new") := by
  let files : List (Text × Text) := [("out/a.go","new"),("out/b.go","new")]
  have hout : again.outputs "out" renew [] earlier.disk.files = .ok files := by
    have hsome : (again.outputs "out" renew [] earlier.disk.files).toOption = some files := by
      decide +kernel
    cases h : again.outputs "out" renew [] earlier.disk.files with
    | error fault => simp [h,Except.toOption] at hsome
    | ok files' => simpa [h,Except.toOption] using hsome
  have hfresh : secondMove.Fresh := Storage.counting_fresh _ _
  refine ⟨hfresh,⟨files,hout⟩,?_⟩
  have hfailed : (again.run secondMove "out" renew [] earlier).1.isOk = false := by
    decide +kernel
  have hchanged : (again.run secondMove "out" renew [] earlier).2.disk.files.get? "out/a.go" ≠
      earlier.disk.files.get? "out/a.go" := by decide +kernel
  have hmoves : renames (again.run secondMove "out" renew [] earlier).2.disk = 2 := by
    decide +kernel
  obtain ⟨warnings,hok,-⟩ | ⟨call,-,-,hsame | ⟨-,k,-,-,hcount,hfirst⟩⟩ :=
    (run_places hfresh (Prod.eta (again.run secondMove "out" renew [] earlier)).symm).2 files hout
  · rw [hok] at hfailed
    cases hfailed
  · exact absurd (hsame _) hchanged
  · have hone : k = 1 := by
      have hstart : renames earlier.disk = 0 := rfl
      omega
    subst hone
    exact hfirst (by decide +kernel)

/-- The job fails, and still one of its files is a new one while the other is not. -/
theorem run_renews_half :
    (again.run secondMove "out" renew [] earlier).1.isOk = false ∧
    earlier.disk.files.get? "out/a.go" = some (Text.ofString "old") ∧
    (again.run secondMove "out" renew [] earlier).2.disk.files.get? "out/a.go" =
      some (Text.ofString "new") ∧
    (again.run secondMove "out" renew [] earlier).2.disk.files.get? "out/b.go" =
      some (Text.ofString "old") := by
  decide +kernel

end WireSchema.Job
