import WireSchema.Job.Run
import WireSchema.Proofs.Files.Agreeing
import WireSchema.Proofs.Job.Imports
set_option autoImplicit false

namespace WireSchema

open Files (key)

namespace Load

variable {on : Set Text} {fs fs' : Files} {fuel : Nat} {importer : Option Text} {path : Text}
    {s : State}

/-- The clean paths that are met on the way through a file, also if it cannot be loaded. -/
def met (fs : Files) (path : Text) : List Text :=
  ((visit fs (fs.entries.length + 3) none path).run.run ⟨[],[],[]⟩).2.seen

theorem visit_meets (fs : Files) (fuel : Nat) (importer : Option Text) (path : Text) (s : State) :
    Path.clean path ∈ (visit fs (fuel + 1) importer path s).2.seen := by
  have hmark : Path.clean path ∈ (mark (Path.clean path) s).seen := List.mem_cons_self
  rcases visit_cases fs importer path s with
    ⟨hseen,hvisit⟩ | ⟨-,⟨-,fault,-,hvisit⟩ | ⟨text,doc,-,hvisit⟩⟩
  · rw [hvisit]
    exact hseen
  · rw [hvisit]
    exact hmark
  · rw [hvisit]
    have hloop := forM_keeps (follow_keeps (visit_keeps fs fuel) (Path.clean path)) doc.directives
      (mark (Path.clean path) s)
    exact andThen_keeps hloop (fun _ => List.Subset.refl _) hmark

section Agree

variable (h : ∀ importer path s, (∀ p ∈ (visit fs fuel importer path s).2.seen, key p ∈ on) →
  visit fs' fuel importer path s = visit fs fuel importer path s)
include h

theorem follow_agree (path : Text) (d : Directive)
    (hmet : ∀ p ∈ (follow fs fuel path d s).2.seen, key p ∈ on) :
    follow fs' fuel path d s = follow fs fuel path d s := by
  unfold follow at hmet ⊢
  split
  · rfl
  · rename_i hname
    rw [if_neg hname] at hmet
    rcases hargument : d.argument with _ | _ | ⟨c,argument⟩
    · rfl
    · rfl
    · simp only [hargument] at hmet
      exact h _ _ _ hmet

theorem forM_agree (path : Text) {directives : List Directive}
    (hmet : ∀ p ∈ (directives.forM (follow fs fuel path) s).2.seen, key p ∈ on) :
    directives.forM (follow fs' fuel path) s = directives.forM (follow fs fuel path) s := by
  induction directives generalizing s with
  | nil => rfl
  | cons d directives ih =>
    rw [forM_cons] at hmet ⊢
    rw [forM_cons]
    have hkeeps := forM_keeps (follow_keeps (visit_keeps fs fuel) path) directives
    have hone : follow fs' fuel path d s = follow fs fuel path d s :=
      follow_agree h path d fun p hp => hmet p (andThen_keeps (List.Subset.refl _) hkeeps hp)
    rw [hone]
    rcases hrun : follow fs fuel path d s with ⟨result,s'⟩
    rw [hrun] at hmet
    cases result with
    | error fault => rfl
    | ok => exact ih hmet

end Agree

theorem visit_agree (h : Files.Agree on fs fs')
    (hmet : ∀ p ∈ (visit fs fuel importer path s).2.seen, key p ∈ on) :
    visit fs' fuel importer path s = visit fs fuel importer path s := by
  induction fuel generalizing importer path s with
  | zero => rfl
  | succ fuel ih =>
    have hread := h.read (hmet _ (visit_meets fs fuel importer path s))
    rw [visit_eq] at hmet ⊢
    rw [visit_eq,← hread]
    split
    · rfl
    rename_i hseen
    rw [if_neg hseen] at hmet
    cases hfile : fs.read (Path.clean path) with
    | error file => rfl
    | ok text =>
    simp only [hfile] at hmet ⊢
    cases hparse : SourceSet.parse [⟨Path.clean path,text⟩] with
    | error fault => rfl
    | ok doc =>
    simp only [hparse] at hmet ⊢
    rw [forM_agree (fun _ _ _ => ih) (Path.clean path)]
    exact fun p hp => hmet p (andThen_keeps (List.Subset.refl _) (fun _ => List.Subset.refl _) hp)

theorem sources_agree (h : Files.Agree on fs fs') (hmet : ∀ p ∈ met fs path, key p ∈ on) :
    sources fs' path = sources fs path := by
  have hvisit : (visit fs' (fs.entries.length + 3) none path).run.run ⟨[],[],[]⟩ =
      (visit fs (fs.entries.length + 3) none path).run.run ⟨[],[],[]⟩ := visit_agree h hmet
  rw [sources,sources,← h.entries.length_eq,hvisit]

theorem compile_agree (h : Files.Agree on fs fs') (hmet : ∀ p ∈ met fs path, key p ∈ on) :
    compile fs' path = compile fs path := by
  unfold compile
  rw [sources_agree h hmet]

end Load

namespace Job

variable {on : Set Text} {s s' : State}

structure State.Agree (on : Set Text) (s s' : State) : Prop where
  disk : Disk.Agree on s.disk s'.disk
  log : s.log = s'.log

theorem run_agree (h : State.Agree on s s') (storage : Storage) (job : Job) (out : Text)
    (generator : Generator) (options : List (Text × Text))
    (hmet : ∀ p ∈ Load.met s.disk.files job.source, key p ∈ on) :
    ∃ on', on ⊆ on' ∧
      (job.run storage out generator options s).1 = (job.run storage out generator options s').1 ∧
      State.Agree on' (job.run storage out generator options s).2
        (job.run storage out generator options s').2 := by
  obtain ⟨hdisk,hlog⟩ := h
  unfold run
  rw [Load.compile_agree hdisk.files hmet]
  rcases Load.compile s.disk.files job.source with ⟨compiled,log⟩
  cases compiled with
  | error fault => exact ⟨on,subset_rfl,rfl,hdisk,by rw [hlog]⟩
  | ok compiled =>
  simp only
  cases job.files generator options compiled with
  | error fault => exact ⟨on,subset_rfl,rfl,hdisk,by rw [hlog]⟩
  | ok files =>
  obtain ⟨on',hsub,hresult,hdisk'⟩ := hdisk.writeAll storage out files
  rcases hwrite : s.disk.writeAll storage out files with ⟨written,disk⟩
  rcases hwrite' : s'.disk.writeAll storage out files with ⟨written',disk'⟩
  rw [hwrite,hwrite'] at hresult hdisk'
  obtain rfl : written = written' := hresult
  simp only [hwrite,hwrite']
  cases written with
  | error fault => exact ⟨on',hsub,rfl,hdisk',by rw [hlog]⟩
  | ok paths => exact ⟨on',hsub,rfl,hdisk',by rw [hlog]⟩

end Job

end WireSchema
