import WireSchema.Files.Disk
import WireSchema.Proofs.Artifact.Output
import WireSchema.Proofs.Basic
import Mathlib.Data.List.Perm.Subperm
import Mathlib.Data.List.Range
set_option autoImplicit false

/-!
What writing several files leaves behind. While they are staged nothing that was there changes, and
all that was staged can be taken away again. Once they move, one after the other, those that have
moved stay.
-/

namespace WireSchema

theorem lookup_filter {κ α : Type} [BEq κ] [LawfulBEq κ] (keep : κ → Bool) (name : κ)
    (entries : List (κ × α)) : (entries.filter fun (key,_) => keep key).lookup name =
      if keep name then entries.lookup name else none := by
  induction entries with
  | nil => simp
  | cons entry entries ih =>
    obtain ⟨key,value⟩ := entry
    by_cases hkey : name = key
    · subst hkey
      cases hkeep : keep name <;> simp [hkeep,ih]
    · have hother : (name == key) = false := by simpa using hkey
      cases hkeep : keep key <;> simp [List.lookup_cons,hkeep,hother,ih]

namespace Files

/-- Both hold the same files. Only the directories that were made may differ. -/
def Alike (fs fs' : Files) : Prop := ∀ path, fs.get? path = fs'.get? path

theorem Alike.trans {a b c : Files} (h : Alike a b) (h' : Alike b c) : Alike a c :=
  fun path => (h path).trans (h' path)

theorem get?_put (path content : Text) (fs : Files) (other : Text) :
    (fs.put path content).get? other =
      if key other = key path then some content else fs.get? other := by
  by_cases h : key other = key path
  · simp [get?,put,h]
  · have hkey : (key other == key path) = false := by simpa using h
    simp only [get?,put,List.lookup_cons,hkey,lookup_filter (fun name => name != key path)]
    simp [h]

theorem get?_remove (path : Text) (fs : Files) (other : Text) :
    (fs.remove path).get? other = if key other = key path then none else fs.get? other := by
  simp only [get?,remove,lookup_filter (fun name => name != key path)]
  by_cases h : key other = key path <;> simp [h]

theorem get?_makeDirectory (dir : Text) (fs : Files) (path : Text) :
    (fs.makeDirectory dir).get? path = fs.get? path := by
  unfold makeDirectory
  split <;> rfl

theorem get?_congr {path path' : Text} (h : key path = key path') (fs : Files) :
    fs.get? path = fs.get? path' := by rw [get?,h,get?]

theorem Alike.put {fs fs' : Files} (h : Alike fs fs') (path content : Text) :
    Alike (fs.put path content) (fs'.put path content) := by
  intro other
  rw [get?_put,get?_put,h other]

theorem Alike.remove {fs fs' : Files} (h : Alike fs fs') (path : Text) :
    Alike (fs.remove path) (fs'.remove path) := by
  intro other
  rw [get?_remove,get?_remove,h other]

theorem put_put (path first content : Text) (fs : Files) :
    Alike ((fs.put path first).put path content) (fs.put path content) := by
  intro other
  simp only [get?_put]
  split <;> rfl

theorem remove_put {fs : Files} {path : Text} (h : fs.get? path = none) (content : Text) :
    Alike ((fs.put path content).remove path) fs := by
  intro other
  rw [get?_remove,get?_put]
  split
  · rename_i hkey
    rw [get?_congr hkey,h]
  · rfl

/-- The files of a list instead of those that were there, the latest of those with one path. -/
def putAll (files : List (Text × Text)) (fs : Files) : Files :=
  files.foldl (fun fs (path,content) => fs.put path content) fs

end Files

namespace Disk

open Files (Alike key)

def renames (d : Disk) : Nat := d.calls.count .rename

def stem (suffix : Text) : Text := Text.cat [".steamd-",suffix]

def Reserved (path : Text) : Prop := (Path.split path).2.startsWith ".steamd-" = true

instance (path : Text) : Decidable (Reserved path) :=
  inferInstanceAs (Decidable ((Path.split path).2.startsWith ".steamd-" = true))

theorem stem_plain {suffix : Text} (h : Path.slash ∉ suffix) : Path.Plain (stem suffix) := by
  have hlength : 8 ≤ (stem suffix).length := by
    have hmark : (Text.ofString ".steamd-").length = 8 := by decide
    simp only [stem,Text.cat_cons,List.length_append,hmark]
    omega
  refine ⟨?_,?_,?_,?_⟩
  · intro h
    simp [h] at hlength
  · intro hmem
    simp only [stem,Text.cat_cons,Text.cat_nil,List.append_nil,List.mem_append] at hmem
    rcases hmem with hmem | hmem
    · exact absurd hmem (by decide)
    · exact h hmem
  · intro h
    rw [h] at hlength
    exact absurd hlength (by decide)
  · intro h
    rw [h] at hlength
    exact absurd hlength (by decide)

theorem stem_injective : Function.Injective stem := by
  intro suffix suffix' h
  simpa [stem] using h

theorem key_join_stem (dir : Text) {suffix : Text} (h : Path.slash ∉ suffix) :
    key (Path.join [dir,stem suffix]) = Path.join [dir,stem suffix] :=
  Files.key_join dir (by simp) (List.forall_mem_singleton.mpr (stem_plain h))

theorem reserved_join_stem (dir : Text) {suffix : Text} (h : Path.slash ∉ suffix) :
    Reserved (Path.join [dir,stem suffix]) := by
  have hname : (Path.split (Path.join [dir,stem suffix])).2 = stem suffix :=
    Path.split_join dir [] (List.forall_mem_singleton.mpr (stem_plain h))
  rw [Reserved,hname]
  exact List.isPrefixOf_iff_prefix.mpr (List.prefix_append _ _)

end Disk

namespace Storage

open Files (key)
open Disk (stem stem_plain stem_injective key_join_stem reserved_join_stem Reserved)

/-- What a disk promises of the paths that it makes up: they are in the directory that is asked for,
and no file is there. -/
structure Fresh (storage : Storage) : Prop where
  plain : ∀ taken dir, Path.slash ∉ storage.suffix taken dir
  free : ∀ taken dir, key (storage.temporary taken dir) ∉ taken

variable {storage : Storage}

theorem Fresh.key_temporary (h : storage.Fresh) (taken : List Text) (dir : Text) :
    key (storage.temporary taken dir) = storage.temporary taken dir :=
  key_join_stem dir (h.plain taken dir)

theorem Fresh.reserved (h : storage.Fresh) (taken : List Text) (dir : Text) :
    Reserved (storage.temporary taken dir) :=
  reserved_join_stem dir (h.plain taken dir)

theorem Fresh.get?_temporary (h : storage.Fresh) (fs : Files) (dir : Text) :
    fs.get? (storage.temporary (fs.entries.map Prod.fst) dir) = none := by
  by_contra hsome
  obtain ⟨content,hcontent⟩ := Option.ne_none_iff_exists'.mp hsome
  exact h.free _ dir (Files.key_mem_of_get? hcontent)

theorem slash_not_mem_ofNat (number : Nat) : Path.slash ∉ Text.ofNat number :=
  fun h => absurd (Text.isDigit_of_mem_ofNat h) (by decide)

theorem key_numbered_injective (dir : Text) :
    Function.Injective fun number => key (Path.join [dir,stem (Text.ofNat number)]) := by
  have hcomponents (number : Nat) : Path.components (Path.join [dir,stem (Text.ofNat number)]) =
      Path.components dir ++ [stem (Text.ofNat number)] :=
    (Path.join_names dir (by simp)
      (List.forall_mem_singleton.mpr (stem_plain (slash_not_mem_ofNat number)))).2.2
  intro m n h
  simp only [key_join_stem dir (slash_not_mem_ofNat _)] at h
  have hsame := hcomponents m
  rw [h,hcomponents n] at hsame
  have hstem := List.singleton_inj.mp (List.append_cancel_left hsame)
  exact Text.ofNat_injective (stem_injective hstem).symm

theorem counting_fresh (fails : Call → Nat → Bool) (cause : Text) :
    (counting fails cause).Fresh := by
  refine ⟨fun _ _ => slash_not_mem_ofNat _,fun taken dir => ?_⟩
  obtain ⟨number,hnumber⟩ : ∃ number, (List.range (taken.length + 1)).find?
      (fun number => !taken.contains (key (Path.join [dir,stem (Text.ofNat number)]))) =
        some number := by
    refine Option.ne_none_iff_exists'.mp fun hfound => ?_
    have htaken : (List.range (taken.length + 1)).map
        (fun number => key (Path.join [dir,stem (Text.ofNat number)])) ⊆ taken := by
      intro name hname
      obtain ⟨number,hnumber,rfl⟩ := List.mem_map.mp hname
      simpa using List.find?_eq_none.mp hfound number hnumber
    have hdistinct := (List.nodup_range (n := taken.length + 1)).map (key_numbered_injective dir)
    have hle := (hdistinct.subperm htaken).length_le
    simp only [List.length_map,List.length_range] at hle
    omega
  have hcounted : (counting fails cause).temporary taken dir =
      Path.join [dir,stem (Text.ofNat number)] := by
    change Path.join [dir,stem (counted taken dir)] = _
    simp only [counted]
    exact congrArg (fun found => Path.join [dir,stem (Text.ofNat (found.getD 0))]) hnumber
  rw [hcounted]
  simpa using List.find?_some hnumber

end Storage

namespace Disk

open Files (Alike key)

variable {storage : Storage}

/-- A call has failed, and all files are as they were. -/
structure Refused (storage : Storage) (call : Call) (start d : Disk) : Prop where
  failed : storage.fails call (d.calls.count call) = true
  files : Alike d.files start.files

/-- One more file is there, under a name that nobody had. -/
structure Staging (storage : Storage) (content name : Text) (start d : Disk) : Prop where
  named : ∃ taken dir, name = storage.temporary taken dir
  free : start.files.get? name = none
  files : Alike d.files (start.files.put name content)
  renames : d.renames = start.renames

theorem attempt_spec {call : Call} {d d' : Disk} {went : Bool}
    (h : d.attempt storage call = (went,d')) :
    d'.files = d.files ∧ d'.calls = call :: d.calls ∧
      (went = false → storage.fails call (d'.calls.count call) = true) := by
  obtain ⟨hwent,rfl⟩ := Prod.mk.inj h
  exact ⟨rfl,rfl,fun hfalse => by simpa [hfalse] using hwent⟩

def fill (storage : Storage) (name content : Text) (d : Disk) : Except Call Text × Disk :=
  let (written,d) := (d.change (·.put name [])).attempt storage .write
  let (closed,d) := (if written then d.change (·.put name content) else d).attempt storage .close
  if !written then (.error .write,d.change (·.remove name))
  else if !closed then (.error .close,d.change (·.remove name))
  else match d.attempt storage .chmod with
    | (false,d) => (.error .chmod,d.change (·.remove name))
    | (true,d) => (.ok name,d)

theorem fill_cases {name content : Text} {d d' : Disk}
    {result : Except Call Text} (hfree : d.files.get? name = none)
    (hrun : d.fill storage name content = (result,d')) :
    (∃ call, result = .error call ∧ Refused storage call d d') ∨
    result = .ok name ∧ Alike d'.files (d.files.put name content) ∧ d'.renames = d.renames := by
  rcases hwrite : (d.change (·.put name [])).attempt storage .write with ⟨written,d₁⟩
  obtain ⟨hfiles₁,hcalls₁,hfailed₁⟩ := attempt_spec hwrite
  rcases hclose : (if written then d₁.change (·.put name content) else d₁).attempt storage .close
    with ⟨closed,d₂⟩
  obtain ⟨hfiles₂,hcalls₂,hfailed₂⟩ := attempt_spec hclose
  cases written with
  | false =>
    simp only [fill,hwrite,hclose] at hrun
    obtain ⟨rfl,rfl⟩ := Prod.mk.inj hrun
    refine .inl ⟨.write,rfl,?_,?_⟩
    · simpa [change,hcalls₂] using hfailed₁ rfl
    · simpa [change,hfiles₂,hfiles₁] using Files.remove_put hfree []
  | true =>
  rw [if_pos rfl] at hclose hfiles₂ hcalls₂
  have hfiles : d₂.files = (d.files.put name []).put name content := by
    rw [hfiles₂,change,hfiles₁,change]
  have hput := Files.put_put name [] content d.files
  have hremoved : Alike (d₂.files.remove name) d.files :=
    hfiles ▸ (hput.remove name).trans (Files.remove_put hfree content)
  cases closed with
  | false =>
    simp only [fill,hwrite,if_true,hclose] at hrun
    obtain ⟨rfl,rfl⟩ := Prod.mk.inj hrun
    exact .inl ⟨.close,rfl,hfailed₂ rfl,hremoved⟩
  | true =>
  rcases hchmod : d₂.attempt storage .chmod with ⟨went,d₃⟩
  obtain ⟨hfiles₃,hcalls₃,hfailed₃⟩ := attempt_spec hchmod
  simp only [fill,hwrite,if_true,hclose,hchmod] at hrun
  cases went with
  | false =>
    obtain ⟨rfl,rfl⟩ := Prod.mk.inj hrun
    rw [← hfiles₃] at hremoved
    exact .inl ⟨.chmod,rfl,hfailed₃ rfl,hremoved⟩
  | true =>
    obtain ⟨rfl,rfl⟩ := Prod.mk.inj hrun
    refine .inr ⟨rfl,hfiles₃ ▸ hfiles ▸ hput,?_⟩
    simp [renames,hcalls₃,hcalls₂,change,hcalls₁]

theorem stage_cases (hfresh : storage.Fresh) {path content : Text}
    {d d' : Disk} {result : Except Call Text} (hrun : d.stage storage path content = (result,d')) :
    (∃ call, result = .error call ∧ Refused storage call d d') ∨
    ∃ name, result = .ok name ∧ Staging storage content name d d' := by
  rcases hmkdir : d.attempt storage .mkdir with ⟨went,d₁⟩
  obtain ⟨hfiles₁,hcalls₁,hfailed₁⟩ := attempt_spec hmkdir
  cases went with
  | false =>
    simp only [stage,hmkdir] at hrun
    obtain ⟨rfl,rfl⟩ := Prod.mk.inj hrun
    exact .inl ⟨.mkdir,rfl,hfailed₁ rfl,fun _ => by rw [hfiles₁]⟩
  | true =>
  rcases hcreate : (d₁.change (·.makeDirectory (Path.directory path))).attempt storage .create
    with ⟨went,d₂⟩
  obtain ⟨hfiles₂,hcalls₂,hfailed₂⟩ := attempt_spec hcreate
  have hfs : Alike d₂.files d.files := by
    rw [hfiles₂,← hfiles₁]
    exact Files.get?_makeDirectory _ _
  simp only [stage,hmkdir,hcreate] at hrun
  cases went with
  | false =>
    obtain ⟨rfl,rfl⟩ := Prod.mk.inj hrun
    exact .inl ⟨.create,rfl,hfailed₂ rfl,hfs⟩
  | true =>
    have hfree := hfresh.get?_temporary d₂.files (Path.directory path)
    rcases fill_cases hfree hrun with ⟨call,rfl,hrefused⟩ | ⟨rfl,hput,hrenames⟩
    · exact .inl ⟨call,rfl,hrefused.failed,hrefused.files.trans hfs⟩
    · refine .inr ⟨_,rfl,⟨_,_,rfl⟩,(hfs _).symm.trans hfree,hput.trans (hfs.put _ _),?_⟩
      rw [hrenames]
      simp [renames,hcalls₂,change,hcalls₁]

/-- Besides the files that were there, some are under names that nobody had, and nothing else has
changed. -/
structure Staged (storage : Storage) (start : Files) (pending : List (Text × Text)) (fs : Files) :
    Prop where
  held : ∀ p ∈ pending, fs.get? p.1 = some p.2
  others : ∀ path, key path ∉ pending.map (fun p => key p.1) → fs.get? path = start.get? path
  free : ∀ p ∈ pending, start.get? p.1 = none
  distinct : (pending.map fun p => key p.1).Nodup
  named : ∀ p ∈ pending, ∃ taken dir, p.1 = storage.temporary taken dir

theorem staged_nil (storage : Storage) (fs : Files) : Staged storage fs [] fs :=
  ⟨by simp,fun _ _ => rfl,by simp,by simp,by simp⟩

section Staged

variable {start : Files} {pending : List (Text × Text)}

theorem Staged.congr {fs fs' : Files} (h : Staged storage start pending fs)
    (halike : Alike fs' fs) :
    Staged storage start pending fs' :=
  ⟨fun p hp => (halike p.1).trans (h.held p hp),
    fun path hmem => (halike path).trans (h.others path hmem),h.free,h.distinct,h.named⟩

theorem Staged.add {d d' : Disk} {content name : Text} (h : Staged storage start pending d.files)
    (hstaging : Staging storage content name d d') :
    Staged storage start (pending ++ [(name,content)]) d'.files := by
  have hget : ∀ other, d'.files.get? other =
      if key other = key name then some content else d.files.get? other := fun other =>
    (hstaging.files other).trans (Files.get?_put name content d.files other)
  have hother : ∀ p ∈ pending, key p.1 ≠ key name := by
    intro p hp hkey
    have hheld := h.held p hp
    rw [Files.get?_congr hkey,hstaging.free] at hheld
    cases hheld
  have hnew : key name ∉ pending.map fun p => key p.1 := by
    intro hmem
    obtain ⟨p,hp,hkey⟩ := List.mem_map.mp hmem
    exact hother p hp hkey
  refine ⟨?_,?_,?_,?_,?_⟩
  · intro p hp
    rcases List.mem_append.mp hp with hp | hp
    · rw [hget,if_neg (hother p hp),h.held p hp]
    · obtain rfl := List.mem_singleton.mp hp
      rw [hget,if_pos rfl]
  · intro other hmem
    simp only [List.map_append,List.mem_append,not_or,List.map_cons,List.map_nil,
      List.mem_singleton] at hmem
    rw [hget,if_neg hmem.2,h.others other hmem.1]
  · intro p hp
    rcases List.mem_append.mp hp with hp | hp
    · exact h.free p hp
    · obtain rfl := List.mem_singleton.mp hp
      rw [← h.others _ hnew,hstaging.free]
  · rw [List.map_append]
    exact h.distinct.append (List.nodup_singleton _) (List.disjoint_singleton.mpr hnew)
  · intro p hp
    rcases List.mem_append.mp hp with hp | hp
    · exact h.named p hp
    · obtain rfl := List.mem_singleton.mp hp
      exact hstaging.named

theorem removeAll_calls (names : List Text) (d : Disk) : (d.removeAll names).calls = d.calls := by
  induction names generalizing d with
  | nil => rfl
  | cons name names ih => exact ih _

theorem removeAll_files (names : List Text) (d : Disk) (path : Text) :
    (d.removeAll names).files.get? path =
      if key path ∈ names.map key then none else d.files.get? path := by
  induction names generalizing d with
  | nil => simp [removeAll]
  | cons name names ih =>
    have hstep := ih (d.change (·.remove name))
    simp only [removeAll,List.foldl_cons,change] at hstep ⊢
    rw [hstep,Files.get?_remove]
    by_cases hname : key path = key name <;> simp [hname]

theorem Staged.removeAll {d : Disk} (h : Staged storage start pending d.files) :
    Alike (d.removeAll (pending.map Prod.fst)).files start := by
  intro path
  rw [removeAll_files,List.map_map]
  split
  · rename_i hmem
    obtain ⟨p,hp,hkey⟩ := List.mem_map.mp hmem
    rw [← Files.get?_congr hkey,h.free p hp]
  · rename_i hmem
    exact h.others path hmem

/-- A file that moves to its place is no longer staged, and nothing that still is gets lost, unless
the place is that of another one. -/
theorem Staged.move {d : Disk} {name content path : Text}
    (h : Staged storage start ((name,content) :: pending) d.files)
    (hclear : ∀ p ∈ pending, key path ≠ key p.1) :
    Staged storage (start.put path content) pending (d.move name path).files := by
  have hheld := h.held _ List.mem_cons_self
  obtain ⟨hname,hdistinct⟩ := List.nodup_cons.mp h.distinct
  have hget : ∀ other, (d.move name path).files.get? other = if key other = key path then
      some content else if key other = key name then none else d.files.get? other := by
    intro other
    simp only [Disk.move,change,hheld,Option.getD_some,Files.get?_put,Files.get?_remove]
  refine ⟨?_,?_,?_,hdistinct,fun p hp => h.named p (by simp [hp])⟩
  · intro p hp
    have hne : key p.1 ≠ key name := fun hkey => hname (List.mem_map.mpr ⟨p,hp,hkey⟩)
    rw [hget,if_neg (hclear p hp).symm,if_neg hne,h.held p (by simp [hp])]
  · intro other hmem
    rw [hget,Files.get?_put]
    by_cases hkey : key other = key name
    · rw [if_pos hkey,Files.get?_congr hkey,h.free _ List.mem_cons_self]
    · rw [if_neg hkey,h.others other (by simpa [hkey] using hmem)]
  · intro p hp
    rw [Files.get?_put,if_neg (hclear p hp).symm,h.free p (by simp [hp])]

theorem stageAll_cases (hfresh : storage.Fresh) {first d d' : Disk} {files : List (Text × Text)}
    {result : Except Call (List Text)} (h : Staged storage first.files pending d.files)
    (hrun : stageAll storage (pending.map Prod.fst) files d = (result,d')) :
    (∃ call, result = .error call ∧ Refused storage call first d') ∨
    ∃ added, result = .ok ((pending ++ added).map Prod.fst) ∧
      added.map Prod.snd = files.map Prod.snd ∧
      Staged storage first.files (pending ++ added) d'.files ∧ d'.renames = d.renames := by
  induction files generalizing pending d with
  | nil =>
    obtain ⟨rfl,rfl⟩ := Prod.mk.inj hrun
    exact .inr ⟨[],by simpa using h⟩
  | cons file files ih =>
    obtain ⟨path,content⟩ := file
    rcases hstage : d.stage storage path content with ⟨one,d₁⟩
    simp only [stageAll,hstage] at hrun
    rcases stage_cases hfresh hstage with ⟨call,rfl,hrefused⟩ | ⟨name,rfl,hstaging⟩
    · obtain ⟨rfl,rfl⟩ := Prod.mk.inj hrun
      refine .inl ⟨call,rfl,?_,(h.congr hrefused.files).removeAll⟩
      rw [removeAll_calls]
      exact hrefused.failed
    · have hnames : pending.map Prod.fst ++ [name] =
          (pending ++ [(name,content)]).map Prod.fst := by simp
      simp only [hnames] at hrun
      rcases ih (h.add hstaging) hrun with hfailed | ⟨added,rfl,hcontents,hstaged,hcount⟩
      · exact .inl hfailed
      · rw [List.append_assoc] at hstaged ⊢
        exact .inr ⟨_,rfl,by simp [hcontents],hstaged,hcount.trans hstaging.renames⟩

/-- No file belongs where another one may be staged. -/
def Clear (storage : Storage) (files : List (Text × Text)) : Prop :=
  ∀ file ∈ files, ∀ taken dir, key file.1 ≠ key (storage.temporary taken dir)

theorem placeAll_refused {files : List (Text × Text)} {d d' : Disk}
    {result : Except Call Unit} (hlength : pending.length = files.length)
    (h : Staged storage start pending d.files)
    (hfails : storage.fails .rename (d.renames + 1) = true)
    (hrun : placeAll storage ((pending.map Prod.fst).zip (files.map Prod.fst)) d = (result,d')) :
    Alike d'.files start := by
  cases pending with
  | nil =>
    obtain ⟨rfl,rfl⟩ := Prod.mk.inj hrun
    exact fun path => h.others path (by simp)
  | cons p pending =>
    cases files with
    | nil => simp at hlength
    | cons file files =>
    have hwent : d.attempt storage .rename = (false,{ d with calls := .rename :: d.calls }) := by
      simpa [attempt,renames] using hfails
    simp only [List.map_cons,List.zip_cons_cons,placeAll,hwent] at hrun
    obtain ⟨rfl,rfl⟩ := Prod.mk.inj hrun
    rw [List.map_fst_zip (by simpa using Nat.le_of_eq (Nat.succ.inj hlength))]
    exact Staged.removeAll (d := { d with calls := .rename :: d.calls }) h

/-- Of the files that are staged, some first ones move to their places, and the call that moves the
next one fails unless there is none. What the files are in the end is known if all places are clear,
which is no property of the files that are left, and so is carried along. -/
theorem placeAll_cases {files : List (Text × Text)} {d d' : Disk}
    {result : Except Call Unit} {safe : Prop} (hsafe : safe → Clear storage files)
    (hcontents : pending.map Prod.snd = files.map Prod.snd)
    (h : safe → Staged storage start pending d.files)
    (hrun : placeAll storage ((pending.map Prod.fst).zip (files.map Prod.fst)) d = (result,d')) :
    (result = .ok () ∧ (safe → Alike d'.files (start.putAll files))) ∨
    result = .error .rename ∧ storage.fails .rename d'.renames = true ∧
      ∃ k < files.length, d'.renames = d.renames + k + 1 ∧
        (safe → Alike d'.files (start.putAll (files.take k))) := by
  induction files generalizing pending start d with
  | nil =>
    obtain rfl : pending = [] := by simpa using hcontents
    obtain ⟨rfl,rfl⟩ := Prod.mk.inj hrun
    exact .inl ⟨rfl,fun hs path => (h hs).others path (by simp)⟩
  | cons file files ih =>
    obtain ⟨path,content⟩ := file
    cases pending with
    | nil => simp at hcontents
    | cons p pending =>
    obtain ⟨name,held⟩ := p
    have hlength := congrArg List.length hcontents
    obtain ⟨rfl,hrest⟩ : held = content ∧ pending.map Prod.snd = files.map Prod.snd := by
      simpa using hcontents
    rcases hrename : d.attempt storage .rename with ⟨went,d₁⟩
    obtain ⟨hfiles,hcalls,hfailed⟩ := attempt_spec hrename
    have hrenames : d₁.renames = d.renames + 1 := by simp [renames,hcalls]
    have hstep := hrun
    simp only [List.map_cons,List.zip_cons_cons,placeAll,hrename] at hstep
    cases went with
    | false =>
      have hfails : storage.fails .rename d₁.renames = true := hfailed rfl
      obtain ⟨rfl,rfl⟩ := Prod.mk.inj hstep
      have hcount (names : List Text) : (d₁.removeAll names).renames = d₁.renames := by
        rw [renames,removeAll_calls,renames]
      refine .inr ⟨rfl,hcount _ ▸ hfails,0,by simp,(hcount _).trans hrenames,fun hs => ?_⟩
      exact placeAll_refused (by simpa using hlength) (h hs) (hrenames ▸ hfails) hrun
    | true =>
      have hnext : safe →
          Staged storage (start.put path held) pending (d₁.move name path).files := by
        intro hs
        refine Staged.move (hfiles ▸ h hs) fun p hp => ?_
        obtain ⟨taken,dir,hname⟩ := (h hs).named p (by simp [hp])
        rw [hname]
        exact hsafe hs (path,held) (by simp) taken dir
      rcases ih (fun hs file hfile => hsafe hs file (by simp [hfile])) hrest hnext hstep with
        ⟨rfl,hall⟩ | ⟨rfl,hfails,k,hk,hcount,hsome⟩
      · exact .inl ⟨rfl,hall⟩
      · refine .inr ⟨rfl,hfails,k + 1,by simpa using hk,?_,hsome⟩
        have hmoved : (d₁.move name path).renames = d₁.renames := rfl
        omega

end Staged

theorem key_of_join {f : OutputFile} {root path : Text} (h : f.join root = .ok path) :
    key path = path := by
  obtain ⟨hnonempty,hall,rfl⟩ := OutputFile.join_eq_ok.mp h
  exact Files.key_join root hnonempty fun name hname => (hall name hname).1

def places (root : Text) (files : List OutputFile) :
    Except OutputFile.Fault (List (Text × Text)) := do
  let paths ← files.mapM (·.join root)
  return paths.zip (files.map (·.bytes))

theorem clear_of_places (hfresh : storage.Fresh) {root : Text} {files : List OutputFile}
    {placed : List (Text × Text)} (h : places root files = .ok placed)
    (hnames : ∀ file ∈ placed, ¬ Reserved file.1) :
    Clear storage placed := by
  obtain ⟨paths,hpaths,⟨⟩⟩ := Result.bind_eq_ok.mp h
  intro file hfile taken dir heq
  obtain ⟨f,-,hf⟩ := exists_of_forall₂ (Result.mapM_ok hpaths) (List.of_mem_zip hfile).1
  rw [key_of_join hf,hfresh.key_temporary] at heq
  exact hnames file hfile (heq ▸ hfresh.reserved taken dir)

/-- What writing files can come to: all are in their places, or none is and nothing has changed, or
some first ones are because the next one could not be moved. -/
inductive Written (storage : Storage) (files : List (Text × Text)) (d d' : Disk) :
    Except Fault (List Text) → Prop
  | all (h : Clear storage files → Alike d'.files (d.files.putAll files)) :
    Written storage files d d' (.ok (files.map Prod.fst))
  | none {call : Call} (h : Refused storage call d d') :
    Written storage files d d' (.error (.call call (storage.cause call)))
  | some {k : Nat} (hpos : 0 < k) (hk : k < files.length)
    (hfails : storage.fails .rename d'.renames = true) (hcount : d'.renames = d.renames + k + 1)
    (h : Clear storage files → Alike d'.files (d.files.putAll (files.take k))) :
    Written storage files d d' (.error (.call .rename (storage.cause .rename)))

theorem writeAll_error {root : Text} {files : List OutputFile} (d : Disk)
    {fault : OutputFile.Fault} (h : places root files = .error fault) :
    d.writeAll storage root files = (.error (.path fault),d) := by
  rcases Result.bind_eq_error.mp h with hpaths | ⟨_,_,⟨⟩⟩
  rw [writeAll,hpaths]

theorem writeAll_written (hfresh : storage.Fresh) {root : Text} {files : List OutputFile}
    {placed : List (Text × Text)} {d d' : Disk} {result : Except Fault (List Text)}
    (h : places root files = .ok placed) (hrun : d.writeAll storage root files = (result,d')) :
    Written storage placed d d' result := by
  obtain ⟨paths,hpaths,heq⟩ := Result.bind_eq_ok.mp h
  have hplaced : paths.zip (files.map (·.bytes)) = placed := Except.ok.inj heq
  have hlength : paths.length = files.length := (Result.mapM_ok hpaths).length_eq.symm
  have hfst : placed.map Prod.fst = paths := by
    rw [← hplaced,List.map_fst_zip (by simp [hlength])]
  rcases hstage : d.stageAll storage [] placed with ⟨staged,d₁⟩
  simp only [writeAll,hpaths,hplaced,hstage] at hrun
  rcases stageAll_cases hfresh (staged_nil storage d.files) hstage with
    ⟨call,rfl,hrefused⟩ | ⟨pending,rfl,hcontents,hstaged,hcount⟩
  · obtain ⟨rfl,rfl⟩ := Prod.mk.inj hrun
    exact .none hrefused
  simp only [List.nil_append] at hstaged hrun
  rcases hplace : d₁.placeAll storage ((pending.map Prod.fst).zip paths) with ⟨moved,d₂⟩
  simp only [hplace] at hrun
  rw [← hfst] at hplace
  rcases placeAll_cases id hcontents (fun _ => hstaged) hplace with
    ⟨rfl,hall⟩ | ⟨rfl,hfails,k,hk,hrenames,hsome⟩
  · obtain ⟨rfl,rfl⟩ := Prod.mk.inj hrun
    exact hfst ▸ .all hall
  · obtain ⟨rfl,rfl⟩ := Prod.mk.inj hrun
    cases k with
    | zero =>
      have hnone := placeAll_refused (by simpa using congrArg List.length hcontents) hstaged
        (hrenames ▸ hfails) hplace
      exact .none ⟨hfails,hnone⟩
    | succ k => exact .some k.succ_pos hk hfails (hcount ▸ hrenames) hsome

end Disk

end WireSchema
