import WireSchema.Proofs.Files.Staging
import Mathlib.Data.Set.Insert
set_option autoImplicit false

/-!
Two trees of files with the same paths, which need not hold the same everywhere. Whatever is done to
both of them, by the same calls, comes to the same as long as nothing is read where they differ, and
what has been written no longer differs.
-/

namespace WireSchema

namespace Files

/-- Both have the same paths, and hold the same under some of them. -/
structure Agree (on : Set Text) (fs fs' : Files) : Prop where
  refusal : fs.refusal = fs'.refusal
  directories : fs.directories = fs'.directories
  entries : List.Forall₂ (fun e e' => e.1 = e'.1 ∧ (e.1 ∈ on → e.2 = e'.2)) fs.entries fs'.entries

variable {on on' : Set Text} {fs fs' : Files}

theorem Agree.refl (on : Set Text) (fs : Files) : Agree on fs fs :=
  ⟨rfl,rfl,List.forall₂_same.mpr fun _ _ => ⟨rfl,fun _ => rfl⟩⟩

theorem Agree.names (h : Agree on fs fs') :
    fs.entries.map Prod.fst = fs'.entries.map Prod.fst :=
  (map_eq_of_forall₂ (fun _ _ hentry => hentry.1.symm) h.entries).symm

theorem Agree.isDirectory (h : Agree on fs fs') (path : Text) :
    fs.isDirectory path = fs'.isDirectory path := by
  simp only [Files.isDirectory,h.directories,h.names]

theorem Agree.get? (h : Agree on fs fs') {path : Text} (hon : key path ∈ on) :
    fs.get? path = fs'.get? path := by
  have hentries := h.entries
  unfold Files.get?
  generalize fs.entries = es, fs'.entries = es' at hentries ⊢
  induction hentries with
  | nil => rfl
  | @cons e e' _ _ hentry _ ih =>
    obtain ⟨hname,hcontent⟩ := hentry
    rw [List.lookup_cons,List.lookup_cons,← hname]
    by_cases hkey : key path = e.1
    · simp [← hkey,← hcontent (hkey ▸ hon)]
    · have hother : (key path == e.1) = false := by simpa using hkey
      rw [hother,ih]

theorem Agree.isSome (h : Agree on fs fs') (path : Text) :
    (fs.get? path).isSome = (fs'.get? path).isSome := by
  have hentries := h.entries
  unfold Files.get?
  generalize fs.entries = es, fs'.entries = es' at hentries ⊢
  induction hentries with
  | nil => rfl
  | @cons e e' _ _ hentry _ ih =>
    rw [List.lookup_cons,List.lookup_cons,← hentry.1]
    cases key path == e.1 with
    | false => exact ih
    | true => rfl

theorem Agree.isRegular (h : Agree on fs fs') (path : Text) :
    fs.isRegular path = fs'.isRegular path := by
  rw [Files.isRegular,Files.isRegular,h.isSome,h.isDirectory]

theorem Agree.read (h : Agree on fs fs') {path : Text} (hon : key path ∈ on) :
    fs.read path = fs'.read path := by
  rw [Files.read,Files.read,h.get? hon,h.isDirectory,Files.readDirectory,Files.readDirectory,
    h.refusal]

theorem Agree.filter (h : Agree on fs fs') (keep : Text → Bool) :
    List.Forall₂ (fun e e' => keep e.1 = true ∧ e.1 = e'.1 ∧ (e.1 ∈ on → e.2 = e'.2))
      (fs.entries.filter fun (path,_) => keep path)
      (fs'.entries.filter fun (path,_) => keep path) := by
  have hentries := h.entries
  generalize fs.entries = es, fs'.entries = es' at hentries ⊢
  induction hentries with
  | nil => exact .nil
  | @cons e e' _ _ hentry _ ih =>
    cases hkeep : keep e.1 with
    | false => simpa [← hentry.1,hkeep] using ih
    | true => simpa [← hentry.1,hkeep] using And.intro hentry.2 ih

theorem Agree.remove (h : Agree on fs fs') (path : Text) :
    Agree on (fs.remove path) (fs'.remove path) :=
  ⟨h.refusal,h.directories,(h.filter (· != key path)).imp fun _ _ hentry => hentry.2⟩

theorem Agree.put (h : Agree on fs fs') (path content : Text) :
    Agree (insert (key path) on) (fs.put path content) (fs'.put path content) := by
  refine ⟨h.refusal,h.directories,.cons ⟨rfl,fun _ => rfl⟩ ((h.filter (· != key path)).imp ?_)⟩
  rintro e e' ⟨hother,hname,hcontent⟩
  refine ⟨hname,fun hon => hcontent ?_⟩
  exact Set.mem_of_mem_insert_of_ne hon (by simpa using hother)

theorem Agree.makeDirectory (h : Agree on fs fs') (path : Text) :
    Agree on (fs.makeDirectory path) (fs'.makeDirectory path) := by
  unfold Files.makeDirectory
  rw [h.isDirectory]
  split
  · exact h
  · exact ⟨h.refusal,by rw [h.directories],h.entries⟩

end Files

namespace Disk

open Files (key)

/-- The same has been done to both, and what has moved to its place is the same. -/
structure Agree (on : Set Text) (d d' : Disk) : Prop where
  files : Files.Agree on d.files d'.files
  calls : d.calls = d'.calls
  placed : d.placed = d'.placed
  held : ∀ path ∈ d.placed, path ∈ on

structure Matched {ε α : Type} (on : Set Text) (run run' : Except ε α × Disk) : Prop where
  result : run.1 = run'.1
  disk : Agree on run.2 run'.2

variable {on on' : Set Text} {d d' : Disk}

theorem Agree.put (h : Agree on d d') (path content : Text) :
    Agree (insert (key path) on) (d.change (·.put path content)) (d'.change (·.put path content)) :=
  ⟨h.files.put path content,h.calls,h.placed,fun other hother => .inr (h.held other hother)⟩

theorem Agree.remove (h : Agree on d d') (path : Text) :
    Agree on (d.change (·.remove path)) (d'.change (·.remove path)) :=
  ⟨h.files.remove path,h.calls,h.placed,h.held⟩

theorem Agree.makeDirectory (h : Agree on d d') (path : Text) :
    Agree on (d.change (·.makeDirectory path)) (d'.change (·.makeDirectory path)) :=
  ⟨h.files.makeDirectory path,h.calls,h.placed,h.held⟩

theorem Agree.attempt (h : Agree on d d') {storage : Storage} {call : Call} {went : Bool}
    {next : Disk} (hrun : d.attempt storage call = (went,next)) :
    ∃ next', d'.attempt storage call = (went,next') ∧ Agree on next next' := by
  obtain ⟨rfl,rfl⟩ := Prod.mk.inj hrun
  refine ⟨{ d' with calls := call :: d'.calls },?_,h.files,?_,h.placed,h.held⟩
  · simp only [Disk.attempt,h.calls]
  · exact congrArg (call :: ·) h.calls

theorem fill_name {storage : Storage} {name content other : Text}
    (h : (d.fill storage name content).1 = .ok other) : other = name := by
  unfold Disk.fill at h
  split at h
  split at h
  split at h
  · cases h
  split at h
  · cases h
  split at h
  · cases h
  · exact (Except.ok.inj h).symm

theorem Agree.fill (h : Agree on d d') (storage : Storage) (name content : Text) :
    Matched (insert (key name) on) (d.fill storage name content)
      (d'.fill storage name content) := by
  rcases hwrite : (d.change (·.put name [])).attempt storage .write with ⟨written,d₁⟩
  obtain ⟨d₁',hwrite',h₁⟩ := (h.put name []).attempt hwrite
  cases written with
  | false =>
    rcases hclose : d₁.attempt storage .close with ⟨closed,d₂⟩
    obtain ⟨d₂',hclose',h₂⟩ := h₁.attempt hclose
    simp only [Disk.fill,hwrite,hwrite',Bool.false_eq_true,if_false,hclose,hclose',Bool.not_false,
      if_true]
    exact ⟨rfl,h₂.remove name⟩
  | true =>
  have hput := h₁.put name content
  rw [Set.insert_idem] at hput
  rcases hclose : (d₁.change (·.put name content)).attempt storage .close with ⟨closed,d₂⟩
  obtain ⟨d₂',hclose',h₂⟩ := hput.attempt hclose
  simp only [Disk.fill,hwrite,hwrite',if_true,hclose,hclose',Bool.not_true,Bool.false_eq_true,
    if_false]
  cases closed with
  | false => exact ⟨rfl,h₂.remove name⟩
  | true =>
  rcases hchmod : d₂.attempt storage .chmod with ⟨went,d₃⟩
  obtain ⟨d₃',hchmod',h₃⟩ := h₂.attempt hchmod
  simp only [Bool.not_true,Bool.false_eq_true,if_false,hchmod']
  cases went with
  | false => exact ⟨rfl,h₃.remove name⟩
  | true => exact ⟨rfl,h₃⟩

theorem Agree.stage (h : Agree on d d') (storage : Storage) (path content : Text) :
    ∃ on', on ⊆ on' ∧
      Matched on' (d.stage storage path content) (d'.stage storage path content) ∧
      ∀ name, (d.stage storage path content).1 = .ok name → key name ∈ on' := by
  rcases hmkdir : d.attempt storage .mkdir with ⟨went,d₁⟩
  obtain ⟨d₁',hmkdir',h₁⟩ := h.attempt hmkdir
  cases went with
  | false =>
    simp only [Disk.stage,hmkdir,hmkdir']
    exact ⟨on,subset_rfl,⟨rfl,h₁⟩,by simp⟩
  | true =>
  rcases hcreate : (d₁.change (·.makeDirectory (Path.directory path))).attempt storage .create
    with ⟨went,d₂⟩
  obtain ⟨d₂',hcreate',h₂⟩ := (h₁.makeDirectory (Path.directory path)).attempt hcreate
  cases went with
  | false =>
    simp only [Disk.stage,hmkdir,hmkdir',hcreate,hcreate']
    exact ⟨on,subset_rfl,⟨rfl,h₂⟩,by simp⟩
  | true =>
  have hstage : d.stage storage path content = d₂.fill storage
      (storage.temporary (d₂.files.entries.map Prod.fst) (Path.directory path)) content := by
    simp only [Disk.stage,hmkdir,hcreate]
    rfl
  have hstage' : d'.stage storage path content = d₂'.fill storage
      (storage.temporary (d₂.files.entries.map Prod.fst) (Path.directory path)) content := by
    rw [h₂.files.names]
    simp only [Disk.stage,hmkdir',hcreate']
    rfl
  rw [hstage,hstage']
  refine ⟨_,Set.subset_insert _ _,h₂.fill storage _ content,fun name hname => .inl ?_⟩
  rw [fill_name hname]

theorem Agree.removeAll (h : Agree on d d') (names : List Text) :
    Agree on (d.removeAll names) (d'.removeAll names) := by
  induction names generalizing d d' with
  | nil => exact h
  | cons name names ih => exact ih (h.remove name)

theorem Agree.stageAll (h : Agree on d d') (storage : Storage) {staged : List Text}
    (hstaged : ∀ name ∈ staged, key name ∈ on) (files : List (Text × Text)) :
    ∃ on', on ⊆ on' ∧
      Matched on' (d.stageAll storage staged files) (d'.stageAll storage staged files) ∧
      ∀ names, (d.stageAll storage staged files).1 = .ok names → ∀ name ∈ names,
        key name ∈ on' := by
  induction files generalizing on d d' staged with
  | nil =>
    refine ⟨on,subset_rfl,⟨rfl,h⟩,fun names hnames => ?_⟩
    obtain rfl : staged = names := Except.ok.inj hnames
    exact hstaged
  | cons file files ih =>
    obtain ⟨path,content⟩ := file
    obtain ⟨on₁,hsub,⟨hresult,hdisk⟩,hname⟩ := h.stage storage path content
    rcases hstage : d.stage storage path content with ⟨one,d₁⟩
    rcases hstage' : d'.stage storage path content with ⟨one',d₁'⟩
    rw [hstage,hstage'] at hresult hdisk
    rw [hstage] at hname
    obtain rfl : one = one' := hresult
    simp only [Disk.stageAll,hstage,hstage']
    cases one with
    | error call => exact ⟨on₁,hsub,⟨rfl,hdisk.removeAll staged⟩,by simp⟩
    | ok name =>
      have hmore : ∀ other ∈ staged ++ [name], key other ∈ on₁ := by
        intro other hother
        rcases List.mem_append.mp hother with hother | hother
        · exact hsub (hstaged other hother)
        · rw [List.mem_singleton.mp hother]
          exact hname name rfl
      obtain ⟨on₂,hsub₂,hmatched,hnames⟩ := ih hdisk hmore
      exact ⟨on₂,hsub.trans hsub₂,hmatched,hnames⟩

theorem Agree.move (h : Agree on d d') {name : Text} (hname : key name ∈ on) (path : Text) :
    Agree (insert (key path) on) (d.move name path) (d'.move name path) := by
  have hmoved := (h.remove name).put path ((d.files.get? name).getD [])
  have hcontent := h.files.get? hname
  refine ⟨?_,h.calls,congrArg (key path :: ·) h.placed,?_⟩
  · simpa only [Disk.move,Disk.change,← hcontent] using hmoved.files
  · intro other hother
    rcases List.mem_cons.mp hother with rfl | hother
    · exact .inl rfl
    · exact .inr (h.held other hother)

theorem Agree.placeAll (h : Agree on d d') (storage : Storage) (files : List (Text × Text))
    (hfiles : ∀ file ∈ files, key file.1 ∈ on) :
    ∃ on', on ⊆ on' ∧ Matched on' (d.placeAll storage files) (d'.placeAll storage files) := by
  induction files generalizing on d d' with
  | nil => exact ⟨on,subset_rfl,rfl,h⟩
  | cons file files ih =>
    obtain ⟨name,path⟩ := file
    rcases hrename : d.attempt storage .rename with ⟨went,d₁⟩
    obtain ⟨d₁',hrename',h₁⟩ := h.attempt hrename
    simp only [Disk.placeAll,hrename,hrename']
    cases went with
    | false => exact ⟨on,subset_rfl,rfl,h₁.removeAll _⟩
    | true =>
      have hmoved := h₁.move (hfiles _ List.mem_cons_self) path
      obtain ⟨on',hsub,hmatched⟩ := ih hmoved fun other hother =>
        .inr (hfiles other (List.mem_cons_of_mem _ hother))
      exact ⟨on',(Set.subset_insert _ _).trans hsub,hmatched⟩

theorem Agree.writeAll (h : Agree on d d') (storage : Storage) (root : Text)
    (files : List OutputFile) : ∃ on', on ⊆ on' ∧
      Matched on' (d.writeAll storage root files) (d'.writeAll storage root files) := by
  unfold Disk.writeAll
  cases files.mapM (·.join root) with
  | error fault => exact ⟨on,subset_rfl,rfl,h⟩
  | ok paths =>
  obtain ⟨on₁,hsub,⟨hresult,hdisk⟩,hnames⟩ :=
    h.stageAll storage (List.forall_mem_nil _) (paths.zip (files.map (·.bytes)))
  rcases hstage : d.stageAll storage [] (paths.zip (files.map (·.bytes))) with ⟨names,d₁⟩
  rcases hstage' : d'.stageAll storage [] (paths.zip (files.map (·.bytes))) with ⟨names',d₁'⟩
  rw [hstage,hstage'] at hresult hdisk
  rw [hstage] at hnames
  obtain rfl : names = names' := hresult
  simp only [hstage,hstage']
  cases names with
  | error call => exact ⟨on₁,hsub,rfl,hdisk⟩
  | ok names =>
  obtain ⟨on₂,hsub₂,hresult,hdisk⟩ := hdisk.placeAll storage (names.zip paths)
    fun file hfile => hnames names rfl _ (List.of_mem_zip hfile).1
  rcases hplace : d₁.placeAll storage (names.zip paths) with ⟨placed,d₂⟩
  rcases hplace' : d₁'.placeAll storage (names.zip paths) with ⟨placed',d₂'⟩
  rw [hplace,hplace'] at hresult hdisk
  obtain rfl : placed = placed' := hresult
  simp only [hplace,hplace']
  cases placed with
  | error call => exact ⟨on₂,hsub.trans hsub₂,rfl,hdisk⟩
  | ok => exact ⟨on₂,hsub.trans hsub₂,rfl,hdisk⟩

theorem Agree.written (h : Agree on d d') : d.written = d'.written := by
  have hfiles := h.files.filter d.placed.contains
  unfold Disk.written
  rw [← h.placed]
  refine congrArg (Text.sortBy Prod.fst) (List.forall₂_eq_eq_eq ▸ hfiles.imp ?_)
  rintro e e' ⟨hplaced,hname,hcontent⟩
  exact Prod.ext hname (hcontent (h.held _ (by simpa using hplaced)))

end Disk

end WireSchema
