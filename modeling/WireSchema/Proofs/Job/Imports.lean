import WireSchema.Job.Load
import WireSchema.Proofs.Basic
import WireSchema.Proofs.Text.Clean
import Mathlib.Data.Finset.Card
import Mathlib.Logic.Relation
set_option autoImplicit false

/-!
Loading a source with all that it imports. The files are gone through in depth, each of them once,
so that there is an end to it although files may import each other. What is loaded are the files
that the first one reaches through imports, each behind those that it imports itself, except for
those that reach it in turn.
-/

namespace WireSchema.Load

variable {fs : Files} {fuel : Nat} {importer : Option Text} {path text : Text} {doc : Document}
    {s s' : State} {stack : List Text}

/-- Where an import leads: from the root, or else from where the name of its file stands. -/
def target (importer argument : Text) : Text :=
  Path.clean (if Path.isRooted argument then argument else (Path.split importer).1 ++ argument)

theorem clean_resolve (importer argument : Text) :
    Path.clean (resolve importer argument) = target importer argument := by
  unfold resolve target
  split
  · rfl
  rename_i hrooted
  have hdir : Path.directory importer ≠ [] := Path.clean_ne_nil _
  have hjoin : Path.join [Path.directory importer,argument] =
      Path.clean (Path.directory importer ++ Path.slash :: argument) := by
    simp [Path.join,hdir,Text.join]
  rw [hjoin,Path.clean_clean]
  exact Path.clean_behind (Path.opens_split importer) (by simpa using hrooted)

def Reads (fs : Files) (path text : Text) (doc : Document) : Prop :=
  fs.read path = .ok text ∧ SourceSet.parse [⟨path,text⟩] = .ok doc

theorem Reads.eq {text' : Text} {doc' : Document} (h : Reads fs path text doc)
    (h' : Reads fs path text' doc') : text = text' ∧ doc = doc' := by
  obtain rfl : text = text' := Except.ok.inj (h.1.symm.trans h'.1)
  exact ⟨rfl,Except.ok.inj (h.2.symm.trans h'.2)⟩

def isImport (d : Directive) : Bool := d.name == Text.ofString "import"

/-- An import directive of one file leads to another. -/
def Imports (fs : Files) (importer path : Text) : Prop :=
  ∃ text doc, Reads fs importer text doc ∧ ∃ d ∈ doc.directives, isImport d = true ∧
    ∃ argument, d.argument = some argument ∧ path = target importer argument

def imported (fs : Files) (importer : Text) : List Text :=
  match fs.read importer with
  | .error _ => []
  | .ok text => match SourceSet.parse [⟨importer,text⟩] with
    | .error _ => []
    | .ok doc => doc.directives.filterMap fun d =>
      if isImport d then d.argument.map (target importer) else none

theorem imports_iff {importer path : Text} :
    Imports fs importer path ↔ path ∈ imported fs importer := by
  constructor
  · rintro ⟨text,doc,⟨hread,hparse⟩,d,hd,himport,argument,hargument,rfl⟩
    simp only [imported,hread,hparse]
    exact List.mem_filterMap.mpr ⟨d,hd,by simp [himport,hargument]⟩
  · intro h
    unfold imported at h
    split at h
    · simp at h
    rename_i text hread
    split at h
    · simp at h
    rename_i doc hparse
    obtain ⟨d,hd,hsome⟩ := List.mem_filterMap.mp h
    cases himport : isImport d with
    | false => simp [himport] at hsome
    | true =>
      rw [if_pos himport] at hsome
      obtain ⟨argument,hargument,rfl⟩ := Option.map_eq_some_iff.mp hsome
      exact ⟨text,doc,⟨hread,hparse⟩,d,hd,himport,argument,hargument,rfl⟩

instance (importer path : Text) : Decidable (Imports fs importer path) :=
  decidable_of_iff _ imports_iff.symm

def Reaches (fs : Files) : Text → Text → Prop := Relation.ReflTransGen (Imports fs)

/-- A file that can be read, and whose imports all say what they import. -/
def Loadable (fs : Files) (path : Text) : Prop :=
  ∃ text doc, Reads fs path text doc ∧ ∀ d ∈ doc.directives, isImport d = true →
    ∃ argument, d.argument = some argument ∧ argument ≠ []

def mark (path : Text) (s : State) : State := { s with seen := path :: s.seen }

def andThen (run : Except Fault Unit × State) (more : State → Except Fault Unit × State) :
    Except Fault Unit × State :=
  match run with
  | (.ok _,s) => more s
  | (.error fault,s) => (.error fault,s)

def follow (fs : Files) (fuel : Nat) (path : Text) (d : Directive) : Loader Unit :=
  if d.name != Text.ofString "import" then
    modify fun s => { s with log := s.log ++ [ignored path d.name] }
  else match d.argument with
    | none | some [] => throw (.importWithoutPath path)
    | some argument => visit fs fuel (some path) (resolve path argument)

theorem visit_succ (fs : Files) (fuel : Nat) (importer : Option Text) (path : Text) :
    visit fs (fuel + 1) importer path = (do
      let path := Path.clean path
      if (← get).seen.contains path then return ()
      modify (mark path)
      match fs.read path with
      | .error file => match importer with
        | some importer => throw (.importMissing importer path file)
        | none => throw (.missing file)
      | .ok text => match SourceSet.parse [⟨path,text⟩] with
        | .error fault => throw (.sources (.document fault))
        | .ok doc =>
          doc.directives.forM (follow fs fuel path)
          modify fun s => { s with sources := s.sources ++ [⟨path,text⟩] }) := rfl

theorem visit_eq (fs : Files) (fuel : Nat) (importer : Option Text) (path : Text) (s : State) :
    visit fs (fuel + 1) importer path s =
      if Path.clean path ∈ s.seen then (.ok (),s)
      else match fs.read (Path.clean path) with
      | .error file => match importer with
        | some importer =>
          (.error (.importMissing importer (Path.clean path) file),mark (Path.clean path) s)
        | none => (.error (.missing file),mark (Path.clean path) s)
      | .ok text => match SourceSet.parse [⟨Path.clean path,text⟩] with
        | .error fault => (.error (.sources (.document fault)),mark (Path.clean path) s)
        | .ok doc =>
          andThen (doc.directives.forM (follow fs fuel (Path.clean path))
            (mark (Path.clean path) s))
            fun s' => (.ok (),{ s' with sources := s'.sources ++ [⟨Path.clean path,text⟩] }) := by
  rw [visit_succ,Result.run_bind]
  change (if s.seen.contains (Path.clean path) = true then _ else _ : Loader Unit) s = _
  by_cases hseen : Path.clean path ∈ s.seen
  · rw [if_pos (by simpa using hseen),if_pos hseen]
    rfl
  rw [if_neg (by simpa using hseen),if_neg hseen,Result.run_bind]
  change (match fs.read (Path.clean path) with
    | .error file => _
    | .ok text => _ : Loader Unit) (mark (Path.clean path) s) = _
  cases fs.read (Path.clean path) with
  | error file => cases importer <;> rfl
  | ok text =>
    simp only
    cases SourceSet.parse [⟨Path.clean path,text⟩] with
    | error fault => rfl
    | ok doc =>
      simp only
      rw [Result.run_bind]
      rcases doc.directives.forM (follow fs fuel (Path.clean path)) (mark (Path.clean path) s) with
        ⟨result,next⟩
      cases result <;> rfl

theorem visit_cases (fs : Files) (importer : Option Text) (path : Text) (s : State) :
    (Path.clean path ∈ s.seen ∧ ∀ fuel, visit fs (fuel + 1) importer path s = (.ok (),s)) ∨
    Path.clean path ∉ s.seen ∧
      ((¬ ∃ text doc, Reads fs (Path.clean path) text doc) ∧
        (∃ fault, fault ≠ .exhausted ∧ ∀ fuel, visit fs (fuel + 1) importer path s =
          (.error fault,mark (Path.clean path) s)) ∨
      ∃ text doc, Reads fs (Path.clean path) text doc ∧ ∀ fuel,
        visit fs (fuel + 1) importer path s =
          andThen (doc.directives.forM (follow fs fuel (Path.clean path))
            (mark (Path.clean path) s))
            fun s' => (.ok (),{ s' with sources := s'.sources ++ [⟨Path.clean path,text⟩] })) := by
  simp only [visit_eq]
  by_cases hseen : Path.clean path ∈ s.seen
  · exact .inl ⟨hseen,fun _ => if_pos hseen⟩
  refine .inr ⟨hseen,?_⟩
  simp only [if_neg hseen]
  cases hread : fs.read (Path.clean path) with
  | error file =>
    refine .inl ⟨fun ⟨text,doc,hreads⟩ => (by cases hread.symm.trans hreads.1),?_⟩
    cases importer with
    | none => exact ⟨.missing file,nofun,fun _ => rfl⟩
    | some importer => exact ⟨.importMissing importer _ file,nofun,fun _ => rfl⟩
  | ok text =>
    simp only
    cases hparse : SourceSet.parse [⟨Path.clean path,text⟩] with
    | error fault =>
      refine .inl ⟨fun ⟨text',doc,hreads⟩ => ?_,.sources (.document fault),nofun,fun _ => rfl⟩
      obtain rfl : text = text' := Except.ok.inj (hread.symm.trans hreads.1)
      cases hparse.symm.trans hreads.2
    | ok doc => exact .inr ⟨text,doc,⟨hread,hparse⟩,fun _ => rfl⟩

theorem follow_cases (fs : Files) (path : Text) (d : Directive) :
    (isImport d = false ∧ ∀ fuel s,
      follow fs fuel path d s = (.ok (),{ s with log := s.log ++ [ignored path d.name] })) ∨
    isImport d = true ∧
      ((∃ argument, d.argument = some argument ∧ argument ≠ [] ∧ ∀ fuel,
        follow fs fuel path d = visit fs fuel (some path) (resolve path argument)) ∨
      (∀ argument, d.argument = some argument → argument = []) ∧ ∀ fuel s,
        follow fs fuel path d s = (.error (.importWithoutPath path),s)) := by
  cases himport : isImport d with
  | false =>
    refine .inl ⟨rfl,fun fuel s => ?_⟩
    have hname : (d.name != Text.ofString "import") = true := by simpa [isImport] using himport
    rw [follow,if_pos hname]
    rfl
  | true =>
    refine .inr ⟨rfl,?_⟩
    have hname : ¬ (d.name != Text.ofString "import") = true := by simpa [isImport] using himport
    simp only [follow,if_neg hname]
    match d.argument with
    | none => exact .inr ⟨by simp,fun _ _ => rfl⟩
    | some [] => exact .inr ⟨by simp,fun _ _ => rfl⟩
    | some (c :: argument) => exact .inl ⟨_,rfl,by simp,fun _ => rfl⟩

theorem forM_cons (f : Directive → Loader Unit) (d : Directive) (directives : List Directive)
    (s : State) :
    (d :: directives).forM f s = andThen (f d s) (directives.forM f) := by
  change (f d >>= fun _ => directives.forM f) s = _
  rw [Result.run_bind]
  rcases f d s with ⟨result,s'⟩
  cases result <;> rfl

/-- The clean paths under which a file can be found. The root has three of them. -/
def findable (fs : Files) : List Text :=
  Text.ofString "." :: Text.ofString ".." :: fs.entries.map Prod.fst

def unseen (fs : Files) (s : State) : Nat := ((findable fs).toFinset \ s.seen.toFinset).card

theorem unseen_le (h : s.seen ⊆ s'.seen) : unseen fs s' ≤ unseen fs s := by
  refine Finset.card_le_card (Finset.sdiff_subset_sdiff (Finset.Subset.refl _) ?_)
  intro path hpath
  exact List.mem_toFinset.mpr (h (List.mem_toFinset.mp hpath))

theorem unseen_mark (hfindable : path ∈ findable fs) (hnew : path ∉ s.seen) :
    unseen fs (mark path s) < unseen fs s := by
  refine Finset.card_lt_card (Finset.ssubset_iff_of_subset ?_ |>.mpr ⟨path,?_,?_⟩)
  · intro other
    simp only [mark,Finset.mem_sdiff,List.mem_toFinset,List.mem_cons,not_or]
    exact fun h => ⟨h.1,h.2.2⟩
  · simp [hfindable,hnew]
  · simp [mark]

theorem unseen_le_length (fs : Files) (s : State) : unseen fs s ≤ fs.entries.length + 2 :=
  calc unseen fs s ≤ (findable fs).toFinset.card := Finset.card_le_card Finset.sdiff_subset
    _ ≤ (findable fs).length := List.toFinset_card_le _
    _ = fs.entries.length + 2 := by simp [findable]

theorem findable_of_get? (hclean : Path.clean path = path) (h : fs.get? path = some text) :
    path ∈ findable fs := by
  have hkey := Files.key_mem_of_get? h
  simp only [Files.key,hclean] at hkey
  split at hkey
  · rename_i hroot
    rcases (by simpa using hroot : path = Text.ofString "." ∨ path = Text.ofString "..") with
      rfl | rfl <;> simp [findable]
  · exact List.mem_cons_of_mem _ (List.mem_cons_of_mem _ hkey)

theorem directives_of_not_findable (hclean : Path.clean path = path)
    (hread : Reads fs path text doc) (h : path ∉ findable fs) : doc.directives = [] := by
  obtain ⟨hread,hparse⟩ := hread
  have hnone : fs.get? path = none := by
    by_contra hsome
    obtain ⟨text,hget⟩ := Option.ne_none_iff_exists'.mp hsome
    exact h (findable_of_get? hclean hget)
  -- No file is there, so what is read is a directory, and empty.
  have htext : text = [] := by
    simp only [Files.read,hnone,Files.readDirectory] at hread
    split at hread
    · split at hread
      · exact (Except.ok.inj hread).symm
      · cases hread
    · cases hread
  subst htext
  obtain ⟨_,_,hdoc⟩ := Result.bind_eq_ok.mp hparse
  have hempty : (Document.parse [Text.newline]).toOption.map Document.directives = some [] := by
    decide +kernel
  split at hdoc
  · cases hdoc
  · rename_i held hheld
    obtain rfl : held = doc := Except.ok.inj hdoc
    have hnewline : Document.parse [Text.newline] = .ok held := hheld
    rw [hnewline] at hempty
    exact Option.some.inj hempty

theorem andThen_keeps {run : Except Fault Unit × State} {more : State → Except Fault Unit × State}
    (h : s.seen ⊆ run.2.seen) (hmore : ∀ s', s'.seen ⊆ (more s').2.seen) :
    s.seen ⊆ (andThen run more).2.seen := by
  rcases run with ⟨result,s'⟩
  cases result with
  | error fault => exact h
  | ok => exact List.Subset.trans h (hmore s')

theorem forM_keeps {f : Directive → Loader Unit} (hf : ∀ d s, s.seen ⊆ (f d s).2.seen)
    (directives : List Directive) (s : State) : s.seen ⊆ (directives.forM f s).2.seen := by
  induction directives generalizing s with
  | nil => exact List.Subset.refl _
  | cons d directives ih =>
    rw [forM_cons]
    exact andThen_keeps (hf d s) ih

theorem follow_keeps (h : ∀ importer path s, s.seen ⊆ (visit fs fuel importer path s).2.seen)
    (path : Text) (d : Directive) (s : State) : s.seen ⊆ (follow fs fuel path d s).2.seen := by
  rcases follow_cases fs path d with ⟨-,hone⟩ | ⟨-,⟨argument,-,-,hone⟩ | ⟨-,hone⟩⟩
  · rw [hone]
    exact List.Subset.refl _
  · rw [hone]
    exact h _ _ _
  · rw [hone]
    exact List.Subset.refl _

theorem visit_keeps (fs : Files) (fuel : Nat) (importer : Option Text) (path : Text) (s : State) :
    s.seen ⊆ (visit fs fuel importer path s).2.seen := by
  induction fuel generalizing importer path s with
  | zero => exact List.Subset.refl _
  | succ fuel ih =>
    have hmark : s.seen ⊆ (mark (Path.clean path) s).seen := List.subset_cons_self _ _
    rcases visit_cases fs importer path s with
      ⟨-,hvisit⟩ | ⟨-,⟨-,fault,-,hvisit⟩ | ⟨text,doc,-,hvisit⟩⟩
    · rw [hvisit]
      exact List.Subset.refl _
    · rw [hvisit]
      exact hmark
    · have hloop := forM_keeps (follow_keeps ih (Path.clean path)) doc.directives
        (mark (Path.clean path) s)
      rw [hvisit]
      exact andThen_keeps (List.Subset.trans hmark hloop) fun _ => List.Subset.refl _

theorem unseen_inside (hnew : Path.clean path ∉ s.seen)
    (hread : Reads fs (Path.clean path) text doc) (h : unseen fs s < fuel + 1) :
    doc.directives = [] ∨ unseen fs (mark (Path.clean path) s) < fuel := by
  by_cases hfindable : Path.clean path ∈ findable fs
  · have hless := unseen_mark hfindable hnew
    exact .inr (by omega)
  · exact .inl (directives_of_not_findable (Path.clean_clean path) hread hfindable)

theorem forM_enough {more : Nat} (h : ∀ importer path s, unseen fs s < fuel →
      visit fs (fuel + more) importer path s = visit fs fuel importer path s)
    {directives : List Directive} (hroom : directives = [] ∨ unseen fs s < fuel) (path : Text) :
    directives.forM (follow fs (fuel + more) path) s =
      directives.forM (follow fs fuel path) s := by
  induction directives generalizing s with
  | nil => rfl
  | cons d directives ih =>
    have hless := hroom.resolve_left (by simp)
    have hkeeps := follow_keeps (visit_keeps fs fuel) path d s
    have hone : follow fs (fuel + more) path d s = follow fs fuel path d s := by
      rcases follow_cases fs path d with ⟨-,hone⟩ | ⟨-,⟨argument,-,-,hone⟩ | ⟨-,hone⟩⟩
      · rw [hone,hone]
      · rw [hone,hone,h _ _ _ hless]
      · rw [hone,hone]
    rw [forM_cons,forM_cons,hone]
    rcases hrun : follow fs fuel path d s with ⟨result,s'⟩
    rw [hrun] at hkeeps
    cases result with
    | error fault => rfl
    | ok => exact ih (.inr (Nat.lt_of_le_of_lt (unseen_le hkeeps) hless))

theorem visit_enough (more : Nat) (h : unseen fs s < fuel) :
    visit fs (fuel + more) importer path s = visit fs fuel importer path s := by
  induction fuel generalizing importer path s with
  | zero => omega
  | succ fuel ih =>
    rw [Nat.add_right_comm]
    rcases visit_cases fs importer path s with
      ⟨-,hvisit⟩ | ⟨hnew,⟨-,fault,-,hvisit⟩ | ⟨text,doc,hread,hvisit⟩⟩
    · rw [hvisit,hvisit]
    · rw [hvisit,hvisit]
    · have hroom := unseen_inside hnew hread h
      rw [hvisit,hvisit,forM_enough (fun _ _ _ => ih) hroom]

def Before (path other : Text) (paths : List Text) : Prop :=
  ∃ front back, paths = front ++ other :: back ∧ path ∈ front

theorem Before.append {other : Text} {paths : List Text} (h : Before path other paths)
    (more : List Text) : Before path other (paths ++ more) := by
  obtain ⟨front,back,rfl,hmem⟩ := h
  exact ⟨front,back ++ more,by simp,hmem⟩

/-- What is loaded while the files of the stack are being gone through. -/
structure Loaded (fs : Files) (stack : List Text) (s : State) : Prop where
  seen : ∀ path, path ∈ s.seen ↔ path ∈ stack ∨ path ∈ s.sources.map Source.path
  apart : ∀ path ∈ stack, path ∉ s.sources.map Source.path
  distinct : (s.sources.map Source.path).Nodup
  held : ∀ source ∈ s.sources, Path.clean source.path = source.path ∧
    fs.read source.path = .ok source.text ∧ Loadable fs source.path
  closed : ∀ importer ∈ s.sources.map Source.path, ∀ path, Imports fs importer path →
    path ∈ s.seen
  ordered : ∀ importer ∈ s.sources.map Source.path, ∀ path, Imports fs importer path →
    Reaches fs path importer ∨ Before path importer (s.sources.map Source.path)

structure Grows (fs : Files) (path : Text) (s s' : State) : Prop where
  seen : s.seen ⊆ s'.seen
  sources : ∃ added, s'.sources = s.sources ++ added ∧
    ∀ source ∈ added, Reaches fs path source.path

theorem Grows.refl (fs : Files) (path : Text) (s : State) : Grows fs path s s :=
  ⟨List.Subset.refl _,[],by simp⟩

theorem Grows.trans {s'' : State} (h : Grows fs path s s') (h' : Grows fs path s' s'') :
    Grows fs path s s'' := by
  obtain ⟨added,hadded,hreach⟩ := h.sources
  obtain ⟨more,hmore,hreach'⟩ := h'.sources
  refine ⟨List.Subset.trans h.seen h'.seen,added ++ more,by rw [hmore,hadded,List.append_assoc],?_⟩
  intro source hsource
  rcases List.mem_append.mp hsource with hsource | hsource
  · exact hreach source hsource
  · exact hreach' source hsource

theorem Grows.from {other : Text} (h : Grows fs other s s') (hreach : Reaches fs path other) :
    Grows fs path s s' := by
  obtain ⟨added,hadded,hreached⟩ := h.sources
  exact ⟨h.seen,added,hadded,fun source hsource => hreach.trans (hreached source hsource)⟩

/-- How going through a file ends: it is met with all that it imports, or some file that it reaches
cannot be loaded. -/
def Ends (fs : Files) (stack : List Text) (path : Text) (done : State → Prop) (s : State) :
    Except Fault Unit × State → Prop
  | (.ok _,s') => Loaded fs stack s' ∧ Grows fs path s s' ∧ done s'
  | (.error fault,_) => fault ≠ .exhausted ∧ ∃ other, Reaches fs path other ∧ ¬ Loadable fs other

section Ends

variable {path other : Text} {done done' : State → Prop} {run : Except Fault Unit × State}

theorem Ends.imp (h : Ends fs stack other done s run) (hreach : Reaches fs path other)
    (himp : ∀ s', Grows fs path s s' → done s' → done' s') : Ends fs stack path done' s run := by
  rcases run with ⟨result,s'⟩
  cases result with
  | error fault =>
    obtain ⟨hreal,file,hfile,hbad⟩ := h
    exact ⟨hreal,file,hreach.trans hfile,hbad⟩
  | ok =>
    obtain ⟨hloaded,hgrows,hdone⟩ := h
    have hgrows' := hgrows.from hreach
    exact ⟨hloaded,hgrows',himp s' hgrows' hdone⟩

theorem Ends.bind (h : Ends fs stack path done s run) {more : State → Except Fault Unit × State}
    (hmore : ∀ s', Loaded fs stack s' → Grows fs path s s' → done s' →
      Ends fs stack path done' s' (more s')) :
    Ends fs stack path done' s (andThen run more) := by
  rcases run with ⟨result,s'⟩
  cases result with
  | error fault => exact h
  | ok =>
    obtain ⟨hloaded,hgrows,hdone⟩ := h
    have hrest := hmore s' hloaded hgrows hdone
    rw [andThen]
    rcases hrun : more s' with ⟨result,s''⟩
    rw [hrun] at hrest
    cases result with
    | error fault => exact hrest
    | ok => exact ⟨hrest.1,hgrows.trans hrest.2.1,hrest.2.2⟩

end Ends

def Met (path : Text) (s s' : State) : Prop :=
  path ∈ s'.seen ∧
    (path ∉ s.seen → ∃ before text, s'.sources = before ++ [⟨path,text⟩])

def Followed (path : Text) (directives : List Directive) (s : State) : Prop :=
  ∀ d ∈ directives, isImport d = true →
    ∃ argument, d.argument = some argument ∧ argument ≠ [] ∧ target path argument ∈ s.seen

theorem Loaded.enter (h : Loaded fs stack s) (hnew : path ∉ s.seen) :
    Loaded fs (path :: stack) (mark path s) := by
  have hfree : path ∉ stack ∧ path ∉ s.sources.map Source.path := by
    rwa [h.seen,not_or] at hnew
  refine ⟨fun other => ?_,?_,h.distinct,h.held,?_,h.ordered⟩
  · simp only [mark,List.mem_cons,h.seen other,or_assoc]
  · intro other hother
    rcases List.mem_cons.mp hother with rfl | hother
    · exact hfree.2
    · exact h.apart other hother
  · exact fun importer himporter other hother =>
      List.mem_cons_of_mem _ (h.closed importer himporter other hother)

theorem mem_paths_append {set : SourceSet} {other : Text} :
    other ∈ (set ++ [⟨path,text⟩] : SourceSet).map Source.path ↔
      other ∈ set.map Source.path ∨ other = path := by
  rw [List.map_append,List.mem_append,List.map_singleton,List.mem_singleton]

/-- A file is done once all that it imports has been met: each of these files is done, or it is on
the stack and reaches this one. -/
theorem Loaded.leave (h : Loaded fs (path :: stack) s) (hclean : Path.clean path = path)
    (hread : Reads fs path text doc) (hfollowed : Followed path doc.directives s)
    (hnew : path ∉ stack) (hstack : ∀ other ∈ path :: stack, Reaches fs other path) :
    Loaded fs stack { s with sources := s.sources ++ [⟨path,text⟩] } := by
  have hmet : ∀ other, Imports fs path other → other ∈ s.seen := by
    rintro other ⟨text',doc',hread',d,hd,himport,argument,hargument,rfl⟩
    obtain ⟨-,rfl⟩ := hread.eq hread'
    obtain ⟨argument',hargument',-,hseen⟩ := hfollowed d hd himport
    obtain rfl : argument = argument' := Option.some.inj (hargument.symm.trans hargument')
    exact hseen
  constructor
  case seen =>
    intro other
    rw [h.seen other,mem_paths_append,List.mem_cons]
    tauto
  case apart =>
    intro other hother hmem
    rcases mem_paths_append.mp hmem with hmem | rfl
    · exact h.apart other (List.mem_cons_of_mem _ hother) hmem
    · exact hnew hother
  case distinct =>
    rw [List.map_append]
    exact h.distinct.append (List.nodup_singleton _)
      (List.disjoint_singleton.mpr (h.apart path List.mem_cons_self))
  case held =>
    intro source hsource
    rcases List.mem_append.mp hsource with hsource | hsource
    · exact h.held source hsource
    · obtain rfl := List.mem_singleton.mp hsource
      refine ⟨hclean,hread.1,text,doc,hread,fun d hd himport => ?_⟩
      obtain ⟨argument,hargument,hne,-⟩ := hfollowed d hd himport
      exact ⟨argument,hargument,hne⟩
  case closed =>
    intro importer himporter other hother
    rcases mem_paths_append.mp himporter with himporter | rfl
    · exact h.closed importer himporter other hother
    · exact hmet other hother
  case ordered =>
    intro importer himporter other hother
    rw [List.map_append]
    rcases mem_paths_append.mp himporter with himporter | rfl
    · exact (h.ordered importer himporter other hother).imp_right fun hb => hb.append _
    · -- What is on the stack is not done yet, because this file is one that it leads to.
      rcases (h.seen other).mp (hmet other hother) with hother | hother
      · exact .inl (hstack other hother)
      · exact .inr ⟨_,[],rfl,hother⟩

theorem Ends.leave {run : Except Fault Unit × State} (hs : Loaded fs stack s)
    (hnew : path ∉ s.seen) (hclean : Path.clean path = path) (hread : Reads fs path text doc)
    (hstack : ∀ file ∈ path :: stack, Reaches fs file path)
    (h : Ends fs (path :: stack) path (Followed path doc.directives) (mark path s) run) :
    Ends fs stack path (Met path s) s
      (andThen run fun s' => (.ok (),{ s' with sources := s'.sources ++ [⟨path,text⟩] })) := by
  rcases run with ⟨result,s'⟩
  cases result with
  | error fault => exact h
  | ok =>
    obtain ⟨hloaded,hgrows,hfollowed⟩ := h
    obtain ⟨added,hadded,hreach⟩ := hgrows.sources
    have hmet : path ∈ s'.seen := hgrows.seen List.mem_cons_self
    have hfree : path ∉ stack := fun hmem => hnew ((hs.seen path).mpr (.inl hmem))
    refine ⟨hloaded.leave hclean hread hfollowed hfree hstack,⟨?_,?_⟩,hmet,fun _ => ⟨_,text,rfl⟩⟩
    · exact fun other hother => hgrows.seen (List.mem_cons_of_mem _ hother)
    · refine ⟨added ++ [⟨path,text⟩],by simp [hadded,mark],fun source hsource => ?_⟩
      rcases List.mem_append.mp hsource with hsource | hsource
      · exact hreach source hsource
      · obtain rfl := List.mem_singleton.mp hsource
        exact .refl

section Files

variable (hvisit : ∀ importer other s, unseen fs s < fuel → Loaded fs stack s →
  (∀ file ∈ stack, Reaches fs file (Path.clean other)) →
  Ends fs stack (Path.clean other) (Met (Path.clean other) s) s (visit fs fuel importer other s))

include hvisit

theorem follow_ends (hread : Reads fs path text doc) (hstack : ∀ file ∈ stack, Reaches fs file path)
    {d : Directive} (hd : d ∈ doc.directives) (hroom : unseen fs s < fuel)
    (hs : Loaded fs stack s) :
    Ends fs stack path (Followed path [d]) s (follow fs fuel path d s) := by
  rcases follow_cases fs path d with
    ⟨hother,hone⟩ | ⟨himport,⟨argument,hargument,hne,hone⟩ | ⟨hnone,hone⟩⟩
  · rw [hone]
    refine ⟨⟨hs.seen,hs.apart,hs.distinct,hs.held,hs.closed,hs.ordered⟩,
      ⟨List.Subset.refl _,[],by simp⟩,?_⟩
    simp [Followed,hother]
  · have himports : Imports fs path (target path argument) :=
      ⟨text,doc,hread,d,hd,himport,argument,hargument,rfl⟩
    have hends := hvisit (some path) (resolve path argument) s hroom hs
    rw [clean_resolve] at hends
    rw [hone]
    refine (hends fun file hfile => (hstack file hfile).tail himports).imp (.single himports) ?_
    exact fun s' _ hmet => List.forall_mem_singleton.mpr fun _ => ⟨argument,hargument,hne,hmet.1⟩
  · rw [hone]
    refine ⟨nofun,path,.refl,fun ⟨text',doc',hread',hall⟩ => ?_⟩
    obtain ⟨-,rfl⟩ := hread.eq hread'
    obtain ⟨argument,hargument,hne⟩ := hall d hd himport
    exact hne (hnone argument hargument)

theorem forM_ends (hread : Reads fs path text doc) (hstack : ∀ file ∈ stack, Reaches fs file path)
    {directives : List Directive} (hsub : directives ⊆ doc.directives)
    (hroom : directives = [] ∨ unseen fs s < fuel) (hs : Loaded fs stack s) :
    Ends fs stack path (Followed path directives) s
      (directives.forM (follow fs fuel path) s) := by
  induction directives generalizing s with
  | nil => exact ⟨hs,Grows.refl fs path s,by simp [Followed]⟩
  | cons d directives ih =>
    have hless := hroom.resolve_left (by simp)
    have hrest := List.Subset.trans (List.subset_cons_self d directives) hsub
    have hfirst := follow_ends hvisit hread hstack (hsub List.mem_cons_self) hless hs
    rw [forM_cons]
    refine hfirst.bind fun s' hs' hgrows hd => ?_
    have hless' := Nat.lt_of_le_of_lt (unseen_le hgrows.seen) hless
    refine (ih hrest (.inr hless') hs').imp .refl fun s'' hgrows' hdirectives => ?_
    refine List.forall_mem_cons.mpr ⟨fun himport => ?_,hdirectives⟩
    obtain ⟨argument,hargument,hne,hmet⟩ := hd d List.mem_cons_self himport
    exact ⟨argument,hargument,hne,hgrows'.seen hmet⟩

end Files

theorem visit_ends (hroom : unseen fs s < fuel) (hs : Loaded fs stack s)
    (hstack : ∀ file ∈ stack, Reaches fs file (Path.clean path)) :
    Ends fs stack (Path.clean path) (Met (Path.clean path) s) s
      (visit fs fuel importer path s) := by
  induction fuel generalizing importer path s stack with
  | zero => omega
  | succ fuel ih =>
    rcases visit_cases fs importer path s with
      ⟨hseen,hvisit⟩ | ⟨hnew,⟨hnone,fault,hreal,hvisit⟩ | ⟨text,doc,hread,hvisit⟩⟩
    · rw [hvisit]
      exact ⟨hs,Grows.refl fs _ s,hseen,fun hnew => absurd hseen hnew⟩
    · rw [hvisit]
      exact ⟨hreal,_,.refl,fun ⟨text,doc,hread,_⟩ => hnone ⟨text,doc,hread⟩⟩
    · -- While its directives are followed the file is on the stack itself, and reaches itself.
      have hstack' : ∀ file ∈ Path.clean path :: stack, Reaches fs file (Path.clean path) :=
        List.forall_mem_cons.mpr ⟨.refl,hstack⟩
      have hends := forM_ends (fun _ _ _ => ih) hread hstack' (List.Subset.refl _)
        (unseen_inside hnew hread hroom) (hs.enter hnew)
      rw [hvisit]
      exact Ends.leave hs hnew (Path.clean_clean path) hread hstack' hends

def start : State := ⟨[],[],[]⟩

theorem sources_ok (hrun : visit fs (fs.entries.length + 3) none path start = (.ok (),s)) :
    sources fs path = (.ok s.sources,s.log) := by
  have hstart : (visit fs (fs.entries.length + 3) none path).run.run ⟨[],[],[]⟩ = (.ok (),s) := hrun
  rw [sources,hstart]

theorem sources_error {fault : Fault}
    (hrun : visit fs (fs.entries.length + 3) none path start = (.error fault,s)) :
    sources fs path = (.error fault,s.log) := by
  have hstart : (visit fs (fs.entries.length + 3) none path).run.run ⟨[],[],[]⟩ =
    (.error fault,s) := hrun
  rw [sources,hstart]

theorem loaded_start (fs : Files) : Loaded fs [] start :=
  ⟨by simp [start],by simp,by simp [start],by simp [start],by simp [start],by simp [start]⟩

theorem unseen_start (fs : Files) : unseen fs start < fs.entries.length + 3 :=
  Nat.lt_succ_of_le (unseen_le_length fs start)

theorem sources_cases (fs : Files) (path : Text) :
    (∃ s, sources fs path = (.ok s.sources,s.log) ∧ Loaded fs [] s ∧
      Grows fs (Path.clean path) start s ∧ Met (Path.clean path) start s) ∨
    (∃ fault log, sources fs path = (.error fault,log) ∧ fault ≠ .exhausted) ∧
      ∃ other, Reaches fs (Path.clean path) other ∧ ¬ Loadable fs other := by
  have hends : Ends fs [] (Path.clean path) (Met (Path.clean path) start) start
      (visit fs (fs.entries.length + 3) none path start) :=
    visit_ends (unseen_start fs) (loaded_start fs) (by simp)
  rcases hrun : visit fs (fs.entries.length + 3) none path start with ⟨result,s⟩
  rw [hrun] at hends
  cases result with
  | error fault => exact .inr ⟨⟨fault,s.log,sources_error hrun,hends.1⟩,hends.2⟩
  | ok => exact .inl ⟨s,sources_ok hrun,hends⟩

theorem Loaded.reached (h : Loaded fs [] s) {other : Text} (hreach : Reaches fs path other)
    (hpath : path ∈ s.seen) : other ∈ s.sources.map Source.path := by
  have hdone : ∀ {file}, file ∈ s.seen → file ∈ s.sources.map Source.path := fun hfile =>
    ((h.seen _).mp hfile).resolve_left (by simp)
  induction hreach with
  | refl => exact hdone hpath
  | tail _ himports ih => exact hdone (h.closed _ ih _ himports)

/-- Loading has an end, as no bound is reached that exceeds the number of files by three: a larger
one changes nothing, and no run reports that it has used up its own. It goes well exactly if all
files that the first one reaches through imports can be loaded. Then these files are what is loaded,
each of them once and with what it holds, the first one last, and each behind all that it imports
except for files that reach it in turn. -/
theorem sources_ordered (fs : Files) (path : Text) :
    (∀ more, visit fs (fs.entries.length + 3 + more) none path start =
      visit fs (fs.entries.length + 3) none path start) ∧
    (∀ fault log, sources fs path = (.error fault,log) → fault ≠ .exhausted) ∧
    ((∃ set log, sources fs path = (.ok set,log)) ↔
      ∀ other, Reaches fs (Path.clean path) other → Loadable fs other) ∧
    ∀ set log, sources fs path = (.ok set,log) →
      (set.map fun source => Path.clean source.path).Nodup ∧
      (∃ before text, set = before ++ [⟨Path.clean path,text⟩]) ∧
      (∀ source, source ∈ set ↔ Reaches fs (Path.clean path) source.path ∧
        fs.read source.path = .ok source.text) ∧
      ∀ importer other, Reaches fs (Path.clean path) importer → Imports fs importer other →
        ¬ Reaches fs other importer → Before other importer (set.map Source.path) := by
  refine ⟨fun more => visit_enough more (unseen_start fs),fun fault log hrun => ?_,?_,?_⟩
  · rcases sources_cases fs path with ⟨s,hrun',-⟩ | ⟨⟨other,log',hrun',hreal⟩,-⟩
    · cases hrun'.symm.trans hrun
    · cases hrun'.symm.trans hrun
      exact hreal
  · rcases sources_cases fs path with
      ⟨s,hrun,hloaded,-,hmet⟩ | ⟨⟨fault,log,hrun,-⟩,other,hreach,hbad⟩
    · refine ⟨fun _ other hreach => ?_,fun _ => ⟨_,_,hrun⟩⟩
      obtain ⟨source,hsource,rfl⟩ := List.mem_map.mp (hloaded.reached hreach hmet.1)
      exact (hloaded.held source hsource).2.2
    · refine ⟨fun ⟨set,log',hrun'⟩ => ?_,fun hall => absurd (hall other hreach) hbad⟩
      cases hrun.symm.trans hrun'
  · intro set log hrun
    rcases sources_cases fs path with ⟨s,hrun',hloaded,hgrows,hmet⟩ | ⟨⟨fault,log,hrun',-⟩,-⟩
    swap
    · cases hrun'.symm.trans hrun
    obtain ⟨rfl,rfl⟩ : s.sources = set ∧ s.log = log := by
      cases hrun'.symm.trans hrun
      exact ⟨rfl,rfl⟩
    obtain ⟨added,hadded,hreached⟩ := hgrows.sources
    have hclean : (s.sources.map fun source => Path.clean source.path) =
        s.sources.map Source.path :=
      List.map_congr_left fun source hsource => (hloaded.held source hsource).1
    refine ⟨hclean ▸ hloaded.distinct,hmet.2 (by simp [start]),fun source => ⟨?_,?_⟩,?_⟩
    · intro hsource
      have hmem : source ∈ added := by
        rw [hadded] at hsource
        simpa [start] using hsource
      exact ⟨hreached source hmem,(hloaded.held source hsource).2.1⟩
    · rintro ⟨hreach,hread⟩
      obtain ⟨held,hheld,hsame⟩ := List.mem_map.mp (hloaded.reached hreach hmet.1)
      have htext := (hloaded.held held hheld).2.1
      rw [hsame,hread] at htext
      obtain rfl : held = source := congrArg₂ Source.mk hsame (Except.ok.inj htext).symm
      exact hheld
    · intro importer other hreach himports hback
      exact (hloaded.ordered importer (hloaded.reached hreach hmet.1) other himports).resolve_left
        hback

/-- Two files that import each other, and one that both of them and it itself import. -/
def circle : Files := Files.ofList
  [("a.steamd","#import \"lib/b.steamd\"\n#import \"lib/c.steamd\""),
    ("lib/b.steamd","#import \"../a.steamd\"\n#import \"c.steamd\""),
    ("lib/c.steamd","#import \"./c.steamd\"")]

theorem circle_ordered :
    ∃ set log, sources circle "x/../a.steamd" = (.ok set,log) ∧
      set.map Source.path =
        ["lib/c.steamd","lib/b.steamd","a.steamd"].map Text.ofString ∧
      Before "lib/c.steamd" "lib/b.steamd" (set.map Source.path) := by
  obtain ⟨set,hset⟩ : ∃ set, (sources circle "x/../a.steamd").1 = .ok set :=
    Result.exists_of_isOk (by decide +kernel)
  have hrun : sources circle "x/../a.steamd" = (.ok set,(sources circle "x/../a.steamd").2) :=
    Prod.ext hset rfl
  have hpaths : (sources circle "x/../a.steamd").1.toOption.map (·.map Source.path) =
      some (["lib/c.steamd","lib/b.steamd","a.steamd"].map Text.ofString) := by decide +kernel
  rw [hset] at hpaths
  refine ⟨set,_,hrun,Option.some.inj hpaths,?_⟩
  have hreach : Reaches circle (Path.clean "x/../a.steamd") (Text.ofString "lib/b.steamd") :=
    .single (show Imports circle _ _ by decide +kernel)
  have himports : Imports circle "lib/b.steamd" "lib/c.steamd" := by decide +kernel
  have hown : imported circle "lib/c.steamd" = [Text.ofString "lib/c.steamd"] := by
    decide +kernel
  have hstays : ∀ other, Reaches circle "lib/c.steamd" other →
      other = Text.ofString "lib/c.steamd" := by
    intro other hreach
    induction hreach with
    | refl => rfl
    | tail _ himports ih =>
      rw [ih,imports_iff,hown] at himports
      exact List.mem_singleton.mp himports
  exact ((sources_ordered circle "x/../a.steamd").2.2.2 set _ hrun).2.2.2 _ _ hreach himports
    fun hback => absurd (hstays _ hback) (by decide)

end WireSchema.Load
