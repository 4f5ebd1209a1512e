import WireSchema.Proofs.Basic
import WireSchema.Proofs.Text.Path
set_option autoImplicit false

/-!
What cleaning a path comes to: plain names, behind references to the directory above if the path
does not start at the root. The clean path spells exactly these, so it stays as it is, and of a path
that goes on behind a slash the front may be cleaned first.
-/

namespace WireSchema.Path

variable {rooted : Bool}

/-- What the components so far can be, the latest ones first. -/
inductive Settled (rooted : Bool) : List Text → Prop
  | nil : Settled rooted []
  | above {done : List Text} (hrooted : rooted = false) (hdone : Settled rooted done)
    (hall : ∀ name ∈ done, name = Text.ofString "..") : Settled rooted (Text.ofString ".." :: done)
  | plain {name : Text} {done : List Text} (hname : Plain name) (hdone : Settled rooted done) :
    Settled rooted (name :: done)

theorem Settled.step {done : List Text} (h : Settled rooted done) {component : Text}
    (hflat : slash ∉ component) : Settled rooted (step rooted done component) := by
  unfold Path.step
  split
  · exact h
  rename_i hnone
  simp only [Bool.or_eq_true,List.isEmpty_iff,beq_iff_eq,not_or] at hnone
  split
  · rename_i habove
    obtain rfl : component = Text.ofString ".." := by simpa using habove
    cases h with
    | nil =>
      cases rooted with
      | true => exact .nil
      | false => exact .above rfl .nil (by simp)
    | @above done hrooted hdone hall =>
      exact .above hrooted (.above hrooted hdone hall) (by simpa using hall)
    | plain hname hdone =>
      -- A name is taken back by the reference to the directory above it.
      simpa [hname.notAbove] using hdone
  · rename_i habove
    exact .plain ⟨hnone.1,hflat,hnone.2,by simpa using habove⟩ h

theorem settled_components (path : Text) : Settled (isRooted path) (components path).reverse := by
  have hfold : ∀ (pieces done : List Text), (∀ piece ∈ pieces, slash ∉ piece) →
      Settled (isRooted path) done →
      Settled (isRooted path) (pieces.foldl (Path.step (isRooted path)) done) := by
    intro pieces
    induction pieces with
    | nil => exact fun done _ h => h
    | cons piece pieces ih =>
      intro done hflat h
      exact ih _ (fun name hname => hflat name (List.mem_cons_of_mem _ hname))
        (h.step (hflat piece List.mem_cons_self))
  rw [components,List.reverse_reverse]
  exact hfold _ _ (fun _ => Text.not_mem_of_mem_splitOn) .nil

theorem step_above {done : List Text} (hrooted : rooted = false)
    (hall : ∀ name ∈ done, name = Text.ofString "..") :
    step rooted done (Text.ofString "..") = Text.ofString ".." :: done := by
  have hkept : ((Text.ofString "..").isEmpty || Text.ofString ".." == Text.ofString ".") = false :=
    by decide
  cases done with
  | nil => simp [step,hkept,hrooted]
  | cons last before =>
    obtain rfl := hall last List.mem_cons_self
    simp [step,hkept]

theorem Settled.foldl {done : List Text} (h : Settled rooted done) :
    done.reverse.foldl (Path.step rooted) [] = done := by
  induction h with
  | nil => rfl
  | @above done hrooted _ hall ih =>
    rw [List.reverse_cons,List.foldl_append,ih]
    exact step_above hrooted hall
  | @plain name done hname _ ih =>
    rw [List.reverse_cons,List.foldl_append,ih]
    exact step_plain hname rooted done

theorem Settled.spelled {done : List Text} (h : Settled rooted done) :
    ∀ name ∈ done, name ≠ [] ∧ slash ∉ name ∧ name ≠ Text.ofString "." := by
  induction h with
  | nil => simp
  | above _ _ _ ih => exact List.forall_mem_cons.mpr ⟨by decide,ih⟩
  | plain hname _ ih =>
    exact List.forall_mem_cons.mpr ⟨⟨hname.nonempty,hname.flat,hname.notHere⟩,ih⟩

def spell (rooted : Bool) (names : List Text) : Text :=
  let body := Text.join [slash] names
  if rooted then slash :: body else if body.isEmpty then "." else body

theorem clean_eq_spell (path : Text) : clean path = spell (isRooted path) (components path) := rfl

def names (path : Text) : List Text :=
  (Text.splitOn slash path).filter fun name => !(name.isEmpty || name == Text.ofString ".")

theorem isRooted_append_of_ne_nil {front : Text} (h : front ≠ []) (back : Text) :
    isRooted (front ++ back) = isRooted front := by
  cases front with
  | nil => exact absurd rfl h
  | cons c front => rfl

theorem isRooted_join {name : Text} (hname : name ≠ []) (hflat : slash ∉ name) (rest : List Text) :
    isRooted (Text.join [slash] (name :: rest)) = false := by
  obtain ⟨more,hmore⟩ := Text.join_eq_append [slash] name rest
  rw [hmore,isRooted_append_of_ne_nil hname]
  cases name with
  | nil => exact absurd rfl hname
  | cons c name => simpa [isRooted] using fun heq : c = slash => hflat (by simp [heq])

theorem Settled.splitOn_spell {names : List Text} (h : Settled rooted names.reverse) :
    isRooted (spell rooted names) = rooted ∧
      Text.splitOn slash (spell rooted names) =
        if names = [] then if rooted then [[],[]] else [Text.ofString "."]
        else if rooted then [] :: names else names := by
  have hspelled := h.spelled
  simp only [List.mem_reverse] at hspelled
  cases names with
  | nil => cases rooted <;> decide
  | cons name rest =>
    have hsplit : Text.splitOn slash (Text.join [slash] (name :: rest)) = name :: rest :=
      Text.splitOn_join (by simp) fun name hname => (hspelled name hname).2.1
    obtain ⟨hne,hflat,-⟩ := hspelled name List.mem_cons_self
    cases rooted with
    | true => simp [spell,isRooted,Text.splitOn,hsplit]
    | false =>
      have hbody : (Text.join [slash] (name :: rest)).isEmpty = false := by
        obtain ⟨more,hmore⟩ := Text.join_eq_append [slash] name rest
        simp [hmore,hne]
      simp [spell,hbody,isRooted_join hne hflat,hsplit]

theorem Settled.names_spell {names : List Text} (h : Settled rooted names.reverse) :
    Path.names (spell rooted names) = names := by
  have hkept : names.filter (fun name => !(name.isEmpty || name == Text.ofString ".")) = names := by
    refine List.filter_eq_self.mpr fun name hname => ?_
    obtain ⟨hne,-,hhere⟩ := h.spelled name (List.mem_reverse.mpr hname)
    simp [hne,hhere]
  rw [Path.names,h.splitOn_spell.2]
  cases names with
  | nil => cases rooted <;> decide
  | cons name rest => cases rooted <;> simpa using hkept

theorem Settled.components_spell {names : List Text} (h : Settled rooted names.reverse) :
    components (spell rooted names) = names := by
  have hfold : names.foldl (Path.step rooted) [] = names.reverse := by simpa using h.foldl
  obtain ⟨hrooted,hsplit⟩ := h.splitOn_spell
  rw [components,hrooted,hsplit]
  cases names with
  | nil => cases rooted <;> decide
  | cons name rest =>
    have hempty : Path.step rooted [] [] = [] := by simp [Path.step]
    cases rooted with
    | true =>
      rw [if_neg (by simp),if_pos rfl,List.foldl_cons,hempty,hfold,List.reverse_reverse]
    | false => rw [if_neg (by simp),if_neg (by simp),hfold,List.reverse_reverse]

@[simp] theorem isRooted_clean (path : Text) : isRooted (clean path) = isRooted path :=
  (settled_components path).splitOn_spell.1

@[simp] theorem components_clean (path : Text) : components (clean path) = components path :=
  (settled_components path).components_spell

theorem names_clean (path : Text) : names (clean path) = components path :=
  (settled_components path).names_spell

@[simp] theorem clean_clean (path : Text) : clean (clean path) = clean path := by
  rw [clean_eq_spell,isRooted_clean,components_clean,← clean_eq_spell]

theorem clean_eq_iff {path other : Text} :
    clean path = clean other ↔
      isRooted path = isRooted other ∧ components path = components other := by
  constructor
  · intro h
    rw [← isRooted_clean path,← components_clean path,h]
    exact ⟨isRooted_clean other,components_clean other⟩
  · rintro ⟨hrooted,hcomponents⟩
    rw [clean_eq_spell,clean_eq_spell,hrooted,hcomponents]

theorem clean_ne_nil (path : Text) : clean path ≠ [] := by
  simp only [clean]
  split
  · simp
  split
  · decide
  · rename_i hbody
    simpa using hbody

theorem components_append_cons (front back : Text) (hfront : front ≠ []) :
    components (front ++ slash :: back) = ((Text.splitOn slash back).foldl (step (isRooted front))
      (components front).reverse).reverse := by
  rw [components,isRooted_append_of_ne_nil hfront,Text.splitOn_append_cons,List.foldl_append,
    components,List.reverse_reverse]

theorem components_append_slash (dir back : Text) :
    components (dir ++ slash :: back) =
      ((Text.splitOn slash back).foldl (step (isRooted (dir ++ [slash])))
        (components (dir ++ [slash])).reverse).reverse := by
  have hrooted : isRooted (dir ++ slash :: back) = isRooted (dir ++ [slash]) := by
    cases dir <;> rfl
  have hnone : ∀ done, step (isRooted (dir ++ [slash])) done [] = done := fun _ => rfl
  simp only [components,hrooted,Text.splitOn_append_cons,List.foldl_append,List.reverse_reverse]
  simp only [Text.splitOn,List.foldl_cons,List.foldl_nil,hnone]

theorem clean_behind {front : Text} (h : Opens front) {back : Text}
    (hback : isRooted back = false) :
    clean (clean front ++ slash :: back) = clean (front ++ back) := by
  rw [clean_eq_iff,isRooted_append_of_ne_nil (clean_ne_nil front),isRooted_clean,
    components_append_cons _ _ (clean_ne_nil front),isRooted_clean,components_clean]
  rcases h with rfl | ⟨dir,rfl⟩
  · have hnone : components [] = [] := by decide
    rw [List.nil_append,hnone,components,hback]
    exact ⟨rfl,rfl⟩
  · have hne : dir ++ [slash] ≠ [] := by simp
    have hfront : dir ++ [slash] ++ back = dir ++ slash :: back := by simp
    rw [isRooted_append_of_ne_nil hne,hfront,components_append_slash dir back]
    exact ⟨rfl,rfl⟩

theorem opens_split (path : Text) : Opens (split path).1 := by
  have hpath : path = (path.reverse.dropWhile (· != slash)).reverse ++
      (path.reverse.takeWhile (· != slash)).reverse := by
    rw [← List.reverse_append,List.takeWhile_append_dropWhile,List.reverse_reverse]
  have hfront : (split path).1 = (path.reverse.dropWhile (· != slash)).reverse := by
    have hlength := congrArg List.length hpath
    rw [List.length_append] at hlength
    exact (congrArg (List.take _) hpath).trans (List.take_left' (by omega))
  rw [hfront]
  cases hrest : path.reverse.dropWhile (· != slash) with
  | nil => exact .inl rfl
  | cons c rest =>
    have hc := List.head?_dropWhile_not (· != slash) path.reverse
    simp only [hrest,List.head?_cons] at hc
    obtain rfl : c = slash := by simpa using hc
    exact .inr ⟨rest.reverse,by simp⟩

theorem foldl_step_plain {names : List Text} (h : ∀ name ∈ names, Plain name) (rooted : Bool)
    (done : List Text) : names.foldl (step rooted) done = names.reverse ++ done := by
  induction names generalizing done with
  | nil => rfl
  | cons name names ih =>
    rw [List.foldl_cons,step_plain (h name List.mem_cons_self),
      ih fun other hother => h other (List.mem_cons_of_mem _ hother)]
    simp

theorem join_names (root : Text) {names : List Text} (hnames : names ≠ [])
    (hplain : ∀ name ∈ names, Plain name) :
    clean (join (root :: names)) = join (root :: names) ∧
      isRooted (join (root :: names)) = isRooted root ∧
      components (join (root :: names)) = components root ++ names := by
  have hsplit : Text.splitOn slash (Text.join [slash] names) = names :=
    Text.splitOn_join hnames fun name hname => (hplain name hname).flat
  obtain ⟨name,rest,rfl⟩ := List.exists_cons_of_ne_nil hnames
  have hfirst := hplain name List.mem_cons_self
  cases root with
  | nil =>
    have hjoin : join ([] :: name :: rest) = clean (Text.join [slash] (name :: rest)) := by
      simp [join,hfirst.nonempty]
    have hrooted := isRooted_join hfirst.nonempty hfirst.flat rest
    rw [hjoin,clean_clean,isRooted_clean,components_clean,hrooted,components,hsplit,hrooted,
      foldl_step_plain hplain]
    simp [isRooted,components,Text.splitOn,step]
  | cons c root =>
    have hjoin : join ((c :: root) :: name :: rest) =
        clean ((c :: root) ++ slash :: Text.join [slash] (name :: rest)) := by
      simp [join,Text.join]
    rw [hjoin,clean_clean,isRooted_clean,components_clean,components_append_cons _ _ (by simp),
      hsplit,foldl_step_plain hplain]
    simp [isRooted]

theorem split_spell (before : List Text) {name : Text} (hname : name ≠ []) (hflat : slash ∉ name) :
    (split (spell rooted (before ++ [name]))).2 = name := by
  have hopens := opens_flatMap before
  have hbody : Text.join [slash] (before ++ [name]) = before.flatMap (· ++ [slash]) ++ name :=
    Text.join_append [slash] name before
  cases rooted with
  | true =>
    have hpath : spell true (before ++ [name]) =
        (slash :: before.flatMap (· ++ [slash])) ++ name := by simp [spell,hbody]
    rw [hpath,split_append hopens.cons hflat]
  | false =>
    have hpath : spell false (before ++ [name]) = before.flatMap (· ++ [slash]) ++ name := by
      simp [spell,hbody,hname]
    rw [hpath,split_append hopens hflat]

theorem split_join (root : Text) (names : List Text) {name : Text}
    (hplain : ∀ other ∈ names ++ [name], Plain other) :
    (split (join (root :: (names ++ [name])))).2 = name := by
  obtain ⟨hclean,-,hcomponents⟩ := join_names root (by simp) hplain
  have hname := hplain name (by simp)
  rw [← hclean,clean_eq_spell,hcomponents,← List.append_assoc]
  exact split_spell _ hname.nonempty hname.flat

end WireSchema.Path

namespace WireSchema.Files

open WireSchema.Path (Plain)

theorem key_mem_of_get? {fs : Files} {path content : Text} (h : fs.get? path = some content) :
    key path ∈ fs.entries.map Prod.fst :=
  List.mem_map.mpr ⟨_,mem_of_lookup h,rfl⟩

theorem key_join (root : Text) {names : List Text} (hnames : names ≠ [])
    (hplain : ∀ name ∈ names, Plain name) :
    key (Path.join (root :: names)) = Path.join (root :: names) := by
  obtain ⟨hclean,-,hcomponents⟩ := Path.join_names root hnames hplain
  obtain ⟨name,hmem⟩ := List.exists_mem_of_ne_nil names hnames
  -- Only two paths are kept under another one, the root, and neither spells a plain name.
  have hother : ∀ short : Text, name ∉ Path.components short →
      Path.join (root :: names) ≠ short := by
    rintro short hnone rfl
    exact hnone (by simp [hcomponents,hmem])
  have hhere : Path.components (Text.ofString ".") = [] := by decide
  have habove : Path.components (Text.ofString "..") = [Text.ofString ".."] := by decide
  have h₁ := hother (Text.ofString ".") (by simp [hhere])
  have h₂ := hother (Text.ofString "..") (by simpa [habove] using (hplain name hmem).notAbove)
  simp [key,hclean,h₁,h₂]

end WireSchema.Files
