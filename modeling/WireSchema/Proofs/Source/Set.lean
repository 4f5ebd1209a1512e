import WireSchema.Source.Set
import WireSchema.Proofs.Document.Moved
set_option autoImplicit false

/-!
Reading several sources as one text is reading each of them on its own: the same sources are
refused, and the declarations are those of the single documents, each moved to where its source
starts. An offset of an identifier leads back to the source and the position that it was read at.
-/

namespace WireSchema.SourceSet

open Placed (shift idents)
open Document.Grammar (Derives documentOf moved Room)

theorem checkEach_ok {set : SourceSet} :
    checkEach set = .ok () ↔ ∀ s ∈ set, ∃ d, Document.parse s.text = .ok d := by
  induction set with
  | nil => simp [checkEach]
  | cons s rest ih =>
    rw [checkEach]
    cases h : Document.parse s.text with
    | error fault => simp [h]
    | ok d => simp [h,ih]

theorem checkEach_error {set : SourceSet} {e : Located Document.Fault} :
    checkEach set = .error e ↔ ∃ front s back fault, set = front ++ s :: back ∧
      (∀ f ∈ front, ∃ d, Document.parse f.text = .ok d) ∧
        Document.parse s.text = .error fault ∧
          e = ⟨s.path,.ofOffset s.text fault.span.start,fault⟩ := by
  induction set with
  | nil => simp [checkEach]
  | cons s rest ih =>
    rw [checkEach]
    cases h : Document.parse s.text with
    | error fault =>
      constructor
      · intro he
        cases he
        exact ⟨[],s,rest,fault,rfl,by simp,h,rfl⟩
      · rintro ⟨front,s',back,fault',hset,hfront,hs',rfl⟩
        cases front with
        | nil =>
          cases hset
          rw [h] at hs'
          cases hs'
          rfl
        | cons f front =>
          cases hset
          obtain ⟨d,hd⟩ := hfront s (by simp)
          simp [h] at hd
    | ok d =>
      rw [ih]
      constructor
      · rintro ⟨front,s',back,fault,rfl,hfront,hs',rfl⟩
        exact ⟨s :: front,s',back,fault,rfl,by simpa [h] using hfront,hs',rfl⟩
      · rintro ⟨front,s',back,fault,hset,hfront,hs',rfl⟩
        cases front with
        | nil =>
          cases hset
          simp [h] at hs'
        | cons f front =>
          cases hset
          exact ⟨front,s',back,fault,rfl,fun f hf => hfront f (by simp [hf]),hs',rfl⟩

theorem text_cons (s : Source) (rest : SourceSet) :
    text (s :: rest) = s.text ++ Text.newline :: text rest := by
  simp [text]

theorem length_text (set : SourceSet) :
    (text set).length = (set.map fun s => s.text.length).sum + set.length := by
  induction set with
  | nil => rfl
  | cons s rest ih =>
    rw [text_cons]
    simp only [List.length_append,List.length_cons,List.map_cons,List.sum_cons,ih]
    omega

theorem toNat_toUInt32 {base : Nat} (h : base < 2 ^ 32) : base.toUInt32.toNat = base := by
  have hadd : (0 + base.toUInt32).toNat = (0 : UInt32).toNat + base :=
    Token.toNat_add_toUInt32 (by simpa using h)
  simpa using hadd

section Starts

variable {start : UInt32} {s : Source}

theorem starts_within {base : Nat} {set : SourceSet} (hsize : base + (text set).length < 2 ^ 32)
    (h : (start,s) ∈ starts base set) :
    base ≤ start.toNat ∧ start.toNat + s.text.length < base + (text set).length := by
  induction set generalizing base with
  | nil => simp [starts] at h
  | cons t rest ih =>
    rw [text_cons] at hsize ⊢
    simp only [List.length_append,List.length_cons] at hsize ⊢
    rcases List.mem_cons.mp h with h | h
    · cases h
      rw [toNat_toUInt32 (by omega)]
      omega
    · have hrest := ih (by omega) h
      omega

theorem find_start {base : Nat} {set : SourceSet} (hsize : base + (text set).length < 2 ^ 32)
    (h : (start,s) ∈ starts base set) {x : UInt32} (hx : x.toNat ≤ s.text.length) :
    (starts base set).reverse.find? (fun e => decide (e.1 ≤ x + start)) = some (start,s) := by
  induction set generalizing base with
  | nil => simp [starts] at h
  | cons t rest ih =>
    rw [text_cons] at hsize
    simp only [List.length_append,List.length_cons] at hsize
    rw [starts,List.reverse_cons,List.find?_append]
    rcases List.mem_cons.mp h with h | h
    · cases h
      have hstart : base.toUInt32.toNat = base := toNat_toUInt32 (by omega)
      have hoffset : (x + base.toUInt32).toNat = x.toNat + base :=
        Token.toNat_add_toUInt32 (by omega)
      -- The sources behind start after the offset, so the last that does not is this one.
      have hnone : (starts (base + s.text.length + 1) rest).reverse.find?
          (fun e => decide (e.1 ≤ x + base.toUInt32)) = none := by
        rw [List.find?_eq_none]
        intro e he
        have hge := (starts_within (by omega) (List.mem_reverse.mp he)).1
        simp only [decide_eq_true_eq,UInt32.le_iff_toNat_le,hoffset]
        omega
      have hle : base.toUInt32 ≤ x + base.toUInt32 := by
        rw [UInt32.le_iff_toNat_le,hoffset,hstart]
        omega
      simp [hnone,hle]
    · rw [ih (by omega) h]
      rfl

theorem locate_within {set : SourceSet} (hsize : (text set).length < 2 ^ 32)
    (h : (start,s) ∈ starts 0 set) {x : UInt32} (hx : x.toNat ≤ s.text.length) :
    locate set (x + start) = (s.path,.ofOffset s.text x) := by
  have hfind := find_start (by simpa using hsize) h hx
  have hback : x + start - start = x := by grind
  unfold locate
  split
  · rename_i hfound
    cases hfind.symm.trans hfound
    rw [hback]
  · rename_i hfound
    cases hfind.symm.trans hfound

theorem locate_start {set : SourceSet} (hsize : (text set).length < 2 ^ 32)
    (h : (start,s) ∈ starts 0 set) {x : UInt32} (hx : x.toNat < s.text.length) :
    locate set (x + start) = (s.path,.ofOffset s.text x) :=
  locate_within hsize h hx.le

end Starts

/-- The parts of each source, moved to where the source starts. -/
def gather {α : Type} [Placed α] (base : Nat) (set : SourceSet) (lists : List (List α)) : List α :=
  ((starts base set).zip lists).flatMap fun (source,list) => shift source.1 list

def tokens (base : Nat) : SourceSet → List Token
  | [] => []
  | s :: rest =>
    moved base.toUInt32 (tokens (base + s.text.length + 1) rest) (Token.ofSource s.text)

theorem tokens_text (base : Nat) (set : SourceSet) :
    (Token.ofSource (text set)).map (Token.shift base.toUInt32) = tokens base set := by
  induction set generalizing base with
  | nil => simp [text,tokens,Token.ofSource,Token.scan]
  | cons s rest ih =>
    have hshift (t : Token) :
        Token.shift base.toUInt32 (Token.shift (s.text.length + 1).toUInt32 t) =
          Token.shift (base + s.text.length + 1).toUInt32 t := by
      have hsum : s.text.length + 1 + base = base + s.text.length + 1 := by omega
      simp only [Token.shift,Token.add_toUInt32,hsum]
    rw [text_cons,Token.ofSource_newline,tokens,moved,← ih,List.map_append,List.map_map]
    exact congrArg _ (List.map_congr_left fun t _ => hshift t)

theorem room_ofSource {src : Text} (h : src.length < 2 ^ 32) :
    Room src.length (Token.ofSource src) :=
  fun _ ht => Token.ofSource_within h ht

theorem derives_tokens (base : Nat) {set : SourceSet} {lists : List (List Document.Parser.Item)}
    (hsize : base + (text set).length < 2 ^ 32)
    (h : List.Forall₂ (fun s items => Derives (Token.ofSource s.text) items) set lists) :
    Derives (tokens base set) (gather base set lists) := by
  induction h generalizing base with
  | nil => exact .nil rfl
  | @cons s items rest lists hs _ ih =>
    rw [text_cons] at hsize
    simp only [List.length_append,List.length_cons] at hsize
    have hback := ih (base + s.text.length + 1) (by omega)
    have hk : s.text.length + base.toUInt32.toNat < 2 ^ 32 := by
      rw [toNat_toUInt32 (by omega)]
      omega
    exact Document.Grammar.derives_moved hk (room_ofSource (by omega)) hs hback

theorem ofSource_text (set : SourceSet) : Token.ofSource (text set) = tokens 0 set := by
  have hid : Token.shift (Nat.toUInt32 0) = id := by
    funext t
    simp [Token.shift]
  have h := tokens_text 0 set
  rwa [hid,List.map_id] at h

theorem parse_iff_derives {src : Text} {d : Document} : Document.parse src = .ok d ↔
    ∃ items, Derives (Token.ofSource src) items ∧ d = documentOf (Token.ofSource src) items :=
  Document.Grammar.ofTokens_iff_derives (Document.ofSource_kinds src)

theorem filterMap_gather {α : Type} [Placed α] {pick : Document.Parser.Item → Option α}
    (hpick : ∀ k i, pick (shift k i) = (pick i).map (shift k)) (base : Nat) (set : SourceSet)
    (lists : List (List Document.Parser.Item)) :
    (gather base set lists).filterMap pick = gather base set (lists.map (List.filterMap pick)) := by
  have hshift (k : UInt32) (items : List Document.Parser.Item) :
      (shift k items).filterMap pick = shift k (items.filterMap pick) := by
    change (items.map (shift k)).filterMap pick = (items.filterMap pick).map (shift k)
    rw [List.filterMap_map,List.map_filterMap]
    congr 1
    funext i
    exact hpick k i
  simp [gather,List.filterMap_flatMap,List.zip_map_right,List.flatMap_map,hshift]

theorem idents_decls {items : List Document.Parser.Item} {i : Ident}
    (h : i ∈ idents (items.filterMap Document.Parser.Item.decl?)) : i ∈ idents items := by
  obtain ⟨d,hd,hi⟩ := List.mem_flatMap.mp h
  obtain ⟨item,hitem,hdecl⟩ := List.mem_filterMap.mp hd
  refine List.mem_flatMap.mpr ⟨item,hitem,?_⟩
  cases item with
  | directive _ => simp [Document.Parser.Item.decl?] at hdecl
  | decl d' =>
    cases hdecl
    exact hi

theorem parse_text {set : SourceSet} (hsize : (text set).length < 2 ^ 32)
    (h : ∀ s ∈ set, ∃ d, Document.parse s.text = .ok d) :
    ∃ doc docs, Document.parse (text set) = .ok doc ∧
      List.Forall₂ (fun s d => Document.parse s.text = .ok d) set docs ∧
        doc.directives = gather 0 set (docs.map Document.directives) ∧
          doc.decls = gather 0 set (docs.map Document.decls) := by
  obtain ⟨docs,lists,hdocs,hlists,hdirectives,hdecls⟩ : ∃ docs lists,
      List.Forall₂ (fun s d => Document.parse s.text = .ok d) set docs ∧
      List.Forall₂ (fun s items => Derives (Token.ofSource s.text) items) set lists ∧
      docs.map Document.directives = lists.map (List.filterMap Document.Parser.Item.directive?) ∧
      docs.map Document.decls = lists.map (List.filterMap Document.Parser.Item.decl?) := by
    clear hsize
    induction set with
    | nil => exact ⟨[],[],.nil,.nil,rfl,rfl⟩
    | cons s rest ih =>
      obtain ⟨docs,lists,hdocs,hlists,hdirectives,hdecls⟩ := ih fun t ht => h t (by simp [ht])
      obtain ⟨d,hd⟩ := h s (by simp)
      obtain ⟨items,hitems,rfl⟩ := parse_iff_derives.mp hd
      exact ⟨_ :: docs,items :: lists,.cons hd hdocs,.cons hitems hlists,
        by simp [hdirectives,documentOf],by simp [hdecls,documentOf]⟩
  have hderives := derives_tokens 0 (by simpa using hsize) hlists
  rw [← ofSource_text] at hderives
  refine ⟨_,docs,parse_iff_derives.mpr ⟨_,hderives,rfl⟩,hdocs,?_,?_⟩
  · rw [hdirectives]
    refine filterMap_gather ?_ 0 set lists
    intro k i
    cases i <;> rfl
  · rw [hdecls]
    refine filterMap_gather ?_ 0 set lists
    intro k i
    cases i <;> rfl

theorem ident_lt {src : Text} (hsize : src.length < 2 ^ 32) {d : Document}
    (h : Document.parse src = .ok d) {i : Ident} (hi : i ∈ idents d.decls) :
    i.start.toNat < src.length := by
  obtain ⟨items,hitems,rfl⟩ := parse_iff_derives.mp h
  exact Document.Grammar.idents_of_derives hsize (room_ofSource hsize) hitems i (idents_decls hi)

/-- Together sources fail exactly if one fails on its own, with the fault of the first that does.
Otherwise the declarations and directives are those of the single documents, each moved to where its
source starts, and every identifier leads back to the source and the position it was read at. -/
theorem parse_iff_each (set : SourceSet)
    (hsize : (set.map fun s => s.text.length).sum + set.length < 2 ^ 32) :
    (∀ e, parse set = .error e ↔ ∃ front s back fault, set = front ++ s :: back ∧
      (∀ f ∈ front, ∃ d, Document.parse f.text = .ok d) ∧ Document.parse s.text = .error fault ∧
        e = ⟨s.path,.ofOffset s.text fault.span.start,fault⟩) ∧
    (∀ doc, parse set = .ok doc → ∃ docs,
      List.Forall₂ (fun s d => Document.parse s.text = .ok d) set docs ∧
        doc.directives = gather 0 set (docs.map Document.directives) ∧
          doc.decls = gather 0 set (docs.map Document.decls)) ∧
    ∀ start s d i, (start,s) ∈ starts 0 set → Document.parse s.text = .ok d → i ∈ idents d.decls →
      locate set (shift start i).span.start = (s.path,.ofOffset s.text i.span.start) := by
  rw [← length_text] at hsize
  have hparse {doc : Document} (hcheck : checkEach set = .ok ())
      (hdoc : Document.parse (text set) = .ok doc) : parse set = .ok doc := by
    simp [parse,hcheck,hdoc]
  refine ⟨?_,?_,?_⟩
  · intro e
    rw [← checkEach_error]
    cases hcheck : checkEach set with
    | error e' => simp [parse,hcheck]
    | ok _ =>
      obtain ⟨doc,-,hdoc,-⟩ := parse_text hsize (checkEach_ok.mp hcheck)
      simp [hparse hcheck hdoc]
  · intro doc h
    cases hcheck : checkEach set with
    | error e => simp [parse,hcheck] at h
    | ok _ =>
      obtain ⟨doc',docs,hdoc,hdocs⟩ := parse_text hsize (checkEach_ok.mp hcheck)
      rw [hparse hcheck hdoc] at h
      cases h
      exact ⟨docs,hdocs⟩
  · intro start s d i hs hd hi
    have hwithin := (starts_within (by simpa using hsize) hs).2
    exact locate_start hsize hs (ident_lt (by omega) hd hi)

def usesSource : Source :=
  ⟨"uses.steamd","#import \"kinds.steamd\"\nclass A \x7b E<2> e; removed \"since\" \x7d"⟩

def kindsSource : Source := ⟨"kinds.steamd","// kinds\nenum E \x7b v = 1; \x7d;"⟩

/-- A source that ends in a brace with a marker in front of it and one that starts with a comment
are read together, and the name of the enumeration is found in the second. -/
theorem uses_kinds_parse : (∃ doc, parse [usesSource,kindsSource] = .ok doc) ∧
    locate [usesSource,kindsSource] 73 = (kindsSource.path,⟨2,6⟩) := by
  obtain ⟨herror,-,hlocate⟩ := parse_iff_each [usesSource,kindsSource] (by decide +kernel)
  have heach : ∀ s ∈ [usesSource,kindsSource], (Document.parse s.text).isOk = true := by
    decide +kernel
  constructor
  · cases h : parse [usesSource,kindsSource] with
    | ok doc => exact ⟨doc,rfl⟩
    | error e =>
      obtain ⟨front,s,back,fault,hset,-,hs,-⟩ := (herror e).mp h
      have hok := heach s (by simp [hset])
      rw [hs] at hok
      cases hok
  · obtain ⟨d,hd⟩ := Result.exists_of_isOk (heach kindsSource (by simp))
    have hname : (Document.parse kindsSource.text).toOption.map (fun d =>
        (idents d.decls).contains ⟨"E",14⟩) = some true := by decide +kernel
    have hi : ⟨"E",14⟩ ∈ idents d.decls := by simpa [hd,Except.toOption] using hname
    have hposition : Position.ofOffset kindsSource.text 14 = ⟨2,6⟩ := by decide +kernel
    have h := hlocate 59 kindsSource d ⟨"E",14⟩ (by decide +kernel) hd hi
    exact h.trans (congrArg _ hposition)

end WireSchema.SourceSet
