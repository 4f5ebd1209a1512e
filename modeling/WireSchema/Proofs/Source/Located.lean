import WireSchema.Proofs.Document.Faults
import WireSchema.Proofs.Document.Spans
import WireSchema.Proofs.Schema.Blamed
import WireSchema.Schema.Sources
import Mathlib.Data.List.Induction
set_option autoImplicit false

namespace WireSchema

open Placed (idents shift)

/-- The position of a byte: one line more than there are newlines in front of it, and one column
more than there are bytes between it and the last of them. -/
structure Position.Of (src : Text) (n : Nat) (p : Position) : Prop where
  line : p.line = (src.take n).count Text.newline + 1
  column : p.column = ((src.take n).reverse.takeWhile (· != Text.newline)).length + 1

theorem foldl_advance (t : Text) : t.foldl Position.advance .first =
    ⟨t.count Text.newline + 1,(t.reverse.takeWhile (· != Text.newline)).length + 1⟩ := by
  induction t using List.reverseRecOn with
  | nil => rfl
  | append_singleton t c ih =>
    rw [List.foldl_append,ih,List.foldl_cons,List.foldl_nil,Position.advance]
    by_cases hc : c = Text.newline
    · simp [hc]
    · simp [hc]

theorem Position.of_ofOffset (src : Text) (offset : UInt32) :
    Of src offset.toNat (ofOffset src offset) := by
  have h := foldl_advance (src.take offset.toNat)
  exact ⟨congrArg Position.line h,congrArg Position.column h⟩

namespace Document

def Met (src : Text) (s : Span) : Prop :=
  (∃ t ∈ Token.ofSource src, s = t.span) ∨
    ∃ front last, Token.ofSource src = front ++ [last] ∧ s = ⟨last.span.stop,0⟩

theorem met_of_parse {src : Text} {fault : Fault} (h : parse src = .error fault) :
    Met src fault.span := by
  cases fault_of_parse h with
  | inl hmem => exact .inl ⟨fault.token,hmem,rfl⟩
  | inr hend =>
    obtain ⟨front,last,heq,htoken⟩ := hend
    refine .inr ⟨front,last,heq,?_⟩
    rw [Fault.span,htoken]
    rfl

theorem Met.within {src : Text} (hsize : src.length < 2 ^ 32) {s : Span} (h : Met src s) :
    s.finish ≤ src.length := by
  have hrow := Grammar.row_ofSource hsize
  cases h with
  | inl h =>
    obtain ⟨t,ht,rfl⟩ := h
    rw [hrow.finish ht]
    exact (hrow.stands t ht).1
  | inr h =>
    obtain ⟨front,last,heq,rfl⟩ := h
    have hlast : last ∈ Token.ofSource src := by simp [heq]
    have hfinish := hrow.finish hlast
    have hstop := hrow.stands last hlast
    have hlt := hrow.stop_lt hlast
    change last.span.stop.toNat + 0 ≤ src.length
    rw [Span.toNat_stop (by omega)]
    omega

def Named (doc : Document) (s : Span) : Prop := ∃ i ∈ idents doc.decls, s = i.span

theorem blames_named (doc : Document) (path : Text) :
    Schema.Blames doc.Named (Schema.compile path doc) fun r => Schema.Warns doc.Named r.2 :=
  Schema.blames_compile (fun i hi => ⟨i,hi,rfl⟩) path

end Document

/-- What is located is so in a source that has the span, at the position of its first byte. -/
structure Located.In {ε : Type} (source : Source) (s : Span) (l : Located ε) : Prop where
  path : l.path = source.path
  within : s.finish ≤ source.text.length
  position : l.position.Of source.text s.start.toNat

namespace SourceSet

/-- What is located is so in the source that has a span of the text of all. -/
def Tells {ε : Type} (set : SourceSet) (s : Span) (l : Located ε) : Prop :=
  ∃ start source, (start,source) ∈ starts 0 set ∧ start.toNat ≤ s.start.toNat ∧
    l.In source ⟨s.start - start,s.length⟩

variable {set : SourceSet} {ε : Type}

theorem in_of_parse (hsize : (text set).length < 2 ^ 32) {l : Located Document.Fault}
    (h : parse set = .error l) : ∃ s ∈ set, Document.parse s.text = .error l.cause ∧
      l.In s l.cause.span := by
  cases hcheck : checkEach set with
  | ok _ =>
    obtain ⟨doc,_,hdoc,-⟩ := parse_text hsize (checkEach_ok.mp hcheck)
    simp [parse,hcheck,hdoc] at h
  | error e =>
    have hl : e = l := by
      simpa [parse,hcheck] using h
    subst hl
    obtain ⟨front,s,back,fault,rfl,-,hs,rfl⟩ := checkEach_error.mp hcheck
    have hshort : s.text.length < 2 ^ 32 := by
      rw [length_text] at hsize
      simp only [List.map_append,List.sum_append,List.map_cons,List.sum_cons] at hsize
      omega
    exact ⟨s,by simp,hs,rfl,(Document.met_of_parse hs).within hshort,
      Position.of_ofOffset _ _⟩

theorem mem_tokens {base : Nat} {t : Token} (h : t ∈ tokens base set) :
    ∃ start s, (start,s) ∈ starts base set ∧ ∃ u ∈ Token.ofSource s.text,
        t = Token.shift start u := by
  induction set generalizing base with
  | nil => simp [tokens] at h
  | cons s rest ih =>
    cases List.mem_append.mp h with
    | inl h =>
      obtain ⟨u,hu,rfl⟩ := List.mem_map.mp h
      exact ⟨base.toUInt32,s,List.mem_cons_self,u,hu,rfl⟩
    | inr h =>
      obtain ⟨start,s',hs,hu⟩ := ih h
      exact ⟨start,s',List.mem_cons_of_mem _ hs,hu⟩

theorem tells_place (hsize : (text set).length < 2 ^ 32) {t : Token}
    (ht : t ∈ Token.ofSource (text set)) (cause : ε) :
    set.Tells t.span (set.place t.offset cause) := by
  rw [ofSource_text] at ht
  obtain ⟨start,s,hs,u,hu,rfl⟩ := mem_tokens ht
  have hstarts := (starts_within (by simpa using hsize) hs).2
  obtain ⟨hwithin,hne⟩ := Token.ofSource_within (by omega) hu
  have hpos := List.length_pos_iff.mpr hne
  have hstart : (u.offset + start).toNat = u.offset.toNat + start.toNat := by
    rw [UInt32.toNat_add]
    exact Nat.mod_eq_of_lt (by omega)
  have hback : u.offset + start - start = u.offset := by grind
  have hlocate : locate set (u.offset + start) = (s.path,.ofOffset s.text u.offset) :=
    locate_start hsize hs (by omega)
  refine ⟨start,s,hs,?_,?_⟩
  · change start.toNat ≤ (u.offset + start).toNat
    omega
  · change (place set (u.offset + start) cause).In s ⟨u.offset + start - start,u.span.length⟩
    have hrow : Document.Grammar.Row s.text (Token.ofSource s.text) :=
      Document.Grammar.row_ofSource (by omega)
    rw [hback,place,hlocate]
    refine ⟨rfl,?_,Position.of_ofOffset _ _⟩
    exact (hrow.finish hu).trans_le (hrow.stands u hu).1

theorem document_of_parse {doc : Document} (h : parse set = .ok doc) :
    Document.parse (text set) = .ok doc := by
  cases hcheck : checkEach set with
  | error e => simp [parse,hcheck] at h
  | ok _ =>
    cases hdoc : Document.parse (text set) with
    | error fault => simp [parse,hcheck,hdoc] at h
    | ok d =>
      have hd : (Except.ok d : Except (Located Document.Fault) Document) = .ok doc := by
        simpa only [parse,hcheck,hdoc,Result.ok_bind] using h
      cases hd
      rfl

theorem tells_of_named (hsize : (text set).length < 2 ^ 32) {doc : Document}
    (h : parse set = .ok doc) {s : Span} (hs : doc.Named s) (cause : ε) :
    set.Tells s (set.place s.start cause) := by
  obtain ⟨i,hi,rfl⟩ := hs
  obtain ⟨t,ht,rfl⟩ := Document.ident_of_parse (document_of_parse h) hi
  exact tells_place hsize ht cause

theorem error_of_compile {path : Text} {fault : Fault} (h : set.compile path = .error fault) :
    (∃ l, fault = .document l ∧ set.parse = .error l) ∨
      ∃ doc cause, set.parse = .ok doc ∧ Schema.compile path doc = .error cause ∧
        fault = .schema (set.place cause.span.start cause) := by
  cases hparse : set.parse with
  | error l =>
    simp only [compile,hparse] at h
    cases h
    exact .inl ⟨l,rfl,rfl⟩
  | ok doc =>
    cases hc : Schema.compile path doc with
    | error cause =>
      simp only [compile,hparse,hc] at h
      cases h
      exact .inr ⟨doc,cause,rfl,hc,rfl⟩
    | ok x =>
      simp only [compile,hparse,hc] at h
      cases h

theorem ok_of_compile {path : Text} {schema : Schema} {located : List (Located Schema.Warning)}
    (h : set.compile path = .ok (schema,located)) :
    ∃ doc warnings, set.parse = .ok doc ∧ Schema.compile path doc = .ok (schema,warnings) ∧
      located = warnings.map fun w => set.place w.span.start w := by
  cases hparse : set.parse with
  | error l =>
    simp only [compile,hparse] at h
    cases h
  | ok doc =>
    cases hc : Schema.compile path doc with
    | error cause =>
      simp only [compile,hparse,hc] at h
      cases h
    | ok x =>
      simp only [compile,hparse,hc] at h
      cases h
      exact ⟨doc,x.2,rfl,hc,rfl⟩

/-- What a message is about can be looked up where it points. A source that cannot be read is told
of at a token of it or at its end, a document that makes no schema at an identifier, and so is all
that is suspicious. Of several sources the one is named that has the place, with its line and
column. -/
theorem diagnostics_located :
    (∀ src fault, Document.parse src = .error fault → Document.Met src fault.span) ∧
    (∀ src doc path, Document.parse src = .ok doc →
      (∀ fault, Schema.compile path doc = .error fault → doc.Named fault.span) ∧
      ∀ schema warnings, Schema.compile path doc = .ok (schema,warnings) →
        ∀ w ∈ warnings, doc.Named w.span) ∧
    ∀ set : SourceSet, (set.map fun s => s.text.length).sum + set.length < 2 ^ 32 →
      (∀ l, set.parse = .error l →
        ∃ s ∈ set, Document.parse s.text = .error l.cause ∧ l.In s l.cause.span) ∧
      ∀ path, (∀ fault, set.compile path = .error fault →
          (∃ l, fault = .document l ∧ set.parse = .error l) ∨
          ∃ doc l, fault = .schema l ∧ set.parse = .ok doc ∧
            Schema.compile path doc = .error l.cause ∧ set.Tells l.cause.span l) ∧
        ∀ schema warnings, set.compile path = .ok (schema,warnings) →
          ∀ l ∈ warnings, set.Tells l.cause.span l := by
  refine ⟨fun src fault => Document.met_of_parse,?_,?_⟩
  · intro src doc path _
    have hblames := Document.blames_named doc path
    refine ⟨?_,?_⟩
    · intro fault hc
      rw [hc] at hblames
      exact hblames
    · intro schema warnings hc
      rw [hc] at hblames
      exact hblames
  · intro set hsize
    rw [← length_text] at hsize
    refine ⟨fun l h => in_of_parse hsize h,?_⟩
    intro path
    refine ⟨?_,?_⟩
    · intro fault h
      cases error_of_compile h with
      | inl hdocument => exact .inl hdocument
      | inr hschema =>
        obtain ⟨doc,cause,hparse,hc,rfl⟩ := hschema
        have hblames := Document.blames_named doc path
        rw [hc] at hblames
        exact .inr ⟨doc,_,rfl,hparse,hc,tells_of_named hsize hparse hblames cause⟩
    · intro schema located h l hl
      obtain ⟨doc,warnings,hparse,hc,rfl⟩ := ok_of_compile h
      have hblames := Document.blames_named doc path
      rw [hc] at hblames
      obtain ⟨w,hw,rfl⟩ := List.mem_map.mp hl
      exact tells_of_named hsize hparse (hblames w hw) w

def kindSource : Source := ⟨"kind.steamd","enum E \x7b v = 1; \x7d;"⟩

def listSource : Source := ⟨"list.steamd","// uses F\nclass A \x7b F f; \x7d;"⟩

/-- The second source fails at a type that neither declares, on its second line. -/
theorem list_located :
    ([kindSource,listSource].map fun s => s.text.length).sum + 2 < 2 ^ 32 ∧
    ∃ doc l, compile [] [kindSource,listSource] = .error (.schema l) ∧
      parse [kindSource,listSource] = .ok doc ∧ l.path = listSource.path ∧
        l.position = ⟨2,11⟩ ∧ Tells [kindSource,listSource] l.cause.span l := by
  have hsize : ([kindSource,listSource].map fun s => s.text.length).sum + 2 < 2 ^ 32 := by
    decide +kernel
  have hfault : (match compile [] [kindSource,listSource] with
      | .error (.schema l) => decide (l.path = listSource.path ∧ l.position = ⟨2,11⟩)
      | _ => false) = true := by
    decide +kernel
  obtain ⟨-,-,hsets⟩ := diagnostics_located
  obtain ⟨herror,-⟩ := (hsets [kindSource,listSource] hsize).2 []
  cases hc : compile [] [kindSource,listSource] with
  | ok _ => simp [hc] at hfault
  | error fault =>
    cases herror fault hc with
    | inl h =>
      obtain ⟨l,rfl,-⟩ := h
      simp [hc] at hfault
    | inr h =>
      obtain ⟨doc,l,rfl,hparse,-,htells⟩ := h
      simp only [hc,decide_eq_true_eq] at hfault
      exact ⟨hsize,doc,l,rfl,hparse,hfault.1,hfault.2,htells⟩

end SourceSet

end WireSchema
