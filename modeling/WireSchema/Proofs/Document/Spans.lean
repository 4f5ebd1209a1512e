import WireSchema.Proofs.Document.Runs
import WireSchema.Proofs.Source.Set
import WireSchema.Proofs.Token.Tiling
set_option autoImplicit false

namespace WireSchema

namespace Span

def finish (s : Span) : Nat := s.start.toNat + s.length.toNat

def Inside (s outer : Span) : Prop := outer.start.toNat ≤ s.start.toNat ∧ s.finish ≤ outer.finish

theorem Inside.trans {s mid outer : Span} (h : s.Inside mid) (h' : mid.Inside outer) :
    s.Inside outer :=
  ⟨le_trans h'.1 h.1,le_trans h.2 h'.2⟩

def Before (s later : Span) : Prop := s.finish ≤ later.start.toNat

def slice (src : Text) (s : Span) : Text := (src.drop s.start.toNat).take s.length.toNat

theorem toNat_stop {s : Span} (h : s.finish < 2 ^ 32) : s.stop.toNat = s.finish := by
  rw [stop,UInt32.toNat_add]
  exact Nat.mod_eq_of_lt h

theorem finish_between {s last : Span} (hle : s.start.toNat ≤ last.finish)
    (hlast : last.finish < 2 ^ 32) : (between s last).finish = last.finish := by
  have hstop := toNat_stop hlast
  have hstart : s.start ≤ last.stop := by
    rw [UInt32.le_iff_toNat_le]
    omega
  have hlength : (last.stop - s.start).toNat = last.finish - s.start.toNat := by
    rw [UInt32.toNat_sub_of_le _ _ hstart,hstop]
  change s.start.toNat + (last.stop - s.start).toNat = last.finish
  omega

end Span

namespace Document

open Placed (idents)

namespace Parser.Item

def span : Item → Span
  | directive d => d.span
  | decl d => d.span

end Parser.Item

/-- The span of a member among the tokens of its source: from its first token to its terminator, or
to the end of a marker behind it. -/
structure Member.Faithful (tokens : List Token) (m : Member) : Prop where
  names : ∀ i ∈ m.names, i.span.Inside m.span
  markers : ∀ k ∈ m.markers, k.span.Inside m.span
  ends : ∃ front first body stop back, tokens = front ++ first :: (body ++ stop :: back) ∧
    m.span.start = first.offset ∧ (∀ t ∈ first :: body, Grammar.isTerminator t = false) ∧
      Grammar.isTerminator stop = true ∧
        m.span.finish = m.markers.foldl (fun n k => max n k.span.finish) stop.stop

/-- The span of a declaration among the tokens of its source: from its keyword to its closing brace,
or to the terminator right behind that. -/
structure Decl.Faithful (tokens : List Token) (d : Decl) : Prop where
  names : ∀ i ∈ idents d, i.span.Inside d.span
  markers : ∀ k ∈ d.markers, k.span.Inside d.span
  inside : ∀ m ∈ d.members, m.span.Inside d.span
  members : ∀ m ∈ d.members, m.Faithful tokens
  apart : d.members.Pairwise fun a b => a.span.Before b.span
  ends : ∃ front keyword body closing back,
    tokens = front ++ keyword :: (body ++ closing :: back) ∧ keyword.isWord d.keyword = true ∧
      d.span.start = keyword.offset ∧ (∀ t ∈ body, t.isOperator "\x7d" = false) ∧
        closing.isOperator "\x7d" = true ∧
          d.span.finish = ((back.head?.filter Grammar.isTerminator).getD closing).stop

structure Faithful (src : Text) (doc : Document) : Prop where
  names : ∀ i ∈ idents doc.decls, i.span.slice src = i.text
  items : ∃ items : List Parser.Item, doc.directives = items.filterMap Parser.Item.directive? ∧
    doc.decls = items.filterMap Parser.Item.decl? ∧
      items.Pairwise (fun a b => a.span.Before b.span) ∧ ∀ i ∈ items, i.span.Inside doc.span
  decls : ∀ d ∈ doc.decls, d.Faithful (Token.ofSource src)

namespace Grammar

open WireSchema.Document.Parser (latest)

/-- Tokens of a source in its order. -/
structure Row (src : Text) (ts : List Token) : Prop where
  size : src.length < 2 ^ 32
  ordered : ts.Pairwise fun a b => a.stop ≤ b.offset.toNat
  stands : ∀ t ∈ ts, t.stop ≤ src.length ∧ t.text = (src.drop t.offset.toNat).take t.text.length

theorem row_ofSource {src : Text} (hsize : src.length < 2 ^ 32) : Row src (Token.ofSource src) := by
  have hoffset : (0 : UInt32).toNat = ([] : Text).length := rfl
  have htiled : Token.Tiled src 0 (Token.scan 0 src) :=
    Token.scan_tiled [] (by simpa using hsize) hoffset
  refine ⟨hsize,?_,?_⟩
  · exact (htiled.ordered.filter _).imp fun h => h.2
  · intro t ht
    exact (htiled.token_of_mem (List.mem_of_mem_filter ht)).1

section Rows

variable {src : Text} {front run back ts : List Token} {t : Token}

theorem Row.sublist (h : Row src ts) (hs : run.Sublist ts) : Row src run :=
  ⟨h.size,h.ordered.sublist hs,fun t ht => h.stands t (hs.subset ht)⟩

theorem Row.stop_lt (h : Row src ts) (ht : t ∈ ts) : t.stop < 2 ^ 32 :=
  Nat.lt_of_le_of_lt (h.stands t ht).1 h.size

theorem Row.length (h : Row src ts) (ht : t ∈ ts) : t.span.length.toNat = t.text.length := by
  have hlt := h.stop_lt ht
  rw [Token.stop] at hlt
  exact SourceSet.toNat_toUInt32 (by omega)

theorem Row.finish (h : Row src ts) (ht : t ∈ ts) : t.span.finish = t.stop := by
  rw [Span.finish,h.length ht]
  rfl

theorem Row.slice (h : Row src ts) (ht : t ∈ ts) : t.span.slice src = t.text := by
  rw [Span.slice,h.length ht]
  exact (h.stands t ht).2.symm

theorem offset_le_stop (t : Token) : t.offset.toNat ≤ t.stop := Nat.le_add_right _ _

theorem Row.between (h : Row src (front ++ back)) {u : Token} (ht : t ∈ front) (hu : u ∈ back) :
    t.stop ≤ u.offset.toNat :=
  (List.pairwise_append.mp h.ordered).2.2 t ht u hu

theorem Row.later (h : Row src (t :: back)) {u : Token} (hu : u ∈ t :: back) :
    t.offset.toNat ≤ u.offset.toNat ∧ t.stop ≤ u.stop := by
  cases List.mem_cons.mp hu with
  | inl heq => simp [heq]
  | inr hu =>
    have hle := List.rel_of_pairwise_cons h.ordered hu
    have ht := offset_le_stop t
    have hs := offset_le_stop u
    omega

theorem Row.amid (h : Row src run) {s : Span} (hs : Amid run s) :
    ∃ t ∈ run, ∃ u ∈ run, s.start = t.offset ∧ s.finish = u.stop := by
  obtain ⟨front,t,back,rfl,u,hu,rfl⟩ := hs
  have hmem : u ∈ front ++ t :: back := List.mem_append_right _ hu
  have hlater := (h.sublist (List.sublist_append_right _ _)).later hu
  have hfinish := h.finish hmem
  refine ⟨t,by simp,u,hmem,rfl,?_⟩
  have hle : t.span.start.toNat ≤ u.span.finish := by
    have hs := offset_le_stop u
    have hstart : t.span.start.toNat = t.offset.toNat := rfl
    omega
  have hlt := h.stop_lt hmem
  rw [Span.finish_between hle (by omega),hfinish]

theorem Row.before (h : Row src (front ++ back)) {s later : Span} (hs : Amid front s)
    (hl : Amid back later) : s.Before later := by
  obtain ⟨-,-,u,hu,-,hfinish⟩ := (h.sublist (List.sublist_append_left _ _)).amid hs
  obtain ⟨t,ht,-,-,hstart,-⟩ := (h.sublist (List.sublist_append_right _ _)).amid hl
  rw [Span.Before,hfinish,hstart]
  exact h.between hu ht

theorem exists_run {α : Type} {Run : List Token → α → Prop} {runs : List (List Token)}
    {as : List α} (hruns : List.Forall₂ Run runs as) {a : α} (ha : a ∈ as) :
    ∃ front run back behind, runs.flatten = front ++ (run ++ back.flatten) ∧ Run run a ∧
      List.Forall₂ Run back behind := by
  induction hruns with
  | nil => simp at ha
  | @cons run b runs bs hrun hmore ih =>
    cases List.mem_cons.mp ha with
    | inl heq =>
      subst heq
      exact ⟨[],run,runs,bs,rfl,hrun,hmore⟩
    | inr ha =>
      obtain ⟨front,mid,back,behind,heq,hmid⟩ := ih ha
      exact ⟨run ++ front,mid,back,behind,by simp [heq],hmid⟩

theorem Row.apart {α : Type} {Run : List Token → α → Prop} {span : α → Span}
    (hamid : ∀ ⦃run : List Token⦄ ⦃a : α⦄, Run run a → Amid run (span a))
    {runs : List (List Token)} {as : List α} (hruns : List.Forall₂ Run runs as)
    (h : Row src runs.flatten) : as.Pairwise fun a b => (span a).Before (span b) := by
  induction hruns with
  | nil => exact .nil
  | @cons run a runs as hrun hmore ih =>
    refine .cons ?_ (ih (h.sublist (List.sublist_append_right _ _)))
    intro b hb
    obtain ⟨before,more,behind,_,hsplit,hmore,-⟩ := exists_run hmore hb
    have hb : Amid runs.flatten (span b) := by
      rw [hsplit]
      exact ((hamid hmore).before behind.flatten).behind before
    exact Row.before h (hamid hrun) hb

end Rows

section Members

variable {src : Text} {front run back : List Token}

theorem finish_latest {stop : Span} {markers : List Marker} (hstop : stop.finish < 2 ^ 32)
    (hm : ∀ k ∈ markers, k.span.finish < 2 ^ 32) :
    (latest stop (markers.map some)).finish =
      markers.foldl (fun n k => max n k.span.finish) stop.finish := by
  induction markers generalizing stop with
  | nil => rfl
  | cons k markers ih =>
    have hk := hm k (by simp)
    have hmore : ∀ j ∈ markers, j.span.finish < 2 ^ 32 := fun j hj => hm j (by simp [hj])
    have hlt : stop.stop < k.span.stop ↔ stop.finish < k.span.finish := by
      rw [UInt32.lt_iff_toNat_lt,Span.toNat_stop hstop,Span.toNat_stop hk]
    have hstep : latest stop ((k :: markers).map some) =
        latest (if stop.stop < k.span.stop then k.span else stop) (markers.map some) := rfl
    rw [hstep,List.foldl_cons]
    by_cases hless : stop.finish < k.span.finish
    · rw [if_pos (hlt.mpr hless),ih hk hmore,max_eq_right hless.le]
    · rw [if_neg (mt hlt.mp hless),ih hstop hmore,max_eq_left (Nat.le_of_not_lt hless)]

theorem le_foldl_max (markers : List Marker) (n : Nat) :
    n ≤ markers.foldl (fun n k => max n k.span.finish) n ∧
      ∀ k ∈ markers, k.span.finish ≤ markers.foldl (fun n k => max n k.span.finish) n := by
  induction markers generalizing n with
  | nil => simp
  | cons k markers ih =>
    obtain ⟨hn,hk⟩ := ih (max n k.span.finish)
    rw [List.foldl_cons]
    refine ⟨le_trans (le_max_left _ _) hn,?_⟩
    intro j hj
    cases List.mem_cons.mp hj with
    | inl heq =>
      rw [heq]
      exact le_trans (le_max_right _ _) hn
    | inr hj => exact hk j hj

theorem Row.inside (h : Row src run) {s : Span} (hs : Amid run s) {outer : Span}
    (hstart : ∀ t ∈ run, outer.start.toNat ≤ t.offset.toNat)
    (hfinish : ∀ t ∈ run, t.stop ≤ outer.finish) : s.Inside outer := by
  obtain ⟨t,ht,u,hu,hst,hsu⟩ := h.amid hs
  rw [Span.Inside,hst,hsu]
  exact ⟨hstart t ht,hfinish u hu⟩

theorem amid_of_mem {t : Token} (ht : t ∈ run) : Amid run t.span := by
  obtain ⟨front,back,rfl⟩ := List.append_of_mem ht
  exact ⟨front,t,back,rfl,t,by simp,(between_self _).symm⟩

theorem Gathered.amid {names : List Ident} {markers : List Marker} (h : Gathered run names markers)
    {i : Ident} (hi : i ∈ names) : Amid run i.span := by
  obtain ⟨t,ht,rfl⟩ := h.names i hi
  exact amid_of_mem ht

theorem MemberRun.faithful {m : Member} (h : MemberRun run m)
    (hrow : Row src (front ++ (run ++ back))) : m.Faithful (front ++ (run ++ back)) := by
  have hrun : Row src run :=
    hrow.sublist ((List.sublist_append_left _ _).trans (List.sublist_append_right _ _))
  cases h with
  | @mk t stop body marks names markers named stopped marked =>
    have hbody : Row src (t :: body) := hrun.sublist (List.sublist_append_left _ _)
    have hmarks : Row src marks :=
      hrun.sublist ((List.sublist_cons_self _ _).trans (List.sublist_append_right _ _))
    have hstop : stop ∈ t :: body ++ stop :: marks := by simp
    have hlt (k : Marker) (hk : k ∈ markers) : k.span.finish < 2 ^ 32 := by
      obtain ⟨-,-,u,hu,-,hfinish⟩ := hmarks.amid (marked.markers k hk)
      rw [hfinish]
      exact hmarks.stop_lt hu
    have hlast : (latest stop.span (markers.map some)).finish =
        markers.foldl (fun n k => max n k.span.finish) stop.stop := by
      have hs := hrun.finish hstop
      have hlt' := hrun.stop_lt hstop
      rw [finish_latest (by omega) hlt,hs]
    obtain ⟨hle,hmax⟩ := le_foldl_max markers stop.stop
    have hfirst : ∀ u ∈ t :: body ++ stop :: marks, t.offset.toNat ≤ u.offset.toNat :=
      fun u hu => (hrun.later hu).1
    have hend : (Span.between t.span (latest stop.span (markers.map some))).finish =
        markers.foldl (fun n k => max n k.span.finish) stop.stop := by
      have hstart : t.span.start.toNat ≤ stop.stop :=
        le_trans (hfirst stop hstop) (offset_le_stop stop)
      have hsmall : (latest stop.span (markers.map some)).finish < 2 ^ 32 := by
        cases latest_cases stop.span markers with
        | inl heq =>
          have hs := hrun.finish hstop
          rw [heq,hs]
          exact hrun.stop_lt hstop
        | inr h =>
          obtain ⟨k,hk,heq⟩ := h
          rw [heq]
          exact hlt k hk
      rw [Span.finish_between (by omega) hsmall,hlast]
    refine ⟨?_,?_,?_⟩
    · intro i hi
      refine hbody.inside (named.amid hi) (fun u hu => hfirst u (List.mem_append_left _ hu)) ?_
      intro u hu
      have hbefore := hrun.between hu List.mem_cons_self
      have hs := offset_le_stop stop
      rw [hend]
      omega
    · intro k hk
      obtain ⟨u,hu,-,-,hstart,-⟩ := hmarks.amid (marked.markers k hk)
      have hu' := hfirst u (by simp [hu])
      refine ⟨?_,?_⟩
      · rw [hstart]
        exact hu'
      · rw [hend]
        exact hmax k hk
    · refine ⟨front,t,body,stop,marks ++ back,by simp,rfl,?_,stopped,hend⟩
      exact fun u hu => (named.open_ended u hu).1

end Members

theorem MemberRun.inner {run : List Token} {m : Member} (h : MemberRun run m) :
    ∀ t ∈ run, t.isOperator "\x7d" = false := by
  cases h with
  | @mk t stop body marks names markers named stopped marked =>
    intro u hu
    cases List.mem_append.mp hu with
    | inl hu => exact (named.open_ended u hu).2
    | inr hu =>
      cases List.mem_cons.mp hu with
      | inl heq =>
        have hkind : u.kind = .terminator := by simpa [isTerminator,heq] using stopped
        simp [Token.isOperator,hkind]
      | inr hu => exact (marked.open_ended u hu).2

theorem inner_of_members {runs : List (List Token)} {members : List Member}
    (h : List.Forall₂ MemberRun runs members) :
    ∀ t ∈ runs.flatten, t.isOperator "\x7d" = false := by
  induction h with
  | nil => simp
  | cons hrun _ ih =>
    intro t ht
    cases List.mem_append.mp ht with
    | inl ht => exact hrun.inner t ht
    | inr ht => exact ih t ht

theorem mem_idents_decl {d : Decl} {i : Ident} (h : i ∈ idents d) :
    i ∈ d.heading ∨ ∃ m ∈ d.members, i ∈ m.names := by
  cases d with
  | «class» c =>
    cases List.mem_append.mp h with
    | inl hi => exact .inl hi
    | inr hi =>
      obtain ⟨p,hp,hi⟩ := List.mem_flatMap.mp hi
      exact .inr ⟨p.member,List.mem_map_of_mem hp,hi⟩
  | enum e =>
    cases List.mem_append.mp h with
    | inl hi => exact .inl hi
    | inr hi =>
      obtain ⟨v,hv,hi⟩ := List.mem_flatMap.mp hi
      exact .inr ⟨v.member,List.mem_map_of_mem hv,hi⟩

section Decls

variable {src : Text} {front run back : List Token}

theorem Row.ends {last : Token} (h : Row src (front ++ [last])) :
    ∀ t ∈ front ++ [last], t.stop ≤ last.stop := by
  intro t ht
  cases List.mem_append.mp ht with
  | inl ht =>
    have hbefore := h.between ht (List.mem_singleton_self last)
    have hle := offset_le_stop last
    omega
  | inr ht => rw [List.mem_singleton.mp ht]

theorem DeclRun.amid {d : Decl} (h : DeclRun run d) : Amid run d.span := by
  cases h with
  | @mk _ t u head runs stop opened headed members closed stopped spanned =>
    refine ⟨[],t,_,rfl,stop.getD u,?_,spanned⟩
    cases stop <;> simp

theorem DeclRun.names {d : Decl} (h : DeclRun run d) {i : Ident} (hi : i ∈ idents d) :
    ∃ t ∈ run, i = identOf t := by
  cases h with
  | @mk _ t u head runs stop opened headed members closed stopped spanned =>
    cases mem_idents_decl hi with
    | inl hi =>
      obtain ⟨v,hv,heq⟩ := headed.names i hi
      exact ⟨v,by simp [hv],heq⟩
    | inr hi =>
      obtain ⟨m,hm,hi⟩ := hi
      obtain ⟨before,mid,behind,_,hsplit,hmid,-⟩ := exists_run members hm
      cases hmid with
      | mk named =>
        obtain ⟨v,hv,heq⟩ := named.names i hi
        rw [hsplit]
        exact ⟨v,by simp only [List.mem_append,List.mem_cons] at hv ⊢; tauto,heq⟩

theorem Row.around {first last : Token} (h : Row src run) (hfirst : run.head? = some first)
    (hlast : run.getLast? = some last) : (Span.between first.span last.span).finish = last.stop ∧
      ∀ part s, part.Sublist run → Amid part s → s.Inside (.between first.span last.span) := by
  obtain ⟨rest,hrest⟩ := List.head?_eq_some_iff.mp hfirst
  obtain ⟨init,hinit⟩ := List.getLast?_eq_some_iff.mp hlast
  have hmem : last ∈ run := by simp [hinit]
  have hends : ∀ t ∈ run, t.stop ≤ last.stop := hinit ▸ (hinit ▸ h).ends
  have hlater : ∀ t ∈ run, first.offset.toNat ≤ t.offset.toNat :=
    fun t ht => ((hrest ▸ h).later (hrest ▸ ht)).1
  have hfinish : (Span.between first.span last.span).finish = last.stop := by
    have hs := h.finish hmem
    have hlt := h.stop_lt hmem
    have hstart : first.span.start.toNat ≤ last.stop :=
      le_trans (hlater last hmem) (offset_le_stop last)
    rw [Span.finish_between (by omega) (by omega),hs]
  refine ⟨hfinish,?_⟩
  intro part s hpart hs
  refine (h.sublist hpart).inside hs (fun t ht => hlater t (hpart.subset ht)) ?_
  intro t ht
  rw [hfinish]
  exact hends t (hpart.subset ht)

theorem DeclRun.faithful {d : Decl} (h : DeclRun run d) (hrow : Row src (front ++ (run ++ back)))
    (hback : ∀ t ∈ back.head?, isTerminator t = false) : d.Faithful (front ++ (run ++ back)) := by
  have hrun : Row src run :=
    hrow.sublist ((List.sublist_append_left _ _).trans (List.sublist_append_right _ _))
  cases h with
  | @mk _ t u head runs stop opened headed members closed stopped spanned =>
    have hlast : (t :: (head ++ (runs.flatten ++ u :: stop.toList))).getLast? =
        some (stop.getD u) := by
      cases stop <;> simp [List.getLast?_cons,List.getLast?_append]
    obtain ⟨hfinish,hinside⟩ := hrun.around rfl hlast
    rw [← spanned] at hfinish hinside
    have hhead : head.Sublist (t :: (head ++ (runs.flatten ++ u :: stop.toList))) :=
      (List.sublist_append_left _ _).trans (List.sublist_cons_self _ _)
    have hmembers : runs.flatten.Sublist (t :: (head ++ (runs.flatten ++ u :: stop.toList))) :=
      ((List.sublist_append_left _ _).trans (List.sublist_append_right _ _)).trans
        (List.sublist_cons_self _ _)
    have hmember : ∀ m ∈ d.members, m.span.Inside d.span ∧
        m.Faithful (front ++ (t :: (head ++ (runs.flatten ++ u :: stop.toList)) ++ back)) := by
      intro m hm
      obtain ⟨before,mid,behind,_,hsplit,hmid,-⟩ := exists_run members hm
      refine ⟨?_,?_⟩
      · refine hinside _ _ hmembers ?_
        rw [hsplit]
        exact (hmid.amid.before behind.flatten).behind before
      · have htokens : front ++ (t :: (head ++ (runs.flatten ++ u :: stop.toList)) ++ back) =
            front ++ t :: (head ++ before) ++
              (mid ++ (behind.flatten ++ u :: stop.toList ++ back)) := by
          simp [hsplit]
        rw [htokens] at hrow ⊢
        exact hmid.faithful hrow
    refine ⟨?_,?_,fun m hm => (hmember m hm).1,fun m hm => (hmember m hm).2,?_,?_⟩
    · intro i hi
      cases mem_idents_decl hi with
      | inl hi => exact hinside _ _ hhead (headed.amid hi)
      | inr hi =>
        obtain ⟨m,hm,hi⟩ := hi
        exact ((hmember m hm).2.names i hi).trans (hmember m hm).1
    · exact fun k hk => hinside _ _ hhead (headed.markers k hk)
    · exact Row.apart (fun _ _ h => h.amid) members (hrun.sublist hmembers)
    · refine ⟨front,t,head ++ runs.flatten,u,stop.toList ++ back,by simp,opened,?_,?_,closed,?_⟩
      · rw [spanned]
        rfl
      · intro v hv
        cases List.mem_append.mp hv with
        | inl hv => exact (headed.open_ended v hv).2
        | inr hv => exact inner_of_members members v hv
      · rw [hfinish]
        cases stop with
        | some s => simp [Option.filter,stopped s rfl]
        | none =>
          cases back with
          | nil => rfl
          | cons v back => simp [Option.filter,hback v rfl]

end Decls

theorem ItemRun.amid {run : List Token} {i : Parser.Item} (h : ItemRun run i) :
    Amid run i.span := by
  cases h with
  | @directive t argument mark =>
    cases argument with
    | none => exact amid_of_mem List.mem_cons_self
    | some u => exact ⟨[],t,[u],rfl,u,by simp,rfl⟩
  | decl taken => exact taken.amid

theorem Row.stop_le_document {src : Text} {tokens : List Token} (h : Row src tokens) {t : Token}
    (ht : t ∈ tokens) (items : List Parser.Item) :
    t.stop ≤ (documentOf tokens items).span.finish := by
  obtain ⟨init,last,rfl⟩ := (List.eq_nil_or_concat' tokens).resolve_left (List.ne_nil_of_mem ht)
  have hlast := h.finish (List.mem_append_right init (List.mem_singleton_self last))
  have hlt := h.stop_lt (List.mem_append_right init (List.mem_singleton_self last))
  have hspan : (documentOf (init ++ [last]) items).span = ⟨0,last.span.stop⟩ := by
    simp [documentOf]
  have hstop : last.span.stop.toNat = last.stop := by
    rw [Span.toNat_stop (by omega),hlast]
  have hends := h.ends t ht
  rw [hspan]
  change t.stop ≤ 0 + last.span.stop.toNat
  omega

end Grammar

open Grammar

theorem ident_of_parse {src : Text} {doc : Document} (h : parse src = .ok doc) {i : Ident}
    (hi : i ∈ idents doc.decls) : ∃ t ∈ Token.ofSource src, i = identOf t := by
  obtain ⟨items,hitems,rfl⟩ := SourceSet.parse_iff_derives.mp h
  obtain ⟨runs,htokens,hruns⟩ := runs_of_derives hitems
  obtain ⟨item,hitem,hi⟩ := List.mem_flatMap.mp (SourceSet.idents_decls hi)
  obtain ⟨front,run,back,_,hsplit,hrun,-⟩ := exists_run hruns hitem
  cases hrun with
  | directive _ => simp [idents] at hi
  | decl taken =>
    obtain ⟨t,ht,heq⟩ := taken.names hi
    rw [htokens,hsplit]
    exact ⟨t,by simp [ht],heq⟩

/-- The spans of a document say where in the source its parts stand: identifiers at their texts,
parts inside what they are parts of, siblings apart and in order, and each end at its token. -/
theorem faithful_of_parse {src : Text} (hsize : src.length < 2 ^ 32) {doc : Document}
    (h : parse src = .ok doc) : doc.Faithful src := by
  obtain ⟨items,hitems,rfl⟩ := SourceSet.parse_iff_derives.mp h
  obtain ⟨runs,htokens,hruns⟩ := runs_of_derives hitems
  have hrow := row_ofSource hsize
  have hdecl {d : Decl} (hd : d ∈ items.filterMap Parser.Item.decl?) : .decl d ∈ items := by
    obtain ⟨i,hi,heq⟩ := List.mem_filterMap.mp hd
    cases i with
    | directive _ => simp [Parser.Item.decl?] at heq
    | decl _ =>
      cases heq
      exact hi
  refine ⟨?_,⟨items,rfl,rfl,?_,?_⟩,?_⟩
  · intro i hi
    obtain ⟨t,ht,rfl⟩ := ident_of_parse h hi
    exact hrow.slice ht
  · exact Row.apart (fun _ _ h => h.amid) hruns (htokens ▸ hrow)
  · intro i hi
    obtain ⟨front,run,back,_,hsplit,hrun,-⟩ := exists_run hruns hi
    have hamid : Amid (Token.ofSource src) i.span := by
      rw [htokens,hsplit]
      exact (hrun.amid.before back.flatten).behind front
    refine hrow.inside hamid (fun _ _ => Nat.zero_le _) ?_
    intro t ht
    exact hrow.stop_le_document ht items
  · intro d hd
    obtain ⟨front,run,back,behind,hsplit,hrun,hbehind⟩ := exists_run hruns (hdecl hd)
    have hback : ∀ t ∈ back.flatten.head?, isTerminator t = false := by
      cases hbehind with
      | nil => simp
      | cons hnext _ =>
        obtain ⟨t,rest,rfl,ht⟩ := hnext.opener
        simpa using ht
    cases hrun with
    | decl taken =>
      rw [htokens,hsplit] at hrow ⊢
      exact taken.faithful hrow hback

def markedSource : Text :=
  "#import \"a.steamd\"\nenum E<byte> flags \x7b Old = 1; obsolete \"gone\" removed V = 2|Old; \x7d;
    class C<E::V> expects D removed \"why\" \x7b const uint A = 1; removed byte<A> b; obsolete \x7d"

theorem markedSource_faithful : markedSource.length < 2 ^ 32 ∧
    ∃ doc, parse markedSource = .ok doc ∧ doc.Faithful markedSource := by
  have hsize : markedSource.length < 2 ^ 32 := by decide +kernel
  have hok : (parse markedSource).isOk = true := by decide +kernel
  obtain ⟨doc,hdoc⟩ := Result.exists_of_isOk hok
  exact ⟨hsize,doc,hdoc,faithful_of_parse hsize hdoc⟩

end Document

end WireSchema
