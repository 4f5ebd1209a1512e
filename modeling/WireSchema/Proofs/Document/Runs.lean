import WireSchema.Proofs.Document.Moved
set_option autoImplicit false

/-!
The tokens that a part of a document is read from. They are one run without gaps: a member is the
run up to its terminator and the run of its markers, a declaration is a heading, the runs of its
members and a closing brace, and the runs of all items are the whole source. Every span is that of a
stretch of tokens.
-/

namespace WireSchema.Document

open Placed (idents)

structure Member where
  span : Span
  names : List Ident
  markers : List Marker

def Property.member (p : Property) : Member :=
  ⟨p.span,idents p,p.obsolete.toList ++ p.removed.toList⟩

def EnumValue.member (v : EnumValue) : Member :=
  ⟨v.span,idents v,v.obsolete.toList ++ v.removed.toList⟩

namespace Decl

def members : Decl → List Member
  | .class c => c.properties.map Property.member
  | .enum e => e.values.map EnumValue.member

def heading : Decl → List Ident
  | .class c => idents c.name ++ idents c.identity ++ idents c.parent
  | .enum e => idents e.name ++ idents e.storage

def markers : Decl → List Marker
  | .class c => c.removed.toList
  | .enum _ => []

def keyword : Decl → Text
  | .class _ => "class"
  | .enum _ => "enum"

end Decl

namespace Grammar

open WireSchema.Document.Parser (latest)

/-- A span from a token of a run to the same or a later one. -/
def Amid (run : List Token) (s : Span) : Prop :=
  ∃ front t back, run = front ++ t :: back ∧ ∃ u ∈ t :: back, s = .between t.span u.span

theorem between_self (s : Span) : Span.between s s = s := by
  have hlength : s.start + s.length - s.start = s.length := by grind
  simp only [Span.between,Span.stop,hlength]

theorem Amid.behind (front : List Token) {run : List Token} {s : Span} (h : Amid run s) :
    Amid (front ++ run) s := by
  obtain ⟨before,t,back,rfl,hs⟩ := h
  exact ⟨front ++ before,t,back,by simp,hs⟩

theorem Amid.before (back : List Token) {run : List Token} {s : Span} (h : Amid run s) :
    Amid (run ++ back) s := by
  obtain ⟨front,t,rest,rfl,u,hu,hs⟩ := h
  refine ⟨front,t,rest ++ back,by simp,u,?_,hs⟩
  rw [← List.cons_append]
  exact List.mem_append_left back hu

/-- The tokens of a part between those that end members and declarations, with the identifiers and
the markers that they spell. -/
structure Gathered (run : List Token) (names : List Ident) (markers : List Marker) : Prop where
  open_ended : ∀ t ∈ run, isTerminator t = false ∧ t.isOperator "\x7d" = false
  names : ∀ i ∈ names, ∃ t ∈ run, i = identOf t
  markers : ∀ m ∈ markers, Amid run m.span

theorem Gathered.nil : Gathered [] [] [] := ⟨by simp,by simp,by simp⟩

theorem Gathered.append {run more : List Token} {names names' : List Ident}
    {markers markers' : List Marker} (h : Gathered run names markers)
    (h' : Gathered more names' markers') :
    Gathered (run ++ more) (names ++ names') (markers ++ markers') := by
  refine ⟨?_,?_,?_⟩
  · intro t ht
    cases List.mem_append.mp ht with
    | inl ht => exact h.open_ended t ht
    | inr ht => exact h'.open_ended t ht
  · intro i hi
    cases List.mem_append.mp hi with
    | inl hi =>
      obtain ⟨t,ht,heq⟩ := h.names i hi
      exact ⟨t,List.mem_append_left _ ht,heq⟩
    | inr hi =>
      obtain ⟨t,ht,heq⟩ := h'.names i hi
      exact ⟨t,List.mem_append_right _ ht,heq⟩
  · intro m hm
    cases List.mem_append.mp hm with
    | inl hm => exact (h.markers m hm).before more
    | inr hm => exact (h'.markers m hm).behind run

theorem Gathered.of_mem {run : List Token} {names names' : List Ident}
    {markers markers' : List Marker} (h : Gathered run names markers)
    (hn : ∀ i ∈ names', i ∈ names) (hm : ∀ m ∈ markers', m ∈ markers) :
    Gathered run names' markers' :=
  ⟨h.open_ended,fun i hi => h.names i (hn i hi),fun m hmem => h.markers m (hm m hmem)⟩

def OpenEnded (fits : Token → Bool) : Prop :=
  ∀ t, fits t = true → isTerminator t = false ∧ t.isOperator "\x7d" = false

theorem openEnded_kind {kind : Token.Kind} (ht : kind ≠ .terminator) (ho : kind ≠ .operator) :
    OpenEnded fun t => t.kind == kind := by
  intro t h
  have hkind : t.kind = kind := by simpa using h
  simp [isTerminator,Token.isOperator,hkind,ht,ho]

theorem openEnded_ident : OpenEnded isIdent := openEnded_kind (by simp) (by simp)

theorem openEnded_string : OpenEnded isString := openEnded_kind (by simp) (by simp)

theorem openEnded_word (word : Text) : OpenEnded (Token.isWord word) := by
  intro t h
  simp only [Token.isWord,Bool.and_eq_true,beq_iff_eq] at h
  simp [isTerminator,Token.isOperator,h.1]

theorem openEnded_operator {op : Text} (hop : op ≠ Text.ofString "\x7d") :
    OpenEnded (Token.isOperator op) := by
  intro t h
  simp only [Token.isOperator,Bool.and_eq_true,beq_iff_eq] at h
  simp [isTerminator,Token.isOperator,h.1,h.2,hop]

theorem Gathered.token {fits : Token → Bool} (hf : OpenEnded fits) {t : Token}
    (h : fits t = true) : Gathered [t] [] [] :=
  ⟨by simpa using hf t h,by simp,by simp⟩

theorem Gathered.name {t : Token} (h : isIdent t = true) : Gathered [t] [identOf t] [] :=
  ⟨by simpa using openEnded_ident t h,by simp,by simp⟩

/-- What a part of the grammar takes are the tokens up to what it leaves. -/
def Runs {α : Type} (part : Part α) (Run : List Token → α → Prop) : Prop :=
  ∀ ⦃ts : List Token⦄ ⦃a : α⦄ ⦃rest : List Token⦄, part ts a rest →
    ∃ run, ts = run ++ rest ∧ Run run a

theorem runs_many {α : Type} {first : Token → Bool} {part : Part α}
    {Run : List Token → α → Prop} (hp : Runs part Run) :
    Runs (Many first part) fun run as => ∃ runs, run = runs.flatten ∧ List.Forall₂ Run runs as := by
  intro ts as rest h
  induction h with
  | nil => exact ⟨[],rfl,[],rfl,.nil⟩
  | cons _ taken _ ih =>
    obtain ⟨run,rfl,hrun⟩ := hp taken
    obtain ⟨_,rfl,runs,rfl,hruns⟩ := ih
    exact ⟨run ++ runs.flatten,by simp,run :: runs,rfl,.cons hrun hruns⟩

abbrev Gathers {α : Type} (part : Part α) (names : α → List Ident) (markers : α → List Marker) :
    Prop :=
  Runs part fun run a => Gathered run (names a) (markers a)

section Parts

variable {α : Type} {first : Token → Bool} {part : Part α} {names : α → List Ident}
variable {markers : α → List Marker}

theorem gathers_optional (hp : Gathers part names markers) :
    Gathers (Optional first part) (fun o => o.toList.flatMap names)
      fun o => o.toList.flatMap markers := by
  intro ts o rest h
  cases h with
  | present _ taken => simpa using hp taken
  | absent => exact ⟨[],rfl,.nil⟩

theorem gathers_many (hp : Gathers part names markers) :
    Gathers (Many first part) (List.flatMap names) (List.flatMap markers) := by
  intro ts as rest h
  obtain ⟨_,hts,runs,rfl,hruns⟩ := runs_many hp h
  refine ⟨runs.flatten,hts,?_⟩
  clear h hts
  induction hruns with
  | nil => exact .nil
  | cons hrun _ ih => exact hrun.append ih

theorem gathers_name : Gathers Name (fun i => [i]) fun _ => [] := by
  intro ts i rest h
  cases h with
  | @mk t _ ht => exact ⟨[t],rfl,.name ht⟩

theorem gathers_behind {op : Token → Bool} (hop : OpenEnded op) :
    Gathers (Behind op) (fun i => [i]) fun _ => [] := by
  intro ts i rest h
  cases h with
  | @mk t _ _ _ ht hname =>
    obtain ⟨run,rfl,hrun⟩ := gathers_name hname
    exact ⟨t :: run,rfl,(Gathered.token hop ht).append hrun⟩

theorem openEnded_angle : OpenEnded (Token.isOperator "<") := openEnded_operator (by decide)

theorem gathers_bracketed : Gathers Bracketed (fun i => [i]) fun _ => [] := by
  intro ts i rest h
  cases h with
  | @mk t _ _ _ opened closed =>
    obtain ⟨run,rfl,hrun⟩ := gathers_behind openEnded_angle opened
    have hclose : OpenEnded (Token.isOperator ">") := openEnded_operator (by decide)
    exact ⟨run ++ [t],by simp,hrun.append (.token hclose closed)⟩

theorem gathers_defaults : Gathers Defaults id fun _ => [] := by
  intro ts terms rest h
  cases h with
  | @mk _ mid _ term more head again =>
    have hequals : OpenEnded (Token.isOperator "=") := openEnded_operator (by decide)
    have hbar : OpenEnded (Token.isOperator "|") := openEnded_operator (by decide)
    obtain ⟨run,rfl,hrun⟩ := gathers_behind hequals head
    obtain ⟨back,rfl,hback⟩ := gathers_many (gathers_behind hbar) again
    exact ⟨run ++ back,by simp,(hrun.append hback).of_mem (by simp) (by simp)⟩

theorem gathers_marked (word : Text) : Gathers (Marked word) (fun _ => []) fun m => [m] := by
  intro ts m rest h
  cases h with
  | @mk t _ _ message mark said =>
    have hword : Gathered [t] [] [] := .token (openEnded_word word) mark
    cases said with
    | @present _ _ u _ taken =>
      obtain ⟨hstring⟩ := taken
      have hrun := hword.append (.token openEnded_string hstring)
      refine ⟨[t,u],rfl,hrun.open_ended,by simp,?_⟩
      intro m hm
      rw [List.mem_singleton.mp hm]
      exact ⟨[],t,[u],rfl,u,by simp,rfl⟩
    | absent =>
      refine ⟨[t],rfl,hword.open_ended,by simp,?_⟩
      intro m hm
      rw [List.mem_singleton.mp hm]
      exact ⟨[],t,[],rfl,t,by simp,(between_self _).symm⟩

end Parts

/-- The tokens of a member: those with its identifiers, its terminator, and those of its markers. -/
inductive MemberRun : List Token → Member → Prop
  | mk {t stop : Token} {front back : List Token} {names : List Ident} {markers : List Marker}
      (named : Gathered (t :: front) names []) (stopped : isTerminator stop = true)
      (marked : Gathered back [] markers) :
      MemberRun (t :: front ++ stop :: back)
        ⟨.between t.span (latest stop.span (markers.map some)),names,markers⟩

theorem latest_toList (stop : Span) (obsolete removed : Option Marker) :
    latest stop ((obsolete.toList ++ removed.toList).map some) =
      latest stop [obsolete,removed] := by
  cases obsolete <;> cases removed <;> rfl

theorem latest_cases (stop : Span) (markers : List Marker) :
    latest stop (markers.map some) = stop ∨
      ∃ m ∈ markers, latest stop (markers.map some) = m.span := by
  induction markers generalizing stop with
  | nil => exact .inl rfl
  | cons m markers ih =>
    have hstep : latest stop ((m :: markers).map some) =
        latest (if stop.stop < m.span.stop then m.span else stop) (markers.map some) := rfl
    rw [hstep]
    split
    · cases ih m.span with
      | inl heq => exact .inr ⟨m,by simp,heq⟩
      | inr h =>
        obtain ⟨k,hk,heq⟩ := h
        exact .inr ⟨k,by simp [hk],heq⟩
    · cases ih stop with
      | inl heq => exact .inl heq
      | inr h =>
        obtain ⟨k,hk,heq⟩ := h
        exact .inr ⟨k,by simp [hk],heq⟩

theorem MemberRun.amid {run : List Token} {m : Member} (h : MemberRun run m) : Amid run m.span := by
  cases h with
  | @mk t stop front back names markers named stopped marked =>
    have hbetween {a b : Span} (hab : a.stop = b.stop) :
        Span.between t.span a = Span.between t.span b := by simp only [Span.between,hab]
    cases latest_cases stop.span markers with
    | inl heq => exact ⟨[],t,front ++ stop :: back,rfl,stop,by simp,by rw [heq]⟩
    | inr h =>
      obtain ⟨m,hm,heq⟩ := h
      obtain ⟨before,k,rest,rfl,u,hu,hspan⟩ := marked.markers m hm
      refine ⟨[],t,front ++ stop :: (before ++ k :: rest),rfl,u,?_,?_⟩
      · have hback : u ∈ before ++ k :: rest := List.mem_append_right _ hu
        simp [hback]
      · rw [heq,hspan]
        exact hbetween (Span.stop_between _ _)

theorem Ended.run {ts rest : List Token} {e : Ending} (h : Ended ts e rest) :
    ∃ front back, ts = front ++ e.stop :: (back ++ rest) ∧ Gathered front e.defaults [] ∧
      isTerminator e.stop = true ∧
        Gathered back [] (e.obsolete.toList ++ e.removed.toList) := by
  cases h with
  | @mk t _ mid _ _ terms obsolete removed assigned stopped aged gone =>
    obtain ⟨front,hts,hfront⟩ := gathers_optional gathers_defaults assigned
    obtain ⟨old,rfl,hold⟩ := gathers_optional (gathers_marked "obsolete") aged
    obtain ⟨last,rfl,hlast⟩ := gathers_optional (gathers_marked "removed") gone
    refine ⟨front,old ++ last,by simpa using hts,?_,stopped,?_⟩
    · cases terms with
      | none => simpa using hfront
      | some terms => simpa using hfront
    · exact (hold.append hlast).of_mem (by simp) (by simp)

theorem Begun.run {ts rest : List Token} {b : Beginning} (h : Begun ts b rest) :
    ∃ t front, ts = t :: (front ++ rest) ∧ b.first = identOf t ∧
      Gathered (t :: front) (idents b) [] := by
  cases h with
  | @flagged _ _ _ _ _ word type name flag option head known opt typed named =>
    obtain @⟨t,_,ht⟩ := head
    obtain ⟨angle,rfl,hangle⟩ := gathers_optional gathers_bracketed opt
    obtain ⟨second,rfl,hsecond⟩ := gathers_name typed
    obtain ⟨third,rfl,hthird⟩ := gathers_name named
    have hrun := ((Gathered.token openEnded_ident ht).append hangle).append
      (hsecond.append hthird)
    refine ⟨t,angle ++ (second ++ third),by simp,rfl,?_⟩
    have hall : Gathered ([t] ++ angle ++ (second ++ third))
        (idents (⟨identOf t,some flag,option,type,name⟩ : Beginning)) [] := by
      refine hrun.of_mem ?_ (by simp)
      intro i hi
      simp only [idents,List.mem_append,List.nil_append] at hi ⊢
      tauto
    simpa using hall
  | @plain _ _ _ _ type name option typed opt named =>
    obtain @⟨t,_,ht⟩ := typed
    obtain ⟨angle,rfl,hangle⟩ := gathers_optional gathers_bracketed opt
    obtain ⟨second,rfl,hsecond⟩ := gathers_name named
    have hrun := ((Gathered.name ht).append hangle).append hsecond
    refine ⟨t,angle ++ second,by simp,rfl,?_⟩
    have hall : Gathered ([t] ++ angle ++ second)
        (idents (⟨identOf t,none,option,identOf t,name⟩ : Beginning)) [] := by
      refine hrun.of_mem ?_ (by simp)
      intro i hi
      simp only [idents,List.mem_append] at hi ⊢
      tauto
    simpa using hall

theorem runs_property : Runs PropertyAt fun run p => MemberRun run p.member := by
  intro ts p rest h
  cases h with
  | @mk _ mid _ b e begun ended =>
    obtain ⟨t,front,rfl,hfirst,hfront⟩ := begun.run
    obtain ⟨terms,back,rfl,hterms,hstop,hback⟩ := ended.run
    have hnamed : Gathered (t :: (front ++ terms)) (idents (b.property e)) [] := by
      refine (hfront.append hterms).of_mem ?_ (by simp)
      intro i hi
      simpa only [Beginning.property,idents,List.mem_append,List.flatMap_singleton'] using hi
    refine ⟨t :: (front ++ terms) ++ e.stop :: back,by simp,?_⟩
    have hrun := MemberRun.mk hnamed hstop hback
    rw [latest_toList] at hrun
    have hspan : (b.property e).span =
        .between t.span (latest e.stop.span [e.obsolete,e.removed]) := by
      simp only [Beginning.property,hfirst]
      rfl
    rw [← hspan] at hrun
    exact hrun

theorem runs_value : Runs ValueAt fun run v => MemberRun run v.member := by
  intro ts v rest h
  cases h with
  | @mk _ _ _ _ e named ended =>
    obtain @⟨t,_,ht⟩ := named
    obtain ⟨terms,back,rfl,hterms,hstop,hback⟩ := ended.run
    have hnamed : Gathered (t :: terms) (idents (valueOf (identOf t) e)) [] := by
      refine ((Gathered.name ht).append hterms).of_mem ?_ (by simp)
      intro i hi
      simpa only [valueOf,idents,List.mem_append,List.flatMap_singleton'] using hi
    refine ⟨t :: terms ++ e.stop :: back,by simp,?_⟩
    have hrun := MemberRun.mk hnamed hstop hback
    rw [latest_toList] at hrun
    exact hrun

/-- The tokens of a declaration: its keyword, its heading with the opening brace, those of its
members, the closing brace and the terminator behind it, if there is one. -/
inductive DeclRun : List Token → Decl → Prop
  | mk {d : Decl} {t u : Token} {front : List Token} {runs : List (List Token)}
      {stop : Option Token} (opened : t.isWord d.keyword = true)
      (headed : Gathered front d.heading d.markers)
      (members : List.Forall₂ MemberRun runs d.members) (closed : u.isOperator "\x7d" = true)
      (stopped : ∀ s ∈ stop, isTerminator s = true)
      (spanned : d.span = .between t.span (stop.getD u).span) :
      DeclRun (t :: (front ++ (runs.flatten ++ u :: stop.toList))) d

theorem Block.run {α : Type} {part : Part α} {member : α → Member}
    (hp : Runs part fun run a => MemberRun run (member a))
    {ts rest : List Token} {list : List α} {last : Token} (h : Block part ts (list,last) rest) :
    ∃ (t : Token) (runs : List (List Token)) (u : Token) (stop : Option Token),
      ts = t :: (runs.flatten ++ u :: (stop.toList ++ rest)) ∧
      Gathered [t] [] [] ∧ List.Forall₂ MemberRun runs (list.map member) ∧
        u.isOperator "\x7d" = true ∧ (∀ s ∈ stop, isTerminator s = true) ∧ last = stop.getD u := by
  cases h with
  | @mk t u _ mid _ _ stop opened members closed stopped =>
    obtain ⟨_,rfl,runs,rfl,hruns⟩ := runs_many hp members
    have hopen : OpenEnded (Token.isOperator "\x7b") := openEnded_operator (by decide)
    have hlist : List.Forall₂ MemberRun runs (list.map member) := by
      simpa [List.forall₂_map_right_iff] using hruns
    have hstop : mid = stop.toList ++ rest ∧ ∀ s ∈ stop, isTerminator s = true := by
      cases stopped with
      | present _ taken =>
        obtain ⟨hs⟩ := taken
        exact ⟨rfl,by simpa using hs⟩
      | absent => exact ⟨rfl,by simp⟩
    obtain ⟨rfl,hs⟩ := hstop
    exact ⟨t,runs,u,stop,rfl,.token hopen opened,hlist,closed,hs,rfl⟩

theorem runs_class : Runs ClassAt fun run c => DeclRun run (.class c) := by
  intro ts c rest h
  cases h with
  | @mk t last _ _ _ _ _ _ name identity parent removed properties mark named tagged headed gone
      block =>
    obtain ⟨first,rfl,hfirst⟩ := gathers_name named
    obtain ⟨second,rfl,hsecond⟩ := gathers_optional gathers_bracketed tagged
    have hexpects := gathers_behind (openEnded_word "expects")
    obtain ⟨third,rfl,hthird⟩ := gathers_optional hexpects headed
    obtain ⟨fourth,rfl,hfourth⟩ := gathers_optional (gathers_marked "removed") gone
    obtain ⟨o,runs,u,stop,rfl,ho,hruns,hu,hs,rfl⟩ := block.run runs_property
    have hheading : Gathered (first ++ second ++ third ++ fourth ++ [o])
        (Decl.class ⟨.between t.span (stop.getD u).span,name,identity,parent,removed,
          properties⟩).heading removed.toList := by
      refine ((((hfirst.append hsecond).append hthird).append hfourth).append ho).of_mem ?_
        (by simp)
      intro i hi
      simp only [Decl.heading,idents,List.mem_append] at hi ⊢
      tauto
    exact ⟨_,by simp,.mk mark hheading hruns hu hs rfl⟩

theorem runs_enum : Runs EnumAt fun run e => DeclRun run (.enum e) := by
  intro ts e rest h
  cases h with
  | @mk t last _ _ _ _ _ name storage flags values mark named stored flagged block =>
    obtain ⟨first,rfl,hfirst⟩ := gathers_name named
    obtain ⟨second,rfl,hsecond⟩ := gathers_optional gathers_bracketed stored
    have hone : Gathers (One (Token.isWord "flags")) (fun _ => []) fun _ => [] := by
      intro ts u rest h
      obtain ⟨hu⟩ := h
      exact ⟨[u],rfl,.token (openEnded_word "flags") hu⟩
    obtain ⟨third,rfl,hthird⟩ := gathers_optional hone flagged
    obtain ⟨o,runs,u,stop,rfl,ho,hruns,hu,hs,rfl⟩ := block.run runs_value
    have hheading : Gathered (first ++ second ++ third ++ [o])
        (Decl.enum ⟨.between t.span (stop.getD u).span,name,storage,flags.isSome,values⟩).heading
        [] := by
      refine (((hfirst.append hsecond).append hthird).append ho).of_mem ?_ (by simp)
      intro i hi
      simp only [Decl.heading,idents,List.mem_append] at hi ⊢
      tauto
    exact ⟨_,by simp,.mk mark hheading hruns hu hs rfl⟩

inductive ItemRun : List Token → Parser.Item → Prop
  | directive {t : Token} {argument : Option Token} (mark : t.kind = .directive) :
      ItemRun (t :: argument.toList) (.directive (directiveOf t argument))
  | decl {run : List Token} {d : Decl} (taken : DeclRun run d) : ItemRun run (.decl d)

theorem runs_item : Runs ItemAt ItemRun := by
  intro ts i rest h
  cases h with
  | directive taken =>
    cases taken with
    | @mk t _ _ argument mark _ given =>
      refine ⟨t :: argument.toList,?_,.directive mark⟩
      cases given with
      | present _ said =>
        obtain ⟨-⟩ := said
        rfl
      | absent => rfl
  | «class» taken =>
    obtain ⟨run,rfl,hrun⟩ := runs_class taken
    exact ⟨run,rfl,.decl hrun⟩
  | enum taken =>
    obtain ⟨run,rfl,hrun⟩ := runs_enum taken
    exact ⟨run,rfl,.decl hrun⟩

theorem runs_of_derives {tokens : List Token} {items : List Parser.Item}
    (h : Derives tokens items) :
    ∃ runs, tokens = runs.flatten ∧ List.Forall₂ ItemRun runs items := by
  obtain ⟨_,heq,runs,rfl,hruns⟩ := runs_many runs_item h
  exact ⟨runs,by simpa using heq,hruns⟩

theorem ItemRun.opener {run : List Token} {i : Parser.Item} (h : ItemRun run i) :
    ∃ t rest, run = t :: rest ∧ isTerminator t = false := by
  cases h with
  | @directive t argument mark => exact ⟨t,argument.toList,rfl,by simp [isTerminator,mark]⟩
  | decl taken =>
    cases taken with
    | mk opened => exact ⟨_,_,rfl,(openEnded_word _ _ opened).1⟩

end Grammar

end WireSchema.Document
