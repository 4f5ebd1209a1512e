import WireSchema.Proofs.Document.Reading
import Mathlib.Data.List.TakeWhile
set_option autoImplicit false

namespace WireSchema.Document

namespace Grammar

open WireSchema.Document.Parser

section Blocks

variable {α : Type} {place : Place} {opening : Token} {member : Parser α} {part : Part α}

theorem members_run {fuel : Nat} {t : Token} {ts : List Token} (ht : Known t) :
    members place opening member (fuel + 1) (t :: ts) =
      (if t.isOperator "\x7d" then pure []
        else do
          let first ← member
          let more ← members place opening member fuel
          return first :: more : Parser (List α)) (t :: ts) := by
  have hp : peek place (t :: ts) = .ok (t,t :: ts) := peek_ok.mpr ⟨ht.1,rfl,rfl⟩
  rw [members]
  change (peek place (t :: ts) >>= _) = _
  simp [hp,ht.2]

theorem members_known (hs : place.stop.kind = .eof) {fuel : Nat} {ts rest : List Token}
    {as : List α} (h : members place opening member (fuel + 1) ts = .ok (as,rest)) :
    ∃ t more, ts = t :: more ∧ Known t := by
  rw [members] at h
  obtain ⟨u,_,hpeek,h⟩ := bind_ok.mp h
  obtain ⟨hi,hu,rfl⟩ := peek_ok.mp hpeek
  by_cases hk : u.kind = .eof
  · simp only [hk,if_true,bind_ok,throw_ok] at h
    simp at h
  · cases ts with
    | nil => simp [hu,hs] at hk
    | cons t more =>
      have hut : u = t := hu
      exact ⟨t,more,rfl,by simpa using hi,hut ▸ hk⟩

theorem not_close_of_isIdent {t : Token} (h : isIdent t = true) :
    t.isOperator "\x7d" = false := by
  have hk : t.kind = .ident := by simpa [isIdent] using h
  simp [Token.isOperator,hk]

theorem loop_members (opening : Token) (hs : place.stop.kind = .eof) (hm : Reads member part)
    (hfirst : ∀ {ts a mid}, part ts a mid → next isIdent ts = true)
    (hshort : ∀ {ts a mid}, part ts a mid → mid.length < ts.length) :
    Loop isIdent part (fun ts => next (Token.isOperator "\x7d") ts = true)
      (members place opening member) 1 where
  takes := hm.takes
  shorter := hshort
  start := by
    intro as rest
    constructor
    · intro h
      obtain ⟨t,more,ht,-⟩ := members_known hs h
      simp at ht
    · simp
  step_sound := by
    intro fuel ts as rest h
    obtain ⟨t,ts,rfl,ht⟩ := members_known hs h
    rw [members_run ht] at h
    by_cases hc : t.isOperator "\x7d" = true
    · simp only [hc,if_true,pure_ok] at h
      have hi : isIdent t = false := by
        by_contra hi
        simp [not_close_of_isIdent (by simpa using hi)] at hc
      exact .inl ⟨by simpa using hi,by simpa using hc,h⟩
    · rw [if_neg hc] at h
      obtain ⟨a,mid,ha,h⟩ := bind_ok.mp h
      obtain ⟨more,_,hmore,h⟩ := bind_ok.mp h
      obtain ⟨rfl,rfl⟩ := pure_ok.mp h
      exact .inr ⟨hfirst (hm.sound ha),a,mid,more,hm.sound ha,hmore,rfl⟩
  end_complete := by
    intro fuel ts hc _ ho
    obtain ⟨t,ts,rfl,ht⟩ := exists_of_next ho
    rw [members_run (clean_cons.mp hc),if_pos ht]
    rfl
  step_complete := by
    intro fuel ts a mid more rest hmid hi ha hmore
    obtain ⟨t,ts,rfl,ht⟩ := exists_of_next hi
    rw [members_run (telling_ident t ht),if_neg (by simp [not_close_of_isIdent ht])]
    exact bind_ok.mpr ⟨a,mid,hm.complete hmid ha,
      bind_ok.mpr ⟨more,rest,hmore,pure_ok.mpr ⟨rfl,rfl⟩⟩⟩

theorem reads_block (hs : place.stop.kind = .eof) (hm : Reads member part)
    (hfirst : ∀ {ts a mid}, part ts a mid → next isIdent ts = true)
    (hshort : ∀ {ts a mid}, part ts a mid → mid.length < ts.length) :
    Reads (block place member) fun ts b rest =>
      ∃ list last, Block part ts (list,last) rest ∧ b = (list,last.span) := by
  refine Reads.of_iff (Reads.bind (reads_operator hs "\x7b") fun t =>
    (loop_members t hs hm hfirst hshort).reads fun list =>
      Reads.bind (reads_operator hs "\x7d") fun u =>
        Reads.of_pure (g := fun o => (list,(o.getD u).span))
          (reads_accept hs telling_terminator) ?_) ?_
  · intro o
    cases o <;> rfl
  · intro ts b rest
    constructor
    · rintro ⟨t,_,⟨ht⟩,list,_,⟨hmany,-⟩,u,_,⟨hu⟩,o,ho,rfl⟩
      exact ⟨list,o.getD u,⟨ht,hmany,hu,ho⟩,rfl⟩
    · rintro ⟨list,_,⟨ht,hmany,hu,ho⟩,rfl⟩
      exact ⟨_,_,⟨ht⟩,list,_,⟨hmany,by simpa using hu⟩,_,_,⟨hu⟩,_,ho,rfl⟩

end Blocks

theorem Name.length_eq {ts rest : List Token} {name : Ident} (h : Name ts name rest) :
    ts.length = rest.length + 1 := by
  obtain ⟨-⟩ := h
  simp

theorem PropertyAt.next {ts rest : List Token} {p : Property} (h : PropertyAt ts p rest) :
    next isIdent ts = true := by
  obtain ⟨hb,-⟩ := h
  cases hb with
  | flagged hfirst => exact hfirst.next
  | plain hfirst => exact hfirst.next

section Declarations

variable {place : Place} (hs : place.stop.kind = .eof)

include hs

theorem PropertyAt.shorter {ts rest : List Token} {p : Property} (h : PropertyAt ts p rest) :
    rest.length < ts.length := by
  obtain ⟨hb,he⟩ := h
  have hend := ((reads_ended hs id).takes ⟨_,he,rfl⟩).length_le
  cases hb with
  | flagged hfirst _ hoption hsecond hthird =>
    have hopt := ((reads_bracketed hs []).takes hoption).length_le
    have h₁ := hfirst.length_eq
    have h₂ := hsecond.length_eq
    have h₃ := hthird.length_eq
    omega
  | plain hfirst hoption hsecond =>
    have hopt := ((reads_bracketed hs []).takes hoption).length_le
    have h₁ := hfirst.length_eq
    have h₂ := hsecond.length_eq
    omega

theorem ValueAt.shorter {ts rest : List Token} {v : EnumValue} (h : ValueAt ts v rest) :
    rest.length < ts.length := by
  obtain ⟨hn,he⟩ := h
  have hend := ((reads_ended hs id).takes ⟨_,he,rfl⟩).length_le
  have hname := hn.length_eq
  omega

theorem reads_parent {β : Type} {f : Option Ident → Parser β} {q : Option Ident → Part β}
    (hf : ∀ parent, Reads (f parent) (q parent)) :
    Reads (do
      match ← word? place "expects" with
      | some _ =>
        let parent ← some <$> ident place "parent class name"
        f parent
      | none =>
        let parent ← pure none
        f parent) fun ts b rest => ∃ parent mid,
          Optional (Token.isWord "expects") (Behind (Token.isWord "expects")) ts parent mid ∧
            q parent mid b rest := by
  have hparent : Reads (do
      match ← accept? place (Token.isWord "expects") with
      | some _ => some <$> ident place "parent class name"
      | none => pure none)
      (Optional (Token.isWord "expects") (Behind (Token.isWord "expects"))) := by
    refine (reads_optional (g := id) (r := Behind (Token.isWord "expects")) hs
      (telling_word "expects") rfl ?_).of_iff (by simp)
    intro t ht
    refine ((reads_ident hs _).map some).of_iff ?_
    intro ts o rest
    constructor
    · rintro ⟨name,hname,rfl⟩
      exact ⟨name,⟨ht,hname⟩,rfl⟩
    · rintro ⟨name,⟨-,hname⟩,rfl⟩
      exact ⟨name,hname,rfl⟩
  have h := hparent.bind hf
  rw [bind_assoc] at h
  refine cast (congrArg (Reads · _) ?_) h
  congr 1
  funext o
  cases o <;> rfl

end Declarations

section Items

variable {stop : Token} (hs : stop.kind = .eof)

include hs

theorem reads_class {t : Token} (ht : t.isWord "class" = true) :
    Reads (classDecl stop t) fun ts c rest => ClassAt (t :: ts) c rest := by
  have hplace (name : Ident) : (⟨stop,name.text⟩ : Place).stop.kind = .eof := hs
  refine Reads.of_iff (Reads.bind (reads_ident hs _) fun name =>
    Reads.bind (reads_bracketed (hplace name) _) fun identity =>
      reads_parent (hplace name) fun parent =>
        Reads.bind (reads_marker (hplace name) "removed") fun removed =>
          Reads.bind (reads_block (hplace name) (reads_property (hplace name)) PropertyAt.next
            (PropertyAt.shorter (hplace name))) fun x =>
              reads_pure (⟨.between t.span x.2,name,identity,parent,removed,x.1⟩ : Class)) ?_
  intro ts c rest
  constructor
  · rintro ⟨name,_,hname,identity,_,hid,parent,_,hpar,removed,_,hrem,_,_,⟨list,last,hb,rfl⟩,rfl,rfl⟩
    exact ⟨ht,hname,hid,hpar,hrem,hb⟩
  · rintro ⟨-,hname,hid,hpar,hrem,hb⟩
    exact ⟨_,_,hname,_,_,hid,_,_,hpar,_,_,hrem,_,_,⟨_,_,hb,rfl⟩,rfl,rfl⟩

theorem reads_enum {t : Token} (ht : t.isWord "enum" = true) :
    Reads (enumDecl stop t) fun ts e rest => EnumAt (t :: ts) e rest := by
  have hplace (name : Ident) : (⟨stop,name.text⟩ : Place).stop.kind = .eof := hs
  refine Reads.of_iff (Reads.bind (reads_ident hs _) fun name =>
    Reads.bind (reads_bracketed (hplace name) _) fun storage =>
      Reads.bind (reads_accept (hplace name) (telling_word "flags")) fun flags =>
        Reads.bind (reads_block (hplace name) (reads_enumValue (hplace name))
          (fun h => by obtain ⟨hn,-⟩ := h; exact hn.next) (ValueAt.shorter (hplace name))) fun x =>
            reads_pure (⟨.between t.span x.2,name,storage,flags.isSome,x.1⟩ : Enum)) ?_
  intro ts e rest
  constructor
  · rintro ⟨name,_,hname,storage,_,hst,flags,_,hfl,_,_,⟨list,last,hb,rfl⟩,rfl,rfl⟩
    exact ⟨ht,hname,hst,hfl,hb⟩
  · rintro ⟨-,hname,hst,hfl,hb⟩
    exact ⟨_,_,hname,_,_,hst,_,_,hfl,_,_,⟨_,_,hb,rfl⟩,rfl,rfl⟩

theorem reads_directive {t : Token} (ht : t.kind = .directive) :
    Reads (directive stop t) fun ts d rest => DirectiveAt (t :: ts) d rest := by
  unfold directive
  by_cases hv : t.value = []
  · rw [if_pos (by simp [hv])]
    refine Reads.of_iff (reads_throw (.emptyDirective t)) ?_
    intro ts d rest
    constructor
    · simp
    · rintro ⟨-,hnamed,-⟩
      exact hnamed hv
  · rw [if_neg (by simp [hv])]
    refine Reads.of_iff (Reads.of_pure (g := directiveOf t) (reads_accept hs telling_string) ?_) ?_
    · intro o
      cases o <;> rfl
    · intro ts d rest
      constructor
      · rintro ⟨o,ho,rfl⟩
        exact ⟨ht,hv,ho⟩
      · rintro ⟨-,-,ho⟩
        exact ⟨_,ho,rfl⟩

omit hs in
theorem itemAt_iff {t : Token} {ts rest : List Token} {i : Item} : ItemAt (t :: ts) i rest ↔
    t.kind = .directive ∧ (∃ d, DirectiveAt (t :: ts) d rest ∧ .directive d = i) ∨
      t.isWord "class" = true ∧ (∃ c, ClassAt (t :: ts) c rest ∧ .decl (.class c) = i) ∨
        t.isWord "enum" = true ∧ ∃ e, EnumAt (t :: ts) e rest ∧ .decl (.enum e) = i := by
  constructor
  · intro h
    cases h with
    | directive taken =>
      have htaken := taken
      obtain ⟨ht⟩ := taken
      exact .inl ⟨ht,_,htaken,rfl⟩
    | «class» taken =>
      have htaken := taken
      obtain ⟨ht⟩ := taken
      exact .inr (.inl ⟨ht,_,htaken,rfl⟩)
    | enum taken =>
      have htaken := taken
      obtain ⟨ht⟩ := taken
      exact .inr (.inr ⟨ht,_,htaken,rfl⟩)
  · rintro (⟨-,d,hd,rfl⟩ | ⟨-,c,hc,rfl⟩ | ⟨-,e,he,rfl⟩)
    · exact .directive hd
    · exact .class hc
    · exact .enum he

theorem reads_item (t : Token) :
    Reads (item stop t) fun ts i rest => ItemAt (t :: ts) i rest := by
  have hword (word : Text) : t.isWord word = true ↔ t.kind = .ident ∧ t.text = word := by
    simp [Token.isWord]
  unfold item
  by_cases hd : t.kind = .directive
  · rw [if_pos hd]
    refine ((reads_directive hs hd).map Item.directive).of_iff ?_
    simp [itemAt_iff,hword,hd]
  · rw [if_neg hd]
    by_cases hc : t.isWord "class" = true
    · have he : t.isWord "enum" ≠ true := by
        have hne : Text.ofString "class" ≠ Text.ofString "enum" := by decide
        simp [hword,((hword _).mp hc).2,hne]
      rw [if_pos hc]
      refine ((reads_class hs hc).map (Item.decl ∘ Decl.class)).of_iff ?_
      simp [itemAt_iff,hd,hc,he]
    · rw [if_neg hc]
      by_cases he : t.isWord "enum" = true
      · rw [if_pos he]
        refine ((reads_enum hs he).map (Item.decl ∘ Decl.enum)).of_iff ?_
        simp [itemAt_iff,hd,hc,he]
      · rw [if_neg he]
        have hnone (f : Fault) :
            Reads (throw f : Parser Item) fun ts i rest => ItemAt (t :: ts) i rest :=
          (reads_throw f).of_iff (by simp [itemAt_iff,hd,hc,he])
        split
        · exact hnone _
        · exact hnone _

omit hs in
theorem telling_opener : Telling isOpener := by
  intro t ht
  simp only [isOpener,Bool.or_eq_true,beq_iff_eq] at ht
  rcases ht with (ht | ht) | ht
  · simp [Known,ht]
  · exact telling_word _ t ht
  · exact telling_word _ t ht

omit hs in
theorem ItemAt.opener {ts rest : List Token} {i : Item} (h : ItemAt ts i rest) :
    ∃ t more, ts = t :: more ∧ isOpener t = true := by
  cases h with
  | directive taken =>
    obtain ⟨ht⟩ := taken
    exact ⟨_,_,rfl,by simp [isOpener,ht]⟩
  | «class» taken =>
    obtain ⟨ht⟩ := taken
    exact ⟨_,_,rfl,by simp [isOpener,ht]⟩
  | enum taken =>
    obtain ⟨ht⟩ := taken
    exact ⟨_,_,rfl,by simp [isOpener,ht]⟩

theorem items_nil (fuel : Nat) : items stop (fuel + 1) [] = .ok ([],[]) := by
  rw [items]
  exact bind_ok.mpr ⟨stop,[],peek_ok.mpr ⟨by simp [hs],rfl,rfl⟩,by simp [hs,pure_ok]⟩

theorem loop_items :
    Loop isOpener ItemAt (fun ts => (ts.head?.getD stop).kind = .eof) (items stop) 1 where
  takes := by
    intro ts i mid h
    obtain ⟨t,more,rfl,ht⟩ := h.opener
    exact .cons (telling_opener t ht) ((reads_item hs t).takes h)
  shorter := by
    intro ts i mid h
    obtain ⟨t,more,rfl,ht⟩ := h.opener
    have hle := ((reads_item hs t).takes h).length_le
    simp only [List.length_cons]
    omega
  start := by
    intro as rest
    rw [items_nil hs]
    simp [hs,eq_comm]
  step_sound := by
    intro fuel ts as rest h
    cases ts with
    | nil =>
      rw [items_nil hs] at h
      exact .inl ⟨rfl,hs,by simpa [eq_comm] using h⟩
    | cons t ts =>
      rw [items] at h
      obtain ⟨u,_,hpeek,h⟩ := bind_ok.mp h
      obtain ⟨-,hu,rfl⟩ := peek_ok.mp hpeek
      obtain rfl : u = t := hu
      by_cases hk : u.kind = .eof
      · rw [if_pos hk] at h
        have hn : isOpener u = false := by
          by_contra ho
          exact (telling_opener u (by simpa using ho)).2 hk
        exact .inl ⟨hn,hk,pure_ok.mp h⟩
      · rw [if_neg hk] at h
        obtain ⟨_,_,htail,h⟩ := bind_ok.mp h
        obtain rfl := modify_ok.mp htail
        obtain ⟨i,mid,hi,h⟩ := bind_ok.mp h
        obtain ⟨more,_,hmore,h⟩ := bind_ok.mp h
        obtain ⟨rfl,rfl⟩ := pure_ok.mp h
        have hitem := (reads_item hs u).sound hi
        obtain ⟨_,_,⟨⟩,ho⟩ := hitem.opener
        exact .inr ⟨ho,i,mid,more,hitem,hmore,rfl⟩
  end_complete := by
    intro fuel ts hc _ ho
    cases ts with
    | nil => exact items_nil hs fuel
    | cons t ts => exact absurd ho (clean_cons.mp hc).2
  step_complete := by
    intro fuel ts i mid more rest hmid hfirst hi hmore
    obtain ⟨t,ts,rfl,ht⟩ := exists_of_next hfirst
    have hknown := telling_opener t ht
    rw [items]
    refine bind_ok.mpr ⟨t,t :: ts,peek_ok.mpr ⟨hknown.1,rfl,rfl⟩,?_⟩
    rw [if_neg hknown.2]
    refine bind_ok.mpr ⟨(),ts,modify_ok.mpr rfl,?_⟩
    exact bind_ok.mpr ⟨i,mid,(reads_item hs t).complete hmid hi,
      bind_ok.mpr ⟨more,rest,hmore,pure_ok.mpr ⟨rfl,rfl⟩⟩⟩

end Items

theorem stopOf_kind (tokens : List Token) : (stopOf tokens).kind = .eof := by
  unfold stopOf
  split
  · rename_i token _ h
    simpa using List.find?_some h
  · rfl
  · rfl

section Source

variable {tokens : List Token} (hk : ∀ t ∈ tokens, t.kind ≠ .space ∧ t.kind ≠ .eof)

include hk

theorem readable_eq : readable tokens = tokens := by
  have htake : tokens.takeWhile (·.kind != .eof) = tokens :=
    List.takeWhile_eq_self_iff.mpr fun t ht => by simp [(hk t ht).2]
  rw [readable,htake]
  exact List.filter_eq_self.mpr fun t ht => by simp [(hk t ht).1]

theorem stopOf_offset :
    (stopOf tokens).offset = (tokens.getLast?.map fun t => t.span.stop).getD 0 := by
  have hfind : tokens.find? (·.kind == .eof) = none :=
    List.find?_eq_none.mpr fun t ht => by simp [(hk t ht).2]
  unfold stopOf
  rw [hfind]
  cases tokens.getLast? with
  | none => rfl
  | some last => rfl

theorem items_iff_derives {items : List Item} :
    (∃ rest, Parser.items (stopOf tokens) (tokens.length + 1) tokens = .ok (items,rest)) ↔
      Derives tokens items := by
  have hloop := loop_items (stopOf_kind tokens)
  constructor
  · rintro ⟨rest,h⟩
    obtain ⟨hm,ho⟩ := hloop.sound _ (Nat.le_refl _) h
    obtain ⟨taken,htaken,-⟩ := hm.takes hloop.takes
    cases rest with
    | nil => exact hm
    | cons t rest => exact absurd ho (hk t (by simp [htaken])).2
  · intro h
    exact ⟨[],hloop.complete _ (Nat.le_refl _) clean_nil (stopOf_kind tokens) h⟩

theorem ofTokens_iff_derives {doc : Document} :
    ofTokens tokens = .ok doc ↔ ∃ items, Derives tokens items ∧ doc = documentOf tokens items := by
  unfold ofTokens
  rw [readable_eq hk,Result.bind_eq_ok]
  have hrun (items : List Item) :
      (Parser.items (stopOf tokens) (tokens.length + 1)).run' tokens = .ok items ↔
        Derives tokens items := by
    rw [← items_iff_derives hk]
    change Prod.fst <$> Parser.items (stopOf tokens) (tokens.length + 1) tokens = _ ↔ _
    cases Parser.items (stopOf tokens) (tokens.length + 1) tokens with
    | error e => simp
    | ok x =>
      obtain ⟨read,rest⟩ := x
      simp
  constructor
  · rintro ⟨items,hi,hd⟩
    refine ⟨items,(hrun items).mp hi,?_⟩
    cases hd
    rw [documentOf,stopOf_offset hk]
  · rintro ⟨items,hi,rfl⟩
    refine ⟨items,(hrun items).mpr hi,?_⟩
    rw [documentOf,stopOf_offset hk]
    rfl

end Source

end Grammar

theorem ofSource_kinds (src : Text) :
    ∀ t ∈ Token.ofSource src, t.kind ≠ .space ∧ t.kind ≠ .eof := by
  intro t ht
  simpa [Token.ofSource] using (List.mem_filter.mp ht).2

/-- The tokens of a source are accepted exactly if they derive from the grammar. The document holds
the directives and the declarations of the derivation, with all that they say, in their order. -/
theorem ofTokens_ok_iff_derives (src : Text) (doc : Document) :
    ofTokens (Token.ofSource src) = .ok doc ↔
      ∃ items, Grammar.Derives (Token.ofSource src) items ∧
        doc = Grammar.documentOf (Token.ofSource src) items :=
  Grammar.ofTokens_iff_derives (ofSource_kinds src)

end WireSchema.Document
