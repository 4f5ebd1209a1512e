import WireSchema.Proofs.Document.Derivation
set_option autoImplicit false

namespace WireSchema.Document

namespace Parser

/-- Reading that stays among the tokens seen so far, be it that it succeeds or that it fails. -/
def Among {α : Type} (seen : Token → Prop) (m : Parser α) (P : α → Prop) : Prop :=
  ∀ ts, (∀ t ∈ ts, seen t) → match m ts with
    | .ok (a,rest) => (∀ t ∈ rest, seen t) ∧ P a
    | .error fault => seen fault.token

section Rules

variable {α β : Type} {seen : Token → Prop} {m : Parser α} {f : α → Parser β}
variable {P : α → Prop} {Q : β → Prop}

theorem Among.pure {a : α} (h : P a) : Among seen (Pure.pure a : Parser α) P :=
  fun _ hts => ⟨hts,h⟩

theorem Among.throw {fault : Fault} (h : seen fault.token) :
    Among seen (throw fault : Parser α) P :=
  fun _ _ => h

theorem Among.bind (hm : Among seen m P) (hf : ∀ a, P a → Among seen (f a) Q) :
    Among seen (m >>= f) Q := by
  intro ts hts
  have hfirst := hm ts hts
  change match (m ts >>= fun x => f x.1 x.2 : Except Fault (β × List Token)) with
    | .ok (b,rest) => (∀ t ∈ rest, seen t) ∧ Q b
    | .error fault => seen fault.token
  cases hrun : m ts with
  | error fault => simpa [hrun] using hfirst
  | ok x =>
    simp only [hrun] at hfirst
    exact hf x.1 hfirst.2 x.2 hfirst.1

theorem Among.map {g : α → β} (hm : Among seen m P) (hg : ∀ a, P a → Q (g a)) :
    Among seen (g <$> m) Q := by
  rw [map_eq_pure_bind]
  exact hm.bind fun a ha => .pure (hg a ha)

theorem Among.get : Among seen get fun ts => ∀ t ∈ ts, seen t := fun _ hts => ⟨hts,hts⟩

theorem Among.tail : Among seen (modify List.tail) fun _ => True :=
  fun _ hts => ⟨fun t ht => hts t (List.mem_of_mem_tail ht),trivial⟩

end Rules

section Parts

variable {α : Type} {seen : Token → Prop} {place : Place} (hs : seen place.stop)

include hs

theorem among_peek : Among seen (peek place) seen := by
  unfold peek
  refine Among.get.bind fun ts hts => ?_
  have htoken : seen (ts.head?.getD place.stop) := by
    cases ts with
    | nil => exact hs
    | cons t ts => exact hts t List.mem_cons_self
  dsimp only
  split
  · exact (Among.throw (P := fun _ => False) htoken).bind fun _ => False.elim
  · exact .pure htoken

theorem among_accept (fits : Token → Bool) :
    Among seen (accept? place fits) fun o => ∀ t ∈ o, seen t ∧ fits t = true := by
  unfold accept?
  refine (among_peek hs).bind fun t ht => ?_
  by_cases hfit : fits t = true
  · rw [if_pos hfit]
    exact Among.tail.bind fun _ _ => .pure (by simp [ht,hfit])
  · rw [if_neg hfit]
    exact .pure (by simp)

theorem among_expect (what : Text) (fits : Token → Bool) :
    Among seen (expect place what fits) fun t => seen t ∧ fits t = true := by
  unfold expect
  refine (among_accept hs fits).bind fun o ho => ?_
  cases o with
  | some t => exact .pure (ho t rfl)
  | none => exact (among_peek hs).bind fun t ht => .throw ht

theorem among_ident (what : Text) :
    Among seen (ident place what) fun i => seen ⟨.ident,i.text,i.start⟩ := by
  unfold ident
  refine (among_expect hs what _).bind fun t ht => .pure ?_
  have hkind : t.kind = .ident := by simpa using ht.2
  rw [← hkind]
  exact ht.1

theorem among_terminator : Among seen (terminator place) fun _ => True := by
  unfold terminator
  refine (among_accept hs _).bind fun o _ => ?_
  cases o with
  | some t => exact .pure trivial
  | none => exact (among_peek hs).bind fun t ht => .throw ht

theorem among_marker (word : Text) : Among seen (marker? place word) fun _ => True := by
  unfold marker?
  refine (among_accept hs _).bind fun o _ => ?_
  cases o with
  | none => exact .pure trivial
  | some t =>
    refine (among_accept hs _).bind fun o _ => ?_
    cases o <;> exact .pure trivial

theorem among_operator (op : Text) : Among seen (operator? place op) fun _ => True :=
  (among_accept hs _).bind fun _ _ => .pure trivial

theorem among_bracketed (what : Text) : Among seen (bracketed? place what) fun _ => True := by
  unfold bracketed?
  refine (among_operator hs "<").bind fun b _ => ?_
  cases b with
  | false => exact .pure trivial
  | true =>
    refine (among_ident hs what).bind fun i _ => ?_
    exact ((among_expect hs _ _).map (Q := fun _ => True) fun _ _ => trivial).bind
      fun _ _ => .pure trivial

theorem among_moreTerms (fuel : Nat) : Among seen (moreTerms place fuel) fun _ => True := by
  induction fuel with
  | zero => exact .pure trivial
  | succ fuel ih =>
    unfold moreTerms
    refine (among_operator hs "|").bind fun b _ => ?_
    cases b with
    | false => exact .pure trivial
    | true =>
      refine (among_ident hs _).bind fun i _ => ?_
      exact ih.bind fun _ _ => .pure trivial

theorem among_defaults : Among seen (defaults place) fun _ => True := by
  unfold defaults
  refine (among_operator hs "=").bind fun b _ => ?_
  cases b with
  | false => exact .pure trivial
  | true =>
    refine (among_ident hs _).bind fun i _ => ?_
    refine Among.get.bind fun ts _ => ?_
    exact (among_moreTerms hs _).bind fun _ _ => .pure trivial

theorem among_flagged {first : Ident} (hfirst : seen ⟨.ident,first.text,first.start⟩)
    (second : Ident)
    {f : Option Flag × Ident × Ident → Parser α} {P : α → Prop} (hf : ∀ x, Among seen (f x) P) :
    Among seen (do
      match ← ident? place with
      | none =>
        let x ← pure (none,first,second)
        f x
      | some third =>
        match Flag.ofWord? first.text with
        | some flag =>
          let x ← pure (some flag,second,third)
          f x
        | none =>
          let x ← throw (.unknownFlag ⟨.ident,first.text,first.start⟩ place.decl)
          f x) P := by
  unfold ident?
  refine ((among_accept hs _).bind fun o _ => .pure (P := fun _ => True) trivial).bind
    fun third _ => ?_
  cases third with
  | none => exact hf _
  | some third =>
    dsimp only
    cases Flag.ofWord? first.text with
    | some flag => exact hf _
    | none => exact (Among.throw (P := fun _ => False) hfirst).bind fun _ => False.elim

theorem among_property : Among seen (property place) fun _ => True := by
  unfold property
  refine (among_ident hs _).bind fun first hfirst => ?_
  refine (among_bracketed hs _).bind fun option _ => ?_
  refine (among_ident hs _).bind fun second _ => ?_
  refine among_flagged hs hfirst second fun x => ?_
  refine (among_defaults hs).bind fun terms _ => ?_
  refine (among_terminator hs).bind fun stop _ => ?_
  refine (among_marker hs _).bind fun obsolete _ => ?_
  exact (among_marker hs _).bind fun removed _ => .pure trivial

theorem among_enumValue : Among seen (enumValue place) fun _ => True := by
  unfold enumValue
  refine (among_ident hs _).bind fun name _ => ?_
  refine (among_defaults hs).bind fun terms _ => ?_
  refine (among_terminator hs).bind fun stop _ => ?_
  refine (among_marker hs _).bind fun obsolete _ => ?_
  exact (among_marker hs _).bind fun removed _ => .pure trivial

theorem among_parent {f : Option Ident → Parser α} {P : α → Prop} (hf : ∀ o, Among seen (f o) P) :
    Among seen (do
      match ← word? place "expects" with
      | some _ =>
        let parent ← some <$> ident place "parent class name"
        f parent
      | none =>
        let parent ← pure none
        f parent) P := by
  unfold word?
  refine (among_accept hs _).bind fun o _ => ?_
  cases o with
  | none => exact hf none
  | some _ =>
    exact ((among_ident hs _).map (Q := fun _ => True) fun _ _ => trivial).bind fun o _ => hf o

theorem among_members {opening : Token} (ho : seen opening) {member : Parser α}
    (hm : Among seen member fun _ => True) (fuel : Nat) :
    Among seen (members place opening member fuel) fun _ => True := by
  induction fuel with
  | zero => exact .pure trivial
  | succ fuel ih =>
    unfold members
    refine (among_peek hs).bind fun t ht => ?_
    dsimp only
    split
    · exact (Among.throw (P := fun _ => False) ho).bind fun _ => False.elim
    · split
      · exact .pure trivial
      · exact hm.bind fun _ _ => ih.bind fun _ _ => .pure trivial

theorem among_block {member : Parser α} (hm : Among seen member fun _ => True) :
    Among seen (block place member) fun _ => True := by
  unfold block operator
  refine (among_expect hs _ _).bind fun opening ho => ?_
  refine Among.get.bind fun ts _ => ?_
  refine (among_members hs ho.1 hm _).bind fun list _ => ?_
  refine (among_expect hs _ _).bind fun closing _ => ?_
  refine (among_accept hs _).bind fun o _ => ?_
  cases o <;> exact .pure trivial

end Parts

section Items

variable {seen : Token → Prop} {stop : Token} (hs : seen stop)

include hs

theorem among_class (keyword : Token) : Among seen (classDecl stop keyword) fun _ => True := by
  unfold classDecl
  refine (among_ident hs _).bind fun name _ => ?_
  refine (among_bracketed hs _).bind fun identity _ => ?_
  have hplace : seen (Place.mk stop name.text).stop := hs
  refine among_parent hplace fun parent => ?_
  refine (among_marker hs _).bind fun removed _ => ?_
  exact (among_block hs (among_property hs)).bind fun _ _ => .pure trivial

theorem among_enum (keyword : Token) : Among seen (enumDecl stop keyword) fun _ => True := by
  unfold enumDecl word?
  refine (among_ident hs _).bind fun name _ => ?_
  refine (among_bracketed hs _).bind fun storage _ => ?_
  refine (among_accept hs _).bind fun flags _ => ?_
  exact (among_block hs (among_enumValue hs)).bind fun _ _ => .pure trivial

theorem among_directive {token : Token} (ht : seen token) :
    Among seen (directive stop token) fun _ => True := by
  unfold directive
  dsimp only
  split
  · exact (Among.throw (P := fun _ => False) ht).bind fun _ => False.elim
  · refine (among_accept hs _).bind fun o _ => ?_
    cases o <;> exact .pure trivial

theorem among_item {token : Token} (ht : seen token) :
    Among seen (item stop token) fun _ => True := by
  unfold item
  split
  · exact (among_directive hs ht).map fun _ _ => trivial
  split
  · exact (among_class hs token).map fun _ _ => trivial
  split
  · exact (among_enum hs token).map fun _ _ => trivial
  split
  · exact .throw ht
  · exact .throw ht

theorem among_items (fuel : Nat) : Among seen (items stop fuel) fun _ => True := by
  induction fuel with
  | zero => exact .pure trivial
  | succ fuel ih =>
    unfold items
    refine (among_peek hs).bind fun t ht => ?_
    split
    · exact .pure trivial
    · refine Among.tail.bind fun _ _ => ?_
      exact (among_item hs ht).bind fun _ _ => ih.bind fun _ _ => .pure trivial

end Items

end Parser

open WireSchema.Document.Parser Grammar

section Tokens

variable {tokens : List Token} {fault : Fault}

theorem fault_token (hk : ∀ t ∈ tokens, t.kind ≠ .space ∧ t.kind ≠ .eof)
    (h : ofTokens tokens = .error fault) :
    fault.token ∈ tokens ∨ fault.token = stopOf tokens := by
  have hamong : Among (fun t => t ∈ tokens ∨ t = stopOf tokens)
      (items (stopOf tokens) (tokens.length + 1)) fun _ => True := among_items (.inr rfl) _
  have hitems := hamong tokens fun t ht => .inl ht
  unfold ofTokens at h
  rw [readable_eq hk] at h
  change (Prod.fst <$> items (stopOf tokens) (tokens.length + 1) tokens) >>= _ = _ at h
  cases hrun : items (stopOf tokens) (tokens.length + 1) tokens with
  | ok x =>
    rw [hrun] at h
    cases h
  | error found =>
    rw [hrun] at h hitems
    cases h
    exact hitems

theorem ofTokens_nil : (ofTokens []).isOk = true := rfl

theorem stopOf_concat {front : List Token} {last : Token}
    (hk : ∀ t ∈ front ++ [last], t.kind ≠ .space ∧ t.kind ≠ .eof) :
    stopOf (front ++ [last]) = ⟨.eof,[],last.span.stop⟩ := by
  have hfind : (front ++ [last]).find? (·.kind == .eof) = none :=
    List.find?_eq_none.mpr fun t ht => by simp [(hk t ht).2]
  unfold stopOf
  rw [hfind]
  simp

end Tokens

theorem fault_of_parse {src : Text} {fault : Fault} (h : parse src = .error fault) :
    fault.token ∈ Token.ofSource src ∨ ∃ front last, Token.ofSource src = front ++ [last] ∧
      fault.token = ⟨.eof,[],last.span.stop⟩ := by
  have hk := ofSource_kinds src
  cases fault_token hk h with
  | inl hmem => exact .inl hmem
  | inr hstop =>
    cases List.eq_nil_or_concat' (Token.ofSource src) with
    | inl hnil =>
      rw [parse,hnil] at h
      have hok := ofTokens_nil
      rw [h] at hok
      cases hok
    | inr hconcat =>
      obtain ⟨front,last,heq⟩ := hconcat
      rw [heq] at hk hstop
      exact .inr ⟨front,last,heq,hstop.trans (stopOf_concat hk)⟩

end WireSchema.Document
