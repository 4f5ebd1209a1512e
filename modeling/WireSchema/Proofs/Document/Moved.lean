import WireSchema.Proofs.Document.Derivation
import WireSchema.Proofs.Token.Lines
set_option autoImplicit false

/-!
A document in the middle of a longer text. Its parts are the same ones at later offsets, whatever
items follow: an optional part that is not there at the end of a source is not the first token of a
directive or a declaration either.
-/

namespace WireSchema

def Span.shift (k : UInt32) (s : Span) : Span := { s with start := s.start + k }

/-- What stands somewhere in a source can be moved along it, and has identifiers in it. -/
class Placed (α : Type) where
  shift : UInt32 → α → α
  idents : α → List Ident

open Placed (shift idents)

instance {α : Type} [Placed α] : Placed (Option α) where
  shift k := Option.map (shift k)
  idents o := o.toList.flatMap idents

instance {α : Type} [Placed α] : Placed (List α) where
  shift k := List.map (shift k)
  idents as := as.flatMap idents

instance {α β : Type} [Placed α] [Placed β] : Placed (α × β) where
  shift k x := (shift k x.1,shift k x.2)
  idents x := idents x.1 ++ idents x.2

instance : Placed Token where
  shift := Token.shift
  idents _ := []

instance : Placed Ident where
  shift k i := { i with start := i.start + k }
  idents i := [i]

instance : Placed Marker where
  shift k m := { m with span := m.span.shift k }
  idents _ := []

instance : Placed Directive where
  shift k d := { d with span := d.span.shift k }
  idents _ := []

namespace Document

instance : Placed Property where
  shift k p :=
    { p with
      span := p.span.shift k
      name := shift k p.name
      type := shift k p.type
      option := shift k p.option
      defaults := shift k p.defaults
      obsolete := shift k p.obsolete
      removed := shift k p.removed }
  idents p := idents p.name ++ idents p.type ++ idents p.option ++ idents p.defaults

instance : Placed EnumValue where
  shift k v :=
    { v with
      span := v.span.shift k
      name := shift k v.name
      defaults := shift k v.defaults
      obsolete := shift k v.obsolete
      removed := shift k v.removed }
  idents v := idents v.name ++ idents v.defaults

instance : Placed Class where
  shift k c :=
    { c with
      span := c.span.shift k
      name := shift k c.name
      identity := shift k c.identity
      parent := shift k c.parent
      removed := shift k c.removed
      properties := shift k c.properties }
  idents c := idents c.name ++ idents c.identity ++ idents c.parent ++ idents c.properties

instance : Placed Enum where
  shift k e :=
    { e with
      span := e.span.shift k
      name := shift k e.name
      storage := shift k e.storage
      values := shift k e.values }
  idents e := idents e.name ++ idents e.storage ++ idents e.values

instance : Placed Decl where
  shift k
    | .class c => .class (shift k c)
    | .enum e => .enum (shift k e)
  idents
    | .class c => idents c
    | .enum e => idents e

instance : Placed Parser.Item where
  shift k
    | .directive d => .directive (shift k d)
    | .decl d => .decl (shift k d)
  idents
    | .directive d => idents d
    | .decl d => idents d

namespace Grammar

instance : Placed Ending where
  shift k e := ⟨shift k e.defaults,shift k e.stop,shift k e.obsolete,shift k e.removed⟩
  idents e := idents e.defaults

instance : Placed Beginning where
  shift k b := ⟨shift k b.first,b.flag,shift k b.option,shift k b.type,shift k b.name⟩
  idents b := idents b.name ++ idents b.type ++ idents b.option

section Spans

variable {n : Nat} {k : UInt32}

theorem stop_shift (k : UInt32) (s : Span) : (s.shift k).stop = s.stop + k := by
  simp only [Span.shift,Span.stop]
  ac_rfl

theorem between_shift (k : UInt32) (a b : Span) :
    Span.between (a.shift k) (b.shift k) = (Span.between a b).shift k := by
  have h : b.stop + k - (a.start + k) = b.stop - a.start := by grind
  rw [Span.between,stop_shift]
  simp only [Span.shift,h]
  rfl

theorem token_between_shift (k : UInt32) (t u : Token) :
    Span.between (t.shift k).span (u.shift k).span = (Span.between t.span u.span).shift k :=
  between_shift k t.span u.span

theorem latest_shift (hk : n + k.toNat < 2 ^ 32) {stop : Span} (markers : List (Option Marker))
    (hstop : stop.stop.toNat ≤ n) (hmarkers : ∀ m, some m ∈ markers → m.span.stop.toNat ≤ n) :
    Parser.latest (stop.shift k) (shift k markers) = (Parser.latest stop markers).shift k := by
  have hlt {a b : UInt32} (ha : a.toNat ≤ n) (hb : b.toNat ≤ n) : a + k < b + k ↔ a < b := by
    have hadd {c : UInt32} (hc : c.toNat ≤ n) : (c + k).toNat = c.toNat + k.toNat := by
      rw [UInt32.toNat_add]
      exact Nat.mod_eq_of_lt (by omega)
    rw [UInt32.lt_iff_toNat_lt,UInt32.lt_iff_toNat_lt,hadd ha,hadd hb]
    omega
  induction markers generalizing stop with
  | nil => rfl
  | cons o markers ih =>
    have hback : ∀ m, some m ∈ markers → m.span.stop.toNat ≤ n :=
      fun m hm => hmarkers m (by simp [hm])
    cases o with
    | none => exact ih hstop hback
    | some m =>
      have hm := hmarkers m (by simp)
      have hcond : (stop.shift k).stop < (m.span.shift k).stop ↔ stop.stop < m.span.stop := by
        rw [stop_shift,stop_shift,hlt hstop hm]
      by_cases h : stop.stop < m.span.stop
      · have hnext := ih hm hback
        simpa [Parser.latest,shift,hcond,h] using hnext
      · have hnext := ih hstop hback
        simpa [Parser.latest,shift,hcond,h] using hnext

theorem Ending.last_shift (hk : n + k.toNat < 2 ^ 32) {e : Ending}
    (hstop : e.stop.span.stop.toNat ≤ n)
    (hmarkers : ∀ m, some m ∈ [e.obsolete,e.removed] → m.span.stop.toNat ≤ n) :
    (shift k e).last = e.last.shift k := by
  have hspan : (shift k e).stop.span = e.stop.span.shift k := rfl
  rw [Ending.last,Ending.last,hspan]
  exact latest_shift hk [e.obsolete,e.removed] hstop hmarkers

end Spans

def Room (n : Nat) (ts : List Token) : Prop :=
  ∀ t ∈ ts, t.offset.toNat + t.text.length ≤ n ∧ t.text ≠ []

theorem Room.tail {n : Nat} {t : Token} {ts : List Token} (h : Room n (t :: ts)) : Room n ts :=
  fun u hu => h u (by simp [hu])

def moved (k : UInt32) (more ts : List Token) : List Token := ts.map (Token.shift k) ++ more

def Steady (fits : Token → Bool) : Prop := ∀ k t, fits (Token.shift k t) = fits t

structure Inner (fits : Token → Bool) : Prop where
  steady : Steady fits
  closed : ∀ t, isOpener t = true → fits t = false

theorem kind_of_isOpener {t : Token} (h : isOpener t = true) :
    t.kind = .directive ∨
      t.kind = .ident ∧ (t.text = Text.ofString "class" ∨ t.text = Text.ofString "enum") := by
  simp only [isOpener,Token.isWord,Bool.or_eq_true,Bool.and_eq_true,beq_iff_eq] at h
  tauto

theorem inner_operator (op : Text) : Inner (Token.isOperator op) where
  steady _ _ := rfl
  closed t ht := by
    rcases kind_of_isOpener ht with h | ⟨h,-⟩
    · simp [Token.isOperator,h]
    · simp [Token.isOperator,h]

theorem inner_kind {kind : Token.Kind} (hd : kind ≠ .directive) (hi : kind ≠ .ident) :
    Inner fun t => t.kind == kind where
  steady _ _ := rfl
  closed t ht := by
    rcases kind_of_isOpener ht with h | ⟨h,-⟩
    · simp [h,hd.symm]
    · simp [h,hi.symm]

theorem inner_string : Inner isString := inner_kind (by simp) (by simp)

theorem inner_terminator : Inner isTerminator := inner_kind (by simp) (by simp)

theorem inner_word {word : Text} (hc : word ≠ Text.ofString "class")
    (he : word ≠ Text.ofString "enum") : Inner (Token.isWord word) where
  steady _ _ := rfl
  closed t ht := by
    rcases kind_of_isOpener ht with h | ⟨-,h | h⟩
    · simp [Token.isWord,h]
    · simp [Token.isWord,h,hc.symm]
    · simp [Token.isWord,h,he.symm]

theorem steady_ident : Steady isIdent := fun _ _ => rfl

section Parts

variable {α : Type} [Placed α] (n : Nat) (k : UInt32) (more : List Token)

/-- How a part of a source stands in a longer text. -/
structure Moved (part : Part α) (ts : List Token) (a : α) (rest : List Token) : Prop where
  stands : part (moved k more ts) (shift k a) (moved k more rest)
  room : Room n rest
  named : ∀ i ∈ idents a, i.start.toNat < n

def Moves (part : Part α) : Prop :=
  ∀ {ts : List Token} {a : α} {rest : List Token}, Room n ts → part ts a rest →
    Moved n k more part ts a rest

variable {n k more} {fits first : Token → Bool} {part : Part α}

theorem next_moved (hf : Steady first) {ts : List Token} (h : next first ts = true) :
    next first (moved k more ts) = true := by
  obtain ⟨t,rest,rfl,ht⟩ := exists_of_next h
  simpa [moved,hf k t] using ht

theorem not_next_moved (hf : Inner first) (hmore : ∀ t ∈ more.head?, isOpener t = true)
    {ts : List Token} (h : next first ts = false) : next first (moved k more ts) = false := by
  cases ts with
  | nil =>
    -- At the end of the source the next token is the first one of an item.
    cases more with
    | nil => rfl
    | cons t more => simpa [moved] using hf.closed t (hmore t rfl)
  | cons t ts => simpa [moved,hf.steady k t] using h

theorem moves_one (hf : Steady fits) : Moves n k more (One fits) := by
  intro ts t rest hroom h
  obtain ⟨ht⟩ := h
  exact ⟨⟨(hf k t).trans ht⟩,hroom.tail,by simp [idents]⟩

theorem moves_name : Moves n k more Name := by
  intro ts name rest hroom h
  obtain @⟨t,_,ht⟩ := h
  have hlen := hroom t (by simp)
  have hpos := List.length_pos_iff.mpr hlen.2
  refine ⟨⟨(steady_ident k t).trans ht⟩,hroom.tail,?_⟩
  simp only [idents,List.mem_singleton,forall_eq]
  simp only [identOf]
  omega

theorem moves_optional (hf : Inner first) (hmore : ∀ t ∈ more.head?, isOpener t = true)
    (hp : Moves n k more part) : Moves n k more (Optional first part) := by
  intro ts o rest hroom h
  cases h with
  | present there taken =>
    obtain ⟨hstands,hrest,hnamed⟩ := hp hroom taken
    exact ⟨.present (next_moved hf.steady there) hstands,hrest,by simpa [idents] using hnamed⟩
  | absent lacks => exact ⟨.absent (not_next_moved hf hmore lacks),hroom,by simp [idents]⟩

/-- A repetition ends in front of the tokens that follow it, or at the end of the source if none
of its parts can start an item. -/
theorem moves_many (hs : Steady first) {ts : List Token} {as : List α} {rest : List Token}
    (hend : next first rest = false → next first (moved k more rest) = false)
    (hp : Moves n k more part) (hroom : Room n ts) (h : Many first part ts as rest) :
    Moved n k more (Many first part) ts as rest := by
  induction h with
  | nil lacks => exact ⟨.nil (hend lacks),hroom,by simp [idents]⟩
  | cons there taken _ ih =>
    obtain ⟨hstands,hmid,hnamed⟩ := hp hroom taken
    obtain ⟨hagain,hrest,hback⟩ := ih hend hmid
    refine ⟨.cons (next_moved hs there) hstands hagain,hrest,?_⟩
    intro i hi
    simp only [idents,List.flatMap_cons,List.mem_append] at hi
    rcases hi with hi | hi
    · exact hnamed i hi
    · exact hback i hi

theorem moves_behind {op : Token → Bool} (hop : Steady op) : Moves n k more (Behind op) := by
  intro ts name rest hroom h
  obtain @⟨t,_,_,_,ht,hname⟩ := h
  have hm : Moved n k more Name _ name rest := moves_name hroom.tail hname
  exact ⟨⟨(hop k t).trans ht,hm.stands⟩,hm.room,hm.named⟩

theorem moves_bracketed : Moves n k more Bracketed := by
  intro ts name rest hroom h
  obtain ⟨hopened,hclosed⟩ := h
  have hm : Moved n k more (Behind (Token.isOperator "<")) ts name _ :=
    moves_behind (inner_operator _).steady hroom hopened
  exact ⟨⟨hm.stands,hclosed⟩,hm.room.tail,hm.named⟩

end Parts

section Statements

variable {n : Nat} {k : UInt32} {more : List Token}

theorem Room.stop_le (hn : n < 2 ^ 32) {ts : List Token} (h : Room n ts) {t : Token} (ht : t ∈ ts) :
    t.span.stop.toNat ≤ n := by
  have hle := (h t ht).1
  have hlt : t.offset.toNat + t.text.length < 2 ^ 32 := by omega
  have hstop : t.span.stop.toNat = t.offset.toNat + t.text.length := Token.toNat_add_toUInt32 hlt
  omega

theorem markerOf_shift (t : Token) (o : Option Token) :
    markerOf (Token.shift k t) (shift k o) = shift k (markerOf t o) := by
  cases o with
  | none => rfl
  | some message => exact congrArg (Marker.mk · message.value) (token_between_shift k t message)

variable (hmore : ∀ t ∈ more.head?, isOpener t = true)

include hmore

theorem moves_defaults : Moves n k more Defaults := by
  intro ts terms rest hroom h
  obtain ⟨hhead,hagain⟩ := h
  have hm : Moved n k more (Behind (Token.isOperator "=")) ts _ _ :=
    moves_behind (inner_operator _).steady hroom hhead
  have hbar := inner_operator "|"
  have hs := moves_many (k := k) hbar.steady (not_next_moved hbar hmore) (moves_behind hbar.steady)
    hm.room hagain
  refine ⟨⟨hm.stands,hs.stands⟩,hs.room,?_⟩
  intro i hi
  rcases List.mem_append.mp hi with hi | hi
  · exact hm.named i hi
  · exact hs.named i hi

theorem moves_marked (word : Text) : Moves n k more (Marked word) := by
  intro ts m rest hroom h
  obtain @⟨t,_,_,o,ht,hsaid⟩ := h
  have hm : Moved n k more (Optional isString (One isString)) _ o rest :=
    moves_optional inner_string hmore (moves_one inner_string.steady) hroom.tail hsaid
  refine ⟨?_,hm.room,by simp [idents]⟩
  rw [← markerOf_shift]
  exact ⟨ht,hm.stands⟩

omit hmore in
theorem Marked.stop_le (hn : n < 2 ^ 32) {word : Text} {ts rest : List Token} {m : Marker}
    (hroom : Room n ts) (h : Marked word ts m rest) : m.span.stop.toNat ≤ n := by
  obtain @⟨t,_,_,_,-,hsaid⟩ := h
  cases hsaid with
  | present _ taken =>
    obtain @⟨u,_,-⟩ := taken
    simp only [markerOf,Span.stop_between]
    exact hroom.stop_le hn (by simp)
  | absent => exact hroom.stop_le hn (by simp)

omit hmore in
theorem Optional.stop_le (hn : n < 2 ^ 32) {word : Text} {first : Token → Bool}
    {ts rest : List Token} {o : Option Marker} (hroom : Room n ts)
    (h : Optional first (Marked word) ts o rest) :
    ∀ m, some m = o → m.span.stop.toNat ≤ n := by
  intro m hm
  cases h with
  | present _ taken =>
    cases hm
    exact taken.stop_le hn hroom
  | absent => cases hm

theorem moves_ended (hk : n + k.toNat < 2 ^ 32) {ts rest : List Token} {e : Ending}
    (hroom : Room n ts) (h : Ended ts e rest) :
    Moved n k more Ended ts e rest ∧ (shift k e).last = e.last.shift k := by
  obtain @⟨t,_,mid,between,_,terms,obsolete,removed,hd,ht,ho,hr⟩ := h
  have hword : Inner (Token.isWord "obsolete") := inner_word (by decide) (by decide)
  have hword' : Inner (Token.isWord "removed") := inner_word (by decide) (by decide)
  have hterms : Moved n k more (Optional (Token.isOperator "=") Defaults) ts terms (t :: mid) :=
    moves_optional (inner_operator _) hmore (moves_defaults hmore) hroom hd
  have hobs : Moved n k more (Optional (Token.isWord "obsolete") (Marked "obsolete")) mid obsolete
      between := moves_optional hword hmore (moves_marked hmore _) hterms.room.tail ho
  have hrem : Moved n k more (Optional (Token.isWord "removed") (Marked "removed")) between removed
      rest := moves_optional hword' hmore (moves_marked hmore _) hobs.room hr
  refine ⟨⟨?_,hrem.room,?_⟩,?_⟩
  · cases terms with
    | none => exact ⟨hterms.stands,ht,hobs.stands,hrem.stands⟩
    | some terms => exact ⟨hterms.stands,ht,hobs.stands,hrem.stands⟩
  · cases terms with
    | none => simp [idents]
    | some terms => simpa [idents] using hterms.named
  · have hn : n < 2 ^ 32 := by omega
    refine Ending.last_shift hk (hterms.room.stop_le hn List.mem_cons_self) ?_
    intro m hm
    simp only [List.mem_cons,List.not_mem_nil,or_false] at hm
    rcases hm with hm | hm
    · exact ho.stop_le hn hterms.room.tail m hm
    · exact hr.stop_le hn hobs.room m hm

theorem moves_begun : Moves n k more Begun := by
  intro ts b rest hroom h
  have hoption : Moves n k more (Optional (Token.isOperator "<") Bracketed) :=
    moves_optional (inner_operator _) hmore moves_bracketed
  cases h with
  | flagged hhead hknown hopt htyped hnamed =>
    have h₁ : Moved n k more Name ts _ _ := moves_name hroom hhead
    have h₂ := hoption h₁.room hopt
    have h₃ : Moved n k more Name _ _ _ := moves_name h₂.room htyped
    have h₄ : Moved n k more Name _ _ rest := moves_name h₃.room hnamed
    refine ⟨.flagged h₁.stands hknown h₂.stands h₃.stands h₄.stands,h₄.room,?_⟩
    intro i hi
    simp only [idents,List.mem_append] at hi
    rcases hi with (hi | hi) | hi
    · exact h₄.named i hi
    · exact h₃.named i hi
    · exact h₂.named i hi
  | plain htyped hopt hnamed =>
    have h₁ : Moved n k more Name ts _ _ := moves_name hroom htyped
    have h₂ := hoption h₁.room hopt
    have h₃ : Moved n k more Name _ _ rest := moves_name h₂.room hnamed
    refine ⟨.plain h₁.stands h₂.stands h₃.stands,h₃.room,?_⟩
    intro i hi
    simp only [idents,List.mem_append] at hi
    rcases hi with (hi | hi) | hi
    · exact h₃.named i hi
    · exact h₁.named i hi
    · exact h₂.named i hi

theorem moves_property (hk : n + k.toNat < 2 ^ 32) : Moves n k more PropertyAt := by
  intro ts p rest hroom h
  obtain @⟨_,mid,_,b,e,hbegun,hended⟩ := h
  have hb := moves_begun hmore (k := k) hroom hbegun
  obtain ⟨he,hlast⟩ := moves_ended hmore hk hb.room hended
  have hshift : (shift k b).property (shift k e) = shift k (b.property e) := by
    have hspan := between_shift k b.first.span e.last
    rw [← hlast] at hspan
    simp only [Beginning.property,shift] at hspan ⊢
    congr 1
  refine ⟨hshift ▸ ⟨hb.stands,he.stands⟩,he.room,?_⟩
  intro i hi
  rcases List.mem_append.mp hi with hi | hi
  · exact hb.named i hi
  · exact he.named i hi

theorem moves_value (hk : n + k.toNat < 2 ^ 32) : Moves n k more ValueAt := by
  intro ts v rest hroom h
  obtain @⟨_,mid,_,name,e,hname,hended⟩ := h
  have hn : Moved n k more Name ts name mid := moves_name hroom hname
  obtain ⟨he,hlast⟩ := moves_ended hmore hk hn.room hended
  have hshift : valueOf (shift k name) (shift k e) = shift k (valueOf name e) := by
    have hspan := between_shift k name.span e.last
    rw [← hlast] at hspan
    simp only [valueOf,shift] at hspan ⊢
    congr 1
  refine ⟨hshift ▸ ⟨hn.stands,he.stands⟩,he.room,?_⟩
  intro i hi
  rcases List.mem_append.mp hi with hi | hi
  · exact hn.named i hi
  · exact he.named i hi

end Statements

section Items

variable {n : Nat} {k : UInt32} {more : List Token}
variable (hmore : ∀ t ∈ more.head?, isOpener t = true)

include hmore

theorem moves_block {α : Type} [Placed α] {member : Part α} (hm : Moves n k more member) :
    Moves n k more (Block member) := by
  intro ts x rest hroom h
  obtain @⟨t,u,inside,mid,_,list,stop,hopened,hmembers,hclosed,hstopped⟩ := h
  have hlist : Moved n k more (Many isIdent member) inside list (u :: mid) := by
    refine moves_many steady_ident ?_ hm hroom.tail hmembers
    intro h
    simpa [moved,steady_ident k u] using h
  have hstop : Moved n k more (Optional isTerminator (One isTerminator)) mid stop rest :=
    moves_optional inner_terminator hmore (moves_one inner_terminator.steady) hlist.room.tail
      hstopped
  refine ⟨?_,hstop.room,by simpa [idents] using hlist.named⟩
  cases stop with
  | none => exact .mk (t := t.shift k) hopened hlist.stands hclosed hstop.stands
  | some stop => exact .mk (t := t.shift k) hopened hlist.stands hclosed hstop.stands

theorem moves_class (hk : n + k.toNat < 2 ^ 32) : Moves n k more ClassAt := by
  intro ts c rest hroom h
  obtain @⟨t,last,_,_,_,_,_,_,name,identity,parent,removed,properties,ht,hname,hid,hpar,hrem,
    hblock⟩ := h
  have hexpects : Inner (Token.isWord "expects") := inner_word (by decide) (by decide)
  have hremoved : Inner (Token.isWord "removed") := inner_word (by decide) (by decide)
  have h₁ : Moved n k more Name _ name _ := moves_name hroom.tail hname
  have h₂ : Moved n k more (Optional (Token.isOperator "<") Bracketed) _ identity _ :=
    moves_optional (inner_operator _) hmore moves_bracketed h₁.room hid
  have h₃ : Moved n k more (Optional (Token.isWord "expects") (Behind (Token.isWord "expects"))) _
      parent _ := moves_optional hexpects hmore (moves_behind hexpects.steady) h₂.room hpar
  have h₄ : Moved n k more (Optional (Token.isWord "removed") (Marked "removed")) _ removed _ :=
    moves_optional hremoved hmore (moves_marked hmore _) h₃.room hrem
  have h₅ : Moved n k more (Block PropertyAt) _ (properties,last) rest :=
    moves_block hmore (moves_property hmore hk) h₄.room hblock
  refine ⟨?_,h₅.room,?_⟩
  · have hclass := ClassAt.mk (t := t.shift k) ht h₁.stands h₂.stands h₃.stands h₄.stands h₅.stands
    rw [show shift k last = last.shift k from rfl,token_between_shift] at hclass
    exact hclass
  · intro i hi
    simp only [idents,List.mem_append] at hi
    rcases hi with ((hi | hi) | hi) | hi
    · exact h₁.named i hi
    · exact h₂.named i hi
    · exact h₃.named i hi
    · exact h₅.named i (List.mem_append_left _ hi)

theorem moves_enum (hk : n + k.toNat < 2 ^ 32) : Moves n k more EnumAt := by
  intro ts e rest hroom h
  obtain @⟨t,last,_,_,_,_,_,name,storage,flags,values,ht,hname,hst,hfl,hblock⟩ := h
  have hflags : Inner (Token.isWord "flags") := inner_word (by decide) (by decide)
  have h₁ : Moved n k more Name _ name _ := moves_name hroom.tail hname
  have h₂ : Moved n k more (Optional (Token.isOperator "<") Bracketed) _ storage _ :=
    moves_optional (inner_operator _) hmore moves_bracketed h₁.room hst
  have h₃ : Moved n k more (Optional (Token.isWord "flags") (One (Token.isWord "flags"))) _ flags
      _ := moves_optional hflags hmore (moves_one hflags.steady) h₂.room hfl
  have h₄ : Moved n k more (Block ValueAt) _ (values,last) rest :=
    moves_block hmore (moves_value hmore hk) h₃.room hblock
  refine ⟨?_,h₄.room,?_⟩
  · have henum := EnumAt.mk (t := t.shift k) ht h₁.stands h₂.stands h₃.stands h₄.stands
    rw [show shift k last = last.shift k from rfl,token_between_shift] at henum
    cases flags with
    | none => exact henum
    | some flags => exact henum
  · intro i hi
    simp only [idents,List.mem_append] at hi
    rcases hi with (hi | hi) | hi
    · exact h₁.named i hi
    · exact h₂.named i hi
    · exact h₄.named i (List.mem_append_left _ hi)

theorem moves_directive : Moves n k more DirectiveAt := by
  intro ts d rest hroom h
  obtain @⟨t,_,_,o,ht,hvalue,hgiven⟩ := h
  have hm : Moved n k more (Optional isString (One isString)) _ o rest :=
    moves_optional inner_string hmore (moves_one inner_string.steady) hroom.tail hgiven
  refine ⟨?_,hm.room,by simp [idents]⟩
  have hdirective := DirectiveAt.mk (t := t.shift k) ht hvalue hm.stands
  cases o with
  | none => exact hdirective
  | some argument =>
    have hshift : directiveOf (t.shift k) (shift k (some argument)) =
        shift k (directiveOf t (some argument)) :=
      congrArg (Directive.mk · t.value (some argument.value)) (token_between_shift k t argument)
    exact hshift ▸ hdirective

theorem moves_item (hk : n + k.toNat < 2 ^ 32) : Moves n k more ItemAt := by
  intro ts i rest hroom h
  cases h with
  | directive taken =>
    have hm := moves_directive hmore (k := k) hroom taken
    exact ⟨.directive hm.stands,hm.room,hm.named⟩
  | «class» taken =>
    have hm := moves_class hmore hk hroom taken
    exact ⟨.class hm.stands,hm.room,hm.named⟩
  | enum taken =>
    have hm := moves_enum hmore hk hroom taken
    exact ⟨.enum hm.stands,hm.room,hm.named⟩

end Items

section Documents

variable {n : Nat} {k : UInt32} {more : List Token}

theorem opener_of_derives {items : List Parser.Item} (h : Derives more items) :
    ∀ t ∈ more.head?, isOpener t = true := by
  cases h with
  | nil => simp
  | cons there =>
    obtain ⟨t,rest,rfl,ht⟩ := exists_of_next there
    simpa using ht

theorem derives_moved (hk : n + k.toNat < 2 ^ 32) {ts : List Token} {items back : List Parser.Item}
    (hroom : Room n ts) (h : Derives ts items) (hback : Derives more back) :
    Derives (moved k more ts) (shift k items ++ back) := by
  have hitem : Moves n k more ItemAt := moves_item (opener_of_derives hback) hk
  unfold Derives at h
  generalize hend : ([] : List Token) = rest at h
  induction h with
  | nil =>
    subst hend
    exact hback
  | cons there taken _ ih =>
    have hm := hitem hroom taken
    exact .cons (next_moved (fun _ _ => rfl) there) hm.stands (ih hm.room hend)

theorem idents_of_derives (hn : n < 2 ^ 32) {ts : List Token} {items : List Parser.Item}
    (hroom : Room n ts) (h : Derives ts items) : ∀ i ∈ idents items, i.start.toNat < n := by
  have hitem : Moves n 0 [] ItemAt := moves_item (by simp) (by simpa using hn)
  have hm : Moved n 0 [] (Many isOpener ItemAt) ts items [] :=
    moves_many (fun _ _ => rfl) id hitem hroom h
  exact hm.named

end Documents

end Grammar

end Document

end WireSchema
