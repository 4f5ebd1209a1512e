import WireSchema.Proofs.Document.Grammar
set_option autoImplicit false

/-!
Reading follows the grammar. A reader looks at one token behind what it takes, and faults if no
lexeme explains that token; so a reader and its part agree wherever the tokens behind can be looked
at.
-/

namespace WireSchema.Document.Grammar

open WireSchema.Document.Parser

def Known (t : Token) : Prop := t.kind ≠ .invalid ∧ t.kind ≠ .eof

def Clean (ts : List Token) : Prop := ∀ t ∈ ts.head?, Known t

/-- The tokens in front of the rest, all of them known. -/
def Takes (ts rest : List Token) : Prop := ∃ taken, ts = taken ++ rest ∧ ∀ t ∈ taken, Known t

theorem clean_nil : Clean [] := by simp [Clean]

theorem clean_cons {t : Token} {ts : List Token} : Clean (t :: ts) ↔ Known t := by simp [Clean]

theorem Takes.refl (ts : List Token) : Takes ts ts := ⟨[],by simp,by simp⟩

theorem Takes.cons {t : Token} {ts rest : List Token} (ht : Known t) (h : Takes ts rest) :
    Takes (t :: ts) rest := by
  obtain ⟨taken,rfl,hk⟩ := h
  exact ⟨t :: taken,rfl,by simpa [ht] using hk⟩

theorem Takes.trans {ts mid rest : List Token} (h : Takes ts mid) (h' : Takes mid rest) :
    Takes ts rest := by
  obtain ⟨front,rfl,hf⟩ := h
  obtain ⟨back,rfl,hb⟩ := h'
  refine ⟨front ++ back,by simp,fun t ht => ?_⟩
  rcases List.mem_append.mp ht with ht | ht
  · exact hf t ht
  · exact hb t ht

theorem Takes.clean {ts rest : List Token} (h : Takes ts rest) (hr : Clean rest) : Clean ts := by
  obtain ⟨taken,rfl,hk⟩ := h
  cases taken with
  | nil => exact hr
  | cons t taken => exact clean_cons.mpr (hk t (by simp))

theorem Takes.length_le {ts rest : List Token} (h : Takes ts rest) : rest.length ≤ ts.length := by
  obtain ⟨taken,rfl,-⟩ := h
  simp

theorem exists_of_next {fits : Token → Bool} {ts : List Token} (h : next fits ts = true) :
    ∃ t rest, ts = t :: rest ∧ fits t = true := by
  cases ts with
  | nil => simp at h
  | cons t rest => exact ⟨t,rest,rfl,by simpa using h⟩

section Readers

variable {α β : Type}

/-- What the reader takes is the part, and it takes the part if what stands behind can be looked
at. -/
structure Reads (p : Parser α) (part : Part α) : Prop where
  sound : ∀ {ts : List Token} {a : α} {rest : List Token}, p ts = .ok (a,rest) → part ts a rest
  complete : ∀ {ts : List Token} {a : α} {rest : List Token}, Clean rest → part ts a rest →
    p ts = .ok (a,rest)
  takes : ∀ {ts : List Token} {a : α} {rest : List Token}, part ts a rest → Takes ts rest

theorem bind_ok {p : Parser α} {f : α → Parser β} {ts rest : List Token} {b : β} :
    (p >>= f) ts = .ok (b,rest) ↔ ∃ a mid, p ts = .ok (a,mid) ∧ f a mid = .ok (b,rest) := by
  change (p ts >>= fun x => f x.1 x.2) = _ ↔ _
  rw [Result.bind_eq_ok]
  simp

theorem pure_ok {a b : α} {ts rest : List Token} :
    (pure a : Parser α) ts = .ok (b,rest) ↔ b = a ∧ ts = rest := by
  change Except.ok (a,ts) = Except.ok (b,rest) ↔ _
  simp [eq_comm]

theorem throw_ok {e : Fault} {ts rest : List Token} {a : α} :
    (throw e : Parser α) ts = .ok (a,rest) ↔ False := by
  change Except.error e = _ ↔ _
  simp

theorem reads_pure (a : α) : Reads (pure a) fun ts b rest => b = a ∧ ts = rest where
  sound := pure_ok.mp
  complete _ := pure_ok.mpr
  takes h := h.2 ▸ .refl _

theorem reads_throw (e : Fault) : Reads (throw e : Parser α) fun _ _ _ => False where
  sound := throw_ok.mp
  complete _ := throw_ok.mpr
  takes h := h.elim

theorem Reads.bind {p : Parser α} {part : Part α} {f : α → Parser β} {q : α → Part β}
    (hp : Reads p part) (hf : ∀ a, Reads (f a) (q a)) :
    Reads (p >>= f) fun ts b rest => ∃ a mid, part ts a mid ∧ q a mid b rest where
  sound h := by
    obtain ⟨a,mid,ha,hb⟩ := bind_ok.mp h
    exact ⟨a,mid,hp.sound ha,(hf a).sound hb⟩
  complete hr h := by
    obtain ⟨a,mid,ha,hb⟩ := h
    -- What is taken next starts with a known token, or else nothing is.
    have hmid := ((hf a).takes hb).clean hr
    exact bind_ok.mpr ⟨a,mid,hp.complete hmid ha,(hf a).complete hr hb⟩
  takes h := by
    obtain ⟨a,mid,ha,hb⟩ := h
    exact (hp.takes ha).trans ((hf a).takes hb)

theorem Reads.of_iff {p : Parser α} {part part' : Part α} (h : Reads p part)
    (hi : ∀ ts a rest, part ts a rest ↔ part' ts a rest) : Reads p part' where
  sound hp := (hi _ _ _).mp (h.sound hp)
  complete hr hp := h.complete hr ((hi _ _ _).mpr hp)
  takes ht := h.takes ((hi _ _ _).mpr ht)

theorem Reads.map {p : Parser α} {part : Part α} (h : Reads p part) (g : α → β) :
    Reads (g <$> p) fun ts b rest => ∃ a, part ts a rest ∧ g a = b := by
  rw [map_eq_pure_bind]
  refine (h.bind fun a => reads_pure (g a)).of_iff fun ts b rest => ⟨?_,?_⟩
  · rintro ⟨a,mid,ha,rfl,rfl⟩
    exact ⟨a,ha,rfl⟩
  · rintro ⟨a,ha,rfl⟩
    exact ⟨a,rest,ha,rfl,rfl⟩

theorem Reads.of_pure {p : Parser α} {part : Part α} {f : α → Parser β} {g : α → β}
    (h : Reads p part) (hf : ∀ a, f a = pure (g a)) :
    Reads (p >>= f) fun ts b rest => ∃ a, part ts a rest ∧ g a = b := by
  have hfun : f = fun a => pure (g a) := funext hf
  rw [hfun,← map_eq_pure_bind]
  exact h.map g

theorem Reads.discard {p : Parser α} {part : Part α} (h : Reads p part) :
    Reads (Functor.discard p) fun ts _ rest => ∃ a, part ts a rest :=
  (h.map fun _ => PUnit.unit).of_iff (by simp)

end Readers

def Telling (fits : Token → Bool) : Prop := ∀ t, fits t = true → Known t

theorem telling_kind {kind : Token.Kind} (hi : kind ≠ .invalid) (he : kind ≠ .eof) :
    Telling fun t => t.kind == kind := by
  intro t ht
  have hk : t.kind = kind := by simpa using ht
  exact ⟨hk ▸ hi,hk ▸ he⟩

theorem telling_ident : Telling isIdent := telling_kind (by simp) (by simp)

theorem telling_string : Telling isString := telling_kind (by simp) (by simp)

theorem telling_terminator : Telling isTerminator := telling_kind (by simp) (by simp)

theorem telling_operator (op : Text) : Telling (Token.isOperator op) := by
  intro t ht
  simp only [Token.isOperator,Bool.and_eq_true,beq_iff_eq] at ht
  simp [Known,ht.1]

theorem telling_word (word : Text) : Telling (Token.isWord word) := by
  intro t ht
  simp only [Token.isWord,Bool.and_eq_true,beq_iff_eq] at ht
  simp [Known,ht.1]

theorem One.takes {fits : Token → Bool} {ts rest : List Token} {t : Token} (hf : Telling fits)
    (h : One fits ts t rest) : Takes ts rest := by
  obtain ⟨ht⟩ := h
  exact .cons (hf t ht) (.refl _)

theorem One.next {fits : Token → Bool} {ts rest : List Token} {t : Token}
    (h : One fits ts t rest) : next fits ts = true := by
  obtain ⟨ht⟩ := h
  simpa using ht

section Tokens

variable {α β : Type} {place : Place} {fits : Token → Bool}

theorem peek_ok {ts rest : List Token} {t : Token} :
    peek place ts = .ok (t,rest) ↔
      (ts.head?.getD place.stop).kind ≠ .invalid ∧ t = ts.head?.getD place.stop ∧ ts = rest := by
  unfold peek
  rw [bind_ok]
  constructor
  · rintro ⟨_,mid,hg,h⟩
    cases hg
    by_cases hk : (ts.head?.getD place.stop).kind = .invalid
    · simp only [hk,if_true,bind_ok,throw_ok] at h
      simp at h
    · simpa [hk,bind_ok,pure_ok] using h
  · rintro ⟨hk,rfl,rfl⟩
    exact ⟨ts,ts,rfl,by simp [hk,pure_ok]⟩

theorem modify_ok {f : List Token → List Token} {ts rest : List Token} {u : Unit} :
    (modify f : Parser Unit) ts = .ok (u,rest) ↔ f ts = rest := by
  change Except.ok ((),f ts) = Except.ok (u,rest) ↔ _
  simp

theorem accept?_ok (hs : place.stop.kind = .eof) (hf : Telling fits) {ts rest : List Token}
    {o : Option Token} :
    accept? place fits ts = .ok (o,rest) ↔ (∃ t, One fits ts t rest ∧ o = some t) ∨
      next fits ts = false ∧ (∀ t ∈ ts.head?, t.kind ≠ .invalid) ∧ o = none ∧ ts = rest := by
  -- The end is of no telling kind, so nothing is taken there.
  have hn : fits place.stop = false := by
    by_contra h
    exact (hf _ (by simpa using h)).2 hs
  unfold accept?
  simp only [bind_ok,peek_ok]
  cases ts with
  | nil =>
    simp only [List.head?_nil,Option.getD_none]
    constructor
    · rintro ⟨u,_,⟨-,hu,rfl⟩,h⟩
      have ho : o = none ∧ [] = rest := by simpa [hu,hn,pure_ok] using h
      exact .inr ⟨rfl,by simp,ho⟩
    · rintro (⟨t,ht,-⟩ | ⟨-,-,rfl,rfl⟩)
      · cases ht
      · exact ⟨place.stop,[],by simp [hs],by simp [hn,pure_ok]⟩
  | cons t ts =>
    simp only [List.head?_cons,Option.getD_some]
    cases ht : fits t with
    | true =>
      constructor
      · rintro ⟨u,_,⟨-,hu,rfl⟩,h⟩
        simp only [hu,ht,if_true,bind_ok,modify_ok,pure_ok] at h
        obtain ⟨-,_,rfl,rfl,rfl⟩ := h
        exact .inl ⟨t,⟨ht⟩,rfl⟩
      · rintro (⟨_,⟨-⟩,rfl⟩ | ⟨h,-⟩)
        · refine ⟨t,t :: rest,⟨(hf t ht).1,rfl,rfl⟩,?_⟩
          simp only [ht,if_true,bind_ok]
          exact ⟨(),rest,modify_ok.mpr rfl,pure_ok.mpr ⟨rfl,rfl⟩⟩
        · simp [ht] at h
    | false =>
      constructor
      · rintro ⟨u,_,⟨hk,hu,rfl⟩,h⟩
        have ho : o = none ∧ t :: ts = rest := by simpa [hu,ht,pure_ok] using h
        exact .inr ⟨by simpa using ht,by simpa using hk,ho⟩
      · rintro (⟨_,⟨h⟩,-⟩ | ⟨-,hk,rfl,rfl⟩)
        · simp [ht] at h
        · exact ⟨t,t :: ts,⟨by simpa using hk,rfl,rfl⟩,by simp [ht,pure_ok]⟩

theorem reads_accept (hs : place.stop.kind = .eof) (hf : Telling fits) :
    Reads (accept? place fits) (Optional fits (One fits)) where
  sound h := by
    rcases (accept?_ok hs hf).mp h with ⟨t,ht,rfl⟩ | ⟨hn,-,rfl,rfl⟩
    · exact .present ht.next ht
    · exact .absent hn
  complete hr h := by
    cases h with
    | present there taken => exact (accept?_ok hs hf).mpr (.inl ⟨_,taken,rfl⟩)
    | absent lacks =>
      exact (accept?_ok hs hf).mpr (.inr ⟨lacks,fun t ht => (hr t ht).1,rfl,rfl⟩)
  takes h := by
    cases h with
    | present _ taken => exact taken.takes hf
    | absent => exact .refl _

theorem reads_optional {r : Part α} {g : Option α → β} {f : Option Token → Parser β}
    (hs : place.stop.kind = .eof) (hf : Telling fits) (hn : f none = pure (g none))
    (ht : ∀ t, fits t = true →
      Reads (f (some t)) fun ts b rest => ∃ a, r (t :: ts) a rest ∧ g (some a) = b) :
    Reads (accept? place fits >>= f) fun ts b rest =>
      ∃ o, Optional fits r ts o rest ∧ g o = b where
  sound h := by
    obtain ⟨o,mid,ho,hb⟩ := bind_ok.mp h
    rcases (accept?_ok hs hf).mp ho with ⟨t,⟨hfit⟩,rfl⟩ | ⟨hnext,-,rfl,rfl⟩
    · obtain ⟨a,ha,rfl⟩ := (ht t hfit).sound hb
      exact ⟨some a,.present (by simpa using hfit) ha,rfl⟩
    · rw [hn] at hb
      obtain ⟨rfl,rfl⟩ := pure_ok.mp hb
      exact ⟨none,.absent hnext,rfl⟩
  complete hr h := by
    obtain ⟨o,ho,rfl⟩ := h
    cases ho with
    | present there taken =>
      obtain ⟨t,ts,rfl,hfit⟩ := exists_of_next there
      exact bind_ok.mpr ⟨some t,ts,(accept?_ok hs hf).mpr (.inl ⟨t,⟨hfit⟩,rfl⟩),
        (ht t hfit).complete hr ⟨_,taken,rfl⟩⟩
    | absent lacks =>
      exact bind_ok.mpr ⟨none,_,(reads_accept hs hf).complete hr (.absent lacks),
        hn ▸ pure_ok.mpr ⟨rfl,rfl⟩⟩
  takes h := by
    obtain ⟨o,ho,rfl⟩ := h
    cases ho with
    | present there taken =>
      obtain ⟨t,ts,rfl,hfit⟩ := exists_of_next there
      exact .cons (hf t hfit) ((ht t hfit).takes ⟨_,taken,rfl⟩)
    | absent => exact .refl _

theorem reads_demand {fault : Token → Fault} (hs : place.stop.kind = .eof) (hf : Telling fits) :
    Reads (do match ← accept? place fits with
      | some token => return token
      | none => throw (fault (← peek place))) (One fits) where
  sound h := by
    obtain ⟨o,mid,ho,h⟩ := bind_ok.mp h
    rcases (accept?_ok hs hf).mp ho with ⟨u,hu,rfl⟩ | ⟨-,-,rfl,rfl⟩
    · obtain ⟨rfl,rfl⟩ := pure_ok.mp h
      exact hu
    · obtain ⟨_,_,-,h⟩ := bind_ok.mp h
      exact (throw_ok.mp h).elim
  complete _ h := bind_ok.mpr ⟨_,_,(accept?_ok hs hf).mpr (.inl ⟨_,h,rfl⟩),pure_ok.mpr ⟨rfl,rfl⟩⟩
  takes h := h.takes hf

end Tokens

section Parts

variable {place : Place} (hs : place.stop.kind = .eof)

include hs

theorem reads_terminator : Reads (terminator place) (One isTerminator) :=
  reads_demand hs telling_terminator

theorem reads_operator (op : Text) : Reads (operator place op) (One (Token.isOperator op)) :=
  reads_demand hs (telling_operator op)

theorem reads_ident (what : Text) : Reads (ident place what) Name := by
  have h : Reads (expect place what isIdent) (One isIdent) := reads_demand hs telling_ident
  refine (h.bind fun t => reads_pure (identOf t)).of_iff ?_
  intro ts name rest
  constructor
  · rintro ⟨t,_,⟨ht⟩,rfl,rfl⟩
    exact ⟨ht⟩
  · rintro ⟨ht⟩
    exact ⟨_,_,⟨ht⟩,rfl,rfl⟩

theorem reads_bracketed (what : Text) :
    Reads (bracketed? place what) (Optional (Token.isOperator "<") Bracketed) := by
  unfold bracketed? operator?
  simp only [bind_assoc,pure_bind]
  refine (reads_optional (g := id) (r := Bracketed) hs (telling_operator "<") rfl ?_).of_iff
    (by simp)
  intro t ht
  refine ((reads_ident hs what).bind fun name =>
    (reads_operator hs ">").discard.bind fun _ => reads_pure (some name)).of_iff ?_
  intro ts o rest
  constructor
  · rintro ⟨name,_,hname,-,_,⟨u,⟨hu⟩⟩,rfl,rfl⟩
    exact ⟨name,⟨⟨ht,hname⟩,hu⟩,rfl⟩
  · rintro ⟨name,⟨⟨-,hname⟩,hu⟩,rfl⟩
    exact ⟨name,_,hname,(),_,⟨_,⟨hu⟩⟩,rfl,rfl⟩

theorem reads_marker (word : Text) :
    Reads (marker? place word) (Optional (Token.isWord word) (Marked word)) := by
  unfold marker? word?
  refine (reads_optional (g := id) (r := Marked word) hs (telling_word word) rfl ?_).of_iff
    (by simp)
  intro t ht
  refine Reads.of_iff (Reads.of_pure (g := fun o => some (markerOf t o))
    (reads_accept hs telling_string) ?_) ?_
  · intro o
    cases o <;> rfl
  · intro ts b rest
    constructor
    · rintro ⟨o,ho,rfl⟩
      exact ⟨markerOf t o,⟨ht,ho⟩,rfl⟩
    · rintro ⟨_,⟨-,ho⟩,rfl⟩
      exact ⟨_,ho,rfl⟩

end Parts

section Loops

variable {α : Type}

/-- A reader with fuel that goes on as long as the first token of a part is there, and ends where
the tokens are fit to end with. It has to look at the last tokens with `k` of its fuel left. -/
structure Loop (first : Token → Bool) (part : Part α) (ends : List Token → Prop)
    (loop : Nat → Parser (List α)) (k : Nat) : Prop where
  takes : ∀ {ts a mid}, part ts a mid → Takes ts mid
  shorter : ∀ {ts a mid}, part ts a mid → mid.length < ts.length
  start : ∀ {as rest}, loop k [] = .ok (as,rest) ↔ ends [] ∧ as = [] ∧ [] = rest
  step_sound : ∀ {fuel ts as rest}, loop (fuel + 1) ts = .ok (as,rest) →
    next first ts = false ∧ ends ts ∧ as = [] ∧ ts = rest ∨
      next first ts = true ∧ ∃ a mid more,
        part ts a mid ∧ loop fuel mid = .ok (more,rest) ∧ as = a :: more
  end_complete : ∀ {fuel ts}, Clean ts → next first ts = false → ends ts →
    loop (fuel + 1) ts = .ok ([],ts)
  step_complete : ∀ {fuel ts a mid more rest}, Clean mid → next first ts = true → part ts a mid →
    loop fuel mid = .ok (more,rest) → loop (fuel + 1) ts = .ok (a :: more,rest)

variable {first : Token → Bool} {part : Part α} {ends : List Token → Prop}
variable {loop : Nat → Parser (List α)} {k : Nat}

theorem Many.takes (ht : ∀ {ts a mid}, part ts a mid → Takes ts mid) {ts rest : List Token}
    {as : List α} (h : Many first part ts as rest) : Takes ts rest := by
  induction h with
  | nil => exact .refl _
  | cons _ taken _ ih => exact (ht taken).trans ih

theorem Loop.sound (h : Loop first part ends loop k) (n : Nat) {ts rest : List Token} {as : List α}
    (hn : ts.length ≤ n) (hl : loop (n + k) ts = .ok (as,rest)) :
    Many first part ts as rest ∧ ends rest := by
  induction n generalizing ts as with
  | zero =>
    have hts : ts = [] := List.length_eq_zero_iff.mp (by omega)
    subst hts
    rw [Nat.zero_add,h.start] at hl
    obtain ⟨ho,rfl,rfl⟩ := hl
    exact ⟨.nil rfl,ho⟩
  | succ n ih =>
    rw [show n + 1 + k = n + k + 1 by omega] at hl
    rcases h.step_sound hl with ⟨hf,ho,rfl,rfl⟩ | ⟨hf,a,mid,more,ha,hmore,rfl⟩
    · exact ⟨.nil hf,ho⟩
    · have hlt := h.shorter ha
      obtain ⟨hm,ho⟩ := ih (by omega) hmore
      exact ⟨.cons hf ha hm,ho⟩

theorem Loop.complete (h : Loop first part ends loop k) (n : Nat) {ts rest : List Token}
    {as : List α} (hn : ts.length ≤ n) (hr : Clean rest) (ho : ends rest)
    (hm : Many first part ts as rest) : loop (n + k) ts = .ok (as,rest) := by
  induction n generalizing ts as with
  | zero =>
    have hts : ts = [] := List.length_eq_zero_iff.mp (by omega)
    subst hts
    rw [Nat.zero_add]
    cases hm with
    | nil => exact h.start.mpr ⟨ho,rfl,rfl⟩
    | cons there => simp at there
  | succ n ih =>
    rw [show n + 1 + k = n + k + 1 by omega]
    cases hm with
    | nil hf => exact h.end_complete hr hf ho
    | cons hf ha hm =>
      have hlt := h.shorter ha
      exact h.step_complete ((hm.takes h.takes).clean hr) hf ha (ih (by omega) hm)

theorem Loop.reads {β : Type} (h : Loop first part ends loop k) {f : List α → Parser β}
    {q : List α → Part β} (hf : ∀ as, Reads (f as) (q as)) :
    Reads (do
      let as ← loop ((← get).length + k)
      f as) fun ts b rest =>
        ∃ as mid, (Many first part ts as mid ∧ ends mid) ∧ q as mid b rest := by
  have hloop : Reads (do loop ((← get).length + k)) fun ts as rest =>
      Many first part ts as rest ∧ ends rest :=
    { sound := fun hl => h.sound _ (Nat.le_refl _) hl
      complete := fun hr hm => h.complete _ (Nat.le_refl _) hr hm.2 hm.1
      takes := fun hm => hm.1.takes h.takes }
  have hall := hloop.bind hf
  rwa [bind_assoc] at hall

end Loops

section Statements

theorem Behind.takes {op : Token → Bool} (hop : Telling op) {ts rest : List Token} {name : Ident}
    (h : Behind op ts name rest) : Takes ts rest := by
  obtain ⟨ht,hn⟩ := h
  obtain ⟨hi⟩ := hn
  exact .cons (hop _ ht) (.cons (telling_ident _ hi) (.refl _))

theorem Behind.shorter {op : Token → Bool} {ts rest : List Token} {name : Ident}
    (h : Behind op ts name rest) : rest.length < ts.length := by
  obtain ⟨ht,hn⟩ := h
  obtain ⟨hi⟩ := hn
  simp only [List.length_cons]
  omega

theorem Name.next {ts rest : List Token} {name : Ident} (h : Name ts name rest) :
    next isIdent ts = true := by
  obtain ⟨ht⟩ := h
  simpa using ht

theorem Ended.next {ts rest : List Token} {e : Ending} (h : Ended ts e rest) :
    next isIdent ts = false := by
  obtain @⟨t,_,mid,_,_,_,_,_,hd,ht,-,-⟩ := h
  cases hd with
  | present there =>
    obtain ⟨u,us,rfl,hu⟩ := exists_of_next there
    simp only [Token.isOperator,Bool.and_eq_true,beq_iff_eq] at hu
    simp [isIdent,hu.1]
  | absent =>
    have hk : t.kind = .terminator := by simpa [isTerminator] using ht
    simp [isIdent,hk]

variable {place : Place} (hs : place.stop.kind = .eof)

include hs

theorem loop_moreTerms : Loop (Token.isOperator "|") (Behind (Token.isOperator "|")) (fun _ => True)
    (moreTerms place) 0 where
  takes := Behind.takes (telling_operator "|")
  shorter := Behind.shorter
  start := by simp [moreTerms,pure_ok]
  step_sound := by
    intro fuel ts terms rest h
    rw [moreTerms] at h
    simp only [operator?,bind_assoc,pure_bind] at h
    obtain ⟨o,mid,ho,h⟩ := bind_ok.mp h
    rcases (accept?_ok hs (telling_operator "|")).mp ho with ⟨t,⟨ht⟩,rfl⟩ | ⟨hn,-,rfl,rfl⟩
    · simp only [Option.isSome_some,if_true,bind_ok,pure_ok] at h
      obtain ⟨term,mid,hterm,more,_,hmore,rfl,rfl⟩ := h
      have hname := (reads_ident hs _).sound hterm
      exact .inr ⟨by simpa using ht,term,mid,more,⟨ht,hname⟩,hmore,rfl⟩
    · obtain ⟨rfl,rfl⟩ : terms = [] ∧ ts = rest := by simpa [pure_ok] using h
      exact .inl ⟨hn,trivial,rfl,rfl⟩
  end_complete := by
    intro fuel ts hc hn _
    rw [moreTerms]
    simp only [operator?,bind_assoc,pure_bind]
    refine bind_ok.mpr
      ⟨none,ts,(reads_accept hs (telling_operator "|")).complete hc (.absent hn),?_⟩
    simp [pure_ok]
  step_complete := by
    rintro fuel _ term mid more rest hc - ⟨ht,hname⟩ hmore
    rw [moreTerms]
    simp only [operator?,bind_assoc,pure_bind]
    refine bind_ok.mpr ⟨_,_,(accept?_ok hs (telling_operator "|")).mpr (.inl ⟨_,⟨ht⟩,rfl⟩),?_⟩
    simp only [Option.isSome_some,if_true,bind_ok,pure_ok]
    exact ⟨term,mid,(reads_ident hs _).complete hc hname,more,rest,hmore,rfl,rfl⟩

theorem reads_defaults : Reads (defaults place) fun ts terms rest =>
    ∃ o, Optional (Token.isOperator "=") Defaults ts o rest ∧ o.getD [] = terms := by
  unfold defaults operator?
  simp only [bind_assoc,pure_bind]
  refine reads_optional (g := fun o => o.getD []) hs (telling_operator "=") rfl ?_
  intro t ht
  refine Reads.of_iff (Reads.bind (reads_ident hs _) fun term =>
    (loop_moreTerms hs).reads fun more => reads_pure (term :: more)) ?_
  intro ts terms rest
  constructor
  · rintro ⟨term,_,hname,more,_,⟨hmany,-⟩,rfl,rfl⟩
    exact ⟨term :: more,⟨⟨ht,hname⟩,hmany⟩,rfl⟩
  · rintro ⟨_,⟨⟨-,hname⟩,hmany⟩,rfl⟩
    exact ⟨_,_,hname,_,_,⟨hmany,trivial⟩,rfl,rfl⟩

theorem reads_ended {β : Type} (g : Ending → β) :
    Reads (do
      let terms ← defaults place
      let stop ← terminator place
      let obsolete ← marker? place "obsolete"
      let removed ← marker? place "removed"
      return g ⟨terms,stop,obsolete,removed⟩) fun ts b rest => ∃ e, Ended ts e rest ∧ g e = b := by
  refine ((reads_defaults hs).bind fun terms => (reads_terminator hs).bind fun t =>
    (reads_marker hs "obsolete").bind fun obsolete =>
      (reads_marker hs "removed").bind fun removed =>
        reads_pure (g ⟨terms,t,obsolete,removed⟩)).of_iff ?_
  intro ts b rest
  constructor
  · rintro ⟨_,_,⟨o,ho,rfl⟩,t,_,⟨ht⟩,obsolete,_,hobs,removed,_,hrem,rfl,rfl⟩
    exact ⟨_,⟨ho,ht,hobs,hrem⟩,rfl⟩
  · rintro ⟨_,⟨ho,ht,hobs,hrem⟩,rfl⟩
    exact ⟨_,_,⟨_,ho,rfl⟩,_,_,⟨ht⟩,_,_,hobs,_,_,hrem,rfl,rfl⟩

theorem reads_property : Reads (property place) PropertyAt := by
  have hthird : Reads (ident? place) (Optional isIdent Name) := by
    refine ((reads_accept hs telling_ident).map fun o => o.map identOf).of_iff ?_
    intro ts o rest
    constructor
    · rintro ⟨_,ho,rfl⟩
      cases ho with
      | present there taken =>
        obtain ⟨ht⟩ := taken
        exact .present there ⟨ht⟩
      | absent lacks => exact .absent lacks
    · intro ho
      cases ho with
      | present there taken =>
        obtain ⟨ht⟩ := taken
        exact ⟨_,.present there ⟨ht⟩,rfl⟩
      | absent lacks => exact ⟨none,.absent lacks,rfl⟩
  unfold property
  refine Reads.of_iff (Reads.bind (reads_ident hs _) fun first => Reads.bind (reads_bracketed hs _)
    fun option => Reads.bind (reads_ident hs _) fun second =>
      Reads.bind hthird (q := fun third ts p rest =>
      (third = none ∧
        ∃ e, Ended ts e rest ∧ Beginning.property ⟨first,none,option,first,second⟩ e = p) ∨
      ∃ name flag, third = some name ∧ Flag.ofWord? first.text = some flag ∧
        ∃ e, Ended ts e rest ∧ Beginning.property ⟨first,some flag,option,second,name⟩ e = p) ?_) ?_
  · intro third
    cases third with
    | none =>
      have h := reads_ended hs (Beginning.property ⟨first,none,option,first,second⟩)
      exact h.of_iff (by simp)
    | some third =>
      cases hflag : Flag.ofWord? first.text with
      | none => exact Reads.of_iff (reads_throw _) (by simp)
      | some flag =>
        have h := reads_ended hs (Beginning.property ⟨first,some flag,option,second,third⟩)
        exact h.of_iff (by simp)
  · intro ts p rest
    constructor
    · rintro ⟨first,_,hfirst,option,_,hoption,second,_,hsecond,third,_,hthird,h⟩
      rcases h with ⟨rfl,e,he,rfl⟩ | ⟨name,flag,rfl,hflag,e,he,rfl⟩
      · cases hthird
        exact ⟨.plain hfirst hoption hsecond,he⟩
      · cases hthird with
        | present there taken => exact ⟨.flagged hfirst hflag hoption hsecond taken,he⟩
    · rintro ⟨hb,he⟩
      cases hb with
      | flagged hfirst hflag hoption hsecond hthird =>
        exact ⟨_,_,hfirst,_,_,hoption,_,_,hsecond,_,_,.present hthird.next hthird,
          .inr ⟨_,_,rfl,hflag,_,he,rfl⟩⟩
      | plain hfirst hoption hsecond =>
        -- No third name is read, because the end of a member does not start with one.
        exact ⟨_,_,hfirst,_,_,hoption,_,_,hsecond,none,_,.absent he.next,.inl ⟨rfl,_,he,rfl⟩⟩

theorem reads_enumValue : Reads (enumValue place) ValueAt := by
  refine Reads.of_iff (Reads.bind (reads_ident hs _) fun name => reads_ended hs (valueOf name)) ?_
  intro ts v rest
  constructor
  · rintro ⟨name,_,hname,e,he,rfl⟩
    exact ⟨hname,he⟩
  · rintro ⟨hname,he⟩
    exact ⟨_,_,hname,_,he,rfl⟩

end Statements

end WireSchema.Document.Grammar
