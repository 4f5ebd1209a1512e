import WireSchema.Document.Parser
import WireSchema.Proofs.Token.Apart
set_option autoImplicit false

namespace WireSchema

class Bare (α : Type) where
  bare : α → α

open Bare (bare)

section Instances

variable {α β : Type} [Bare α] [Bare β]

instance : Bare (Option α) where
  bare := Option.map bare

instance : Bare (List α) where
  bare := List.map bare

instance : Bare (α × β) where
  bare x := (bare x.1,bare x.2)

instance : Bare (Except α β) where
  bare
    | .error a => .error (bare a)
    | .ok b => .ok (bare b)

instance : Bare Unit where
  bare := id

instance : Bare Bool where
  bare := id

instance : Bare Flag where
  bare := id

instance : Bare Span where
  bare _ := ⟨0,0⟩

instance : Bare Token where
  bare t := { t with offset := 0 }

instance : Bare Ident where
  bare i := { i with start := 0 }

instance : Bare Marker where
  bare m := { m with span := bare m.span }

instance : Bare Directive where
  bare d := { d with span := bare d.span }

end Instances

namespace Document

instance : Bare Property where
  bare p :=
    { p with
      span := bare p.span
      name := bare p.name
      type := bare p.type
      option := bare p.option
      defaults := bare p.defaults
      obsolete := bare p.obsolete
      removed := bare p.removed }

instance : Bare EnumValue where
  bare v :=
    { v with
      span := bare v.span
      name := bare v.name
      defaults := bare v.defaults
      obsolete := bare v.obsolete
      removed := bare v.removed }

instance : Bare Class where
  bare c :=
    { c with
      span := bare c.span
      name := bare c.name
      identity := bare c.identity
      parent := bare c.parent
      removed := bare c.removed
      properties := bare c.properties }

instance : Bare Enum where
  bare e :=
    { e with
      span := bare e.span
      name := bare e.name
      storage := bare e.storage
      values := bare e.values }

instance : Bare Decl where
  bare
    | .class c => .class (bare c)
    | .enum e => .enum (bare e)

instance : Bare Document where
  bare d := ⟨bare d.span,bare d.directives,bare d.decls⟩

instance : Bare Parser.Item where
  bare
    | .directive d => .directive (bare d)
    | .decl d => .decl (bare d)

instance : Bare Place where
  bare p := { p with stop := bare p.stop }

instance : Bare Fault where
  bare
    | .unrecognized t decl => .unrecognized (bare t) decl
    | .unexpected expected t decl => .unexpected expected (bare t) decl
    | .noDeclaration t => .noDeclaration (bare t)
    | .unclosedBlock t decl => .unclosedBlock (bare t) decl
    | .strayClose t => .strayClose (bare t)
    | .noTerminator t decl => .noTerminator (bare t) decl
    | .unknownFlag t decl => .unknownFlag (bare t) decl
    | .emptyDirective t => .emptyDirective (bare t)

section Same

variable {α β : Type} [Bare α] [Bare β]

theorem bare_token {t u : Token} : bare t = bare u ↔ t.kind = u.kind ∧ t.text = u.text := by
  simp [bare]

theorem bare_ident {i j : Ident} : bare i = bare j ↔ i.text = j.text := by
  simp [bare]

theorem bare_some {a : α} {o : Option α} : bare
    (some a) = bare o ↔ ∃ b, o = some b ∧ bare a = bare b := by
  cases o <;> simp [bare]

theorem bare_none {o : Option α} : bare (none : Option α) = bare o ↔ o = none := by
  cases o <;> simp [bare]

theorem bare_tokens {ts us : List Token} :
    bare ts = bare us ↔ ts.map Token.face = us.map Token.face := by
  induction ts generalizing us with
  | nil => cases us <;> simp [bare]
  | cons t ts ih =>
    cases us with
    | nil => simp [bare]
    | cons u us =>
      have hcons : bare (t :: ts) = bare (u :: us) ↔ bare t = bare u ∧ bare ts = bare us := by
        simp [bare]
      rw [hcons,ih,bare_token]
      simp [Token.face]

theorem bare_place
    {p q : Place} : bare p = bare q ↔ bare p.stop = bare q.stop ∧ p.decl = q.decl := by
  simp [bare]

theorem bare_marker {m n : Marker} : bare m = bare n ↔ m.message = n.message := by
  simp [bare]

theorem bare_directive {d e : Directive} :
    bare d = bare e ↔ d.name = e.name ∧ d.argument = e.argument := by
  simp [bare]

theorem bare_property {p q : Property} : bare p = bare q ↔
    bare p.name = bare q.name ∧ bare p.type = bare q.type ∧ p.flag = q.flag ∧
      bare p.option = bare q.option ∧ bare p.defaults = bare q.defaults ∧
        bare p.obsolete = bare q.obsolete ∧ bare p.removed = bare q.removed := by
  simp [bare]

theorem bare_enumValue {v w : EnumValue} : bare v = bare w ↔
    bare v.name = bare w.name ∧ bare v.defaults = bare w.defaults ∧
      bare v.obsolete = bare w.obsolete ∧ bare v.removed = bare w.removed := by
  simp [bare]

theorem bare_class {c d : Class} : bare c = bare d ↔
    bare c.name = bare d.name ∧ bare c.identity = bare d.identity ∧
      bare c.parent = bare d.parent ∧ bare c.removed = bare d.removed ∧
        bare c.properties = bare d.properties := by
  simp [bare]

theorem bare_enum {e f : Enum} : bare e = bare f ↔
    bare e.name = bare f.name ∧ bare e.storage = bare f.storage ∧ e.flags = f.flags ∧
      bare e.values = bare f.values := by
  simp [bare]

theorem bare_document {d e : Document} :
    bare d = bare e ↔ bare d.directives = bare e.directives ∧ bare d.decls = bare e.decls := by
  simp [bare]

theorem value_bare {t u : Token} (h : bare t = bare u) : t.value = u.value := by
  obtain ⟨hkind,htext⟩ := bare_token.mp h
  rw [Token.value,Token.value,hkind,htext]

theorem length_bare {as bs : List α} (h : bare as = bare bs) : as.length = bs.length := by
  simpa [bare] using congrArg List.length h

theorem Fault.code_bare {f g : Fault} (h : bare f = bare g) : f.code = g.code := by
  have hcode (f : Fault) : (bare f).code = f.code := by cases f <;> rfl
  rw [← hcode f,h,hcode]

theorem Fault.message_bare {f g : Fault} (h : bare f = bare g) : f.message = g.message := by
  have hmessage (f : Fault) : (bare f).message = f.message := by cases f <;> rfl
  rw [← hmessage f,h,hmessage]

end Same

namespace Parser

/-- On token lists that differ in places only, two parsers give results that do so. -/
def Agrees {α : Type} [Bare α] (p q : Parser α) : Prop :=
  ∀ ts us, bare ts = bare us → bare (p ts) = bare (q us)

def Blind (fits : Token → Bool) : Prop :=
  ∀ t u, bare t = bare u → fits t = fits u

section Rules

variable {α β : Type} [Bare α] [Bare β]

theorem agrees_pure {a b : α} (h : bare a = bare b) : Agrees (pure a) (pure b) := by
  intro ts us hts
  exact congrArg Except.ok (Prod.ext h hts)

theorem agrees_throw {f g : Fault} (h : bare f = bare g) :
    Agrees (throw f : Parser α) (throw g) := by
  intro ts us _
  exact congrArg Except.error h

theorem agrees_throw_bind {γ : Type} {f g : Fault} (h : bare f = bare g)
    (next next' : γ → Parser α) :
    Agrees (throw f >>= next) (throw g >>= next') := by
  intro ts us _
  exact congrArg Except.error h

theorem agrees_bind {p q : Parser α} {next next' : α → Parser β} (h : Agrees p q)
    (hnext : ∀ a b, bare a = bare b → Agrees (next a) (next' b)) :
    Agrees (p >>= next) (q >>= next') := by
  intro ts us hts
  have hfirst := h ts us hts
  have hrun (r : Parser α) (n : α → Parser β) (vs : List Token) :
      (r >>= n) vs = (r vs).bind fun x => n x.1 x.2 := rfl
  rw [hrun,hrun]
  generalize p ts = x at hfirst
  generalize q us = y at hfirst
  cases x with
  | error f =>
    cases y with
    | error g =>
      have hfg : bare f = bare g := Except.error.inj hfirst
      exact congrArg Except.error hfg
    | ok y => cases hfirst
  | ok x =>
    cases y with
    | error g => cases hfirst
    | ok y =>
      have hxy : bare x = bare y := Except.ok.inj hfirst
      exact hnext _ _ (congrArg Prod.fst hxy) _ _ (congrArg Prod.snd hxy)

theorem agrees_map {p q : Parser α} {f g : α → β} (h : Agrees p q)
    (hfg : ∀ a b, bare a = bare b → bare (f a) = bare (g b)) : Agrees (f <$> p) (g <$> q) :=
  agrees_bind h fun a b hab => agrees_pure (hfg a b hab)

theorem agrees_ite {c c' : Prop} [Decidable c] [Decidable c'] {p p' q q' : Parser α} (hc : c ↔ c')
    (h : Agrees p q) (h' : Agrees p' q') : Agrees (if c then p else p') (if c' then q else q') := by
  by_cases hcase : c
  · rw [if_pos hcase,if_pos (hc.mp hcase)]
    exact h
  · rw [if_neg hcase,if_neg fun hback => hcase (hc.mpr hback)]
    exact h'

theorem agrees_get : Agrees (get : Parser (List Token)) get := by
  intro ts us hts
  exact congrArg Except.ok (Prod.ext hts hts)

theorem agrees_tail : Agrees (modify List.tail : Parser Unit) (modify List.tail) := by
  intro ts us hts
  have htail : bare ts.tail = bare us.tail := by
    cases ts with
    | nil =>
      cases us with
      | nil => rfl
      | cons u us => simp [bare] at hts
    | cons t ts =>
      cases us with
      | nil => simp [bare] at hts
      | cons u us => exact (List.cons.inj hts).2
  exact congrArg Except.ok (Prod.ext rfl htail)

end Rules

section Leaves

variable {place place' : Place} {fits : Token → Bool}

theorem blind_operator (op : Text) : Blind (Token.isOperator op) := by
  intro t u h
  obtain ⟨hkind,htext⟩ := bare_token.mp h
  rw [Token.isOperator,Token.isOperator,hkind,htext]

theorem blind_word (word : Text) : Blind (Token.isWord word) := by
  intro t u h
  obtain ⟨hkind,htext⟩ := bare_token.mp h
  rw [Token.isWord,Token.isWord,hkind,htext]

theorem blind_kind (kind : Token.Kind) : Blind fun t => t.kind == kind := by
  intro t u h
  simp only [(bare_token.mp h).1]

theorem agrees_peek (h : bare place = bare place') : Agrees (peek place) (peek place') := by
  obtain ⟨hstop,hdecl⟩ := bare_place.mp h
  unfold peek
  refine agrees_bind agrees_get fun ts us hts => ?_
  have htoken : bare (ts.head?.getD place.stop) = bare (us.head?.getD place'.stop) := by
    cases ts with
    | nil =>
      cases us with
      | nil => exact hstop
      | cons u us => simp [bare] at hts
    | cons t ts =>
      cases us with
      | nil => simp [bare] at hts
      | cons u us => exact (List.cons.inj hts).1
  have hkind := (bare_token.mp htoken).1
  refine agrees_ite (by rw [hkind]) ?_ (agrees_pure htoken)
  rw [hdecl]
  exact agrees_throw_bind (congrArg (Fault.unrecognized · place'.decl) htoken) _ _

theorem agrees_accept (h : bare place = bare place') (hfits : Blind fits) :
    Agrees (accept? place fits) (accept? place' fits) := by
  refine agrees_bind (agrees_peek h) fun t u htu => ?_
  refine agrees_ite (by rw [hfits t u htu]) ?_ (agrees_pure rfl)
  exact agrees_bind agrees_tail fun _ _ _ => agrees_pure (congrArg some htu)

theorem agrees_expect (h : bare place = bare place') (hfits : Blind fits) (what : Text) :
    Agrees (expect place what fits) (expect place' what fits) := by
  have hdecl := (bare_place.mp h).2
  refine agrees_bind (agrees_accept h hfits) fun o o' ho => ?_
  cases o with
  | some t =>
    obtain ⟨u,rfl,htu⟩ := bare_some.mp ho
    exact agrees_pure htu
  | none =>
    cases bare_none.mp ho
    refine agrees_bind (agrees_peek h) fun t u htu => ?_
    rw [hdecl]
    exact agrees_throw (congrArg (Fault.unexpected what · place'.decl) htu)

theorem agrees_operator? (h : bare place = bare place') (op : Text) :
    Agrees (operator? place op) (operator? place' op) := by
  refine agrees_bind (agrees_accept h (blind_operator op)) fun o o' ho => agrees_pure ?_
  cases o with
  | some t =>
    obtain ⟨u,rfl,-⟩ := bare_some.mp ho
    rfl
  | none =>
    cases bare_none.mp ho
    rfl

theorem agrees_operator (h : bare place = bare place') (op : Text) :
    Agrees (operator place op) (operator place' op) :=
  agrees_expect h (blind_operator op) _

theorem agrees_ident (h : bare place = bare place') (what : Text) :
    Agrees (ident place what) (ident place' what) := by
  refine agrees_bind (agrees_expect h (blind_kind .ident) what) fun t u htu => agrees_pure ?_
  exact bare_ident.mpr (bare_token.mp htu).2

theorem agrees_ident? (h : bare place = bare place') :
    Agrees (ident? place) (ident? place') := by
  refine agrees_bind (agrees_accept h (blind_kind .ident)) fun o o' ho => agrees_pure ?_
  cases o with
  | some t =>
    obtain ⟨u,rfl,htu⟩ := bare_some.mp ho
    exact congrArg some (bare_ident.mpr (bare_token.mp htu).2)
  | none =>
    cases bare_none.mp ho
    rfl

theorem agrees_terminator (h : bare place = bare place') :
    Agrees (terminator place) (terminator place') := by
  have hdecl := (bare_place.mp h).2
  refine agrees_bind (agrees_accept h (blind_kind .terminator)) fun o o' ho => ?_
  cases o with
  | some t =>
    obtain ⟨u,rfl,htu⟩ := bare_some.mp ho
    exact agrees_pure htu
  | none =>
    cases bare_none.mp ho
    refine agrees_bind (agrees_peek h) fun t u htu => ?_
    rw [hdecl]
    exact agrees_throw (congrArg (Fault.noTerminator · place'.decl) htu)

theorem agrees_marker? (h : bare place = bare place') (word : Text) :
    Agrees (marker? place word) (marker? place' word) := by
  refine agrees_bind (agrees_accept h (blind_word word)) fun o o' ho => ?_
  cases o with
  | none =>
    cases bare_none.mp ho
    exact agrees_pure rfl
  | some t =>
    obtain ⟨u,rfl,-⟩ := bare_some.mp ho
    refine agrees_bind (agrees_accept h (blind_kind .string)) fun s s' hs => ?_
    cases s with
    | none =>
      cases bare_none.mp hs
      exact agrees_pure rfl
    | some arg =>
      obtain ⟨arg',rfl,harg⟩ := bare_some.mp hs
      exact agrees_pure (congrArg some (bare_marker.mpr (value_bare harg)))

theorem agrees_bracketed? (h : bare place = bare place') (what : Text) :
    Agrees (bracketed? place what) (bracketed? place' what) := by
  refine agrees_bind (agrees_operator? h "<") fun b b' hb => ?_
  refine agrees_ite (by rw [show b = b' from hb]) ?_ (agrees_pure rfl)
  refine agrees_bind (agrees_ident h what) fun i j hij => ?_
  refine agrees_bind (agrees_map (agrees_operator h ">") fun _ _ _ => rfl) fun _ _ _ => ?_
  exact agrees_pure (congrArg some hij)

theorem agrees_moreTerms (h : bare place = bare place') (fuel : Nat) :
    Agrees (moreTerms place fuel) (moreTerms place' fuel) := by
  induction fuel with
  | zero => exact agrees_pure rfl
  | succ fuel ih =>
    refine agrees_bind (agrees_operator? h "|") fun b b' hb => ?_
    refine agrees_ite (by rw [show b = b' from hb]) ?_ (agrees_pure rfl)
    refine agrees_bind (agrees_ident h "default value") fun i j hij => ?_
    exact agrees_bind ih fun is js his => agrees_pure (congrArg₂ List.cons hij his)

theorem agrees_defaults (h : bare place = bare place') :
    Agrees (defaults place) (defaults place') := by
  refine agrees_bind (agrees_operator? h "=") fun b b' hb => ?_
  refine agrees_ite (by rw [show b = b' from hb]) ?_ (agrees_pure rfl)
  refine agrees_bind (agrees_ident h "default value") fun i j hij => ?_
  refine agrees_bind agrees_get fun ts us hts => ?_
  rw [length_bare hts]
  exact agrees_bind (agrees_moreTerms h _) fun is js his =>
    agrees_pure (congrArg₂ List.cons hij his)

theorem agrees_ended {α : Type} [Bare α] (h : bare place = bare place')
    (g g' : List Ident → Token → Option Marker → Option Marker → α)
    (hg : ∀ {terms terms' stop stop' obsolete obsolete' removed removed'},
      bare terms = bare terms' → bare obsolete = bare obsolete' → bare removed = bare removed' →
        bare (g terms stop obsolete removed) = bare (g' terms' stop' obsolete' removed')) :
    Agrees
      (do
        let terms ← defaults place
        let stop ← terminator place
        let obsolete ← marker? place "obsolete"
        let removed ← marker? place "removed"
        return g terms stop obsolete removed)
      (do
        let terms ← defaults place'
        let stop ← terminator place'
        let obsolete ← marker? place' "obsolete"
        let removed ← marker? place' "removed"
        return g' terms stop obsolete removed) := by
  refine agrees_bind (agrees_defaults h) fun terms terms' hterms => ?_
  refine agrees_bind (agrees_terminator h) fun stop stop' _ => ?_
  refine agrees_bind (agrees_marker? h _) fun obsolete obsolete' hobsolete => ?_
  refine agrees_bind (agrees_marker? h _) fun removed removed' hremoved => ?_
  exact agrees_pure (hg hterms hobsolete hremoved)

theorem agrees_property (h : bare place = bare place') :
    Agrees (property place) (property place') := by
  have hdecl := (bare_place.mp h).2
  refine agrees_bind (agrees_ident h "property type") fun first first' hfirst => ?_
  refine agrees_bind (agrees_bracketed? h _) fun option option' hoption => ?_
  refine agrees_bind (agrees_ident h "property name") fun second second' hsecond => ?_
  have hended (flag : Option Flag) {type type' name name' : Ident} (htype : bare type = bare type')
      (hname : bare name = bare name') := agrees_ended h
    (fun terms stop obsolete removed =>
      (⟨.between first.span (latest stop.span [obsolete,removed]),name,type,flag,option,terms,
        obsolete,removed⟩ : Property))
    (fun terms stop obsolete removed =>
      ⟨.between first'.span (latest stop.span [obsolete,removed]),name',type',flag,option',terms,
        obsolete,removed⟩)
    fun hterms hobsolete hremoved =>
      bare_property.mpr ⟨hname,htype,rfl,hoption,hterms,hobsolete,hremoved⟩
  refine agrees_bind (agrees_ident? h) fun third third' hthird => ?_
  cases third with
  | none =>
    cases bare_none.mp hthird
    exact hended none hfirst hsecond
  | some third =>
    obtain ⟨third',rfl,hname⟩ := bare_some.mp hthird
    have hword := bare_ident.mp hfirst
    simp only [hword]
    cases Flag.ofWord? first'.text with
    | some flag => exact hended (some flag) hsecond hname
    | none =>
      rw [hdecl]
      have hfault : bare (Fault.unknownFlag ⟨.ident,first'.text,first.start⟩ place'.decl) =
          bare (Fault.unknownFlag ⟨.ident,first'.text,first'.start⟩ place'.decl) := rfl
      exact agrees_throw_bind hfault _ _

theorem agrees_enumValue (h : bare place = bare place') :
    Agrees (enumValue place) (enumValue place') := by
  refine agrees_bind (agrees_ident h _) fun name name' hname => ?_
  exact agrees_ended h _ _ fun hterms hobsolete hremoved =>
    bare_enumValue.mpr ⟨hname,hterms,hobsolete,hremoved⟩

end Leaves

section Blocks

variable {α : Type} [Bare α] {place place' : Place} {member member' : Parser α}
variable {stop stop' token token' : Token}

theorem agrees_members (h : bare place = bare place') (hm : Agrees member member')
    {opening opening' : Token} (hopening : bare opening = bare opening') (fuel : Nat) :
    Agrees (members place opening member fuel) (members place' opening' member' fuel) := by
  have hdecl := (bare_place.mp h).2
  induction fuel with
  | zero => exact agrees_pure rfl
  | succ fuel ih =>
    refine agrees_bind (agrees_peek h) fun t u htu => ?_
    have hblind := blind_operator "\x7d" t u htu
    have hnext : Agrees
        (member >>= fun first => members place opening member fuel >>= fun more =>
          pure (first :: more))
        (member' >>= fun first =>
          members place' opening' member' fuel >>= fun more => pure (first :: more)) :=
      agrees_bind hm fun a b hab => agrees_bind ih fun as bs habs =>
        agrees_pure (congrArg₂ List.cons hab habs)
    refine agrees_ite (by rw [(bare_token.mp htu).1]) ?_ ?_
    · rw [hdecl]
      exact agrees_throw_bind (congrArg (Fault.unclosedBlock · place'.decl) hopening) _ _
    · exact agrees_ite (by rw [hblind]) (agrees_pure rfl) hnext

theorem agrees_block (h : bare place = bare place') (hm : Agrees member member') :
    Agrees (block place member) (block place' member') := by
  refine agrees_bind (agrees_operator h _) fun opening opening' hopening => ?_
  refine agrees_bind agrees_get fun ts us hts => ?_
  rw [length_bare hts]
  refine agrees_bind (agrees_members h hm hopening _) fun list list' hlist => ?_
  refine agrees_bind (agrees_operator h _) fun closing closing' _ => ?_
  refine agrees_bind (agrees_accept h (blind_kind .terminator)) fun o o' ho => ?_
  cases o with
  | none =>
    cases bare_none.mp ho
    exact agrees_pure (Prod.ext hlist rfl)
  | some t =>
    obtain ⟨u,rfl,-⟩ := bare_some.mp ho
    exact agrees_pure (Prod.ext hlist rfl)

theorem agrees_class (h : bare stop = bare stop') :
    Agrees (classDecl stop token) (classDecl stop' token') := by
  have hstart : bare (⟨stop,[]⟩ : Place) = bare (⟨stop',[]⟩ : Place) := bare_place.mpr ⟨h,rfl⟩
  refine agrees_bind (agrees_ident hstart _) fun name name' hname => ?_
  have hplace : bare (⟨stop,name.text⟩ : Place) = bare (⟨stop',name'.text⟩ : Place) :=
    bare_place.mpr ⟨h,bare_ident.mp hname⟩
  refine agrees_bind (agrees_bracketed? hplace _) fun identity identity' hidentity => ?_
  refine agrees_bind (agrees_accept hplace (blind_word _)) fun o o' ho => ?_
  have hrest {parent parent' : Option Ident} (hparent : bare parent = bare parent') : Agrees
      (do
        let removed ← marker? ⟨stop,name.text⟩ "removed"
        let body ← block ⟨stop,name.text⟩ (property ⟨stop,name.text⟩)
        return (⟨.between token.span body.2,name,identity,parent,removed,body.1⟩ : Class))
      (do
        let removed ← marker? ⟨stop',name'.text⟩ "removed"
        let body ← block ⟨stop',name'.text⟩ (property ⟨stop',name'.text⟩)
        return ⟨.between token'.span body.2,name',identity',parent',removed,body.1⟩) := by
    refine agrees_bind (agrees_marker? hplace _) fun removed removed' hremoved => ?_
    refine agrees_bind (agrees_block hplace (agrees_property hplace)) fun x x' hx => ?_
    exact agrees_pure (bare_class.mpr ⟨hname,hidentity,hparent,hremoved,congrArg Prod.fst hx⟩)
  cases o with
  | none =>
    cases bare_none.mp ho
    exact hrest rfl
  | some t =>
    obtain ⟨u,rfl,-⟩ := bare_some.mp ho
    exact agrees_bind (agrees_map (agrees_ident hplace _) fun _ _ hij => congrArg some hij)
      fun _ _ hparent => hrest hparent

theorem agrees_enum (h : bare stop = bare stop') :
    Agrees (enumDecl stop token) (enumDecl stop' token') := by
  have hstart : bare (⟨stop,[]⟩ : Place) = bare (⟨stop',[]⟩ : Place) := bare_place.mpr ⟨h,rfl⟩
  refine agrees_bind (agrees_ident hstart _) fun name name' hname => ?_
  have hplace : bare (⟨stop,name.text⟩ : Place) = bare (⟨stop',name'.text⟩ : Place) :=
    bare_place.mpr ⟨h,bare_ident.mp hname⟩
  refine agrees_bind (agrees_bracketed? hplace _) fun storage storage' hstorage => ?_
  refine agrees_bind (agrees_accept hplace (blind_word _)) fun o o' ho => ?_
  refine agrees_bind (agrees_block hplace (agrees_enumValue hplace)) fun x x' hx => ?_
  refine agrees_pure (bare_enum.mpr ⟨hname,hstorage,?_,congrArg Prod.fst hx⟩)
  simpa [bare] using congrArg Option.isSome ho

theorem agrees_directive (h : bare stop = bare stop') (ht : bare token = bare token') :
    Agrees (directive stop token) (directive stop' token') := by
  have hvalue := value_bare ht
  refine agrees_ite (by rw [hvalue]) ?_ ?_
  · exact agrees_throw_bind (congrArg Fault.emptyDirective ht) _ _
  · refine agrees_bind (agrees_accept (bare_place.mpr ⟨h,rfl⟩) (blind_kind .string))
      fun o o' ho => ?_
    cases o with
    | none =>
      cases bare_none.mp ho
      exact agrees_pure (bare_directive.mpr ⟨hvalue,rfl⟩)
    | some arg =>
      obtain ⟨arg',rfl,harg⟩ := bare_some.mp ho
      exact agrees_pure (bare_directive.mpr ⟨hvalue,congrArg some (value_bare harg)⟩)

theorem agrees_item (h : bare stop = bare stop') (ht : bare token = bare token') :
    Agrees (item stop token) (item stop' token') := by
  have hword (word : Text) := blind_word word token token' ht
  refine agrees_ite (by rw [(bare_token.mp ht).1]) ?_ ?_
  · exact agrees_map (agrees_directive h ht) fun _ _ hd => congrArg Item.directive hd
  refine agrees_ite (by rw [hword]) ?_ ?_
  · exact agrees_map (agrees_class h) fun _ _ hc => congrArg (Item.decl ∘ Decl.class) hc
  refine agrees_ite (by rw [hword]) ?_ ?_
  · exact agrees_map (agrees_enum h) fun _ _ he => congrArg (Item.decl ∘ Decl.enum) he
  refine agrees_ite (by rw [blind_operator _ token token' ht]) ?_ ?_
  · exact agrees_throw (congrArg Fault.strayClose ht)
  · exact agrees_throw (congrArg Fault.noDeclaration ht)

theorem agrees_items (h : bare stop = bare stop') (fuel : Nat) :
    Agrees (items stop fuel) (items stop' fuel) := by
  induction fuel with
  | zero => exact agrees_pure rfl
  | succ fuel ih =>
    refine agrees_bind (agrees_peek (bare_place.mpr ⟨h,rfl⟩)) fun t u htu => ?_
    refine agrees_ite (by rw [(bare_token.mp htu).1]) (agrees_pure rfl) ?_
    refine agrees_bind agrees_tail fun _ _ _ => ?_
    refine agrees_bind (agrees_item h htu) fun i j hij => ?_
    exact agrees_bind ih fun is js his => agrees_pure (congrArg₂ List.cons hij his)

end Blocks

end Parser

section Sources

variable {ts us : List Token}

theorem stopOf_bare (h : bare ts = bare us) : bare (stopOf ts) = bare (stopOf us) := by
  have hfind (vs : List Token) :
      bare (vs.find? fun t => t.kind == .eof) = (bare vs).find? fun t => t.kind == .eof := by
    change (vs.find? fun t => t.kind == .eof).map bare = (vs.map bare).find? fun t => t.kind == .eof
    rw [List.find?_map]
    rfl
  have hlast (vs : List Token) : bare vs.getLast? = (bare vs).getLast? := List.getLast?_map.symm
  have hend : bare (ts.find? fun t => t.kind == .eof) =
      bare (us.find? fun t => t.kind == .eof) := by
    rw [hfind,hfind,h]
  have hback : bare ts.getLast? = bare us.getLast? := by rw [hlast,hlast,h]
  unfold stopOf
  cases ht : ts.find? fun t => t.kind == .eof with
  | some t =>
    rw [ht] at hend
    obtain ⟨u,hu,htu⟩ := bare_some.mp hend
    rw [hu]
    exact htu
  | none =>
    rw [ht] at hend
    rw [bare_none.mp hend]
    cases htl : ts.getLast? with
    | some last =>
      rw [htl] at hback
      obtain ⟨last',hlast',-⟩ := bare_some.mp hback
      rw [hlast']
      rfl
    | none =>
      rw [htl] at hback
      rw [bare_none.mp hback]

theorem readable_bare (h : bare ts = bare us) : bare (readable ts) = bare (readable us) := by
  have hread (vs : List Token) : bare (readable vs) = readable (bare vs) := by
    change (readable vs).map bare = readable (vs.map bare)
    rw [readable,readable,List.takeWhile_map,List.filter_map]
    rfl
  rw [hread,hread,h]

theorem ofTokens_run (vs : List Token) : ofTokens vs =
    (Parser.items (stopOf vs) ((readable vs).length + 1) (readable vs)).map fun x =>
      ⟨⟨0,(stopOf vs).offset⟩,x.1.filterMap Parser.Item.directive?,
        x.1.filterMap Parser.Item.decl?⟩ := by
  unfold ofTokens StateT.run'
  cases h : Parser.items (stopOf vs) ((readable vs).length + 1) (readable vs) with
  | error f => simp [h]; rfl
  | ok x => simp [h]; rfl

theorem ofTokens_bare (h : bare ts = bare us) : bare (ofTokens ts) = bare (ofTokens us) := by
  have hinput := readable_bare h
  have hitems := Parser.agrees_items (stopOf_bare h) ((readable ts).length + 1) _ _ hinput
  have hdirectives (is : List Parser.Item) :
      bare (is.filterMap Parser.Item.directive?) = (bare is).filterMap Parser.Item.directive? := by
    change (is.filterMap Parser.Item.directive?).map bare = (is.map bare).filterMap _
    rw [List.map_filterMap,List.filterMap_map]
    exact congrArg (List.filterMap · is) (funext fun i => by cases i <;> rfl)
  have hdecls (is : List Parser.Item) :
      bare (is.filterMap Parser.Item.decl?) = (bare is).filterMap Parser.Item.decl? := by
    change (is.filterMap Parser.Item.decl?).map bare = (is.map bare).filterMap _
    rw [List.map_filterMap,List.filterMap_map]
    exact congrArg (List.filterMap · is) (funext fun i => by cases i <;> rfl)
  rw [ofTokens_run,ofTokens_run,← length_bare hinput]
  generalize Parser.items (stopOf ts) ((readable ts).length + 1) (readable ts) = x at hitems
  generalize Parser.items (stopOf us) ((readable ts).length + 1) (readable us) = y at hitems
  cases x with
  | error f =>
    cases y with
    | error g =>
      have hfault : bare f = bare g := Except.error.inj hitems
      exact congrArg Except.error hfault
    | ok y => cases hitems
  | ok x =>
    cases y with
    | error g => cases hitems
    | ok y =>
      have his : bare x.1 = bare y.1 := congrArg Prod.fst (Except.ok.inj hitems)
      have hfirst := hdirectives x.1
      have hsecond := hdecls x.1
      rw [his,← hdirectives] at hfirst
      rw [his,← hdecls] at hsecond
      exact congrArg Except.ok (bare_document.mpr ⟨hfirst,hsecond⟩)

theorem parse_cases (h : bare ts = bare us) :
    (∃ doc doc', ofTokens ts = .ok doc ∧ ofTokens us = .ok doc' ∧ bare doc = bare doc') ∨
      ∃ f g, ofTokens ts = .error f ∧ ofTokens us = .error g ∧ f.code = g.code ∧
        f.message = g.message := by
  have hdoc := ofTokens_bare h
  cases ht : ofTokens ts with
  | error f =>
    cases hu : ofTokens us with
    | error g =>
      rw [ht,hu] at hdoc
      have hfault : bare f = bare g := Except.error.inj hdoc
      exact .inr ⟨f,g,rfl,rfl,Fault.code_bare hfault,Fault.message_bare hfault⟩
    | ok doc' =>
      rw [ht,hu] at hdoc
      cases hdoc
  | ok doc =>
    cases hu : ofTokens us with
    | error g =>
      rw [ht,hu] at hdoc
      cases hdoc
    | ok doc' =>
      rw [ht,hu] at hdoc
      exact .inl ⟨doc,doc',rfl,rfl,Except.ok.inj hdoc⟩

/-- A source is as good as the texts of its tokens on a line each: these are its tokens again, and
they spell the same document, or have the same fault. -/
theorem parse_lines (src : Text) :
    (Token.ofSource (Token.lines (Token.ofSource src))).map Token.face =
        (Token.ofSource src).map Token.face ∧
      ((∃ doc doc', parse src = .ok doc ∧ parse (Token.lines (Token.ofSource src)) = .ok doc' ∧
          bare doc = bare doc') ∨
        ∃ f g, parse src = .error f ∧ parse (Token.lines (Token.ofSource src)) = .error g ∧
          f.code = g.code ∧ f.message = g.message) := by
  have hfaces := Token.ofSource_lines src
  exact ⟨hfaces,parse_cases (bare_tokens.mpr hfaces.symm)⟩

end Sources

end Document

end WireSchema
