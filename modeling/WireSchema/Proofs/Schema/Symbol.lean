import WireSchema.Proofs.Basic
import WireSchema.Schema.Symbol
set_option autoImplicit false

/-!
What names refer to. Any text at all is either no name, or it is one in exactly one of two forms,
and then it refers to what stands first under it or is refused. A scoped name is never left as it
stands.
-/

namespace WireSchema

namespace Text

/-- A text in front of the first place where a separator stands, and the text behind it. -/
def Splits (sep t before after : Text) : Prop :=
  t = before ++ sep ++ after ∧
    ∀ front back, t = front ++ sep ++ back → before.length ≤ front.length

theorem cut?_cons (sep : Text) (c : UInt8) (rest : Text) :
    cut? sep (c :: rest) = if sep <+: c :: rest then some ([],(c :: rest).drop sep.length)
      else (cut? sep rest).map fun (before,after) => (c :: before,after) := by
  simp [cut?]

variable {sep : Text}

theorem splits_front {t : Text} (h : sep <+: t) : Splits sep t [] (t.drop sep.length) := by
  obtain ⟨after,rfl⟩ := h
  exact ⟨by simp,fun front back _ => Nat.zero_le _⟩

theorem Splits.behind {c : UInt8} {rest before after : Text} (hfront : ¬ sep <+: c :: rest)
    (h : Splits sep rest before after) : Splits sep (c :: rest) (c :: before) after := by
  refine ⟨by rw [h.1]; rfl,fun front back hother => ?_⟩
  cases front with
  | nil => exact absurd ⟨back,hother.symm⟩ hfront
  | cons d front =>
    obtain ⟨-,hrest⟩ := List.cons.inj hother
    exact Nat.succ_le_succ (h.2 front back hrest)

theorem Splits.eq {t before after before' after' : Text} (h : Splits sep t before after)
    (h' : Splits sep t before' after') : before = before' ∧ after = after' := by
  have hlength : before.length = before'.length :=
    Nat.le_antisymm (h.2 _ _ h'.1) (h'.2 _ _ h.1)
  have heq := h.1.symm.trans h'.1
  rw [List.append_assoc,List.append_assoc] at heq
  obtain ⟨hbefore,hbehind⟩ := List.append_inj heq hlength
  exact ⟨hbefore,List.append_cancel_left hbehind⟩

theorem cut?_cases (hsep : sep ≠ []) (t : Text) :
    (∃ before after, cut? sep t = some (before,after) ∧ Splits sep t before after) ∨
      cut? sep t = none ∧ ¬ sep <:+: t := by
  induction t with
  | nil => exact .inr ⟨by simp [cut?,hsep],by simpa using hsep⟩
  | cons c rest ih =>
    rw [cut?_cons]
    by_cases hfront : sep <+: c :: rest
    · rw [if_pos hfront]
      exact .inl ⟨[],_,rfl,splits_front hfront⟩
    · rw [if_neg hfront]
      rcases ih with ⟨before,after,hcut,hsplits⟩ | ⟨hcut,hnone⟩
      · exact .inl ⟨c :: before,after,by rw [hcut]; rfl,hsplits.behind hfront⟩
      · refine .inr ⟨by rw [hcut]; rfl,fun hinside => ?_⟩
        rcases List.infix_cons_iff.mp hinside with hstart | hlater
        · exact hfront hstart
        · exact hnone hlater

theorem cut?_eq_some (hsep : sep ≠ []) {t before after : Text} :
    cut? sep t = some (before,after) ↔ Splits sep t before after := by
  rcases cut?_cases hsep t with ⟨before',after',hcut,hsplits⟩ | ⟨hcut,hnone⟩
  · rw [hcut,Option.some.injEq,Prod.mk.injEq]
    exact ⟨fun ⟨hb,ha⟩ => hb ▸ ha ▸ hsplits,fun h => hsplits.eq h⟩
  · rw [hcut]
    refine ⟨fun h => (by cases h),fun h => absurd ⟨before,after,h.1.symm⟩ hnone⟩

theorem cut?_eq_none (hsep : sep ≠ []) {t : Text} : cut? sep t = none ↔ ¬ sep <:+: t := by
  rcases cut?_cases hsep t with ⟨before,after,hcut,hsplits⟩ | ⟨hcut,hnone⟩
  · rw [hcut]
    refine ⟨fun h => (by cases h),fun h => absurd ⟨before,after,hsplits.1.symm⟩ h⟩
  · exact ⟨fun _ => hnone,fun _ => hcut⟩

end Text

/-- The first entry of a name. -/
def First {α : Type} (name : α → Text) (xs : List α) (n : Text) (x : α) : Prop :=
  name x = n ∧ ∃ before after, xs = before ++ x :: after ∧ ∀ y ∈ before, name y ≠ n

theorem find?_eq_some_first {α : Type} {name : α → Text} {xs : List α} {n : Text} {x : α} :
    xs.find? (fun y => name y == n) = some x ↔ First name xs n x := by
  simp [List.find?_eq_some_iff_append,First]

theorem first_or_none {α : Type} (name : α → Text) (xs : List α) (n : Text) :
    (∃ x, First name xs n x) ∨ ∀ x ∈ xs, name x ≠ n := by
  cases hfind : xs.find? (fun y => name y == n) with
  | some x => exact .inl ⟨x,find?_eq_some_first.mp hfind⟩
  | none => exact .inr fun x hx => by simpa using List.find?_eq_none.mp hfind x hx

namespace Symbol

open Document (Decl MemberNode)

/-- A word character, then word characters and dots, behind at most one minus sign. -/
inductive Dotted : Text → Prop where
  | mk (sign : Text) (c : UInt8) (rest : Text) (once : sign = [] ∨ sign = "-")
      (first : isWordChar c = true)
      (more : ∀ d ∈ rest, isWordChar d = true ∨ d = Text.byte '.') : Dotted (sign ++ c :: rest)

structure Scoped (t scope member : Text) : Prop where
  splits : Text.Splits scopeMark t scope member
  scope : ∀ c ∈ scope, isWordChar c = true
  member : ∀ c ∈ member, isWordChar c = true

/-- What a text refers to in a document, or why it refers to nothing. -/
inductive Resolves (doc : Document) (strongOnly : Bool) (t : Text) :
    Except Fault Symbol → Prop where
  | malformed (undotted : ¬ Dotted t) (unscoped : ∀ scope member, ¬ Scoped t scope member) :
      Resolves doc strongOnly t (.error (.malformed t))
  | member {scope name : Text} {d : Decl} {m : MemberNode} (form : Scoped t scope name)
      (decl : First (fun d => d.name.text) doc.decls scope d)
      (member : First (fun m => m.name.text) d.memberNodes name m) :
      Resolves doc strongOnly t (.ok (.strong d (some m)))
  | unknownScope {scope name : Text} (form : Scoped t scope name)
      (none : ∀ d ∈ doc.decls, d.name.text ≠ scope) :
      Resolves doc strongOnly t (.error (.unknownScope t scope))
  | unknownMember {scope name : Text} {d : Decl} (form : Scoped t scope name)
      (decl : First (fun d => d.name.text) doc.decls scope d)
      (none : ∀ m ∈ d.memberNodes, m.name.text ≠ name) :
      Resolves doc strongOnly t (.error (.unknownMember t scope name))
  | decl {d : Decl} (form : Dotted t) (decl : First (fun d => d.name.text) doc.decls t d) :
      Resolves doc strongOnly t (.ok (.strong d none))
  | unresolved (form : Dotted t) (none : ∀ d ∈ doc.decls, d.name.text ≠ t)
      (strong : strongOnly = true) : Resolves doc strongOnly t (.error (.unresolved t))
  | weak (form : Dotted t) (none : ∀ d ∈ doc.decls, d.name.text ≠ t)
      (plain : strongOnly = false) : Resolves doc strongOnly t (.ok (.weak t))

section Forms

variable {t scope member : Text}

theorem isDotted_iff {body : Text} : isDotted body = true ↔ ∃ c rest, body = c :: rest ∧
    isWordChar c = true ∧ ∀ d ∈ rest, isWordChar d = true ∨ d = Text.byte '.' := by
  cases body with
  | nil => simp [isDotted]
  | cons c rest => simp [isDotted]

theorem scopeMark_ne_nil : scopeMark ≠ [] := by decide

theorem not_mem_of_word {c : UInt8} (h : isWordChar c = true ∨ c = Text.byte '.' ∨ c = 45) :
    c ≠ 58 := by
  rintro rfl
  revert h
  decide

theorem Dotted.not_scoped (h : Dotted t) : ¬ scopeMark <:+: t := by
  intro hinside
  have hcolon : (58 : UInt8) ∈ t := hinside.subset (by decide)
  obtain ⟨sign,c,rest,once,first,more⟩ := h
  rcases List.mem_append.mp hcolon with hsign | hbody
  · rcases once with rfl | rfl
    · simp at hsign
    · exact absurd hsign (by decide)
  · rcases List.mem_cons.mp hbody with rfl | hrest
    · exact not_mem_of_word (.inl first) rfl
    · exact not_mem_of_word ((more 58 hrest).imp_right .inl) rfl

theorem Scoped.cut (h : Scoped t scope member) : Text.cut? scopeMark t = some (scope,member) :=
  (Text.cut?_eq_some scopeMark_ne_nil).mpr h.splits

theorem Dotted.cut (h : Dotted t) : Text.cut? scopeMark t = none :=
  (Text.cut?_eq_none scopeMark_ne_nil).mpr h.not_scoped

theorem wellFormed_of_some (h : Text.cut? scopeMark t = some (scope,member)) :
    wellFormed t = (scope.all isWordChar && member.all isWordChar) := by
  unfold wellFormed
  rw [h]

theorem wellFormed_of_none (h : Text.cut? scopeMark t = none) :
    wellFormed t = isDotted (if t.head? = some 45 then t.tail else t) := by
  unfold wellFormed
  rw [h]
  dsimp only
  split
  · rfl
  · rename_i hsign
    rw [if_neg]
    intro hhead
    obtain ⟨rest,rfl⟩ := List.head?_eq_some_iff.mp hhead
    exact hsign rest rfl

theorem wellFormed_iff :
    wellFormed t = true ↔ Dotted t ∨ ∃ scope member, Scoped t scope member := by
  constructor
  · intro h
    cases hcut : Text.cut? scopeMark t with
    | some parts =>
      obtain ⟨scope,member⟩ := parts
      rw [wellFormed_of_some hcut,Bool.and_eq_true,List.all_eq_true,List.all_eq_true] at h
      exact .inr ⟨scope,member,(Text.cut?_eq_some scopeMark_ne_nil).mp hcut,h.1,h.2⟩
    | none =>
      rw [wellFormed_of_none hcut] at h
      obtain ⟨c,rest,hbody,hfirst,hmore⟩ := isDotted_iff.mp h
      split at hbody
      · rename_i hhead
        obtain ⟨body,rfl⟩ := List.head?_eq_some_iff.mp hhead
        obtain rfl : body = c :: rest := hbody
        exact .inl (.mk "-" c rest (.inr rfl) hfirst hmore)
      · subst hbody
        exact .inl (.mk [] c rest (.inl rfl) hfirst hmore)
  · rintro (h | ⟨scope,member,h⟩)
    · rw [wellFormed_of_none h.cut,isDotted_iff]
      obtain ⟨sign,c,rest,once,first,more⟩ := h
      refine ⟨c,rest,?_,first,more⟩
      rcases once with rfl | rfl
      · rw [if_neg]
        · rfl
        · rintro ⟨⟩
          exact absurd first (by decide)
      · rfl
    · rw [wellFormed_of_some h.cut,Bool.and_eq_true,List.all_eq_true,List.all_eq_true]
      exact ⟨h.scope,h.member⟩

theorem Dotted.wellFormed (h : Dotted t) : wellFormed t = true := wellFormed_iff.mpr (.inl h)

theorem Scoped.wellFormed (h : Scoped t scope member) : wellFormed t = true :=
  wellFormed_iff.mpr (.inr ⟨scope,member,h⟩)

end Forms

section Resolution

variable {doc : Document} {strongOnly : Bool} {t scope name : Text}

theorem decl?_of_first {d : Decl} (h : First (fun d => d.name.text) doc.decls t d) :
    doc.decl? t = some d :=
  find?_eq_some_first.mpr h

theorem decl?_of_none (h : ∀ d ∈ doc.decls, d.name.text ≠ t) : doc.decl? t = none := by
  simpa [Document.decl?] using h

theorem member?_of_first {d : Decl} {m : MemberNode}
    (h : First (fun m => m.name.text) d.memberNodes name m) : d.member? name = some m :=
  find?_eq_some_first.mpr h

theorem member?_of_none {d : Decl} (h : ∀ m ∈ d.memberNodes, m.name.text ≠ name) :
    d.member? name = none := by
  simpa [Decl.member?] using h

theorem Scoped.resolve_eq (h : Scoped t scope name) : resolve doc strongOnly t =
    match doc.decl? scope with
      | none => .error (.unknownScope t scope)
      | some d => match d.member? name with
        | none => .error (.unknownMember t scope name)
        | some m => .ok (.strong d (some m)) := by
  cases hdecl : doc.decl? scope with
  | none => simp [resolve,h.wellFormed,h.cut,hdecl]
  | some d =>
    cases hmember : d.member? name <;> simp [resolve,h.wellFormed,h.cut,hdecl,hmember]

theorem Dotted.resolve_eq (h : Dotted t) : resolve doc strongOnly t =
    match doc.decl? t with
      | some d => .ok (.strong d none)
      | none => if strongOnly then .error (.unresolved t) else .ok (.weak t) := by
  cases hdecl : doc.decl? t <;> simp [resolve,h.wellFormed,h.cut,hdecl]

theorem Resolves.eq {result : Except Fault Symbol} (h : Resolves doc strongOnly t result) :
    resolve doc strongOnly t = result := by
  cases h with
  | malformed undotted unscoped =>
    have hformed : Symbol.wellFormed t = false := by
      rw [Bool.eq_false_iff,Ne,wellFormed_iff]
      rintro (h | ⟨scope,member,h⟩)
      · exact undotted h
      · exact unscoped scope member h
    simp [resolve,hformed]
  | member form decl member =>
    rw [form.resolve_eq,decl?_of_first decl]
    simp only [member?_of_first member]
  | unknownScope form none => rw [form.resolve_eq,decl?_of_none none]
  | unknownMember form decl none =>
    rw [form.resolve_eq,decl?_of_first decl]
    simp only [member?_of_none none]
  | decl form decl => rw [form.resolve_eq,decl?_of_first decl]
  | unresolved form none strong => simp [form.resolve_eq,decl?_of_none none,strong]
  | weak form none plain => simp [form.resolve_eq,decl?_of_none none,plain]

theorem exists_resolves (doc : Document) (strongOnly : Bool) (t : Text) :
    ∃ result, Resolves doc strongOnly t result := by
  by_cases hdotted : Dotted t
  · rcases first_or_none (fun d : Decl => d.name.text) doc.decls t with ⟨d,hd⟩ | hnone
    · exact ⟨_,.decl hdotted hd⟩
    · cases hstrong : strongOnly with
      | true => exact ⟨_,.unresolved hdotted hnone rfl⟩
      | false => exact ⟨_,.weak hdotted hnone rfl⟩
  by_cases hscoped : ∃ scope name, Scoped t scope name
  · obtain ⟨scope,name,hform⟩ := hscoped
    rcases first_or_none (fun d : Decl => d.name.text) doc.decls scope with ⟨d,hd⟩ | hnone
    · rcases first_or_none (fun m : MemberNode => m.name.text) d.memberNodes name
          with ⟨m,hm⟩ | hmember
      · exact ⟨_,.member hform hd hm⟩
      · exact ⟨_,.unknownMember hform hd hmember⟩
    · exact ⟨_,.unknownScope hform hnone⟩
  · exact ⟨_,.malformed hdotted fun scope name h => hscoped ⟨scope,name,h⟩⟩

theorem resolve_resolves (doc : Document) (strongOnly : Bool) (t : Text) :
    Resolves doc strongOnly t (resolve doc strongOnly t) := by
  obtain ⟨result,hresult⟩ := exists_resolves doc strongOnly t
  rw [hresult.eq]
  exact hresult

theorem Resolves.identifier {symbol : Symbol} (h : Resolves doc strongOnly t (.ok symbol)) :
    symbol.identifier = t := by
  cases h with
  | member form decl member =>
    have hdecl := decl.1
    have hmember := member.1
    simp [Symbol.identifier,hdecl,hmember,form.splits.1]
  | decl form decl => exact decl.1
  | weak form none plain => rfl

end Resolution

def Fault.Malformed (f : Fault) : Prop := 3100 ≤ f.code ∧ f.code < 3200

def Fault.Unbound (f : Fault) : Prop := 3000 ≤ f.code ∧ f.code < 3100

/-- What any text resolves to is what the forms of names say, bound to the first declaration of a
name and the first member of a name in it, and nothing else: only what has no form of a name is
malformed, every other refusal is that of a name that refers to nothing, and a symbol reads as the
text that it came from. -/
theorem resolve_exactly (doc : Document) (strongOnly : Bool) (t : Text) :
    (∀ result, resolve doc strongOnly t = result ↔ Resolves doc strongOnly t result) ∧
    ((∃ fault, resolve doc strongOnly t = .error fault ∧ fault.Malformed) ↔
      ¬ (Dotted t ∨ ∃ scope member, Scoped t scope member)) ∧
    (∀ fault, resolve doc strongOnly t = .error fault → ¬ fault.Malformed → fault.Unbound) ∧
    ∀ symbol, resolve doc strongOnly t = .ok symbol →
      symbol.identifier = t ∧ resolve doc strongOnly symbol.identifier = .ok symbol := by
  have hresolves := resolve_resolves doc strongOnly t
  refine ⟨fun result => ⟨fun h => h ▸ hresolves,Resolves.eq⟩,⟨?_,?_⟩,?_,?_⟩
  · rintro ⟨fault,hfault,hmalformed⟩
    rw [hfault] at hresolves
    cases hresolves with
    | malformed undotted unscoped => exact fun h => h.elim undotted fun ⟨_,_,h⟩ => unscoped _ _ h
    | unknownScope | unknownMember | unresolved => exact absurd hmalformed.1 (by simp [Fault.code])
  · intro hnone
    have hmalformed : Resolves doc strongOnly t (.error (.malformed t)) :=
      .malformed (fun h => hnone (.inl h)) fun scope member h => hnone (.inr ⟨scope,member,h⟩)
    exact ⟨_,hmalformed.eq,by simp [Fault.Malformed,Fault.code]⟩
  · intro fault hfault hmalformed
    rw [hfault] at hresolves
    cases hresolves with
    | malformed => exact absurd (by simp [Fault.Malformed,Fault.code]) hmalformed
    | unknownScope | unknownMember | unresolved => simp [Fault.Unbound,Fault.code]
  · intro symbol hsymbol
    rw [hsymbol] at hresolves
    have hidentifier := hresolves.identifier
    exact ⟨hidentifier,by rw [hidentifier]; exact hsymbol⟩

example : (["","-","a:b","a::b::c","EMsg::Hel.lo",".x","a b"].map Text.ofString).all
    fun t => !wellFormed t := by decide

end Symbol

end WireSchema
