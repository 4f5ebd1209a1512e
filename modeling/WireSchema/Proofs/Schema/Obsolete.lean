import WireSchema.Proofs.Record.Unbounded
import WireSchema.Proofs.Schema.Order
set_option autoImplicit false

/-!
Warnings about what is obsolete. Each reference by a scoped name to a member with an obsolete marker
is warned of once, at the reference. A value of an enumeration that names a sibling without a scope
is not.
-/

namespace WireSchema.Schema

open Result

def marker? (d : Document.Decl) (member : Text) : Option Marker :=
  match d with
  | .class c => (c.property? member).bind (·.obsolete)
  | .enum e => (e.value? member).bind (·.obsolete)

def scopedMarker? (doc : Document) (name : Text) : Option Marker :=
  match Text.cut? Symbol.scopeMark name with
  | some (scope,member) => (doc.decl? scope).bind fun d => marker? d member
  | none => none

/-- A term of a default, the declaration that it stands in, and the value of that declaration that
it names without a scope, if there is one. -/
structure Term where
  decl : Text
  name : Ident
  sibling : Option Document.EnumValue

def enumTerms (doc : Document) : List Term :=
  doc.enums.flatMap fun e => e.values.flatMap fun v =>
    v.defaults.map fun i => ⟨e.name.text,i,e.value? i.text⟩

def classTerms (doc : Document) : List Term :=
  doc.classes.flatMap fun c => c.properties.flatMap fun p =>
    p.defaults.map fun i => ⟨c.name.text,i,none⟩

/-- The terms of the defaults of a document: those of enumerations, then those of classes. -/
def terms (doc : Document) : List Term := enumTerms doc ++ classTerms doc

namespace Term

/-- The obsolete marker of the member that a term refers to. A sibling goes before a scoped name. -/
def marker? (doc : Document) (t : Term) : Option Marker :=
  match t.sibling with
  | some v => v.obsolete
  | none => scopedMarker? doc t.name.text

def warning (t : Term) : Warning := ⟨.obsoleteReference t.decl t.name.text,t.name.span⟩

def warnings (doc : Document) (ts : List Term) : List Warning :=
  (ts.filter fun t => t.sibling.isNone && (t.marker? doc).isSome).map warning

theorem warnings_append (doc : Document) (ts us : List Term) :
    warnings doc (ts ++ us) = warnings doc ts ++ warnings doc us := by
  simp [warnings]

theorem warnings_flatMap {α : Type} (doc : Document) (xs : List α) (f : α → List Term) :
    warnings doc (xs.flatMap f) = xs.flatMap fun x => warnings doc (f x) := by
  induction xs with
  | nil => rfl
  | cons x xs ih => rw [List.flatMap_cons,List.flatMap_cons,warnings_append,ih]

theorem warnings_map (doc : Document) (names : List Ident) (f : Ident → Term) :
    warnings doc (names.map f) = names.flatMap fun i => warnings doc [f i] := by
  induction names with
  | nil => rfl
  | cons i names ih =>
    rw [List.flatMap_cons,← ih,← warnings_append,List.map_cons,List.singleton_append]

theorem code_of_warnings {doc : Document} {ts : List Term} {w : Warning}
    (h : w ∈ warnings doc ts) : w.code = 4004 := by
  obtain ⟨t,-,rfl⟩ := List.mem_map.mp h
  rfl

end Term

def identityWarnings (doc : Document) (c : Document.Class) : List Warning :=
  match c.identity with
  | some name => (scopedMarker? doc name.text).toList.map fun m =>
      ⟨.obsoleteIdentity c.name.text name.text m.message,name.span⟩
  | none => []

/-- The warnings of one code. -/
def coded (code : Nat) (ws : List Warning) : List Warning := ws.filter fun w => w.code == code

@[simp] theorem coded_nil (code : Nat) : coded code [] = [] := rfl

@[simp] theorem coded_append (code : Nat) (ws more : List Warning) :
    coded code (ws ++ more) = coded code ws ++ coded code more := by
  simp [coded]

theorem coded_self {code : Nat} {ws : List Warning} (h : ∀ w ∈ ws, w.code = code) :
    coded code ws = ws :=
  List.filter_eq_self.mpr fun w hw => by simp [h w hw]

theorem coded_other {code other : Nat} {ws : List Warning} (h : ∀ w ∈ ws, w.code = other)
    (hne : other ≠ code) : coded code ws = [] :=
  List.filter_eq_nil_iff.mpr fun w hw => by simp [h w hw,hne]

theorem collect_filter {α β : Type} {check : α → Except Fault (Warned β)} {keep : Warning → Bool}
    {expected : α → List Warning} {xs : List α} {ys : List β} {ws : List Warning}
    (h : collect check xs = .ok (ys,ws))
    (hcheck : ∀ x ∈ xs, ∀ y w, check x = .ok (y,w) → w.filter keep = expected x) :
    ws.filter keep = xs.flatMap expected := by
  induction xs generalizing ys ws with
  | nil =>
    simp only [collect,Except.ok.injEq,Prod.mk.injEq] at h
    rw [← h.2]
    rfl
  | cons x xs ih =>
    simp only [collect,bind_eq_ok,pure_eq_ok,Except.ok.injEq,Prod.mk.injEq] at h
    obtain ⟨⟨z,w⟩,hx,⟨zs,vs⟩,hxs,rfl,rfl⟩ := h
    have hrest := ih hxs fun y hy => hcheck y (List.mem_cons_of_mem _ hy)
    rw [List.filter_append,hcheck x List.mem_cons_self z w hx,hrest,List.flatMap_cons]

theorem collect_warned {α β : Type} {check : α → Except Fault (Warned β)}
    {expected : α → List Warning} {xs : List α} {ys : List β} {ws : List Warning}
    (h : collect check xs = .ok (ys,ws))
    (hcheck : ∀ x ∈ xs, ∀ y w, check x = .ok (y,w) → w = expected x) :
    ws = xs.flatMap expected := by
  have hall : ws.filter (fun _ => true) = xs.flatMap expected :=
    collect_filter h fun x hx y w hy => (List.filter_true w).trans (hcheck x hx y w hy)
  simpa using hall

section Terms

variable {doc : Document} {term : Ident} {symbol : Reference}

theorem obsoleteMarker?_of_resolve {strongOnly : Bool}
    (h : resolve doc strongOnly term = .ok symbol) :
    obsoleteMarker? doc symbol = scopedMarker? doc term.text := by
  unfold resolve at h
  cases hr : Symbol.resolve doc strongOnly term.text with
  | error fault => simp [hr,fail] at h
  | ok resolved =>
    simp only [hr,Except.ok.injEq] at h
    subst h
    unfold Symbol.resolve at hr
    unfold scopedMarker?
    split at hr
    · cases hr
    · split at hr
      · rename_i hcut
        rw [hcut]
        split at hr
        · cases hr
          rfl
        · split at hr
          · cases hr
          · cases hr
            rfl
      · rename_i scope member hcut
        rw [hcut]
        split at hr
        · cases hr
        · rename_i d hd
          split at hr
          · cases hr
          · rename_i m hm
            cases hr
            simp only [Symbol.reference,Option.map_some,nodeName_of_decl? hd,name_of_member? hm]
            cases d <;> simp [obsoleteMarker?,marker?,hd]

theorem warned_of_resolveValue {decl : Text} {w : List Warning}
    (h : resolveValue doc decl term = .ok (symbol,w)) :
    w = Term.warnings doc [⟨decl,term,none⟩] := by
  unfold resolveValue at h
  obtain ⟨found,hresolve,h⟩ := bind_eq_ok.mp h
  have hmarker := obsoleteMarker?_of_resolve hresolve
  split at h
  · cases h
  · simp only [pure_eq_ok,Except.ok.injEq,Prod.mk.injEq] at h
    obtain ⟨-,rfl⟩ := h
    rw [hmarker]
    cases hm : scopedMarker? doc term.text with
    | none => simp [Term.warnings,Term.marker?,hm]
    | some m => simp [Term.warnings,Term.marker?,Term.warning,hm]

theorem warned_of_resolveEnumTerm {e : Document.Enum} {w : List Warning}
    (h : resolveEnumTerm doc e term = .ok (symbol,w)) :
    w = Term.warnings doc [⟨e.name.text,term,e.value? term.text⟩] := by
  unfold resolveEnumTerm at h
  cases hv : e.value? term.text with
  | none =>
    simp only [hv,Option.isSome_none,Bool.false_eq_true,if_false] at h
    exact warned_of_resolveValue h
  | some v =>
    simp only [hv,Option.isSome_some,if_true,Except.ok.injEq,Prod.mk.injEq] at h
    rw [← h.2]
    rfl

end Terms

section Decls

variable {doc : Document}

theorem warned_of_enum {e : Document.Enum} {compiled : Enum} {w : List Warning}
    (h : compileEnum doc e = .ok (compiled,w)) :
    w = Term.warnings doc (e.values.flatMap fun v =>
      v.defaults.map fun i => ⟨e.name.text,i,e.value? i.text⟩) := by
  simp only [compileEnum,bind_eq_ok,pure_eq_ok,Except.ok.injEq,Prod.mk.injEq] at h
  obtain ⟨_,-,⟨values,ws⟩,hvalues,-,rfl⟩ := h
  rw [Term.warnings_flatMap]
  refine collect_warned hvalues fun v _ value w hv => ?_
  simp only [compileEnumValue,bind_eq_ok,pure_eq_ok,Except.ok.injEq,Prod.mk.injEq] at hv
  obtain ⟨⟨symbols,vs⟩,hterms,-,rfl⟩ := hv
  rw [Term.warnings_map]
  exact collect_warned hterms fun i _ symbol w hi => warned_of_resolveEnumTerm hi

theorem warned_of_property {decl : Text} {p : Document.Property} {compiled : Property}
    {w : List Warning} (h : compileProperty doc decl p = .ok (compiled,w)) :
    w = Term.warnings doc (p.defaults.map fun i => ⟨decl,i,none⟩) := by
  simp only [compileProperty,bind_eq_ok] at h
  obtain ⟨type,-,⟨⟩,-,⟨symbols,ws⟩,hterms,h⟩ := h
  split at h
  · simp [fail] at h
  · simp only [bind_eq_ok,pure_eq_ok,Except.ok.injEq,Prod.mk.injEq] at h
    obtain ⟨_,-,_,-,-,rfl⟩ := h
    rw [Term.warnings_map]
    exact collect_warned hterms fun i _ symbol w hi => warned_of_resolveValue hi

theorem warned_of_identity {c : Document.Class} {identity : Option Reference} {w : List Warning}
    (h : compileIdentity doc c = .ok (identity,w)) : w = identityWarnings doc c := by
  unfold compileIdentity at h
  unfold identityWarnings
  split at h
  · rename_i hnone
    simp only [Except.ok.injEq,Prod.mk.injEq] at h
    rw [hnone,← h.2]
  · rename_i name hname
    obtain ⟨found,hresolve,h⟩ := bind_eq_ok.mp h
    have hmarker := obsoleteMarker?_of_resolve hresolve
    split at h
    · cases h
    · simp only [pure_eq_ok,Except.ok.injEq,Prod.mk.injEq] at h
      obtain ⟨-,rfl⟩ := h
      rw [hname,hmarker]
      cases hm : scopedMarker? doc name.text <;> simp [hm]

theorem code_of_identity {c : Document.Class} {w : Warning} (h : w ∈ identityWarnings doc c) :
    w.code = 4002 := by
  unfold identityWarnings at h
  split at h
  · obtain ⟨m,-,rfl⟩ := List.mem_map.mp h
    rfl
  · cases h

theorem code_of_parent {c : Document.Class} {parent : Option Text} {ws : List Warning}
    (h : compileParent doc c = .ok (parent,ws)) : ∀ w ∈ ws, w.code = 4003 := by
  unfold compileParent at h
  split at h
  · simp only [Except.ok.injEq,Prod.mk.injEq] at h
    simp [← h.2]
  · obtain ⟨found,-,h⟩ := bind_eq_ok.mp h
    dsimp only at h
    split at h
    · split at h
      · simp only [pure_eq_ok,Except.ok.injEq,Prod.mk.injEq] at h
        obtain ⟨-,rfl⟩ := h
        intro w hw
        split at hw
        · cases hw
        · rw [List.mem_singleton.mp hw]
          rfl
      · cases h
    · cases h

theorem code_of_nameWarnings {d : Document.Decl} {w : Warning} (h : w ∈ nameWarnings d) :
    w.code = 4000 := by
  unfold nameWarnings at h
  split at h
  · rw [List.mem_singleton.mp h]
    rfl
  · cases h

theorem coded_of_class {c : Document.Class} {compiled : Class} {ws : List Warning}
    (h : compileClass doc c = .ok (compiled,ws)) :
    coded 4002 ws = identityWarnings doc c ∧
      coded 4004 ws = Term.warnings doc (c.properties.flatMap fun p =>
        p.defaults.map fun i => ⟨c.name.text,i,none⟩) := by
  simp only [compileClass,bind_eq_ok,pure_eq_ok,Except.ok.injEq,Prod.mk.injEq] at h
  obtain ⟨⟨_,iws⟩,hidentity,⟨_,pws⟩,hparent,⟨properties,vws⟩,hproperties,links,-,-,rfl⟩ := h
  have hproperty : vws = Term.warnings doc (c.properties.flatMap fun p =>
      p.defaults.map fun i => ⟨c.name.text,i,none⟩) := by
    rw [Term.warnings_flatMap]
    exact collect_warned hproperties fun p _ property w hp => warned_of_property hp
  have hi := warned_of_identity hidentity
  have hp := code_of_parent hparent
  subst hproperty hi
  have hterms : ∀ w ∈ Term.warnings doc (c.properties.flatMap fun p =>
      p.defaults.map fun i => ⟨c.name.text,i,none⟩), w.code = 4004 :=
    fun w hw => Term.code_of_warnings hw
  have hids : ∀ w ∈ identityWarnings doc c, w.code = 4002 := fun w hw => code_of_identity hw
  have hunbounded {all : List (Document.Property × Property)} :
      ∀ w ∈ unboundedWarnings doc c.name.text all, w.code = 4001 :=
    fun w hw => code_of_unboundedWarnings hw
  refine ⟨?_,?_⟩
  · simp only [coded_append,coded_self hids,coded_other hp (by decide : 4003 ≠ 4002),
      coded_other hterms (by decide : 4004 ≠ 4002),
      coded_other hunbounded (by decide : 4001 ≠ 4002),List.append_nil]
  · simp only [coded_append,coded_self hterms,coded_other hp (by decide : 4003 ≠ 4004),
      coded_other hids (by decide : 4002 ≠ 4004),
      coded_other hunbounded (by decide : 4001 ≠ 4004),List.append_nil,List.nil_append]

end Decls

/-- The warnings about obsolete members are those about the terms of defaults that refer to one by a
scoped name, one for each, and those about identities that do. -/
theorem obsolete_warned {path : Text} {doc : Document} {schema : Schema} {ws : List Warning}
    (h : compile path doc = .ok (schema,ws)) :
    coded 4004 ws = Term.warnings doc (terms doc) ∧
      coded 4002 ws = doc.classes.flatMap (identityWarnings doc) := by
  obtain ⟨hnames,hmembers,-⟩ := compile_ok h
  simp only [compile,bind_eq_ok,pure_eq_ok,Except.ok.injEq,Prod.mk.injEq] at h
  obtain ⟨⟨⟨⟩,nws⟩,hcheck,⟨enums,ews⟩,henums,⟨classes,cws⟩,hclasses,⟨⟩,-,-,rfl⟩ := h
  rw [checkNames_eq hnames (by simp) hmembers] at hcheck
  cases hcheck
  have hname : ∀ w ∈ doc.decls.flatMap nameWarnings, w.code = 4000 := by
    intro w hw
    obtain ⟨d,-,hd⟩ := List.mem_flatMap.mp hw
    exact code_of_nameWarnings hd
  have henum : ews = Term.warnings doc (enumTerms doc) := by
    rw [enumTerms,Term.warnings_flatMap]
    exact collect_warned henums fun e _ compiled w he => warned_of_enum he
  subst henum
  have hterms : ∀ w ∈ Term.warnings doc (enumTerms doc), w.code = 4004 :=
    fun w hw => Term.code_of_warnings hw
  have hids : coded 4002 cws = doc.classes.flatMap (identityWarnings doc) :=
    collect_filter hclasses fun c _ compiled w hc => (coded_of_class hc).1
  have hclass : coded 4004 cws = Term.warnings doc (classTerms doc) := by
    rw [classTerms,Term.warnings_flatMap]
    exact collect_filter hclasses fun c _ compiled w hc => (coded_of_class hc).2
  refine ⟨?_,?_⟩
  · rw [coded_append,coded_append,coded_other hname (by decide),coded_self hterms,hclass,terms,
      Term.warnings_append,List.nil_append]
  · rw [coded_append,coded_append,coded_other hname (by decide),coded_other hterms (by decide),hids]
    rfl

/-- `enum E { Old = 1; obsolete "gone" New = Old; Next = E::Old; };` and, on the next line,
`class A<E::Old> { E e = E::Old; };` -/
def aging : Document where
  span := ⟨0,97⟩
  directives := []
  decls := [
    .enum ⟨⟨0,62⟩,⟨"E",5⟩,none,false,[
      ⟨⟨9,24⟩,⟨"Old",9⟩,[⟨"1",15⟩],some ⟨⟨18,15⟩,"gone"⟩,none⟩,
      ⟨⟨34,10⟩,⟨"New",34⟩,[⟨"Old",40⟩],none,none⟩,
      ⟨⟨45,14⟩,⟨"Next",45⟩,[⟨"E::Old",52⟩],none,none⟩]⟩,
    .class ⟨⟨63,34⟩,⟨"A",69⟩,some ⟨"E::Old",71⟩,none,none,[
      ⟨⟨81,13⟩,⟨"e",83⟩,⟨"E",81⟩,none,none,[⟨"E::Old",87⟩],none,none⟩]⟩]

theorem aging_warned : ∃ schema ws, compile [] aging = .ok (schema,ws) ∧
    coded 4004 ws =
        [⟨.obsoleteReference "E" "E::Old",⟨52,6⟩⟩,⟨.obsoleteReference "A" "E::Old",⟨87,6⟩⟩] ∧
      coded 4002 ws = [⟨.obsoleteIdentity "A" "E::Old" "gone",⟨71,6⟩⟩] := by
  obtain ⟨⟨schema,ws⟩,h⟩ := exists_of_isOk (by decide +kernel : (compile [] aging).isOk = true)
  obtain ⟨hterms,hids⟩ := obsolete_warned h
  exact ⟨schema,ws,h,hterms.trans (by decide +kernel),hids.trans (by decide +kernel)⟩

/-- The term without a scope refers to an obsolete value as the scoped ones do, and is not warned
of. -/
theorem sibling_unwarned : ∃ schema ws, compile [] aging = .ok (schema,ws) ∧
    ⟨.obsoleteReference "E" "Old",⟨40,3⟩⟩ ∈
      ((terms aging).filter fun t => (t.marker? aging).isSome).map Term.warning ∧
    coded 4004 ws ≠ ((terms aging).filter fun t => (t.marker? aging).isSome).map Term.warning := by
  have hmem : ⟨.obsoleteReference "E" "Old",⟨40,3⟩⟩ ∈
      ((terms aging).filter fun t => (t.marker? aging).isSome).map Term.warning := by
    decide +kernel
  have hws : (compile [] aging).toOption.map (fun r => (coded 4004 r.2).length) = some 2 := by
    decide +kernel
  have hall : (((terms aging).filter fun t => (t.marker? aging).isSome).map Term.warning).length =
      3 := by
    decide +kernel
  obtain ⟨⟨schema,ws⟩,h⟩ := exists_of_isOk (by decide +kernel : (compile [] aging).isOk = true)
  refine ⟨schema,ws,h,hmem,?_⟩
  intro heq
  have hlength : (coded 4004 ws).length = 2 := by simpa [h,Except.toOption] using hws
  rw [heq,hall] at hlength
  cases hlength

end WireSchema.Schema
