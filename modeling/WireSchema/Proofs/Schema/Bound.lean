import WireSchema.Proofs.Schema.Compile
set_option autoImplicit false

namespace WireSchema.Schema

open Result

def Decl.members : Decl → List Text
  | .class c => c.properties.map Property.name
  | .enum e => e.values.map EnumValue.name

/-- A term that is left as it stands, or names a member of a declaration. -/
def Binds (s : Schema) : Reference → Prop
  | .weak _ => True
  | .strong _ none => False
  | .strong decl (some member) => ∃ d, s.decl? decl = some d ∧ member ∈ d.members

/-- The members of a declaration have names of their own, and every term binds, if at all, to one
of them. -/
structure Bound (s : Schema) : Prop where
  members : ∀ d ∈ s.decls, d.members.Nodup
  identities : ∀ c ∈ s.classes, ∀ symbol, c.identity = some symbol → s.Binds symbol
  properties : ∀ c ∈ s.classes, ∀ p ∈ c.properties, ∀ term ∈ p.default, s.Binds term
  values : ∀ e ∈ s.enums, ∀ v ∈ e.values, ∀ term ∈ v.default, s.Binds term

section Members

theorem memberNames_eq
    (d : Document.Decl) : memberNames d = d.memberNodes.map Document.MemberNode.name := by
  cases d with
  | «class» c => simp [memberNames,Document.Decl.memberNodes,Document.MemberNode.name]
  | enum e => simp [memberNames,Document.Decl.memberNodes,Document.MemberNode.name]

theorem compileEnumValue_ok {doc : Document} {e : Document.Enum} {node : Document.EnumValue}
    {v : EnumValue} {w : List Warning} (h : compileEnumValue doc e node = .ok (v,w)) :
    v.name = node.name.text ∧
      List.Forall₂ (fun term symbol => ∃ u, resolveEnumTerm doc e term = .ok (symbol,u))
        node.defaults v.default := by
  simp only [compileEnumValue,bind_eq_ok,pure_eq_ok,Except.ok.injEq,Prod.mk.injEq] at h
  obtain ⟨⟨terms,ws⟩,hterms,rfl,-⟩ := h
  exact ⟨rfl,collect_ok hterms⟩

theorem Decl.Compiled.members {doc : Document} {d : Document.Decl} {compiled : Decl}
    (h : Decl.Compiled doc d compiled) : compiled.members = (memberNames d).map Ident.text := by
  cases h with
  | «class» h =>
    obtain ⟨-,-,-,-,properties,links,hchecked,-,heq⟩ := compileClass_ok h
    simp only [Decl.members,memberNames,heq,List.map_map]
    exact Checked.names hchecked
  | enum h =>
    obtain ⟨-,-,-,-,hvalues⟩ := compileEnum_ok h
    simp only [Decl.members,memberNames,List.map_map]
    refine map_eq_of_forall₂ (fun node v hv => ?_) hvalues
    obtain ⟨_,hv⟩ := hv
    exact (compileEnumValue_ok hv).1

end Members

section Terms

variable {doc : Document} {schema : Schema}
  (hdecls : List.Forall₂ (Decl.Compiled doc) doc.decls schema.decls)
include hdecls

theorem binds_of_member {decl : Text} {d : Document.Decl} {m : Document.MemberNode}
    (hd : doc.decl? decl = some d) (hm : m ∈ d.memberNodes) :
    schema.Binds (.strong decl (some m.name.text)) := by
  obtain ⟨compiled,hfind,hcompiled⟩ := Decl.Compiled.find hdecls hd
  refine ⟨compiled,hfind,?_⟩
  rw [hcompiled.members,memberNames_eq,List.map_map]
  exact List.mem_map_of_mem hm

theorem binds_of_resolve {strongOnly : Bool} {node : Ident} {symbol : Reference}
    (h : resolve doc strongOnly node = .ok symbol) (hvalue : ∀ name, symbol ≠ .strong name none) :
    schema.Binds symbol := by
  rcases resolve_cases h with rfl | ⟨rfl,-⟩ | ⟨scope,d,m,rfl,hd,hmember⟩
  · exact trivial
  · exact absurd rfl (hvalue _)
  · exact binds_of_member hdecls hd hmember

theorem binds_of_resolveValue {decl : Text} {term : Ident} {symbol : Reference} {w : List Warning}
    (h : resolveValue doc decl term = .ok (symbol,w)) : schema.Binds symbol := by
  simp only [resolveValue,bind_eq_ok] at h
  obtain ⟨resolved,hresolved,h⟩ := h
  split at h
  · simp [fail] at h
  · rename_i hvalue
    simp only [pure_eq_ok,Except.ok.injEq,Prod.mk.injEq] at h
    obtain ⟨rfl,-⟩ := h
    exact binds_of_resolve hdecls hresolved hvalue

theorem binds_of_resolveEnumTerm {e : Document.Enum} (he : doc.decl? e.name.text = some (.enum e))
    {term : Ident} {symbol : Reference} {w : List Warning}
    (h : resolveEnumTerm doc e term = .ok (symbol,w)) : schema.Binds symbol := by
  unfold resolveEnumTerm at h
  split at h
  · rename_i hsibling
    cases h
    obtain ⟨v,hv⟩ := Option.isSome_iff_exists.mp hsibling
    have hname : v.name.text = term.text := by simpa using List.find?_some hv
    rw [← hname]
    exact binds_of_member hdecls he (List.mem_map_of_mem (List.mem_of_find?_eq_some hv))
  · exact binds_of_resolveValue hdecls h

theorem binds_of_compileIdentity {c : Document.Class} {symbol : Reference} {w : List Warning}
    (h : compileIdentity doc c = .ok (some symbol,w)) : schema.Binds symbol := by
  unfold compileIdentity at h
  split at h
  · cases h
  · simp only [bind_eq_ok] at h
    obtain ⟨resolved,hresolved,h⟩ := h
    split at h
    · simp [fail] at h
    · rename_i hvalue
      simp only [pure_eq_ok,Except.ok.injEq,Prod.mk.injEq,Option.some.injEq] at h
      obtain ⟨rfl,-⟩ := h
      exact binds_of_resolve hdecls hresolved hvalue

theorem binds_of_compileProperty {decl : Text} {node : Document.Property} {p : Property}
    {w : List Warning} (h : compileProperty doc decl node = .ok (p,w)) :
    ∀ term ∈ p.default, schema.Binds term := by
  simp only [compileProperty,bind_eq_ok] at h
  obtain ⟨_,-,⟨⟩,-,⟨terms,ws⟩,hterms,h⟩ := h
  split at h
  · simp [fail] at h
  · simp only [bind_eq_ok,pure_eq_ok,Except.ok.injEq,Prod.mk.injEq] at h
    obtain ⟨⟨⟩,-,_,-,rfl,-⟩ := h
    intro term hterm
    obtain ⟨_,-,_,hresolved⟩ := exists_of_forall₂ (collect_ok hterms) hterm
    exact binds_of_resolveValue hdecls hresolved

end Terms

theorem bound_of_compile {path : Text} {doc : Document} {schema : Schema} {ws : List Warning}
    (h : compile path doc = .ok (schema,ws)) : schema.Bound := by
  obtain ⟨hnames,hmembers,hdecls⟩ := compile_ok h
  refine ⟨?_,?_,?_,?_⟩
  · intro d hd
    obtain ⟨node,hnode,hcompiled⟩ := exists_of_forall₂ hdecls hd
    rw [hcompiled.members]
    exact hmembers node hnode
  · intro c hc symbol hsymbol
    obtain ⟨node,w,-,hcompiled⟩ := class_of_compile h hc
    obtain ⟨-,-,⟨v,hidentity⟩,-⟩ := compileClass_ok hcompiled
    rw [hsymbol] at hidentity
    exact binds_of_compileIdentity hdecls hidentity
  · intro c hc p hp
    obtain ⟨node,w,-,hcompiled⟩ := class_of_compile h hc
    simp only [compileClass,bind_eq_ok,pure_eq_ok,Except.ok.injEq,Prod.mk.injEq] at hcompiled
    obtain ⟨_,-,_,-,⟨properties,_⟩,hproperties,links,-,rfl,-⟩ := hcompiled
    obtain ⟨⟨_,linked⟩,hlinked,rfl⟩ := List.mem_map.mp hp
    obtain ⟨⟨_,p₀⟩,hpair,heq⟩ := List.mem_map.mp hlinked
    cases heq
    obtain ⟨_,-,_,hchecked⟩ := exists_of_forall₂ (collect_ok hproperties) (List.of_mem_zip hpair).2
    -- Links leave the default as it is.
    intro term hterm
    exact binds_of_compileProperty hdecls hchecked term hterm
  · intro e he v hv term hterm
    obtain ⟨d,hd,hde⟩ := List.mem_filterMap.mp he
    obtain ⟨node,hnode,hcompiled⟩ := exists_of_forall₂ hdecls hd
    cases hcompiled with
    | «class» _ => cases hde
    | @enum nodeEnum compiled w hcompiled =>
      cases hde
      obtain ⟨-,-,-,-,hvalues⟩ := compileEnum_ok hcompiled
      obtain ⟨_,-,_,hvalue⟩ := exists_of_forall₂ hvalues hv
      obtain ⟨_,-,_,hresolved⟩ := exists_of_forall₂ (compileEnumValue_ok hvalue).2 hterm
      have hfound : doc.decl? nodeEnum.name.text = some (.enum nodeEnum) :=
        find?_of_mem hnames hnode
      exact binds_of_resolveEnumTerm hdecls hfound hresolved

end WireSchema.Schema
