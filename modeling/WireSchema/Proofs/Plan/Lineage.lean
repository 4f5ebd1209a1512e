import WireSchema.Proofs.Plan.Containment
import Mathlib.Algebra.Order.Ring.Nat
set_option autoImplicit false

/-!
A class and its ancestors. The check of a schema walks up the parents of every class and refuses a
chain that does not end, so that a class which holds no records, and whose ancestors hold none
either, always has a layout.
-/

namespace WireSchema.Schema

open Result

def Extends (s : Schema) (c d : Class) : Prop := c.parent.bind s.class? = some d

theorem acc_of_climbs {s : Schema} {classes : List Class}
    (hclasses : ∀ name d, s.class? name = some d →
      classes.find? (fun k => k.name == name) = some d)
    {fuel : Nat} {seen : List Text} {c : Class} (h : climbs classes fuel seen c.parent = false) :
    Acc (fun d c => Extends s c d) c := by
  induction fuel generalizing seen c with
  | zero =>
    refine ⟨c,fun d hd => ?_⟩
    cases hp : c.parent with
    | none => simp [Extends,hp] at hd
    | some parent => simp [hp,climbs] at h
  | succ fuel ih =>
    refine ⟨c,fun d hd => ?_⟩
    cases hp : c.parent with
    | none => simp [Extends,hp] at hd
    | some parent =>
      rw [Extends,hp,Option.bind_some] at hd
      simp only [hp,climbs,Bool.or_eq_false_iff,hclasses _ _ hd,Option.bind_some] at h
      exact ih h.2

theorem parent_of_compileParent {doc : Document} {node : Document.Class} {name : Text}
    {w : List Warning} (h : compileParent doc node = .ok (some name,w)) :
    ∃ ident, node.parent = some ident ∧ ident.text = name := by
  unfold compileParent at h
  split at h
  · cases h
  · rename_i ident hparent
    obtain ⟨symbol,hsymbol,h⟩ := bind_eq_ok.mp h
    refine ⟨ident,hparent,?_⟩
    split at h
    · rename_i declName
      have hname : declName = name := by
        split at h
        · cases h
          rfl
        · simp [fail] at h
      rcases resolve_cases hsymbol with hweak | ⟨hstrong,-⟩ | ⟨_,_,_,hmember,-⟩
      · cases hweak
      · cases hstrong
        exact hname
      · cases hmember
    · simp [fail] at h

theorem climbs_of_compile {path : Text} {doc : Document} {schema : Schema} {ws : List Warning}
    (h : compile path doc = .ok (schema,ws)) : ∃ classes, checkParents doc classes = .ok () ∧
      ∀ d ∈ schema.classes, classes.find? (fun k => k.name == d.name) = some d := by
  simp only [compile,bind_eq_ok,pure_eq_ok,Except.ok.injEq,Prod.mk.injEq] at h
  obtain ⟨_,-,⟨enums,_⟩,-,⟨classes,_⟩,-,⟨⟩,hparents,rfl,-⟩ := h
  refine ⟨classes,hparents,fun d hd => ?_⟩
  obtain ⟨decl,hdecl,hclass⟩ := List.mem_filterMap.mp hd
  obtain ⟨node,-,harranged⟩ := List.mem_filterMap.mp hdecl
  cases node with
  | enum e =>
    obtain ⟨_,-,rfl⟩ := Option.map_eq_some_iff.mp harranged
    cases hclass
  | «class» node =>
    obtain ⟨found,hfind,rfl⟩ := Option.map_eq_some_iff.mp harranged
    cases hclass
    have hname : d.name = node.name.text := by simpa using List.find?_some hfind
    rw [hname]
    exact hfind

theorem ancestors_acc {path : Text} {doc : Document} {schema : Schema} {ws : List Warning}
    (h : compile path doc = .ok (schema,ws)) {c : Class} (hc : c ∈ schema.classes) :
    Acc (fun d c => Extends schema c d) c := by
  obtain ⟨classes,hparents,hfound⟩ := climbs_of_compile h
  have hclasses : ∀ name d, schema.class? name = some d →
      classes.find? (fun k => k.name == name) = some d := by
    intro name d hd
    obtain ⟨decl,hdecl,hclass⟩ := Option.bind_eq_some_iff.mp hd
    have hname := (name_of_decl? hdecl).2
    cases decl with
    | enum e => cases hclass
    | «class» _ =>
      cases hclass
      rw [← hname]
      exact hfound d (mem_classes_of_class? hd)
  obtain ⟨node,w,hnode,hcompiled⟩ := class_of_compile h hc
  obtain ⟨-,-,-,⟨u,hparent⟩,-⟩ := compileClass_ok hcompiled
  cases hp : c.parent with
  | none => exact ⟨c,fun d hd => by simp [Extends,hp] at hd⟩
  | some name =>
    rw [hp] at hparent
    obtain ⟨ident,hident,rfl⟩ := parent_of_compileParent hparent
    have hpassed := forM_eq_ok.mp hparents node (List.mem_filterMap.mpr ⟨_,hnode,rfl⟩)
    simp only [hident] at hpassed
    split at hpassed
    · simp [fail] at hpassed
    · rename_i hcheck
      have hends : climbs classes classes.length [node.name.text] c.parent = false := by
        rw [hp]
        simpa using hcheck
      exact acc_of_climbs hclasses hends

theorem mem_classes_of_ancestor {s : Schema} {c d : Class} (hc : c ∈ s.classes)
    (h : Relation.ReflTransGen (Extends s) c d) : d ∈ s.classes := by
  cases h with
  | refl => exact hc
  | tail _ hd =>
    obtain ⟨_,-,hclass⟩ := Option.bind_eq_some_iff.mp hd
    exact mem_classes_of_class? hclass

def FixedThroughout (s : Schema) (c : Class) : Prop :=
  ∀ d, Relation.ReflTransGen (Extends s) c d →
    ∀ p ∈ d.properties, Plan.isWritten p = true → 0 < s.sizeOf p

theorem FixedThroughout.parent {s : Schema} {c d : Class} (h : s.FixedThroughout c)
    (hd : s.Extends c d) : s.FixedThroughout d :=
  fun e he => h e (.head hd he)

theorem FixedThroughout.extends_of_contains {s : Schema} {c d : Class} (h : s.FixedThroughout c)
    (htyped : ∀ p ∈ c.properties, p.Typed s) (hd : Plan.Contains s c d) : s.Extends c d := by
  cases hd with
  | parent hparent hfound => rw [Extends,hparent,Option.bind_some,hfound]
  | @property p name member hp hkept htype hfound =>
    obtain ⟨decl,hdecl,hclass⟩ := Option.bind_eq_some_iff.mp hfound
    have hstorage : s.storage? p.type = none := by
      cases decl with
      | enum e => cases hclass
      | «class» _ => simp [htype,storage?,enum?,hdecl,Decl.enum?]
    have hconst : p.flag ≠ some .const := by
      cases htyped p hp with
      | external flag _ => simp [flag]
      | number _ storage => simp [hstorage] at storage
      | record _ const _ _ => exact const
    have hwritten : Plan.isWritten p = true := by simp [Plan.isWritten,hkept,hconst]
    have hpos := h c .refl p hp hwritten
    have hzero : s.sizeOf p = 0 := by
      unfold sizeOf
      split
      · rfl
      · rw [hstorage]
    omega

theorem FixedThroughout.acyclic {path : Text} {doc : Document} {schema : Schema}
    {ws : List Warning} (h : compile path doc = .ok (schema,ws)) {c : Class}
    (hc : c ∈ schema.classes) (hfixed : schema.FixedThroughout c) : Plan.Acyclic schema c := by
  refine Plan.acyclic_of_acc ?_
  have hacc := ancestors_acc h hc
  induction hacc with
  | intro c _ ih =>
    refine ⟨c,fun d hd => ?_⟩
    have hparent := hfixed.extends_of_contains (fun p hp => typed_of_compile h hc hp) hd
    exact ih d hparent hd.mem_classes (hfixed.parent hparent)

end WireSchema.Schema

namespace WireSchema.Plan

def Class.lineage : Class → List Class
  | ⟨decl,parent,role,family,fields,consts⟩ => ⟨decl,parent,role,family,fields,consts⟩ ::
    match parent with
    | none => []
    | some p => p.lineage

theorem Class.lineage_eq (plan : Class) :
    plan.lineage = plan :: (plan.parent.map Class.lineage).getD [] := by
  obtain ⟨_,parent,_,_,_,_⟩ := plan
  cases parent <;> simp [lineage]

/-- The bytes of the fixed fields of a class and of its ancestors. -/
def Class.wireSize (plan : Class) : Nat := (plan.lineage.map baseSize).sum

theorem Class.wireSize_eq (plan : Class) :
    plan.wireSize = (plan.parent.map wireSize).getD 0 + plan.baseSize := by
  rw [wireSize,lineage_eq,List.map_cons,List.sum_cons,Nat.add_comm]
  cases plan.parent <;> rfl

section Laid

variable {schema : Schema} {supportsGc : Bool} {plan : Class}

theorem Laid.baseSize (h : Laid schema supportsGc plan) :
    plan.baseSize = ((plan.decl.properties.filter isWritten).map schema.sizeOf).sum := by
  have hsizes : plan.fields.map Field.size = (plan.fields.map Field.head).map Head.size := by
    simp [Field.size,Function.comp_def]
  rw [Class.baseSize,hsizes,h.heads,List.map_map]
  rfl

theorem decl_of_mem_lineage (h : plan.Forall (Laid schema supportsGc)) {a : Class}
    (ha : a ∈ plan.lineage) :
    Relation.ReflTransGen schema.Extends plan.decl a.decl ∧ Laid schema supportsGc a := by
  induction h with
  | @mk plan own _ _ hparent _ =>
    rw [Class.lineage_eq] at ha
    rcases List.mem_cons.mp ha with rfl | ha
    · exact ⟨.refl,own⟩
    · cases hp : plan.parent with
      | none => simp [hp] at ha
      | some p =>
        simp only [hp,Option.map_some,Option.getD_some] at ha
        obtain ⟨hreach,hlaid⟩ := hparent p hp ha
        have hextends : schema.Extends plan.decl p.decl := by
          rw [Schema.Extends,← own.parent,hp]
          rfl
        exact ⟨.head hextends hreach,hlaid⟩

theorem variableSized_of_throughout (h : plan.Forall (Laid schema supportsGc))
    (hfixed : schema.FixedThroughout plan.decl) {a : Class} (ha : a ∈ plan.lineage) :
    a.variableSized = [] := by
  obtain ⟨hreach,hlaid⟩ := decl_of_mem_lineage h ha
  refine List.filter_eq_nil_iff.mpr fun f hf => ?_
  have hhead : f.head ∈ a.fields.map Field.head := List.mem_map_of_mem hf
  rw [hlaid.heads] at hhead
  obtain ⟨p,hp,heq⟩ := List.mem_map.mp hhead
  obtain ⟨hmem,hwritten⟩ := List.mem_filter.mp hp
  have hpos := hfixed _ hreach p hmem hwritten
  rw [Field.isFixed,← heq]
  simpa [headOf] using Nat.ne_of_gt hpos

end Laid

end WireSchema.Plan
