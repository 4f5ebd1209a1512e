import WireSchema.Schema.Compile
import WireSchema.Proofs.Basic
import Mathlib.Data.List.Forall2
set_option autoImplicit false

/-!
What a document has passed once it is a schema. Every check is read back on its own; the schema then
stands beside the document declaration by declaration, and what later modules use of the checks is
gathered in `Schema.Sound`.
-/

namespace WireSchema.Schema

open Result

theorem collect_ok {α β : Type} {check : α → Except Fault (Warned β)} {xs : List α} {ys : List β}
    {ws : List Warning} (h : collect check xs = .ok (ys,ws)) :
    List.Forall₂ (fun x y => ∃ w, check x = .ok (y,w)) xs ys := by
  induction xs generalizing ys ws with
  | nil =>
    simp only [collect,Except.ok.injEq,Prod.mk.injEq] at h
    rw [← h.1]
    exact .nil
  | cons x xs ih =>
    simp only [collect,bind_eq_ok,pure_eq_ok,Except.ok.injEq] at h
    obtain ⟨⟨y,w⟩,hx,⟨zs,vs⟩,hxs,heq⟩ := h
    simp only [Prod.mk.injEq] at heq
    rw [← heq.1]
    exact .cons ⟨w,hx⟩ (ih hxs)

theorem duplicate?_none {seen : List Text} {names : List Ident} (h : duplicate? seen names = none) :
    (names.map Ident.text).Nodup ∧ ∀ n ∈ names, n.text ∉ seen := by
  induction names generalizing seen with
  | nil => simp
  | cons n ns ih =>
    by_cases hn : n.text ∈ seen
    · simp [duplicate?,hn] at h
    · have hrest : duplicate? (n.text :: seen) ns = none := by simpa [duplicate?,hn] using h
      obtain ⟨hnodup,hfresh⟩ := ih hrest
      refine ⟨?_,?_⟩
      · simp only [List.map_cons,List.nodup_cons]
        refine ⟨?_,hnodup⟩
        intro hmem
        obtain ⟨m,hm,heq⟩ := List.mem_map.mp hmem
        exact hfresh m hm (by simp [heq])
      · intro m hm
        rcases List.mem_cons.mp hm with rfl | hm
        · exact hn
        · exact fun hin => hfresh m hm (by simp [hin])

theorem checkNames_ok {seen : List Text} {decls : List Document.Decl} {r : Warned Unit}
    (h : checkNames seen decls = .ok r) :
    (decls.map (·.name.text)).Nodup ∧ (∀ d ∈ decls, d.name.text ∉ seen) ∧
      ∀ d ∈ decls, ((memberNames d).map Ident.text).Nodup := by
  induction decls generalizing seen r with
  | nil => simp
  | cons d ds ih =>
    by_cases hn : d.name.text ∈ seen
    · simp [checkNames,hn,fail] at h
    · cases hd : duplicate? [] (memberNames d) with
      | some m => simp [checkNames,hn,hd,fail] at h
      | none =>
        simp only [checkNames,List.contains_eq_mem,hn,hd,decide_false,Bool.false_eq_true,if_false,
          bind_eq_ok] at h
        obtain ⟨more,hrest,-⟩ := h
        obtain ⟨hnodup,hfresh,hmembers⟩ := ih hrest
        refine ⟨?_,?_,?_⟩
        · simp only [List.map_cons,List.nodup_cons]
          refine ⟨?_,hnodup⟩
          intro hmem
          obtain ⟨e,he,heq⟩ := List.mem_map.mp hmem
          exact hfresh e he (by simp [heq])
        · intro e he
          rcases List.mem_cons.mp he with rfl | he
          · exact hn
          · exact fun hin => hfresh e he (by simp [hin])
        · intro e he
          rcases List.mem_cons.mp he with rfl | he
          · exact (duplicate?_none hd).1
          · exact hmembers e he

/-- What a property has passed before its links are known. -/
structure Checked (doc : Document) (decl : Text) (node : Document.Property) (p : Property) :
    Prop where
  name : p.name = node.name.text
  flag : p.flag = node.flag
  removed : p.removed = node.removed.isSome
  type : resolve doc false node.type = .ok p.type
  suited : checkType doc decl node p.type = .ok ()
  valued : node.flag = some .const → p.default ≠ []
  option : checkOption decl node = .ok ()
  length : arrayLength decl node p.type = .ok p.arrayLength

theorem compileProperty_ok {doc : Document} {decl : Text} {node : Document.Property} {p : Property}
    {w : List Warning} (h : compileProperty doc decl node = .ok (p,w)) :
    Checked doc decl node p := by
  simp only [compileProperty,bind_eq_ok] at h
  obtain ⟨type,htype,⟨⟩,hsuited,⟨terms,ws⟩,-,h⟩ := h
  split at h
  · simp [fail] at h
  · rename_i hconst
    simp only [bind_eq_ok,pure_eq_ok,Except.ok.injEq,Prod.mk.injEq] at h
    obtain ⟨⟨⟩,hoption,length,hlength,rfl,rfl⟩ := h
    refine ⟨rfl,rfl,rfl,htype,hsuited,?_,hoption,hlength⟩
    intro hflag hempty
    exact hconst ⟨hflag,by simpa using hempty⟩

/-- A link between two properties of a list, as the check of a length field leaves it. -/
def Linked (all : List (Document.Property × Property)) (link : Link) : Prop :=
  ∃ node p holderNode holder, (node,p) ∈ all ∧ (holderNode,holder) ∈ all ∧ p.name = link.1 ∧
    holder.name = link.2 ∧ node.option.isSome ∧ p.arrayLength = 0 ∧
    canHold [] p holder holderNode = true

theorem canHold_taken {taken : List Link} {p holder : Property} {node : Document.Property}
    (h : canHold taken p holder node = true) :
    canHold [] p holder node = true ∧ holder.name ∉ taken.map Prod.snd := by
  simp only [canHold,Bool.and_eq_true,Bool.not_eq_true'] at h ⊢
  obtain ⟨⟨hfront,htaken⟩,hback⟩ := h
  refine ⟨⟨⟨hfront,by simp⟩,hback⟩,?_⟩
  intro hmem
  obtain ⟨link,hlink,heq⟩ := List.mem_map.mp hmem
  rw [List.any_eq_false] at htaken
  exact htaken link hlink (by simp [heq])

theorem canHold_ok {p holder : Property} {node : Document.Property}
    (h : canHold [] p holder node = true) :
    (∃ name primitive, holder.type = .weak name ∧ Primitive.ofName? name = some primitive ∧
      primitive.integer = true) ∧ holder.flag = none ∧ holder.arrayLength = 0 ∧
      node.option = none ∧ (holder.removed = true → p.removed = true) := by
  simp only [canHold,Bool.and_eq_true,Bool.or_eq_true,Bool.not_eq_true',beq_iff_eq,
    Option.isNone_iff_eq_none] at h
  obtain ⟨⟨⟨⟨⟨⟨hinteger,-⟩,hflag⟩,hsingle⟩,hoption⟩,-⟩,hremoved⟩ := h
  refine ⟨?_,hflag,hsingle,hoption,?_⟩
  · cases htype : holder.type with
    | strong decl member => simp [htype] at hinteger
    | weak name =>
      cases hprimitive : Primitive.ofName? name with
      | none => simp [htype,hprimitive] at hinteger
      | some primitive =>
        exact ⟨name,primitive,rfl,hprimitive,by simpa [htype,hprimitive] using hinteger⟩
  · intro hr
    rcases hremoved with hremoved | hremoved
    · rw [hr] at hremoved
      simp at hremoved
    · exact hremoved

theorem linkOf_ok {decl : Text} {all : List (Document.Property × Property)}
    {taken links : List Link} {node : Document.Property} {p : Property} (hp : (node,p) ∈ all)
    (h : linkOf decl all taken node p = .ok links) :
    links = taken ∨ ∃ link, links = taken ++ [link] ∧ Linked all link ∧
      link.2 ∉ taken.map Prod.snd := by
  unfold linkOf at h
  split at h
  · exact .inl (Except.ok.inj h).symm
  · rename_i option hoption
    split at h
    · exact .inl (Except.ok.inj h).symm
    · rename_i hlength
      split at h
      · simp [fail] at h
      · rename_i holderNode holder hfind
        split at h
        · rename_i hcan
          obtain ⟨hcan,hfresh⟩ := canHold_taken hcan
          refine .inr ⟨(p.name,holder.name),(Except.ok.inj h).symm,?_,hfresh⟩
          exact ⟨node,p,holderNode,holder,hp,List.mem_of_find?_eq_some hfind,rfl,rfl,
            by simp [hoption],by omega,hcan⟩
        · simp [fail] at h

theorem linksOf_ok {decl : Text} {all : List (Document.Property × Property)} {links : List Link}
    (h : linksOf decl all = .ok links) :
    (∀ link ∈ links, Linked all link) ∧ (links.map Prod.snd).Nodup := by
  have hstep : ∀ (rest : List (Document.Property × Property)) (taken : List Link),
      (∀ pair ∈ rest, pair ∈ all) → (∀ link ∈ taken, Linked all link) →
      (taken.map Prod.snd).Nodup →
      rest.foldlM (fun taken pair => linkOf decl all taken pair.1 pair.2) taken = .ok links →
      (∀ link ∈ links, Linked all link) ∧ (links.map Prod.snd).Nodup := by
    intro rest
    induction rest with
    | nil =>
      intro taken _ hlinked hnodup h
      simp only [List.foldlM_nil,pure_eq_ok,Except.ok.injEq] at h
      exact h ▸ ⟨hlinked,hnodup⟩
    | cons pair rest ih =>
      intro taken hall hlinked hnodup h
      simp only [List.foldlM_cons,bind_eq_ok] at h
      obtain ⟨next,hnext,h⟩ := h
      have hrest : ∀ pair ∈ rest, pair ∈ all := fun q hq => hall q (by simp [hq])
      rcases linkOf_ok (hall pair (by simp)) hnext with rfl | ⟨link,rfl,hlink,hfresh⟩
      · exact ih next hrest hlinked hnodup h
      · refine ih _ hrest ?_ ?_ h
        · intro l hl
          rcases List.mem_append.mp hl with hl | hl
          · exact hlinked l hl
          · rw [List.mem_singleton.mp hl]
            exact hlink
        · simp only [List.map_append,List.map_cons,List.map_nil]
          rw [List.nodup_append]
          refine ⟨hnodup,by simp,?_⟩
          intro a ha b hb hab
          rw [List.mem_singleton.mp hb] at hab
          exact hfresh (hab ▸ ha)
  exact hstep all [] (fun _ h => h) (by simp) (by simp) h

@[simp] theorem name_withLinks (links : List Link) (p : Property) :
    (withLinks links p).name = p.name := rfl

@[simp] theorem lengthField_withLinks (links : List Link) (p : Property) :
    (withLinks links p).lengthField = links.lookup p.name := rfl

structure Property.Measures (holder p : Property) : Prop where
  type : ∃ name primitive, holder.type = .weak name ∧ Primitive.ofName? name = some primitive ∧
    primitive.integer = true
  flag : holder.flag = none
  single : holder.arrayLength = 0
  unframed : holder.lengthField = none
  written : holder.removed = true → p.removed = true

/-- The properties of a class have names of their own, and payloads have length fields of their
own. -/
structure Class.Sound (c : Class) : Prop where
  names : (c.properties.map Property.name).Nodup
  framed : ∀ p ∈ c.properties, ∀ h, p.lengthField = some h →
    p.arrayLength = 0 ∧ ∃ q ∈ c.properties, q.name = h ∧ q.Measures p
  alone : ∀ p ∈ c.properties, ∀ q ∈ c.properties, ∀ h, p.lengthField = some h →
    q.lengthField = some h → p.name = q.name

theorem compileClass_ok {doc : Document} {c : Document.Class} {compiled : Class} {w : List Warning}
    (h : compileClass doc c = .ok (compiled,w)) :
    compiled.name = c.name.text ∧ compiled.removed = c.removed.isSome ∧
      (∃ v, compileIdentity doc c = .ok (compiled.identity,v)) ∧
      (∃ v, compileParent doc c = .ok (compiled.parent,v)) ∧
      ∃ properties links, List.Forall₂ (Checked doc c.name.text) c.properties properties ∧
        linksOf c.name.text (c.properties.zip properties) = .ok links ∧
        compiled.properties = properties.map (withLinks links) := by
  simp only [compileClass,bind_eq_ok,pure_eq_ok,Except.ok.injEq,Prod.mk.injEq] at h
  obtain ⟨⟨identity,v⟩,hidentity,⟨parent,u⟩,hparent,⟨properties,ws⟩,
    hproperties,links,hlinks,rfl,-⟩ := h
  have hchecked : List.Forall₂ (Checked doc c.name.text) c.properties properties :=
    (collect_ok hproperties).imp fun _ _ ⟨_,hp⟩ => compileProperty_ok hp
  refine ⟨rfl,rfl,⟨v,hidentity⟩,⟨u,hparent⟩,properties,links,hchecked,hlinks,?_⟩
  have hsnd : (c.properties.zip properties).map Prod.snd = properties :=
    List.map_snd_zip (Nat.le_of_eq hchecked.length_eq.symm)
  simp only [List.map_map]
  conv_rhs => rw [← hsnd,List.map_map]
  rfl

theorem Checked.names {doc : Document} {decl : Text} {nodes : List Document.Property}
    {properties : List Property} (h : List.Forall₂ (Checked doc decl) nodes properties) :
    properties.map Property.name = nodes.map (·.name.text) :=
  map_eq_of_forall₂ (fun _ _ hp => hp.name) h

theorem Linked.of_lookup {all : List (Document.Property × Property)} {links : List Link}
    (hlinks : ∀ link ∈ links, Linked all link) {name h : Text} (hl : links.lookup name = some h) :
    (name,h) ∈ links ∧ Linked all (name,h) := by
  exact ⟨mem_of_lookup hl,hlinks _ (mem_of_lookup hl)⟩

theorem compileClass_sound {doc : Document} {c : Document.Class} {compiled : Class}
    {w : List Warning} (h : compileClass doc c = .ok (compiled,w))
    (hnames : (c.properties.map (·.name.text)).Nodup) : compiled.Sound := by
  obtain ⟨-,-,-,-,properties,links,hchecked,hlinks,heq⟩ := compileClass_ok h
  obtain ⟨hlinked,hholders⟩ := linksOf_ok hlinks
  have hmap : compiled.properties.map Property.name = properties.map Property.name := by
    simp [heq,Function.comp_def]
  have hnodup : (properties.map Property.name).Nodup := Checked.names hchecked ▸ hnames
  -- The node and the property of a name are each the only ones of it.
  have hnode : ∀ {node node' : Document.Property} {p p' : Property},
      (node,p) ∈ c.properties.zip properties → (node',p') ∈ c.properties.zip properties →
      p.name = p'.name → node = node' ∧ p = p' := by
    intro node node' p p' hp hp' hn
    have hc := (List.forall₂_iff_zip.mp hchecked).2 hp
    have hc' := (List.forall₂_iff_zip.mp hchecked).2 hp'
    refine ⟨eq_of_name_eq hnames (List.of_mem_zip hp).1 (List.of_mem_zip hp').1 ?_,
      eq_of_name_eq hnodup (List.of_mem_zip hp).2 (List.of_mem_zip hp').2 hn⟩
    rw [← hc.name,← hc'.name,hn]
  refine ⟨hmap ▸ hnodup,?_,?_⟩
  · intro p hp h hl
    rw [heq] at hp
    obtain ⟨p₀,hp₀,rfl⟩ := List.mem_map.mp hp
    obtain ⟨-,node,p₁,holderNode,holder,hp₁,hq,hname,hholder,-,hlength,hcan⟩ :=
      Linked.of_lookup hlinked hl
    have hpeq : p₁ = p₀ := eq_of_name_eq hnodup (List.of_mem_zip hp₁).2 hp₀ hname
    subst p₁
    refine ⟨hlength,withLinks links holder,?_,hholder,?_⟩
    · rw [heq]
      exact List.mem_map_of_mem (List.of_mem_zip hq).2
    · obtain ⟨htype,hflag,hsingle,hoption,hwritten⟩ := canHold_ok hcan
      refine ⟨htype,hflag,hsingle,?_,hwritten⟩
      -- A holder with a link of its own would have an option.
      cases hself : links.lookup holder.name with
      | none => simpa using hself
      | some other =>
        obtain ⟨-,node',q,_,_,hq',-,hname',-,hsome,-⟩ := Linked.of_lookup hlinked hself
        rw [(hnode hq' hq hname').1,hoption] at hsome
        simp at hsome
  · intro p hp q hq h hl hl'
    rw [heq] at hp hq
    obtain ⟨p₀,-,rfl⟩ := List.mem_map.mp hp
    obtain ⟨q₀,-,rfl⟩ := List.mem_map.mp hq
    have hpair := List.inj_on_of_nodup_map hholders (Linked.of_lookup hlinked hl).1
      (Linked.of_lookup hlinked hl').1 rfl
    simpa using congrArg Prod.fst hpair

theorem compileEnum_ok {doc : Document} {e : Document.Enum} {compiled : Enum} {w : List Warning}
    (h : compileEnum doc e = .ok (compiled,w)) :
    compiled.name = e.name.text ∧ compiled.storage = declaredStorage e ∧
      compiled.flags = e.flags ∧ checkStorage doc e = .ok () ∧
      List.Forall₂ (fun node v => ∃ u, compileEnumValue doc e node = .ok (v,u)) e.values
        compiled.values := by
  simp only [compileEnum,bind_eq_ok,pure_eq_ok,Except.ok.injEq,Prod.mk.injEq] at h
  obtain ⟨⟨⟩,hstorage,⟨values,ws⟩,hvalues,rfl,-⟩ := h
  exact ⟨rfl,rfl,rfl,hstorage,collect_ok hvalues⟩

inductive Decl.Compiled (doc : Document) : Document.Decl → Decl → Prop
  | class {c : Document.Class} {compiled : Class} {w : List Warning}
      (h : compileClass doc c = .ok (compiled,w)) : Compiled doc (.class c) (.class compiled)
  | enum {e : Document.Enum} {compiled : Enum} {w : List Warning}
      (h : compileEnum doc e = .ok (compiled,w)) : Compiled doc (.enum e) (.enum compiled)

theorem Decl.Compiled.name {doc : Document} {d : Document.Decl} {compiled : Decl}
    (h : Decl.Compiled doc d compiled) : compiled.name = d.name.text := by
  cases h with
  | «class» h => exact (compileClass_ok h).1
  | enum h => exact (compileEnum_ok h).1

theorem find?_of_forall₂ {α β : Type} {R : α → β → Prop} {name : α → Text} (other : β → Text)
    {xs : List α} {ys : List β} (h : List.Forall₂ R xs ys)
    (hR : ∀ x y, R x y → other y = name x) (hn : (xs.map name).Nodup) {x : α} (hx : x ∈ xs) :
    ∃ y, ys.find? (fun y => other y == name x) = some y ∧ R x y := by
  induction h with
  | nil => simp at hx
  | @cons a b as bs hab _ ih =>
    simp only [List.map_cons,List.nodup_cons] at hn
    by_cases hxa : x = a
    · subst x
      exact ⟨b,by simp [hR a b hab],hab⟩
    · have hmem : x ∈ as := by simpa [hxa] using hx
      obtain ⟨y,hy,hxy⟩ := ih hn.2 hmem
      have hne : other b ≠ name x := by
        rw [hR a b hab]
        exact fun he => hn.1 (he ▸ List.mem_map_of_mem hmem)
      exact ⟨y,by simp [hne,hy],hxy⟩

theorem forall₂_filterMap {α β : Type} {R : α → β → Prop} {f : α → Option β} {xs : List α}
    (h : ∀ x ∈ xs, ∃ y, f x = some y ∧ R x y) : List.Forall₂ R xs (xs.filterMap f) := by
  induction xs with
  | nil => exact .nil
  | cons x xs ih =>
    obtain ⟨y,hy,hxy⟩ := h x (by simp)
    rw [List.filterMap_cons_some hy]
    exact .cons hxy (ih fun z hz => h z (by simp [hz]))

theorem nodup_filterMap_name {α : Type} {f : Document.Decl → Option α} {name : α → Text}
    {decls : List Document.Decl} (hf : ∀ d a, f d = some a → name a = d.name.text)
    (hn : (decls.map (·.name.text)).Nodup) : ((decls.filterMap f).map name).Nodup := by
  induction decls with
  | nil => simp
  | cons d ds ih =>
    simp only [List.map_cons,List.nodup_cons] at hn
    cases hd : f d with
    | none => simpa [List.filterMap_cons_none hd] using ih hn.2
    | some a =>
      simp only [List.filterMap_cons_some hd,List.map_cons,List.nodup_cons]
      refine ⟨?_,ih hn.2⟩
      intro hmem
      obtain ⟨b,hb,hab⟩ := List.mem_map.mp hmem
      obtain ⟨e,he,hfe⟩ := List.mem_filterMap.mp hb
      apply hn.1
      rw [← hf d a hd,← hab,hf e b hfe]
      exact List.mem_map_of_mem he

theorem compile_ok {path : Text} {doc : Document} {schema : Schema} {ws : List Warning}
    (h : compile path doc = .ok (schema,ws)) :
    (doc.decls.map (·.name.text)).Nodup ∧
      (∀ d ∈ doc.decls, ((memberNames d).map Ident.text).Nodup) ∧
      List.Forall₂ (Decl.Compiled doc) doc.decls schema.decls := by
  simp only [compile,bind_eq_ok,pure_eq_ok,Except.ok.injEq,Prod.mk.injEq] at h
  obtain ⟨_,hnames,⟨enums,_⟩,henums,⟨classes,_⟩,hclasses,⟨⟩,-,rfl,-⟩ := h
  obtain ⟨hnodup,-,hmembers⟩ := checkNames_ok hnames
  refine ⟨hnodup,hmembers,forall₂_filterMap ?_⟩
  intro d hd
  cases d with
  | «class» c =>
    have hc : c ∈ doc.classes := List.mem_filterMap.mpr ⟨_,hd,rfl⟩
    have hclass : (doc.classes.map (·.name.text)).Nodup :=
      nodup_filterMap_name (by intro d a ha; cases d <;> cases ha; rfl) hnodup
    obtain ⟨compiled,hfind,w,hw⟩ := find?_of_forall₂ Class.name (collect_ok hclasses)
      (fun _ _ ⟨_,hy⟩ => (compileClass_ok hy).1) hclass hc
    exact ⟨.class compiled,by simp [arrange,hfind],.class hw⟩
  | enum e =>
    have he : e ∈ doc.enums := List.mem_filterMap.mpr ⟨_,hd,rfl⟩
    have henum : (doc.enums.map (·.name.text)).Nodup :=
      nodup_filterMap_name (by intro d a ha; cases d <;> cases ha; rfl) hnodup
    obtain ⟨compiled,hfind,w,hw⟩ := find?_of_forall₂ Enum.name (collect_ok henums)
      (fun _ _ ⟨_,hy⟩ => (compileEnum_ok hy).1) henum he
    exact ⟨.enum compiled,by simp [arrange,hfind],.enum hw⟩

theorem Decl.Compiled.names {doc : Document} {decls : List Document.Decl} {compiled : List Decl}
    (h : List.Forall₂ (Decl.Compiled doc) decls compiled) :
    compiled.map Decl.name = decls.map (·.name.text) :=
  map_eq_of_forall₂ (fun _ _ hd => hd.name) h

theorem Decl.Compiled.find {doc : Document} {decls : List Document.Decl} {compiled : List Decl}
    (h : List.Forall₂ (Decl.Compiled doc) decls compiled) {name : Text} {d : Document.Decl}
    (hd : decls.find? (fun d => d.name.text == name) = some d) :
    ∃ c, compiled.find? (fun c => c.name == name) = some c ∧ Decl.Compiled doc d c := by
  induction h with
  | nil => simp at hd
  | @cons a b as bs hab _ ih =>
    by_cases hn : a.name.text = name
    · simp only [List.find?_cons,hn,beq_self_eq_true,Option.some.injEq] at hd
      subst d
      exact ⟨b,by simp [hab.name,hn],hab⟩
    · have hne : (a.name.text == name) = false := by simpa using hn
      simp only [List.find?_cons,hne] at hd
      obtain ⟨c,hc,hdc⟩ := ih hd
      have hne' : (b.name == name) = false := by simpa [hab.name] using hn
      exact ⟨c,by simp [hne',hc],hdc⟩

theorem maskable_of_checkType {doc : Document} {decl : Text} {node : Document.Property}
    {type : Reference} (h : checkType doc decl node type = .ok ())
    (hf : node.flag = some .protoMask ∨ node.flag = some .protoMaskGc) :
    maskable (typeShape doc type) = true := by
  rcases hf with hf | hf
  · simp only [checkType,hf,fail,reduceCtorEq,if_false,Option.some.injEq] at h
    split at h
    · simp at h
    · simp at h
    · by_contra hm
      simp [hm] at h
  · simp only [checkType,hf,fail,reduceCtorEq,if_false,Option.some.injEq] at h
    split at h
    · simp at h
    · simp at h
    · by_contra hm
      simp [hm] at h

/-- What the checks leave behind for the layout of classes. -/
structure Sound (s : Schema) : Prop where
  names : (s.decls.map Decl.name).Nodup
  classes : ∀ c ∈ s.classes, c.Sound
  masks : ∀ c ∈ s.classes, ∀ p ∈ c.properties,
    p.flag = some .protoMask ∨ p.flag = some .protoMaskGc →
    ∃ storage, s.storage? p.type = some storage ∧ storage.size = 4

theorem mem_classes_of_class? {s : Schema} {name : Text} {c : Class}
    (h : s.class? name = some c) : c ∈ s.classes := by
  obtain ⟨d,hd,hc⟩ := Option.bind_eq_some_iff.mp h
  exact List.mem_filterMap.mpr ⟨d,List.mem_of_find?_eq_some hd,hc⟩

theorem enum?_eq_some {s : Schema} {name : Text} {e : Enum} :
    s.enum? name = some e ↔ s.decl? name = some (.enum e) := by
  unfold enum?
  cases s.decl? name with
  | none => simp
  | some d => cases d <;> simp [Decl.enum?]

theorem name_of_decl? {s : Schema} {name : Text} {d : Decl} (h : s.decl? name = some d) :
    d ∈ s.decls ∧ d.name = name :=
  ⟨List.mem_of_find?_eq_some h,by simpa using List.find?_some h⟩

theorem decl?_of_mem_classes {s : Schema} (hs : s.Sound) {c : Class} (hc : c ∈ s.classes) :
    s.decl? c.name = some (.class c) := by
  obtain ⟨d,hd,hclass⟩ := List.mem_filterMap.mp hc
  cases d with
  | enum e => cases hclass
  | «class» other =>
    cases hclass
    exact find?_of_mem hs.names hd

theorem Sound.class_eq {s : Schema} (hs : s.Sound) {c d : Class} (hc : c ∈ s.classes)
    (hd : d ∈ s.classes) (h : c.name = d.name) : c = d := by
  have hfound := decl?_of_mem_classes hs hc
  rw [h,decl?_of_mem_classes hs hd] at hfound
  cases hfound
  rfl

theorem storage?_of_maskable {doc : Document} {schema : Schema}
    (h : List.Forall₂ (Decl.Compiled doc) doc.decls schema.decls) {type : Reference}
    (hm : maskable (typeShape doc type) = true) :
    ∃ storage, schema.storage? type = some storage ∧ storage.size = 4 := by
  cases type with
  | weak name =>
    cases hp : Primitive.ofName? name with
    | none => simp [typeShape,hp,maskable] at hm
    | some primitive =>
      simp only [typeShape,hp,maskable,Bool.and_eq_true,beq_iff_eq] at hm
      exact ⟨primitive,by simp [storage?,hp],hm.1⟩
  | strong decl member =>
    cases hd : doc.decl? decl with
    | none => simp [typeShape,hd,maskable] at hm
    | some d =>
      cases d with
      | «class» c => simp [typeShape,hd,maskable] at hm
      | enum e =>
        simp only [typeShape,hd,maskable,beq_iff_eq] at hm
        obtain ⟨c,hc,hcompiled⟩ := Decl.Compiled.find h hd
        cases hcompiled with
        | enum he =>
          rename_i compiled _
          have hstorage := (compileEnum_ok he).2.1
          refine ⟨compiled.storage,?_,by rw [hstorage]; exact hm⟩
          simp [storage?,enum?,decl?,hc,Decl.enum?]

theorem class_of_compile {path : Text} {doc : Document} {schema : Schema} {ws : List Warning}
    (h : compile path doc = .ok (schema,ws)) {c : Class} (hc : c ∈ schema.classes) :
    ∃ node w, Document.Decl.class node ∈ doc.decls ∧ compileClass doc node = .ok (c,w) := by
  obtain ⟨-,-,hdecls⟩ := compile_ok h
  obtain ⟨d,hd,hdc⟩ := List.mem_filterMap.mp hc
  obtain ⟨node,hnode,hcompiled⟩ := exists_of_forall₂ hdecls hd
  cases hcompiled with
  | «class» h =>
    cases hdc
    exact ⟨_,_,hnode,h⟩
  | enum h => cases hdc

theorem checked_of_compile {path : Text} {doc : Document} {schema : Schema} {ws : List Warning}
    (h : compile path doc = .ok (schema,ws)) {c : Class} (hc : c ∈ schema.classes) {p : Property}
    (hp : p ∈ c.properties) : ∃ node, Checked doc c.name node p := by
  obtain ⟨node,w,-,hcompiled⟩ := class_of_compile h hc
  obtain ⟨hname,-,-,-,properties,links,hchecked,-,heq⟩ := compileClass_ok hcompiled
  rw [heq] at hp
  obtain ⟨p₀,hp₀,rfl⟩ := List.mem_map.mp hp
  obtain ⟨nodeProperty,-,hprop⟩ := exists_of_forall₂ hchecked hp₀
  rw [hname]
  exact ⟨nodeProperty,{ hprop with }⟩

theorem sound_of_compile {path : Text} {doc : Document} {schema : Schema} {ws : List Warning}
    (h : compile path doc = .ok (schema,ws)) : schema.Sound := by
  obtain ⟨hnames,hmembers,hdecls⟩ := compile_ok h
  refine ⟨Decl.Compiled.names hdecls ▸ hnames,?_,?_⟩
  · intro c hc
    obtain ⟨node,w,hnode,hcompiled⟩ := class_of_compile h hc
    have hn := hmembers _ hnode
    simp only [memberNames,List.map_map] at hn
    exact compileClass_sound hcompiled hn
  · intro c hc p hp hflag
    obtain ⟨node,hprop⟩ := checked_of_compile h hc hp
    have hflag' : node.flag = some .protoMask ∨ node.flag = some .protoMaskGc := by
      rw [← hprop.flag]
      exact hflag
    exact storage?_of_maskable hdecls (maskable_of_checkType hprop.suited hflag')

/-- The type of a property as the checks leave it: declared elsewhere if it is that of a message of
another format, and otherwise numbers or a class. A constant is a number. -/
inductive Property.Typed (s : Schema) (p : Property) : Prop
  | external {name : Text} (flag : p.flag = some .proto) (type : p.type = .weak name)
  | number {storage : Primitive} (flag : p.flag ≠ some .proto)
      (storage : s.storage? p.type = some storage)
  | record {name : Text} {c : Class} (proto : p.flag ≠ some .proto) (const : p.flag ≠ some .const)
      (type : p.type = .strong name none) (found : s.decl? name = some (.class c))

theorem nodeName_of_decl? {doc : Document} {name : Text} {d : Document.Decl}
    (h : doc.decl? name = some d) : d.name.text = name := by
  simpa using List.find?_some h

theorem name_of_member? {d : Document.Decl} {name : Text} {m : Document.MemberNode}
    (h : d.member? name = some m) : m.name.text = name := by
  simpa using List.find?_some h

theorem resolve_cases {doc : Document} {strongOnly : Bool} {node : Ident} {symbol : Reference}
    (h : resolve doc strongOnly node = .ok symbol) : symbol = .weak node.text ∨
      (symbol = .strong node.text none ∧ (doc.decl? node.text).isSome = true) ∨
      ∃ scope d m, symbol = .strong scope (some m.name.text) ∧ doc.decl? scope = some d ∧
        m ∈ d.memberNodes := by
  unfold resolve at h
  cases hr : Symbol.resolve doc strongOnly node.text with
  | error fault => simp [hr,fail] at h
  | ok resolved =>
    simp only [hr,Except.ok.injEq] at h
    subst h
    unfold Symbol.resolve at hr
    split at hr
    · cases hr
    · split at hr
      · split at hr
        · rename_i d hdecl
          cases hr
          rw [Symbol.reference,nodeName_of_decl? hdecl]
          exact .inr (.inl ⟨rfl,by rw [hdecl]; rfl⟩)
        · split at hr
          · cases hr
          · cases hr
            exact .inl rfl
      · rename_i scope member _
        split at hr
        · cases hr
        · rename_i d hd
          split at hr
          · cases hr
          · rename_i m hm
            cases hr
            rw [Symbol.reference,nodeName_of_decl? hd]
            exact .inr (.inr ⟨scope,d,m,rfl,hd,List.mem_of_find?_eq_some hm⟩)

theorem resolve_strong {doc : Document} {node : Ident} {name : Text}
    (h : resolve doc false node = .ok (.strong name none)) : (doc.decl? name).isSome = true := by
  rcases resolve_cases h with hweak | ⟨hdecl,hsome⟩ | ⟨scope,d,m,hmember,-⟩
  · cases hweak
  · cases hdecl
    exact hsome
  · cases hmember

theorem checkType_member {doc : Document} {decl : Text} {node : Document.Property}
    {name member : Text} : checkType doc decl node (.strong name (some member)) ≠ .ok () := by
  simp [checkType,fail]

/-- A type that binds is neither that of a message of another format nor, if it names a class, that
of a constant. -/
theorem flag_of_checkType {doc : Document} {decl : Text} {node : Document.Property} {name : Text}
    (h : checkType doc decl node (.strong name none) = .ok ()) :
    node.flag ≠ some .proto ∧
      ((∃ e, doc.decl? name = some (.enum e)) ∨ node.flag ≠ some .const) := by
  refine ⟨?_,?_⟩
  · intro hf
    simp [checkType,hf,fail] at h
  · by_contra hne
    push Not at hne
    obtain ⟨hclass,hf⟩ := hne
    have hshape : typeShape doc (.strong name none) = .class name := by simp [typeShape]
    simp [checkType,hf,hshape,fail] at h

theorem Checked.typed {doc : Document} {schema : Schema}
    (hdecls : List.Forall₂ (Decl.Compiled doc) doc.decls schema.decls) {decl : Text}
    {node : Document.Property} {p : Property} (h : Checked doc decl node p) : p.Typed schema := by
  have hsuited := h.suited
  cases htype : p.type with
  | weak name =>
    by_cases hf : p.flag = some .proto
    · exact .external hf htype
    cases hprimitive : Primitive.ofName? name with
    | some primitive =>
      have hstorage : schema.storage? p.type = some primitive := by simp [htype,storage?,hprimitive]
      exact .number hf hstorage
    | none =>
      rw [htype] at hsuited
      rw [h.flag] at hf
      simp [checkType,typeShape,hprimitive,hf,fail] at hsuited
  | strong name member =>
    rw [htype] at hsuited
    cases member with
    | some member => exact absurd hsuited checkType_member
    | none =>
      obtain ⟨hproto,hkind⟩ := flag_of_checkType hsuited
      rw [← h.flag] at hproto hkind
      obtain ⟨d,hd⟩ := Option.isSome_iff_exists.mp (resolve_strong (htype ▸ h.type))
      obtain ⟨compiled,hfind,hcompiled⟩ := Decl.Compiled.find hdecls hd
      cases hcompiled with
      | enum _ =>
        rename_i e _ _
        have hstorage : schema.storage? p.type = some e.storage := by
          simp [htype,storage?,enum?,decl?,hfind,Decl.enum?]
        exact .number hproto hstorage
      | «class» _ =>
        rcases hkind with ⟨e,he⟩ | hconst
        · rw [hd] at he
          cases he
        · exact .record hproto hconst htype hfind

theorem typed_of_compile {path : Text} {doc : Document} {schema : Schema} {ws : List Warning}
    (h : compile path doc = .ok (schema,ws)) {c : Class} (hc : c ∈ schema.classes) {p : Property}
    (hp : p ∈ c.properties) : p.Typed schema := by
  obtain ⟨-,-,hdecls⟩ := compile_ok h
  obtain ⟨_,hprop⟩ := checked_of_compile h hc hp
  exact hprop.typed hdecls

theorem type_of_compile {path : Text} {doc : Document} {schema : Schema} {ws : List Warning}
    (h : compile path doc = .ok (schema,ws)) {c : Class} (hc : c ∈ schema.classes) {p : Property}
    (hp : p ∈ c.properties) (decl member : Text) : p.type ≠ .strong decl (some member) := by
  obtain ⟨_,hprop⟩ := checked_of_compile h hc hp
  intro htype
  have hsuited := hprop.suited
  rw [htype] at hsuited
  exact checkType_member hsuited

theorem storage_of_const {path : Text} {doc : Document} {schema : Schema} {ws : List Warning}
    (h : compile path doc = .ok (schema,ws)) {c : Class} (hc : c ∈ schema.classes) {p : Property}
    (hp : p ∈ c.properties) (hflag : p.flag = some .const) :
    ∃ storage, schema.storage? p.type = some storage := by
  cases typed_of_compile h hc hp with
  | external flag _ =>
    rw [hflag] at flag
    cases flag
  | number _ storage => exact ⟨_,storage⟩
  | record _ const _ _ => exact absurd hflag const

end WireSchema.Schema
