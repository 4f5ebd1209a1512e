import WireSchema.Proofs.Document.Moved
import WireSchema.Schema.Compile
set_option autoImplicit false

namespace WireSchema.Schema

open Placed (idents)

variable {α β : Type} {place : Span → Prop}

/-- A check whose fault is at a place of a kind, and of whose result something holds otherwise. -/
def Blames (place : Span → Prop) (r : Except Fault α) (Q : α → Prop) : Prop :=
  match r with
  | .ok a => Q a
  | .error fault => place fault.span

/-- Warnings at places of a kind. -/
def Warns (place : Span → Prop) (ws : List Warning) : Prop := ∀ w ∈ ws, place w.span

theorem Warns.nil : Warns place [] := by simp [Warns]

theorem Warns.single {concern : Concern} {span : Span} (h : place span) :
    Warns place [⟨concern,span⟩] := by
  simpa [Warns] using h

theorem Warns.append {ws more : List Warning} (h : Warns place ws) (h' : Warns place more) :
    Warns place (ws ++ more) := by
  intro w hw
  cases List.mem_append.mp hw with
  | inl hw => exact h w hw
  | inr hw => exact h' w hw

theorem Blames.ok {a : α} {Q : α → Prop} (h : Q a) : Blames place (.ok a) Q := h

theorem Blames.fail {cause : Cause} {span : Span} {Q : α → Prop} (h : place span) :
    Blames place (fail cause span) Q := h

theorem Blames.bind {r : Except Fault α} {f : α → Except Fault β} {P : α → Prop} {Q : β → Prop}
    (hr : Blames place r P) (hf : ∀ a, P a → Blames place (f a) Q) : Blames place (r >>= f) Q := by
  cases r with
  | error fault => exact hr
  | ok a => exact hf a hr

theorem blames_collect {check : α → Except Fault (Warned β)} {xs : List α}
    (h : ∀ x ∈ xs, Blames place (check x) fun r => Warns place r.2) :
    Blames place (collect check xs) fun r => Warns place r.2 := by
  induction xs with
  | nil => exact Blames.ok Warns.nil
  | cons x xs ih =>
    refine (h x List.mem_cons_self).bind fun y hy => ?_
    refine (ih fun z hz => h z (List.mem_cons_of_mem _ hz)).bind fun ys hys => ?_
    exact Blames.ok (hy.append hys)

theorem blames_forM {check : α → Except Fault Unit} {xs : List α}
    (h : ∀ x ∈ xs, Blames place (check x) fun _ => True) :
    Blames place (xs.forM check) fun _ => True := by
  induction xs with
  | nil => exact Blames.ok trivial
  | cons x xs ih =>
    change Blames place (check x >>= fun _ => xs.forM check) fun _ => True
    refine (h x List.mem_cons_self).bind fun _ _ => ?_
    exact ih fun y hy => h y (List.mem_cons_of_mem _ hy)

variable {doc : Document}

theorem blames_resolve {strongOnly : Bool} {name : Ident} (h : place name.span) :
    Blames place (resolve doc strongOnly name) fun _ => True := by
  unfold resolve
  split
  · exact Blames.fail h
  · exact Blames.ok trivial

theorem warns_obsolete {marker : Option Marker} {concern : Marker → Concern} {span : Span}
    (h : place span) :
    Warns place (match marker with
      | some m => [⟨concern m,span⟩]
      | none => []) := by
  cases marker with
  | none => exact Warns.nil
  | some m => exact Warns.single h

theorem blames_resolveValue {decl : Text} {term : Ident} (h : place term.span) :
    Blames place (resolveValue doc decl term) fun r => Warns place r.2 := by
  refine (blames_resolve h).bind fun symbol _ => ?_
  split
  · exact Blames.fail h
  · exact Blames.ok (warns_obsolete h)

theorem blames_enumTerm {e : Document.Enum} {term : Ident} (h : place term.span) :
    Blames place (resolveEnumTerm doc e term) fun r => Warns place r.2 := by
  unfold resolveEnumTerm
  split
  · exact Blames.ok Warns.nil
  · exact blames_resolveValue h

theorem blames_enum {e : Document.Enum} (h : ∀ i ∈ idents e, place i.span) :
    Blames place (compileEnum doc e) fun r => Warns place r.2 := by
  have hstorage : Blames place (checkStorage doc e) fun _ => True := by
    unfold checkStorage
    split
    · exact Blames.ok trivial
    · rename_i name hname
      have hplace : place name.span := h name (by simp [idents,hname])
      dsimp only
      repeat' split
      all_goals first | exact Blames.ok trivial | exact Blames.fail hplace
  refine hstorage.bind fun _ _ => ?_
  refine (blames_collect ?_).bind fun values hvalues => Blames.ok hvalues
  intro v hv
  refine (blames_collect ?_).bind fun terms hterms => Blames.ok hterms
  intro term hterm
  refine blames_enumTerm (h term ?_)
  have hin : term ∈ idents v := List.mem_append_right _ (by simpa [idents] using hterm)
  exact List.mem_append_right _ (List.mem_flatMap.mpr ⟨v,hv,hin⟩)

section Properties

variable {decl : Text} {p : Document.Property} (h : ∀ i ∈ idents p, place i.span)

include h

theorem place_type : place p.type.span := h p.type (by simp [idents])

theorem place_option {option : Ident} (ho : p.option = some option) : place option.span :=
  h option (by simp [idents,ho])

theorem blames_checkType (type : Reference) :
    Blames place (checkType doc decl p type) fun _ => True := by
  have htype := place_type h
  unfold checkType
  dsimp only
  repeat' split
  all_goals first | exact Blames.ok trivial | exact Blames.fail htype

theorem blames_checkOption : Blames place (checkOption decl p) fun _ => True := by
  unfold checkOption
  split
  · exact Blames.ok trivial
  · exact Blames.ok trivial
  · exact Blames.ok trivial
  · rename_i option flag ho hf
    exact Blames.fail (place_option h ho)

theorem blames_arrayLength (type : Reference) :
    Blames place (arrayLength decl p type) fun _ => True := by
  unfold arrayLength
  split
  · exact Blames.ok trivial
  · rename_i option ho
    have hoption := place_option h ho
    dsimp only
    repeat' split
    all_goals first | exact Blames.ok trivial | exact Blames.fail hoption

theorem blames_property :
    Blames place (compileProperty doc decl p) fun r => Warns place r.2 := by
  refine (blames_resolve (place_type h)).bind fun type _ => ?_
  refine (blames_checkType h type).bind fun _ _ => ?_
  have hterms : Blames place (collect (resolveValue doc decl) p.defaults)
      fun r => Warns place r.2 := by
    refine blames_collect fun term hterm => blames_resolveValue (h term ?_)
    simp [idents,hterm]
  refine hterms.bind fun terms hwarned => ?_
  have hname : place p.name.span := h p.name (by simp [idents])
  have hrest : Blames place (do
      checkOption decl p
      let length ← arrayLength decl p type
      return (({
        name := p.name.text
        type
        flag := p.flag
        arrayLength := length
        lengthField := none
        lengthOf := none
        default := terms.1
        obsolete := p.obsolete
        removed := p.removed.isSome } : Property),terms.2)) fun r => Warns place r.2 :=
    (blames_checkOption h).bind fun _ _ =>
      (blames_arrayLength h type).bind fun _ _ => Blames.ok hwarned
  dsimp only
  split
  · exact Blames.fail hname
  · exact hrest

end Properties

section Classes

variable {c : Document.Class} (h : ∀ i ∈ idents c, place i.span)

include h

theorem place_property {p : Document.Property} (hp : p ∈ c.properties) :
    ∀ i ∈ idents p, place i.span :=
  fun i hi => h i (List.mem_append_right _ (List.mem_flatMap.mpr ⟨p,hp,hi⟩))

theorem blames_identity : Blames place (compileIdentity doc c) fun r => Warns place r.2 := by
  unfold compileIdentity
  split
  · exact Blames.ok Warns.nil
  · rename_i name hname
    have hplace : place name.span := h name (by simp [idents,hname])
    refine (blames_resolve hplace).bind fun symbol _ => ?_
    split
    · exact Blames.fail hplace
    · exact Blames.ok (warns_obsolete hplace)

theorem blames_parent : Blames place (compileParent doc c) fun r => Warns place r.2 := by
  unfold compileParent
  split
  · exact Blames.ok Warns.nil
  · rename_i name hname
    have hplace : place name.span := h name (by simp [idents,hname])
    refine (blames_resolve hplace).bind fun symbol _ => ?_
    dsimp only
    repeat' split
    · exact Blames.ok Warns.nil
    · exact Blames.ok (Warns.single hplace)
    · exact Blames.fail hplace
    · exact Blames.fail hplace

theorem blames_links {decl : Text} {all : List (Document.Property × Property)}
    (hall : ∀ x ∈ all, x.1 ∈ c.properties) :
    Blames place (linksOf decl all) fun _ => True := by
  have hlink (taken : List Link) {x : Document.Property × Property} (hx : x ∈ all) :
      Blames place (linkOf decl all taken x.1 x.2) fun _ => True := by
    unfold linkOf
    split
    · exact Blames.ok trivial
    · rename_i option ho
      have hoption := place_option (place_property h (hall x hx)) ho
      repeat' split
      all_goals first | exact Blames.ok trivial | exact Blames.fail hoption
  have hfold (rest : List (Document.Property × Property)) (hrest : ∀ x ∈ rest, x ∈ all)
      (taken : List Link) : Blames place
        (rest.foldlM (fun taken x => linkOf decl all taken x.1 x.2) taken) fun _ => True := by
    induction rest generalizing taken with
    | nil => exact Blames.ok trivial
    | cons x rest ih =>
      rw [List.foldlM_cons]
      refine (hlink taken (hrest x List.mem_cons_self)).bind fun more _ => ?_
      exact ih (fun y hy => hrest y (List.mem_cons_of_mem _ hy)) more
  exact hfold all (fun _ hx => hx) []

omit h in
theorem unboundedPair_mem {all : List (Document.Property × Property)}
    {x : Document.Property × Property} (hpair : unboundedPair? all = some x) :
    ∃ y ∈ all, x.1 = y.1 := by
  induction all with
  | nil => simp [unboundedPair?] at hpair
  | cons first rest ih =>
    rw [unboundedPair?] at hpair
    split at hpair
    · obtain ⟨next,-,rfl⟩ := Option.map_eq_some_iff.mp hpair
      exact ⟨first,List.mem_cons_self,rfl⟩
    · obtain ⟨y,hy,heq⟩ := ih hpair
      exact ⟨y,List.mem_cons_of_mem _ hy,heq⟩

theorem warns_unbounded {decl : Text} {all : List (Document.Property × Property)}
    (hall : ∀ x ∈ all, x.1 ∈ c.properties) : Warns place (unboundedWarnings doc decl all) := by
  unfold unboundedWarnings
  dsimp only
  split
  · exact Warns.nil
  · rename_i node next hpair
    obtain ⟨y,hy,rfl⟩ := unboundedPair_mem hpair
    have hnode := place_property h (hall y (List.mem_of_mem_filter hy))
    exact Warns.single (hnode y.1.name (by simp [idents]))

theorem blames_class : Blames place (compileClass doc c) fun r => Warns place r.2 := by
  refine (blames_identity h).bind fun identity hidentity => ?_
  refine (blames_parent h).bind fun parent hparent => ?_
  refine (blames_collect fun p hp => blames_property (place_property h hp)).bind
    fun properties hproperties => ?_
  have hpairs : ∀ x ∈ c.properties.zip properties.1, x.1 ∈ c.properties :=
    fun x hx => (List.of_mem_zip hx).1
  refine (blames_links h hpairs).bind fun links _ => Blames.ok ?_
  refine ((hidentity.append hparent).append hproperties).append (warns_unbounded h ?_)
  intro x hx
  obtain ⟨y,hy,rfl⟩ := List.mem_map.mp hx
  exact hpairs y hy

end Classes

theorem duplicate_mem {seen : List Text} {names : List Ident} {name : Ident}
    (h : duplicate? seen names = some name) : name ∈ names := by
  induction names generalizing seen with
  | nil => simp [duplicate?] at h
  | cons first names ih =>
    rw [duplicate?] at h
    split at h
    · cases h
      exact List.mem_cons_self
    · exact List.mem_cons_of_mem _ (ih h)

theorem mem_of_memberNames {d : Document.Decl} {i : Ident} (h : i ∈ memberNames d) :
    i ∈ idents d := by
  cases d with
  | «class» c =>
    obtain ⟨p,hp,rfl⟩ := List.mem_map.mp h
    exact List.mem_append_right _ (List.mem_flatMap.mpr ⟨p,hp,by simp [idents]⟩)
  | enum e =>
    obtain ⟨v,hv,rfl⟩ := List.mem_map.mp h
    exact List.mem_append_right _ (List.mem_flatMap.mpr ⟨v,hv,by simp [idents]⟩)

theorem name_mem (d : Document.Decl) : d.name ∈ idents d := by
  cases d <;> simp [idents,Document.Decl.name]

theorem blames_names {seen : List Text} {decls : List Document.Decl}
    (h : ∀ i ∈ idents decls, place i.span) :
    Blames place (checkNames seen decls) fun r => Warns place r.2 := by
  induction decls generalizing seen with
  | nil => exact Blames.ok Warns.nil
  | cons d decls ih =>
    have hd : ∀ i ∈ idents d, place i.span := fun i hi => h i (List.mem_append_left _ hi)
    have hname := hd d.name (name_mem d)
    have hrest : Blames place (checkNames (d.name.text :: seen) decls) fun r => Warns place r.2 :=
      ih fun i hi => h i (List.mem_append_right _ hi)
    rw [checkNames]
    dsimp only
    split
    · exact Blames.fail hname
    · cases hmember : duplicate? [] (memberNames d) with
      | some member => exact Blames.fail (hd member (mem_of_memberNames (duplicate_mem hmember)))
      | none =>
        refine hrest.bind fun more hmore => Blames.ok (Warns.append ?_ hmore)
        cases Primitive.ofName? d.name.text with
        | none => exact Warns.nil
        | some _ => exact Warns.single hname

section Documents

variable (h : ∀ i ∈ idents doc.decls, place i.span)

include h

theorem place_class {c : Document.Class} (hc : c ∈ doc.classes) : ∀ i ∈ idents c, place i.span := by
  intro i hi
  obtain ⟨d,hd,hdc⟩ := List.mem_filterMap.mp hc
  cases d with
  | enum e => cases hdc
  | «class» c =>
    cases hdc
    exact h i (List.mem_flatMap.mpr ⟨_,hd,hi⟩)

theorem place_enum {e : Document.Enum} (he : e ∈ doc.enums) : ∀ i ∈ idents e, place i.span := by
  intro i hi
  obtain ⟨d,hd,hde⟩ := List.mem_filterMap.mp he
  cases d with
  | «class» c => cases hde
  | enum e =>
    cases hde
    exact h i (List.mem_flatMap.mpr ⟨_,hd,hi⟩)

theorem blames_parents {classes : List Class} :
    Blames place (checkParents doc classes) fun _ => True := by
  refine blames_forM fun c hc => ?_
  split
  · exact Blames.ok trivial
  · rename_i parent hparent
    split
    · exact Blames.fail (place_class h hc parent (by simp [idents,hparent]))
    · exact Blames.ok trivial

theorem blames_compile (path : Text) :
    Blames place (compile path doc) fun r => Warns place r.2 := by
  refine (blames_names h).bind fun names hnames => ?_
  refine (blames_collect fun e he => blames_enum (place_enum h he)).bind fun enums henums => ?_
  refine (blames_collect fun c hc => blames_class (place_class h hc)).bind
    fun classes hclasses => ?_
  refine (blames_parents h).bind fun _ _ => Blames.ok ?_
  exact (hnames.append henums).append hclasses

end Documents

end WireSchema.Schema
