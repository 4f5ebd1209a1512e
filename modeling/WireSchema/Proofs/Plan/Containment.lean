import WireSchema.Proofs.Plan.Layout
import Mathlib.Data.List.Perm.Subperm
import Mathlib.Logic.Relation
set_option autoImplicit false

/-!
Which classes have a layout: those that reach no class that contains itself. A planner marks a class
while it lays it out, and leaves the mark if it fails; the invariant is that a marked class is under
way or reaches a cycle. Layouts themselves are told by their class, so that no question can change
the answer to a later one.
-/

namespace WireSchema.Plan

open Relation (ReflTransGen TransGen)

/-- A class stands in another one, as its parent or as the type of a property that is not
removed. -/
inductive Contains (schema : Schema) (c d : Schema.Class) : Prop
  | parent {name : Text} (parent : c.parent = some name) (found : schema.class? name = some d)
  | property {p : Schema.Property} {name : Text} {member : Option Text}
      (property : p ∈ c.properties) (kept : p.removed = false)
      (type : p.type = .strong name member) (found : schema.class? name = some d)

/-- No class that is reached by containment contains itself. -/
def Acyclic (schema : Schema) (c : Schema.Class) : Prop :=
  ∀ d, ReflTransGen (Contains schema) c d → ¬ TransGen (Contains schema) d d

section Acyclic

variable {schema : Schema} {c d : Schema.Class}

theorem Contains.mem_classes (h : Contains schema c d) : d ∈ schema.classes := by
  cases h with
  | parent _ found => exact Schema.mem_classes_of_class? found
  | property _ _ _ found => exact Schema.mem_classes_of_class? found

theorem Acyclic.contained (h : Acyclic schema c) (hd : Contains schema c d) : Acyclic schema d :=
  fun e he => h e (.head hd he)

theorem not_acyclic_of_cycle (h : TransGen (Contains schema) c c) : ¬ Acyclic schema c :=
  fun hc => hc c .refl h

theorem acyclic_of_acc (h : Acc (fun d c => Contains schema c d) c) : Acyclic schema c := by
  induction h with
  | intro c _ ih =>
    intro d hd hcycle
    rcases Relation.ReflTransGen.cases_head hd with rfl | ⟨e,hce,hed⟩
    · obtain ⟨e,hce,hec⟩ := Relation.TransGen.head'_iff.mp hcycle
      exact ih e hce e .refl (.tail' hec hce)
    · exact ih e hce d hed hcycle

end Acyclic

section Laid

variable {schema : Schema} {supportsGc : Bool} {plan : Class}

theorem Laid.contained (h : Laid schema supportsGc plan)
    (htyped : ∀ p ∈ plan.decl.properties, p.Typed schema) {d : Schema.Class}
    (hd : Contains schema plan.decl d) :
    (∃ p, plan.parent = some p ∧ p.decl = d) ∨
      ∃ f ∈ plan.fields, ∃ p, f.shape = .nested p ∧ p.decl = d := by
  cases hd with
  | parent hname hfound =>
    have hparent := h.parent
    rw [hname,Option.bind_some,hfound] at hparent
    obtain ⟨p,hp,hdecl⟩ := Option.map_eq_some_iff.mp hparent
    exact .inl ⟨p,hp,hdecl⟩
  | @property p name member hp hkept htype hfound =>
    obtain ⟨decl,hdecl,hclass⟩ := Option.bind_eq_some_iff.mp hfound
    cases decl with
    | enum e => cases hclass
    | «class» c =>
      cases hclass
      have hproto : p.flag ≠ some .proto ∧ p.flag ≠ some .const := by
        rcases htyped p hp with ⟨-,hweak⟩ | ⟨-,hstorage⟩ | ⟨hproto,hconst,-,-⟩
        · rw [htype] at hweak
          cases hweak
        · simp [htype,Schema.storage?,Schema.enum?,hdecl,Schema.Decl.enum?] at hstorage
        · exact ⟨hproto,hconst⟩
      have hwritten : isWritten p = true := by simp [isWritten,hkept,hproto.2]
      have hhead : headOf schema plan.decl p ∈ plan.fields.map Field.head := by
        rw [h.heads]
        exact List.mem_map_of_mem (List.mem_filter.mpr ⟨hp,hwritten⟩)
      obtain ⟨f,hf,heq⟩ := List.mem_map.mp hhead
      have hshape := h.shapes f hf
      rw [heq] at hshape
      simp only [Shaped,headOf,hproto.1,if_false,htype,hdecl] at hshape
      obtain ⟨q,hq,hdecl⟩ := hshape
      exact .inr ⟨f,hf,q,hq,hdecl⟩

theorem acyclic_of_forall (htyped : ∀ c ∈ schema.classes, ∀ p ∈ c.properties, p.Typed schema)
    (h : plan.Forall (Laid schema supportsGc)) : Acyclic schema plan.decl := by
  refine acyclic_of_acc ?_
  induction h with
  | mk own _ _ hparent hnested =>
    refine ⟨_,fun d hd => ?_⟩
    rcases own.contained (htyped _ own.decl) hd with ⟨p,hp,rfl⟩ | ⟨f,hf,p,hp,rfl⟩
    · exact hparent p hp
    · exact hnested f hf p hp

theorem eq_of_heads {fields others : List (Field Class)}
    (hheads : fields.map Field.head = others.map Field.head)
    (hshapes : ∀ f ∈ fields, ∀ g ∈ others, f.head = g.head → f.shape = g.shape) :
    fields = others := by
  induction fields generalizing others with
  | nil =>
    cases others with
    | nil => rfl
    | cons g others => simp at hheads
  | cons f fields ih =>
    cases others with
    | nil => simp at hheads
    | cons g others =>
      simp only [List.map_cons,List.cons.injEq] at hheads
      have hfirst : f = g := by
        have hshape := hshapes f (by simp) g (by simp) hheads.1
        cases f
        cases g
        simp_all
      have hrest := ih hheads.2 fun f hf g hg => hshapes f (by simp [hf]) g (by simp [hg])
      rw [hfirst,hrest]

theorem Shaped.unique {p : Schema.Property} {shape other : Shape Class}
    (h : Shaped schema p shape) (h' : Shaped schema p other)
    (hnested : ∀ q r, shape = .nested q → other = .nested r → q.decl = r.decl → q = r) :
    shape = other := by
  unfold Shaped at h h'
  split at h
  · simp_all
  · rename_i hflag
    simp only [hflag,if_false] at h'
    cases htype : p.type with
    | weak name =>
      simp only [htype] at h h'
      obtain ⟨primitive,hprimitive,rfl⟩ := h
      obtain ⟨other,hother,rfl⟩ := h'
      rw [hprimitive] at hother
      cases hother
      rfl
    | strong name member =>
      simp only [htype] at h h'
      cases hdecl : schema.decl? name with
      | none => simp [hdecl] at h
      | some d =>
        cases d with
        | enum e => simp_all
        | «class» c =>
          simp only [hdecl] at h h'
          obtain ⟨q,rfl,hq⟩ := h
          obtain ⟨r,rfl,hr⟩ := h'
          rw [hnested q r rfl rfl (hq.trans hr.symm)]

theorem eq_of_forall {other : Class} (h : plan.Forall (Laid schema supportsGc))
    (h' : other.Forall (Laid schema supportsGc)) (hdecl : plan.decl = other.decl) :
    plan = other := by
  induction h generalizing other with
  | @mk plan own _ _ hparent hnested =>
    have own' := h'.own
    have hparents : plan.parent = other.parent := by
      have hmap : plan.parent.map Class.decl = other.parent.map Class.decl := by
        rw [own.parent,own'.parent,hdecl]
      cases hp : plan.parent with
      | none =>
        cases hq : other.parent with
        | none => rfl
        | some q => simp [hp,hq] at hmap
      | some p =>
        cases hq : other.parent with
        | none => simp [hp,hq] at hmap
        | some q =>
          simp only [hp,hq,Option.map_some,Option.some.injEq] at hmap
          rw [hparent p hp (h'.parent hq) hmap]
    have hfields : plan.fields = other.fields := by
      refine eq_of_heads (by rw [own.heads,own'.heads,hdecl]) ?_
      intro f hf g hg hhead
      have hg' := own'.shapes g hg
      rw [← hhead] at hg'
      refine (own.shapes f hf).unique hg' ?_
      intro q r hq hr heq
      exact hnested f hf q hq (h'.nested hg hr) heq
    have hrole : plan.role = other.role := by rw [own.role,own'.role,hdecl]
    have hfamily : plan.family = other.family := by rw [own.family,own'.family,hdecl]
    have hconsts : plan.consts = other.consts := by rw [own.consts,own'.consts,hdecl]
    cases plan
    cases other
    simp_all

end Laid

/-- A step of planning that keeps what is said of the memory, and that fails only for a reason and
never because it has used up its steps. -/
def Tries {α : Type} (inv : Layouts → Prop) (x : PlanM α) (why : Prop) : Prop :=
  ∀ layouts, inv layouts → inv (x layouts).2 ∧
    ∀ fault, (x layouts).1 = .error fault → fault.root ≠ .exhausted ∧ why

section Tries

variable {α β : Type} {inv : Layouts → Prop} {why : Prop}

theorem Tries.pure {a : α} : Tries inv (pure a) why := by
  intro layouts hinv
  refine ⟨hinv,?_⟩
  rintro _ ⟨⟩

theorem Tries.modify {f : Layouts → Layouts} (h : ∀ layouts, inv layouts → inv (f layouts)) :
    Tries inv (modify f : PlanM PUnit) why := by
  intro layouts hinv
  refine ⟨h layouts hinv,?_⟩
  rintro _ ⟨⟩

theorem Tries.bind {x : PlanM α} {f : α → PlanM β} (hx : Tries inv x why)
    (hf : ∀ a, Tries inv (f a) why) : Tries inv (x >>= f) why := by
  intro layouts hinv
  obtain ⟨hnext,hwhy⟩ := hx layouts hinv
  rw [Result.run_bind]
  cases hr : x layouts with
  | mk result next =>
    rw [hr] at hnext hwhy
    cases result with
    | error fault =>
      refine ⟨hnext,?_⟩
      rintro _ ⟨⟩
      exact hwhy fault rfl
    | ok a => exact hf a next hnext

theorem Tries.mapM {f : α → PlanM β} {xs : List α} (h : ∀ x ∈ xs, Tries inv (f x) why) :
    Tries inv (xs.mapM f) why := by
  induction xs with
  | nil => exact .pure
  | cons x xs ih =>
    rw [List.mapM_cons]
    refine (h x (by simp)).bind fun y => ?_
    exact (ih fun z hz => h z (by simp [hz])).bind fun ys => .pure

theorem Tries.tryCatch {x : PlanM α} {wording : Fault → Fault} (h : Tries inv x why)
    (hwording : ∀ fault, (wording fault).root = fault.root) :
    Tries inv (tryCatch x fun fault => MonadExcept.throw (wording fault)) why := by
  intro layouts hinv
  obtain ⟨hnext,hwhy⟩ := h layouts hinv
  rw [Result.run_tryCatch]
  cases hr : x layouts with
  | mk result next =>
    rw [hr] at hnext hwhy
    cases result with
    | error fault =>
      refine ⟨hnext,?_⟩
      rintro _ ⟨⟩
      rw [hwording]
      exact hwhy fault rfl
    | ok a =>
      refine ⟨hnext,?_⟩
      rintro _ ⟨⟩

end Tries

section Marks

variable {schema : Schema}

/-- The classes on the stack have been asked for, and every other class that has been asked for
without getting a layout cannot have one. -/
structure Marked (schema : Schema) (stack : List Schema.Class) (layouts : Layouts) : Prop where
  under : ∀ c ∈ stack, layouts.lookup c.name ≠ none
  failed : ∀ c ∈ schema.classes, layouts.lookup c.name = some none → c ∈ stack ∨ ¬ Acyclic schema c

theorem lookup_cons_ne {name other : Text} {entry : Option Class} {layouts : Layouts}
    (h : other ≠ name) : List.lookup other ((name,entry) :: layouts) = layouts.lookup other := by
  have hne : (other == name) = false := by simpa using h
  simp [List.lookup_cons,hne]

theorem lookup_cons_ne_none {name other : Text} {entry : Option Class} {layouts : Layouts}
    (h : layouts.lookup other ≠ none) : List.lookup other ((name,entry) :: layouts) ≠ none := by
  by_cases hname : other = name
  · simp [hname]
  · rwa [lookup_cons_ne hname]

theorem Marked.enter (hs : schema.Sound) {c : Schema.Class} (hc : c ∈ schema.classes)
    {stack : List Schema.Class} {layouts : Layouts} (h : Marked schema stack layouts) :
    Marked schema (c :: stack) ((c.name,none) :: layouts) := by
  refine ⟨?_,?_⟩
  · intro d hd
    rcases List.mem_cons.mp hd with rfl | hd
    · simp
    · exact lookup_cons_ne_none (h.under d hd)
  · intro d hd hmark
    by_cases hname : d.name = c.name
    · exact .inl (by simp [hs.class_eq hd hc hname])
    · rw [lookup_cons_ne hname] at hmark
      exact (h.failed d hd hmark).imp_left (List.mem_cons_of_mem c)

theorem Marked.remember {stack : List Schema.Class} {layouts : Layouts}
    (h : Marked schema stack layouts) (name : Text) (plan : Class) :
    Marked schema stack ((name,some plan) :: layouts) := by
  refine ⟨fun d hd => lookup_cons_ne_none (h.under d hd),?_⟩
  intro d hd hmark
  by_cases hname : d.name = name
  · simp [hname] at hmark
  · rw [lookup_cons_ne hname] at hmark
    exact h.failed d hd hmark

theorem Marked.leave {c : Schema.Class} {stack : List Schema.Class} {layouts : Layouts}
    (h : Marked schema (c :: stack) layouts)
    (hc : layouts.lookup c.name = some none → ¬ Acyclic schema c) :
    Marked schema stack layouts := by
  refine ⟨fun d hd => h.under d (List.mem_cons_of_mem c hd),?_⟩
  intro d hd hmark
  rcases h.failed d hd hmark with hstack | hcycle
  · rcases List.mem_cons.mp hstack with rfl | hstack
    · exact .inr (hc hmark)
    · exact .inl hstack
  · exact .inr hcycle

theorem shapeOf_tries {inv : Layouts → Prop} {why : Prop} {ask : Schema.Class → PlanM Class}
    {p : Schema.Property} (htyped : p.Typed schema)
    (hask : ∀ name member d, p.type = .strong name member → schema.class? name = some d →
      Tries inv (ask d) why) : Tries inv (shapeOf schema ask p) why := by
  unfold shapeOf
  rcases htyped with ⟨hflag,-⟩ | ⟨hflag,hstorage⟩ | ⟨hproto,-,htype,hfound⟩
  · simp only [hflag,if_true]
    exact .pure
  · simp only [hflag,if_false]
    cases htype : p.type with
    | weak name =>
      simp only [htype,Schema.storage?] at hstorage
      simp only [hstorage]
      exact .pure
    | strong name member =>
      simp only [htype,Schema.storage?,Schema.enum?] at hstorage
      cases hdecl : schema.decl? name with
      | none => simp [hdecl] at hstorage
      | some d =>
        cases d with
        | «class» c => simp [hdecl,Schema.Decl.enum?] at hstorage
        | enum e =>
          simp only [hdecl]
          exact .pure
  · simp only [hproto,if_false,htype,hfound]
    refine (hask _ _ _ htype ?_).bind fun _ => .pure
    simp [Schema.class?,hfound,Schema.Decl.class?]

theorem assemble_tries (supportsGc : Bool) {stack : List Schema.Class} {why : Prop}
    {ask : Schema.Class → PlanM Class} {c : Schema.Class}
    (htyped : ∀ p ∈ c.properties, p.Typed schema)
    (hask : ∀ d, Contains schema c d → Tries (Marked schema stack) (ask d) why)
    (parent : Option Class) :
    Tries (Marked schema stack) (assemble schema supportsGc ask c parent) why := by
  refine (Tries.mapM fun p hp => ?_).bind fun fields => ?_
  · obtain ⟨hmem,hwritten⟩ := List.mem_filter.mp hp
    simp only [isWritten,Bool.and_eq_true,Bool.not_eq_true'] at hwritten
    refine Tries.tryCatch ((shapeOf_tries (htyped p hmem) ?_).bind fun _ => .pure) fun _ => rfl
    intro name member d htype hfound
    exact hask d (.property hmem hwritten.1 htype hfound)
  · exact (Tries.modify fun _ h => h.remember _ _).bind fun _ => .pure

theorem parent_tries {inv : Layouts → Prop} {why : Prop} {ask : Schema.Class → PlanM Class}
    {c : Schema.Class} (hask : ∀ d, Contains schema c d → Tries inv (ask d) why) :
    Tries inv ((c.parent.bind schema.class?).mapM ask) why := by
  cases hp : c.parent.bind schema.class? with
  | none => exact .pure
  | some p =>
    obtain ⟨name,hname,hfound⟩ := Option.bind_eq_some_iff.mp hp
    exact (hask p (.parent hname hfound)).bind fun _ => .pure

/-- A class that has been asked for before. It has no layout if it is under way or on a cycle. -/
theorem asked_tries {supportsGc : Bool} {fuel : Nat} {c : Schema.Class} (hc : c ∈ schema.classes)
    {stack : List Schema.Class} (hstack : ∀ d ∈ stack, TransGen (Contains schema) d c)
    {layouts : Layouts} (hmarked : Marked schema stack layouts) {entry : Option Class}
    (hlookup : layouts.lookup c.name = some entry) :
    Marked schema stack (layout schema supportsGc (fuel + 1) c layouts).2 ∧
      ∀ fault, (layout schema supportsGc (fuel + 1) c layouts).1 = .error fault →
        fault.root ≠ .exhausted ∧ ¬ Acyclic schema c := by
  cases entry with
  | none =>
    rw [layout_marked hlookup]
    refine ⟨hmarked,?_⟩
    rintro _ ⟨⟩
    refine ⟨nofun,?_⟩
    rcases hmarked.failed c hc hlookup with hunder | hcycle
    · exact not_acyclic_of_cycle (hstack c hunder)
    · exact hcycle
  | some plan =>
    rw [layout_again hlookup]
    refine ⟨hmarked,?_⟩
    rintro _ ⟨⟩

/-- Every class that is under way contains the one that is asked for, so that a mark of a class
under way is met on a cycle only. There is a step left for each class that is not under way. -/
theorem layout_tries (hs : schema.Sound)
    (htyped : ∀ c ∈ schema.classes, ∀ p ∈ c.properties, p.Typed schema) (supportsGc : Bool)
    (fuel : Nat) {c : Schema.Class} (hc : c ∈ schema.classes) {stack : List Schema.Class}
    (hnodup : stack.Nodup) (hclasses : ∀ d ∈ stack, d ∈ schema.classes)
    (hfuel : schema.classes.length < fuel + stack.length)
    (hstack : ∀ d ∈ stack, TransGen (Contains schema) d c) :
    Tries (Marked schema stack) (layout schema supportsGc fuel c) (¬ Acyclic schema c) := by
  induction fuel generalizing c stack with
  | zero =>
    -- There would be more classes under way than there are.
    have hle := (hnodup.subperm hclasses).length_le
    omega
  | succ fuel ih =>
    intro layouts hmarked
    cases hlookup : layouts.lookup c.name with
    | some entry => exact asked_tries hc hstack hmarked hlookup
    | none =>
      have hnew : c ∉ stack := fun hunder => hmarked.under c hunder hlookup
      have hask : ∀ d, Contains schema c d → Tries (Marked schema (c :: stack))
          (layout schema supportsGc fuel d) (¬ Acyclic schema c) := by
        intro d hd layouts hlayouts
        have hunder : ∀ e ∈ c :: stack, e ∈ schema.classes ∧ TransGen (Contains schema) e d := by
          intro e he
          rcases List.mem_cons.mp he with rfl | he
          · exact ⟨hc,.single hd⟩
          · exact ⟨hclasses e he,.tail (hstack e he) hd⟩
        obtain ⟨hnext,hwhy⟩ := ih hd.mem_classes (List.nodup_cons.mpr ⟨hnew,hnodup⟩)
          (fun e he => (hunder e he).1) (by simp; omega) (fun e he => (hunder e he).2)
          layouts hlayouts
        refine ⟨hnext,fun fault hfault => ?_⟩
        obtain ⟨hreal,hcycle⟩ := hwhy fault hfault
        exact ⟨hreal,fun hacyclic => hcycle (hacyclic.contained hd)⟩
      have hrest := (parent_tries hask).bind (assemble_tries supportsGc (htyped c hc) hask)
      obtain ⟨hnext,hwhy⟩ := hrest _ (hmarked.enter hs hc)
      rw [← layout_first hlookup] at hnext hwhy
      refine ⟨hnext.leave fun hmark => ?_,hwhy⟩
      cases hresult : (layout schema supportsGc (fuel + 1) c layouts).1 with
      | error fault => exact (hwhy fault hresult).2
      | ok plan =>
        rw [lookup_layout hresult] at hmark
        cases hmark

end Marks

end WireSchema.Plan

namespace WireSchema.Planner

open Plan (Acyclic Marked)

variable {path : Text} {doc : Document} {schema : Schema} {ws : List Schema.Warning}
    {supportsGc : Bool}

/-- A planner of the schema that marks no class without a reason. -/
structure Honest (schema : Schema) (supportsGc : Bool) (p : Planner) : Prop where
  sound : p.Sound schema supportsGc
  marked : Marked schema [] p.layouts

theorem Honest.layout (h : Schema.compile path doc = .ok (schema,ws)) {p : Planner}
    (hp : p.Honest schema supportsGc) {c : Schema.Class} (hc : c ∈ schema.classes) :
    (p.layout c).2.Honest schema supportsGc ∧
      ∀ fault, (p.layout c).1 = .error fault →
        fault.root ≠ .exhausted ∧ ¬ Acyclic schema c := by
  have hs := Schema.sound_of_compile h
  have hnext := (hp.sound.layout hs hc).1
  obtain ⟨⟨-,rfl,rfl⟩,hmarked⟩ := hp
  obtain ⟨hnext',hwhy⟩ := Plan.layout_tries hs (fun c hc p hp => Schema.typed_of_compile h hc hp)
    p.supportsGc (p.schema.classes.length + 1) hc .nil (by simp) (by simp) (by simp) p.layouts
    hmarked
  exact ⟨⟨hnext,hnext'⟩,hwhy⟩

theorem honest_after (h : Schema.compile path doc = .ok (schema,ws)) (supportsGc : Bool)
    (calls : List Call) : ((new schema supportsGc).after calls).Honest schema supportsGc := by
  have hs := Schema.sound_of_compile h
  have hstep : ∀ (p : Planner) (q : Call), p.Honest schema supportsGc →
      (p.call q).Honest schema supportsGc := by
    intro p q hp
    refine ⟨hp.sound.call hs q,?_⟩
    cases q with
    | layout className =>
      simp only [Planner.call]
      split
      · exact hp.marked
      · rename_i c hc
        rw [hp.sound.schema] at hc
        exact (hp.layout h (Schema.mem_classes_of_class? hc)).1.marked
    | enum e => exact hp.marked
    | value m => exact hp.marked
    | eval terms => exact hp.marked
  exact after_keeps hstep calls ⟨sound_new,by simp [new],by simp [new]⟩

theorem Honest.layout_ok (h : Schema.compile path doc = .ok (schema,ws)) {p q : Planner}
    (hp : p.Honest schema supportsGc) (hq : q.Honest schema supportsGc) {c : Schema.Class}
    (hc : c ∈ schema.classes) {plan : Plan.Class} (hplan : (p.layout c).1 = .ok plan) :
    Acyclic schema c ∧ (q.layout c).1 = .ok plan := by
  have hs := Schema.sound_of_compile h
  obtain ⟨hdecl,hlaid⟩ := (hp.sound.layout hs hc).2 plan hplan
  have hacyclic : Acyclic schema c :=
    hdecl ▸ Plan.acyclic_of_forall (fun c hc p hp => Schema.typed_of_compile h hc hp) hlaid
  refine ⟨hacyclic,?_⟩
  cases hresult : (q.layout c).1 with
  | error fault => exact absurd hacyclic ((hq.layout h hc).2 fault hresult).2
  | ok other =>
    obtain ⟨hdecl',hlaid'⟩ := (hq.sound.layout hs hc).2 other hresult
    rw [Plan.eq_of_forall hlaid' hlaid (hdecl'.trans hdecl.symm)]

/-- A class gets a layout exactly if no class that is reached from it contains itself, and a fault
otherwise, which is never that the planner has used up its steps. The layout is the one that a fresh
planner gives, whatever was asked before. -/
theorem layout_iff_acyclic (h : Schema.compile path doc = .ok (schema,ws)) (supportsGc : Bool)
    (calls : List Call) {c : Schema.Class} (hc : c ∈ schema.classes) :
    ((∃ plan, (((new schema supportsGc).after calls).layout c).1 = .ok plan) ↔ Acyclic schema c) ∧
    ((∃ fault, (((new schema supportsGc).after calls).layout c).1 = .error fault) ↔
      ¬ Acyclic schema c) ∧
    (∀ fault, (((new schema supportsGc).after calls).layout c).1 = .error fault →
      fault.root ≠ .exhausted) ∧
    ∀ plan, (((new schema supportsGc).after calls).layout c).1 = .ok plan →
      ((new schema supportsGc).layout c).1 = .ok plan := by
  have hp := honest_after h supportsGc calls
  have hok : ∀ plan, (((new schema supportsGc).after calls).layout c).1 = .ok plan →
      Acyclic schema c ∧ ((new schema supportsGc).layout c).1 = .ok plan :=
    fun _ => hp.layout_ok h (honest_after h supportsGc []) hc
  have herror := (hp.layout h hc).2
  refine ⟨?_,?_,fun fault hfault => (herror fault hfault).1,fun plan hplan => (hok plan hplan).2⟩
  · constructor
    · rintro ⟨plan,hplan⟩
      exact (hok plan hplan).1
    · intro hacyclic
      cases hresult : (((new schema supportsGc).after calls).layout c).1 with
      | ok plan => exact ⟨plan,rfl⟩
      | error fault => exact absurd hacyclic (herror fault hresult).2
  · constructor
    · rintro ⟨fault,hfault⟩
      exact (herror fault hfault).2
    · intro hcycle
      cases hresult : (((new schema supportsGc).after calls).layout c).1 with
      | ok plan => exact absurd (hok plan hresult).1 hcycle
      | error fault => exact ⟨fault,rfl⟩

/-- Two classes that stand in each other, one that has them in it, and one apart from them. -/
def knotDocument : Document where
  span := ⟨0,0⟩
  directives := []
  decls := [("Outer","Left"),("Left","Right"),("Right","Left"),("Leaf","uint")].map
    fun (name,type) => .class ⟨⟨0,0⟩,⟨name,0⟩,none,none,none,
      [⟨⟨0,0⟩,⟨"field",0⟩,⟨type,0⟩,none,none,[],none,none⟩]⟩

def knotSchema : Schema :=
  ((Schema.compile [] knotDocument).toOption.map Prod.fst).getD default

/-- Of the classes of the knot, only the one apart has a layout, also after the others have
failed. -/
theorem knot_layouts : knotSchema.classes.map Schema.Class.name = ["Outer","Left","Right","Leaf"] ∧
    ∀ c ∈ knotSchema.classes, Acyclic knotSchema c ↔ c.name = "Leaf" := by
  obtain ⟨ws,h⟩ : ∃ ws, Schema.compile [] knotDocument = .ok (knotSchema,ws) := by
    obtain ⟨result,h⟩ : ∃ result, Schema.compile [] knotDocument = .ok result :=
      Result.exists_of_isOk (by decide +kernel)
    exact ⟨result.2,by simp [knotSchema,h,Except.toOption]⟩
  refine ⟨by decide +kernel,fun c hc => ?_⟩
  rw [← (layout_iff_acyclic h false [.layout "Right",.layout "Leaf",.layout "Outer"] hc).1]
  have hrun : ∀ c ∈ knotSchema.classes, (((new knotSchema false).after
      [.layout "Right",.layout "Leaf",.layout "Outer"]).layout c).1.isOk =
        decide (c.name = "Leaf") := by
    decide +kernel
  have hc := hrun c hc
  cases hresult : (((new knotSchema false).after
      [.layout "Right",.layout "Leaf",.layout "Outer"]).layout c).1 with
  | ok plan =>
    rw [hresult] at hc
    simpa [Except.isOk,Except.toBool] using hc
  | error fault =>
    rw [hresult] at hc
    simpa [Except.isOk,Except.toBool] using hc

end WireSchema.Planner
