import WireSchema.Proofs.Plan.Calls
import WireSchema.Proofs.Schema.Compile
set_option autoImplicit false

namespace WireSchema.Plan

/-- A property of a layout, of the layouts of its ancestors, and of those in the fields of all of
them. -/
inductive Class.Forall (P : Class → Prop) : Class → Prop
  | mk {plan : Class} (own : P plan) (parent : ∀ p, plan.parent = some p → Forall P p)
      (nested : ∀ f ∈ plan.fields, ∀ p, f.shape = .nested p → Forall P p) : Forall P plan

theorem Class.Forall.own {P : Class → Prop} {plan : Class} (h : plan.Forall P) : P plan := by
  cases h with
  | mk own => exact own

theorem Class.Forall.parent {P : Class → Prop} {plan p : Class} (h : plan.Forall P)
    (hp : plan.parent = some p) : p.Forall P := by
  cases h with
  | mk _ parent => exact parent p hp

theorem Class.Forall.nested {P : Class → Prop} {plan p : Class} (h : plan.Forall P)
    {f : Field Class} (hf : f ∈ plan.fields) (hp : f.shape = .nested p) : p.Forall P := by
  cases h with
  | mk _ _ nested => exact nested f hf p hp

theorem Class.Forall.and {P Q : Class → Prop} {plan : Class} (hP : plan.Forall P)
    (hQ : plan.Forall Q) : plan.Forall fun c => P c ∧ Q c := by
  induction hP with
  | mk own _ _ hparent hnested =>
    refine ⟨⟨own,hQ.own⟩,?_,?_⟩
    · exact fun p hp => hparent p hp (hQ.parent hp)
    · exact fun f hf p hp => hnested f hf p hp (hQ.nested hf hp)

theorem Class.Forall.imp {P Q : Class → Prop} (hPQ : ∀ plan, P plan → Q plan) {plan : Class}
    (h : plan.Forall P) : plan.Forall Q := by
  induction h with
  | mk own _ _ hparent hnested => exact ⟨hPQ _ own,hparent,hnested⟩

def Shaped (schema : Schema) (p : Schema.Property) (shape : Shape Class) : Prop :=
  if p.flag = some .proto then shape = .external p.type.identifier
  else match p.type with
    | .weak name => ∃ primitive, Primitive.ofName? name = some primitive ∧
        shape = numbers p primitive
    | .strong decl _ => match schema.decl? decl with
      | some (.enum e) => shape = numbers p (carrierOf e.storage)
      | some (.class c) => ∃ plan, shape = .nested plan ∧ plan.decl = c
      | none => False

/-- How a layout follows from the class that it is of. -/
structure Laid (schema : Schema) (supportsGc : Bool) (plan : Class) : Prop where
  decl : plan.decl ∈ schema.classes
  parent : plan.parent.map Class.decl = plan.decl.parent.bind schema.class?
  role : plan.role = roleOf plan.decl
  family : plan.family = familyOf supportsGc plan.decl
  heads : plan.fields.map Field.head =
    (plan.decl.properties.filter isWritten).map (headOf schema plan.decl)
  shapes : ∀ f ∈ plan.fields, Shaped schema f.head.property f.shape
  consts : plan.consts = plan.decl.properties.filter fun p => !p.removed && p.flag == some .const

def Layouts.Sound (schema : Schema) (supportsGc : Bool) (layouts : Layouts) : Prop :=
  ∀ name plan, (name,some plan) ∈ layouts →
    plan.decl.name = name ∧ plan.Forall (Laid schema supportsGc)

/-- A step of planning that keeps what is remembered sound, and whose result is as said if there
is one. -/
def Keeps {α : Type} (inv : Layouts → Prop) (x : PlanM α) (post : α → Prop) : Prop :=
  ∀ layouts, inv layouts → inv (x layouts).2 ∧ ∀ a, (x layouts).1 = .ok a → post a

section Keeps

variable {α β : Type} {inv : Layouts → Prop}

theorem Keeps.pure {a : α} {post : α → Prop} (h : post a) : Keeps inv (pure a) post := by
  intro layouts hinv
  refine ⟨hinv,?_⟩
  intro b hb
  cases hb
  exact h

theorem Keeps.throw {fault : Fault} {post : α → Prop} : Keeps inv (throw fault) post := by
  intro layouts hinv
  refine ⟨hinv,?_⟩
  intro b hb
  cases hb

theorem Keeps.modify {f : Layouts → Layouts} (h : ∀ layouts, inv layouts → inv (f layouts)) :
    Keeps inv (modify f : PlanM PUnit) fun _ => True := by
  intro layouts hinv
  exact ⟨h layouts hinv,fun _ _ => trivial⟩

theorem Keeps.get {f : Layouts → PlanM α} {post : α → Prop}
    (h : ∀ layouts, inv layouts → Keeps inv (f layouts) post) : Keeps inv (get >>= f) post :=
  fun layouts hinv => h layouts hinv layouts hinv

theorem Keeps.bind {x : PlanM α} {f : α → PlanM β} {mid : α → Prop} {post : β → Prop}
    (hx : Keeps inv x mid) (hf : ∀ a, mid a → Keeps inv (f a) post) : Keeps inv (x >>= f) post := by
  intro layouts hinv
  obtain ⟨hnext,hmid⟩ := hx layouts hinv
  rw [Result.run_bind]
  cases hr : x layouts with
  | mk result next =>
    rw [hr] at hnext hmid
    cases result with
    | error fault => exact ⟨hnext,fun _ h => by cases h⟩
    | ok a => exact hf a (hmid a rfl) next hnext

theorem Keeps.mapM {f : α → PlanM β} {post : α → β → Prop} {xs : List α}
    (h : ∀ x ∈ xs, Keeps inv (f x) (post x)) : Keeps inv (xs.mapM f) (List.Forall₂ post xs) := by
  induction xs with
  | nil => exact .pure .nil
  | cons x xs ih =>
    rw [List.mapM_cons]
    refine (h x (by simp)).bind fun y hy => ?_
    refine (ih fun z hz => h z (by simp [hz])).bind fun ys hys => ?_
    exact .pure (.cons hy hys)

theorem Keeps.tryCatch {x : PlanM α} {post : α → Prop} {wording : Fault → Fault}
    (h : Keeps inv x post) :
    Keeps inv (tryCatch x fun fault => MonadExcept.throw (wording fault)) post := by
  intro layouts hinv
  obtain ⟨hnext,hpost⟩ := h layouts hinv
  rw [Result.run_tryCatch]
  cases hr : x layouts with
  | mk result next =>
    rw [hr] at hnext hpost
    cases result with
    | error fault => exact ⟨hnext,fun _ h => by cases h⟩
    | ok a => exact ⟨hnext,fun b hb => hpost b hb⟩

end Keeps

section Layout

variable {schema : Schema} {supportsGc : Bool}

theorem shapeOf_keeps {inv : Layouts → Prop} {ask : Schema.Class → PlanM Class}
    {post : Class → Prop}
    (hask : ∀ c ∈ schema.classes, Keeps inv (ask c) fun plan => plan.decl = c ∧ post plan)
    (p : Schema.Property) :
    Keeps inv (shapeOf schema ask p) fun shape =>
      Shaped schema p shape ∧ ∀ plan, shape = .nested plan → post plan := by
  have hnumbers : ∀ carrier plan, numbers p carrier = .nested plan → post plan := by
    intro carrier plan h
    unfold numbers at h
    split at h
    · cases h
    · split at h <;> cases h
  unfold shapeOf
  split
  · rename_i hflag
    exact .pure ⟨by simp [Shaped,hflag],fun _ h => by cases h⟩
  · rename_i hflag
    cases htype : p.type with
    | weak name =>
      cases hprimitive : Primitive.ofName? name with
      | none => simp only [hprimitive]; exact .throw
      | some primitive =>
        simp only [hprimitive]
        exact .pure ⟨by simp [Shaped,hflag,htype,hprimitive],hnumbers primitive⟩
    | strong decl member =>
      cases hdecl : schema.decl? decl with
      | none => simp only [hdecl]; exact .throw
      | some d =>
        cases d with
        | enum e =>
          simp only [hdecl]
          exact .pure ⟨by simp [Shaped,hflag,htype,hdecl],hnumbers _⟩
        | «class» c =>
          simp only [hdecl]
          have hc : c ∈ schema.classes :=
            List.mem_filterMap.mpr ⟨_,List.mem_of_find?_eq_some hdecl,rfl⟩
          refine (hask c hc).bind fun plan hplan => ?_
          refine .pure ⟨by simp [Shaped,hflag,htype,hdecl,hplan.1],?_⟩
          intro other h
          cases h
          exact hplan.2

theorem fieldOf_keeps {inv : Layouts → Prop} {ask : Schema.Class → PlanM Class}
    {post : Class → Prop}
    (hask : ∀ c ∈ schema.classes, Keeps inv (ask c) fun plan => plan.decl = c ∧ post plan)
    (c : Schema.Class) (p : Schema.Property) :
    Keeps inv (fieldOf schema ask c p) fun f =>
      f.head = headOf schema c p ∧ Shaped schema p f.shape ∧
        ∀ plan, f.shape = .nested plan → post plan := by
  refine Keeps.tryCatch ?_
  refine (shapeOf_keeps hask p).bind fun shape hshape => ?_
  exact .pure ⟨rfl,hshape⟩

theorem Layouts.Sound.cons {layouts : Layouts} (h : Layouts.Sound schema supportsGc layouts)
    {name : Text} {entry : Option Class}
    (he : ∀ plan, entry = some plan →
      plan.decl.name = name ∧ plan.Forall (Laid schema supportsGc)) :
    Layouts.Sound schema supportsGc ((name,entry) :: layouts) := by
  intro other plan hmem
  rcases List.mem_cons.mp hmem with heq | hmem
  · cases heq
    exact he plan rfl
  · exact h other plan hmem

theorem forall_laid {c : Schema.Class} (hc : c ∈ schema.classes) {parent : Option Class}
    (hparent : parent.map Class.decl = c.parent.bind schema.class?)
    (hlaid : ∀ p, parent = some p → p.Forall (Laid schema supportsGc))
    {fields : List (Field Class)}
    (hf : List.Forall₂ (fun p f => f.head = headOf schema c p ∧ Shaped schema p f.shape ∧
      ∀ plan, f.shape = .nested plan → plan.Forall (Laid schema supportsGc))
      (c.properties.filter isWritten) fields) :
    Class.Forall (Laid schema supportsGc) {
      decl := c
      parent
      role := roleOf c
      family := familyOf supportsGc c
      fields
      consts := c.properties.filter fun p => !p.removed && p.flag == some .const } := by
  have hmem : ∀ f ∈ fields, ∃ p, f.head = headOf schema c p ∧ Shaped schema p f.shape ∧
      ∀ plan, f.shape = .nested plan → plan.Forall (Laid schema supportsGc) := by
    intro f hmem
    obtain ⟨p,-,hp⟩ := exists_of_forall₂ hf hmem
    exact ⟨p,hp⟩
  have hheads : fields.map Field.head =
      (c.properties.filter isWritten).map (headOf schema c) := by
    clear hmem
    generalize c.properties.filter isWritten = written at hf
    induction hf with
    | nil => rfl
    | cons hp _ ih => simp [hp.1,ih]
  refine ⟨⟨hc,hparent,rfl,rfl,hheads,?_,rfl⟩,hlaid,?_⟩
  · intro f hf
    obtain ⟨p,hhead,hshape,-⟩ := hmem f hf
    rw [hhead]
    exact hshape
  · intro f hf
    obtain ⟨p,-,-,hnested⟩ := hmem f hf
    exact hnested

theorem assemble_keeps {ask : Schema.Class → PlanM Class}
    (hask : ∀ c ∈ schema.classes, Keeps (Layouts.Sound schema supportsGc) (ask c) fun plan =>
      plan.decl = c ∧ plan.Forall (Laid schema supportsGc))
    {c : Schema.Class} (hc : c ∈ schema.classes) {parent : Option Class}
    (hparent : parent.map Class.decl = c.parent.bind schema.class?)
    (hlaid : ∀ p, parent = some p → p.Forall (Laid schema supportsGc)) :
    Keeps (Layouts.Sound schema supportsGc) (assemble schema supportsGc ask c parent) fun plan =>
      plan.decl = c ∧ plan.Forall (Laid schema supportsGc) := by
  refine (Keeps.mapM fun p _ => fieldOf_keeps hask c p).bind fun fields hf => ?_
  have hplan := forall_laid hc hparent hlaid hf
  refine (Keeps.modify fun _ h => h.cons ?_).bind fun _ _ => .pure ⟨rfl,hplan⟩
  rintro plan ⟨⟩
  exact ⟨rfl,hplan⟩

theorem layout_keeps (hs : schema.Sound) (fuel : Nat) {c : Schema.Class}
    (hc : c ∈ schema.classes) :
    Keeps (Layouts.Sound schema supportsGc) (layout schema supportsGc fuel c) fun plan =>
      plan.decl = c ∧ plan.Forall (Laid schema supportsGc) := by
  induction fuel generalizing c with
  | zero => exact .throw
  | succ fuel ih =>
    rw [layout]
    refine .get fun layouts hinv => ?_
    split
    · exact .throw
    · -- What is remembered is the layout of a class of that name, and there is no other.
      rename_i plan hlookup
      obtain ⟨hname,hplan⟩ := hinv c.name plan (mem_of_lookup hlookup)
      refine .pure ⟨?_,hplan⟩
      exact hs.class_eq hplan.own.decl hc hname
    · refine (Keeps.modify fun _ h => h.cons (by simp)).bind fun _ _ => ?_
      have hask : ∀ c ∈ schema.classes, Keeps (Layouts.Sound schema supportsGc)
          (layout schema supportsGc fuel c) fun plan =>
            plan.decl = c ∧ plan.Forall (Laid schema supportsGc) := fun c hc => ih hc
      cases hp : c.parent.bind schema.class? with
      | none => exact assemble_keeps hask hc (by simp [hp]) (by simp)
      | some p =>
        have hpc : p ∈ schema.classes := by
          obtain ⟨name,-,hclass⟩ := Option.bind_eq_some_iff.mp hp
          exact Schema.mem_classes_of_class? hclass
        have hsome : Keeps (Layouts.Sound schema supportsGc)
            (some <$> layout schema supportsGc fuel p) fun parent => ∃ q,
              parent = some q ∧ q.decl = p ∧ q.Forall (Laid schema supportsGc) :=
          (hask p hpc).bind fun plan hplan => .pure ⟨plan,rfl,hplan⟩
        refine hsome.bind fun parent ⟨q,hparent,hdecl,hlaid⟩ => ?_
        exact assemble_keeps hask hc (by simp [hparent,hdecl,hp]) (by simp [hparent,hlaid])

theorem run_bind_ok {α β : Type} {x : PlanM α} {f : α → PlanM β} {layouts : Layouts} {b : β}
    (h : ((x >>= f) layouts).1 = .ok b) :
    ∃ a next, x layouts = (.ok a,next) ∧ (x >>= f) layouts = f a next := by
  rw [Result.run_bind] at h ⊢
  cases hr : x layouts with
  | mk result next =>
    rw [hr] at h
    cases result with
    | error fault => cases h
    | ok a => exact ⟨a,next,rfl,rfl⟩

theorem lookup_layout {fuel : Nat} {c : Schema.Class} {layouts : Layouts} {plan : Class}
    (h : (layout schema supportsGc fuel c layouts).1 = .ok plan) :
    (layout schema supportsGc fuel c layouts).2.lookup c.name = some (some plan) := by
  cases fuel with
  | zero => cases h
  | succ fuel =>
    rw [layout] at h ⊢
    obtain ⟨seen,next,hget,heq⟩ := run_bind_ok h
    cases hget
    rw [heq] at h ⊢
    cases hlookup : layouts.lookup c.name with
    | some entry =>
      cases entry with
      | none =>
        simp only [hlookup] at h
        cases h
      | some found =>
        simp only [hlookup] at h ⊢
        cases h
        exact hlookup
    | none =>
      simp only [hlookup] at h ⊢
      obtain ⟨_,next,-,heq⟩ := run_bind_ok h
      rw [heq] at h ⊢
      obtain ⟨parent,next,-,heq⟩ := run_bind_ok h
      rw [heq,assemble] at h ⊢
      obtain ⟨fields,next,-,heq⟩ := run_bind_ok h
      rw [heq] at h ⊢
      cases h
      exact List.lookup_cons_self

section Step

variable {fuel : Nat} {c : Schema.Class} {layouts : Layouts}

theorem layout_again {plan : Class} (h : layouts.lookup c.name = some (some plan)) :
    layout schema supportsGc (fuel + 1) c layouts = (.ok plan,layouts) := by
  have hget : (get : PlanM Layouts) layouts = (.ok layouts,layouts) := rfl
  rw [layout,Result.run_bind,hget]
  simp only [h]
  rfl

theorem layout_marked (h : layouts.lookup c.name = some none) :
    layout schema supportsGc (fuel + 1) c layouts = (.error (.containsItself c.name),layouts) := by
  have hget : (get : PlanM Layouts) layouts = (.ok layouts,layouts) := rfl
  rw [layout,Result.run_bind,hget]
  simp only [h]
  rfl

theorem layout_first (h : layouts.lookup c.name = none) :
    layout schema supportsGc (fuel + 1) c layouts =
      ((c.parent.bind schema.class?).mapM (layout schema supportsGc fuel) >>=
        assemble schema supportsGc (layout schema supportsGc fuel) c)
          ((c.name,none) :: layouts) := by
  have hget : (get : PlanM Layouts) layouts = (.ok layouts,layouts) := rfl
  rw [layout,Result.run_bind,hget]
  simp only [h]
  rfl

end Step

end Layout

end WireSchema.Plan

namespace WireSchema.Planner

/-- What every question to a planner of a schema keeps. -/
structure Sound (schema : Schema) (supportsGc : Bool) (p : Planner) : Prop where
  layouts : Plan.Layouts.Sound schema supportsGc p.layouts
  schema : p.schema = schema
  supportsGc : p.supportsGc = supportsGc

variable {schema : Schema} {supportsGc : Bool} {p : Planner}

theorem sound_new : (new schema supportsGc).Sound schema supportsGc :=
  ⟨fun _ _ h => absurd h List.not_mem_nil,rfl,rfl⟩

theorem Sound.layout (hp : p.Sound schema supportsGc) (hs : schema.Sound) {c : Schema.Class}
    (hc : c ∈ schema.classes) :
    (p.layout c).2.Sound schema supportsGc ∧ ∀ plan, (p.layout c).1 = .ok plan →
      plan.decl = c ∧ plan.Forall (Plan.Laid schema supportsGc) := by
  obtain ⟨hlayouts,rfl,rfl⟩ := hp
  obtain ⟨hnext,hplan⟩ := Plan.layout_keeps hs (p.schema.classes.length + 1) hc p.layouts hlayouts
  exact ⟨⟨hnext,rfl,rfl⟩,hplan⟩

theorem Sound.call (hp : p.Sound schema supportsGc) (hs : schema.Sound) (q : Call) :
    (p.call q).Sound schema supportsGc := by
  cases q with
  | layout className =>
    simp only [Planner.call]
    split
    · exact hp
    · rename_i c hc
      rw [hp.schema] at hc
      exact (hp.layout hs (Schema.mem_classes_of_class? hc)).1
  | enum e => exact ⟨hp.layouts,hp.schema,hp.supportsGc⟩
  | value m => exact ⟨hp.layouts,hp.schema,hp.supportsGc⟩
  | eval terms => exact ⟨hp.layouts,hp.schema,hp.supportsGc⟩

theorem sound_after (hs : schema.Sound) (calls : List Call) :
    ((new schema supportsGc).after calls).Sound schema supportsGc :=
  after_keeps (fun _ q h => h.call hs q) calls sound_new

theorem layout_layout {c : Schema.Class} {plan : Plan.Class} (h : (p.layout c).1 = .ok plan) :
    (p.layout c).2.layout c = (.ok plan,(p.layout c).2) := by
  have hrun : ∀ q : Planner, q.layout c = ((Plan.layout q.schema q.supportsGc
      (q.schema.classes.length + 1) c q.layouts).1,{ q with
        layouts := (Plan.layout q.schema q.supportsGc (q.schema.classes.length + 1) c
          q.layouts).2 }) := fun _ => rfl
  rw [hrun p] at h ⊢
  rw [hrun,Plan.layout_again (Plan.lookup_layout h)]

end WireSchema.Planner
