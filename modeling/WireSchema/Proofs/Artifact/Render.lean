import WireSchema.Artifact.Class
import WireSchema.Proofs.Basic
set_option autoImplicit false

namespace WireSchema.Artifact

/-- A rendering succeeds with a result, whatever has been imported before. -/
def Renders {α : Type} (x : Render α) (a : α) : Prop := ∀ imports, (x imports).1 = .ok a

section Renders

variable {α β : Type} {x : Render α} {f : α → Render β} {a : α} {b : β}

theorem bind_rendered {imports : Imports} (h : ((x >>= f) imports).1 = .ok b) :
    ∃ a next, (x imports).1 = .ok a ∧ (f a next).1 = .ok b := by
  rw [Result.run_bind] at h
  cases hx : x imports with
  | mk result next =>
    rw [hx] at h
    cases result with
    | error fault => cases h
    | ok a => exact ⟨a,next,rfl,h⟩

theorem noted_rendered {c : Prop} [Decidable c] {note : Render Unit} {imports : Imports}
    (h : ((if c then note >>= fun _ => x else x) imports).1 = .ok a) :
    ∃ next, (x next).1 = .ok a := by
  split at h
  · obtain ⟨_,next,-,hx⟩ := bind_rendered h
    exact ⟨next,hx⟩
  · exact ⟨imports,h⟩

theorem mapM_rendered {xs : List α} {f : α → Render β} {ys : List β} {imports : Imports}
    (h : ((xs.mapM f) imports).1 = .ok ys) :
    List.Forall₂ (fun x y => ∃ before, (f x before).1 = .ok y) xs ys := by
  induction xs generalizing ys imports with
  | nil =>
    cases h
    exact .nil
  | cons x xs ih =>
    rw [List.mapM_cons] at h
    obtain ⟨y,next,hy,hrest⟩ := bind_rendered h
    obtain ⟨rest,last,hys,heq⟩ := bind_rendered hrest
    cases heq
    exact .cons ⟨_,hy⟩ (ih hys)

theorem Renders.eq {a' : α} (h : Renders x a) (h' : Renders x a') : a = a' := by
  have hresult := h []
  rw [h' []] at hresult
  cases hresult
  rfl

theorem renders_pure (a : α) : Renders (pure a) a := fun _ => rfl

theorem renders_bind (hx : Renders x a) (hf : Renders (f a) b) : Renders (x >>= f) b := by
  intro imports
  have hfirst := hx imports
  rw [Result.run_bind]
  cases h : x imports with
  | mk result next =>
    rw [h] at hfirst
    cases hfirst
    exact hf next

theorem renders_mapM {xs : List α} {f : α → Render β} {ys : List β}
    (h : List.Forall₂ (fun x y => Renders (f x) y) xs ys) : Renders (xs.mapM f) ys := by
  induction h with
  | nil => exact renders_pure []
  | cons hx _ ih =>
    rw [List.mapM_cons]
    exact renders_bind hx (renders_bind ih (renders_pure _))

end Renders

theorem during_rendered {α : Type} {wrap : Fault → Fault} {x : Render α} {imports : Imports} {a : α}
    (h : (during wrap x imports).1 = .ok a) : (x imports).1 = .ok a := by
  unfold during at h
  rw [Result.run_tryCatch] at h
  cases hx : x imports with
  | mk result next =>
    rw [hx] at h
    cases result with
    | error fault => cases h
    | ok a => exact h

/-- The three ways of a tag: a literal, the number of what has been removed, or what it refers to,
converted unless it is of the type of tags. -/
theorem tagExpr_cases {b : Batch} {identity : Option Reference} {type : Text} {imports : Imports}
    {expr : Expr} (h : (tagExpr b identity type imports).1 = .ok expr) :
    (∃ name value, identity = some (.weak name) ∧ Literal.parse? name = some ⟨value,false⟩ ∧
      expr = .one (.numeral (numeral .uint false value))) ∨
    ∃ decl member, identity = some (.strong decl member) ∧
      ((isRemoved b.schema (.strong decl member) = true ∧ ∃ bits,
        Plan.evalOnce b.schema [.strong decl member] = some bits ∧
        expr = .conversion type (.numeral
          (numeral (((b.schema.enum? decl).map Schema.Enum.storage).getD .uint) false bits))) ∨
      isRemoved b.schema (.strong decl member) = false ∧ ∃ ref before,
        (operand b (.strong decl member) before).1 = .ok ref ∧
        (expr = .conversion type ref ∨
          expr = .one ref ∧ ∃ e, b.schema.enum? decl = some e ∧ b.enumTypeName e.name = type)) := by
  unfold tagExpr at h
  split at h
  · cases h
  · rename_i name
    cases hparse : Literal.parse? name with
    | none =>
      simp only [hparse] at h
      cases h
    | some l =>
      obtain ⟨value,negative⟩ := l
      simp only [hparse] at h
      cases negative with
      | true => cases h
      | false =>
        cases h
        exact .inl ⟨name,value,rfl,hparse,rfl⟩
  · rename_i decl member
    refine .inr ⟨decl,member,rfl,?_⟩
    split at h
    · rename_i hremoved
      cases heval : Plan.evalOnce b.schema [.strong decl member] with
      | none =>
        simp only [heval] at h
        cases h
      | some bits =>
        simp only [heval] at h
        cases henum : b.schema.enum? decl with
        | none =>
          simp only [henum] at h
          cases h
          exact .inl ⟨hremoved,bits,rfl,rfl⟩
        | some e =>
          simp only [henum] at h
          cases h
          exact .inl ⟨hremoved,bits,rfl,rfl⟩
    · rename_i hkept
      obtain ⟨ref,_,href,h⟩ := bind_rendered h
      refine .inr ⟨by simpa using hkept,ref,_,href,?_⟩
      cases henum : b.schema.enum? decl with
      | none =>
        simp only [henum] at h
        cases h
        exact .inl rfl
      | some e =>
        simp only [henum] at h
        cases h
        split
        · rename_i htype
          exact .inr ⟨rfl,e,rfl,by simpa using htype⟩
        · exact .inl rfl

theorem refused_rendered {α : Type} {c : Prop} [Decidable c] {fault : Fault} {a a' : α}
    {imports : Imports} (h : ((if c then pure a else throw fault : Render α) imports).1 = .ok a') :
    a = a' := by
  split at h
  · exact Except.ok.inj h
  · cases h

/-- A field starts with a new message or record, or with the value of its default, which only a
field of one number can have. -/
theorem fieldSetup_cases [Casing] {b : Batch} {f : PlanField} {imports : Imports}
    {steps : List Setup}
    (h : (fieldSetup b f imports).1 = .ok steps) {step : Setup} (hstep : step ∈ steps) :
    (∃ type, step = .message (slotOf f) type) ∨ (∃ name, step = .record (slotOf f) name) ∨
      ∃ expr type carrier before, step = .value (slotOf f) expr ∧
        (valueExpr b f.head.property.default type carrier before).1 = .ok expr := by
  unfold fieldSetup at h
  cases hshape : f.shape with
  | scalar carrier =>
    simp only [hshape] at h
    obtain ⟨_,_,hfresh,h⟩ := bind_rendered h
    cases hfresh
    split at h
    · cases h
      cases hstep
    · obtain ⟨type,_,-,h⟩ := bind_rendered h
      obtain ⟨_,_,hexpr,h⟩ := bind_rendered h
      cases h
      rw [List.nil_append,List.mem_singleton] at hstep
      exact .inr (.inr ⟨_,type,carrier,_,hstep,during_rendered hexpr⟩)
  | array carrier count =>
    simp only [hshape] at h
    obtain ⟨_,_,hfresh,h⟩ := bind_rendered h
    cases hfresh
    obtain rfl := refused_rendered h
    cases hstep
  | slice carrier =>
    simp only [hshape] at h
    obtain ⟨_,_,hfresh,h⟩ := bind_rendered h
    cases hfresh
    obtain rfl := refused_rendered h
    cases hstep
  | external type =>
    simp only [hshape] at h
    obtain ⟨_,_,-,h⟩ := bind_rendered h
    obtain ⟨_,_,hfresh,h⟩ := bind_rendered h
    cases hfresh
    obtain rfl := refused_rendered h
    exact .inl ⟨_,List.mem_singleton.mp hstep⟩
  | nested plan =>
    simp only [hshape] at h
    obtain ⟨_,_,hfresh,h⟩ := bind_rendered h
    cases hfresh
    obtain rfl := refused_rendered h
    exact .inr (.inl ⟨_,List.mem_singleton.mp hstep⟩)

theorem headerSetup_cases {b : Batch} {plan : Plan.Class} {imports : Imports} {steps : List Setup}
    (h : (headerSetup b plan imports).1 = .ok steps) {step : Setup} (hstep : step ∈ steps) :
    (∃ parent, step = .header parent) ∨ ∃ conversion, step = .tag conversion := by
  unfold headerSetup at h
  cases hparent : plan.parent with
  | none =>
    simp only [hparent] at h
    cases h
    cases hstep
  | some parent =>
    simp only [hparent] at h
    split at h
    · obtain ⟨_,_,-,h⟩ := bind_rendered h
      obtain ⟨_,_,-,h⟩ := bind_rendered h
      cases h
      rcases List.mem_cons.mp hstep with rfl | hstep
      · exact .inl ⟨_,rfl⟩
      · exact .inr ⟨_,List.mem_singleton.mp hstep⟩
    · cases h
      exact .inl ⟨_,List.mem_singleton.mp hstep⟩

theorem tagMethod_cases [Casing] {b : Batch} {plan : Plan.Class} {imports : Imports}
    {tag : Option TagMethod} (h : (tagMethod b plan imports).1 = .ok tag) :
    (plan.role = .plain ∧ tag = none) ∨
    (plan.role = .message ∧ ∃ type expr before, tag = some (.tell type expr) ∧
      (tagExpr b plan.decl.identity type before).1 = .ok expr) ∨
    plan.role = .header ∧ ∃ type field, tag = some (.take type field) ∧
      ∀ slot own, field = some (slot,own) → ∃ f ∈ plan.fields, slot = slotOf f := by
  unfold tagMethod at h
  obtain ⟨type,_,-,h⟩ := bind_rendered h
  cases hrole : plan.role with
  | plain =>
    simp only [hrole] at h
    cases h
    exact .inl ⟨rfl,rfl⟩
  | message =>
    simp only [hrole] at h
    obtain ⟨expr,_,hexpr,h⟩ := bind_rendered h
    cases h
    exact .inr (.inl ⟨rfl,type,expr,_,rfl,hexpr⟩)
  | header =>
    simp only [hrole] at h
    refine .inr (.inr ⟨rfl,type,?_⟩)
    cases hfield : plan.tagField? with
    | none =>
      simp only [hfield] at h
      cases h
      exact ⟨none,rfl,by simp⟩
    | some f =>
      have hfind : plan.field? "msg" = some f := by simpa [Plan.Class.tagField?,hrole] using hfield
      have hmem : f ∈ plan.fields := List.mem_of_find?_eq_some hfind
      cases hshape : f.shape with
      | scalar carrier =>
        cases hadapter : f.head.transform.isAdapter with
        | true =>
          simp only [hfield,hshape,hadapter] at h
          cases h
        | false =>
          simp only [hfield,hshape,hadapter] at h
          obtain ⟨own,_,-,h⟩ := bind_rendered h
          cases h
          refine ⟨_,rfl,fun slot own heq => ⟨f,hmem,?_⟩⟩
          cases heq
          rfl
      | _ =>
        simp only [hfield,hshape] at h
        cases h

/-- What the parts of a class have been rendered from. -/
structure ClassCode.From [Casing] (b : Batch) (plan : Plan.Class) (code : ClassCode) : Prop where
  idents : checkIdents plan = .ok ()
  name : code.name = plan.name
  constants : List.Forall₂ (fun p k => ∃ before, (classConstant b p before).1 = .ok k) plan.consts
    code.constants
  setup : ∃ header fields, (∃ before, (headerSetup b plan before).1 = .ok header) ∧
    List.Forall₂ (fun f steps => ∃ before, (fieldSetup b f before).1 = .ok steps) plan.fields
      fields ∧ code.setup = header ++ fields.flatten
  tag : ∃ before, (tagMethod b plan before).1 = .ok code.tag
  writes : code.writes = writeSteps plan
  reads : ∃ before, (readSteps b plan before).1 = .ok code.reads

theorem classCode_from [Casing] {b : Batch} {plan : Plan.Class} {imports : Imports}
    {code : ClassCode} (h : (classCode b plan imports).1 = .ok code) : code.From b plan := by
  unfold classCode at h
  obtain ⟨_,_,hidents,h⟩ := bind_rendered h
  obtain ⟨_,_,-,h⟩ := bind_rendered h
  obtain ⟨constants,_,hconstants,h⟩ := bind_rendered h
  obtain ⟨header,_,hheader,h⟩ := bind_rendered h
  obtain ⟨fields,_,hfields,h⟩ := bind_rendered h
  obtain ⟨tag,_,htag,h⟩ := bind_rendered h
  obtain ⟨_,_,-,h⟩ := bind_rendered h
  obtain ⟨_,_,-,h⟩ := bind_rendered h
  obtain ⟨reads,_,hreads,h⟩ := bind_rendered h
  cases h
  refine ⟨?_,rfl,mapM_rendered hconstants,
    ⟨header,fields,⟨_,hheader⟩,mapM_rendered hfields,rfl⟩,⟨_,htag⟩,rfl,⟨_,hreads⟩⟩
  cases hcheck : checkIdents plan with
  | error fault =>
    rw [hcheck] at hidents
    cases hidents
  | ok u => rfl

theorem enumCode_constants [Casing] {b : Batch} {plan : Plan.Enum} {imports : Imports}
    {code : EnumCode} (h : (enumCode b plan imports).1 = .ok code) : code.name = plan.name ∧
      List.Forall₂ (fun v k => k.value = v.name ∧
        ∃ before, (enumValueExpr b plan v before).1 = .ok k.expr) plan.values code.constants := by
  unfold enumCode at h
  obtain ⟨constants,_,hconstants,h⟩ := bind_rendered h
  have hruns : List.Forall₂ (fun v k => k.value = v.name ∧
      ∃ before, (enumValueExpr b plan v before).1 = .ok k.expr) plan.values constants := by
    refine (mapM_rendered hconstants).imp fun v k hk => ?_
    obtain ⟨_,hk⟩ := hk
    obtain ⟨expr,_,hexpr,hk⟩ := bind_rendered hk
    cases hk
    exact ⟨rfl,_,hexpr⟩
  obtain ⟨_,h⟩ := noted_rendered h
  cases h
  exact ⟨rfl,hruns⟩

end WireSchema.Artifact
