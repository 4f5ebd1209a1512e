import WireSchema.Proofs.Artifact.Qualified
set_option autoImplicit false

namespace WireSchema.Artifact

def Setup.types : Setup → List Text
  | .tag conversion => conversion.toList
  | .message _ type => [type]
  | .record _ className => [className]
  | _ => []

def Setup.exprs : Setup → List Expr
  | .value _ expr => [expr]
  | _ => []

def TagMethod.types : TagMethod → List Text
  | .tell type _ => [type]
  | .take type field => type :: (field.bind Prod.snd).toList

def TagMethod.exprs : TagMethod → List Expr
  | .tell _ expr => [expr]
  | .take _ _ => []

def WriteStep.types : WriteStep → List Text
  | .setLength _ type _ => [type]
  | _ => []

def ReadStep.types : ReadStep → List Text
  | .masked _ type _ => [type]
  | .message _ _ type => [type]
  | .numbers _ _ element => [element]
  | _ => []

namespace ClassCode

def exprs (c : ClassCode) : List Expr :=
  c.constants.map ClassConstant.expr ++ c.setup.flatMap Setup.exprs ++
    c.tag.toList.flatMap TagMethod.exprs

def types (c : ClassCode) : List Text := List.flatten [
  c.fields.map StructField.type,
  c.constants.map ClassConstant.type,
  c.setup.flatMap Setup.types,
  c.tag.toList.flatMap TagMethod.types,
  c.writes.flatMap WriteStep.types,
  c.reads.flatMap ReadStep.types,
  c.exprs.flatMap Expr.types]

structure Covered (b : Batch) (known : Package → Prop) (plan : Plan.Class) (c : ClassCode) :
    Prop where
  refs : ∀ r ∈ b.refs plan, ∀ p ∈ r.packages b, known p
  types : ∀ t ∈ c.types, b.Tells plan t
  values : ∀ e ∈ c.exprs, e.Covered b known
  calls : ∀ p ∈ calls c.bare.lines, known p

end ClassCode

structure EnumCode.Covered (b : Batch) (known : Package → Prop) (e : EnumCode) : Prop where
  types : ∀ k ∈ e.constants, k.expr.types = []
  values : ∀ k ∈ e.constants, k.expr.Covered b known
  calls : ∀ p ∈ calls e.bare.lines, known p

variable [Casing]

section Parts

variable {b : Batch} {named : Bool}

omit [Casing] in
theorem notes_elementType (f : PlanField) (carrier : Primitive) :
    Notes (b.importable named) (elementType b f carrier)
      ((elementRef f carrier).Told b named) := by
  unfold elementType elementRef
  cases f.head.enum with
  | some e => exact notes_enumRef e.name
  | none => exact .pure fun paths => told_number carrier paths

def TypeRef.Made (b : Batch) (named : Bool) (r : TypeRef) (t : Text) (paths : List Text) : Prop :=
  r.Written b t ∧ ∀ p ∈ r.packages b, b.Knows named paths p

omit [Casing] in
theorem TypeRef.Told.made {r : TypeRef} {t : Text} {paths : List Text}
    (h : r.Told b named t paths) : r.Made b named t paths := by
  obtain ⟨rfl,hknown⟩ := h
  exact ⟨.plain,hknown⟩

omit [Casing] in
theorem notes_fieldType (f : PlanField) : Notes (b.importable named) (fieldType b f)
    ((fieldRef f).Made b named) := by
  unfold fieldType fieldRef
  cases f.shape with
  | scalar carrier =>
    dsimp only
    split
    · exact .pure fun paths => (told_number carrier paths).made
    · exact (notes_elementType f carrier).imp fun _ _ h => h.made
  | array carrier count =>
    refine (notes_elementType f carrier).bind fun t => .pure fun paths h => ?_
    obtain ⟨rfl,hknown⟩ := h
    exact ⟨.array count,hknown⟩
  | slice carrier =>
    refine (notes_elementType f carrier).bind fun t => .pure fun paths h => ?_
    obtain ⟨rfl,hknown⟩ := h
    exact ⟨.slice,hknown⟩
  | external type =>
    refine (notes_protoRef type).bind fun t => .pure fun paths h => ?_
    obtain ⟨rfl,hknown⟩ := h
    exact ⟨.pointer,hknown⟩
  | nested plan => exact .pure fun _ => ⟨.plain,by simp [TypeRef.packages]⟩

theorem notes_structField (f : PlanField) : Notes (b.importable named) (structField b f)
    fun x => (fieldRef f).Made b named x.type :=
  (notes_fieldType f).bind fun _ => .pure fun _ h => h

omit [Casing] in
theorem notes_classConstant (p : Schema.Property) :
    Notes (b.importable named) (classConstant b p) fun k paths =>
      (∃ r, b.symbolRef? p.type = some r ∧ r.Told b named k.type paths) ∧
        k.expr.types = [] ∧ k.expr.Covered b (b.Knows named paths) := by
  refine Notes.during ((notes_typeName p.type).bind fun type => ?_)
  refine (notes_valueExpr p.default type _).bind fun expr => ?_
  exact .pure fun _ hexpr htype => ⟨htype,hexpr⟩

omit [Casing] in
theorem notes_headerSetup (plan : Plan.Class) :
    Notes (b.importable named) (headerSetup b plan) fun steps paths =>
      (∀ r ∈ b.headerRefs plan, ∀ p ∈ r.packages b, b.Knows named paths p) ∧
        ∀ step ∈ steps, step.exprs = [] ∧ ∀ t ∈ step.types, ∃ r ∈ b.headerRefs plan,
          r.Written b t := by
  unfold headerSetup Batch.headerRefs
  cases plan.parent with
  | none => exact .pure fun _ => by simp
  | some parent =>
    dsimp only
    split
    · refine (notes_tagType plan.family).bind fun own => ?_
      refine (notes_tagType parent.family).bind fun theirs => .pure fun paths htheirs _ => ?_
      obtain ⟨rfl,hknown⟩ := htheirs
      refine ⟨by simpa using hknown,fun step hstep => ?_⟩
      rcases List.mem_cons.mp hstep with rfl | hstep
      · exact ⟨rfl,by simp [Setup.types]⟩
      · obtain rfl := List.mem_singleton.mp hstep
        refine ⟨rfl,fun t ht => ⟨_,List.mem_singleton_self _,?_⟩⟩
        simp only [Setup.types,Option.mem_toList] at ht
        split at ht
        · cases ht
        · obtain rfl := Option.some.inj ht
          exact .plain
    · exact .pure fun _ => by simp [Setup.exprs,Setup.types]

theorem notes_fieldSetup (f : PlanField) :
    Notes (b.importable named) (fieldSetup b f) fun steps paths => ∀ step ∈ steps,
      (∀ t ∈ step.types, (fieldRef f).Written b t) ∧
        ∀ e ∈ step.exprs, e.types = [] ∧ e.Covered b (b.Knows named paths) := by
  unfold fieldSetup fieldRef
  cases hshape : f.shape with
  | scalar carrier =>
    simp only [pure_bind]
    split
    · exact .pure fun _ => by simp
    · refine (notes_fieldType f).bind fun type => ?_
      refine (notes_valueExpr _ type carrier).during.bind fun expr => ?_
      refine .pure fun paths hexpr _ step hstep => ?_
      rw [List.nil_append,List.mem_singleton] at hstep
      subst hstep
      exact ⟨by simp [Setup.types],by simpa [Setup.exprs] using hexpr⟩
  | external type =>
    refine (notes_protoRef type).bind fun t => ?_
    simp only [pure_bind]
    refine .refuse fun _ ht step hstep => ?_
    obtain rfl := List.mem_singleton.mp hstep
    refine ⟨fun t' ht' => ?_,by simp [Setup.exprs]⟩
    rw [List.mem_singleton.mp ht',ht.1]
    exact .plain
  | nested plan =>
    simp only [pure_bind]
    refine .refuse fun _ step hstep => ?_
    obtain rfl := List.mem_singleton.mp hstep
    refine ⟨fun t ht => ?_,by simp [Setup.exprs]⟩
    obtain rfl := List.mem_singleton.mp ht
    exact .plain
  | _ =>
    simp only [pure_bind]
    exact .refuse fun _ => by simp

theorem notes_tagMethod (plan : Plan.Class) :
    Notes (b.importable named) (tagMethod b plan) fun tag paths =>
      (∀ p ∈ (b.tagRef plan.family).packages b, b.Knows named paths p) ∧ ∀ m ∈ tag,
        (∀ t ∈ m.types, t = (b.tagRef plan.family).text b ∨
          ∃ f ∈ plan.fields, (fieldRef f).Written b t) ∧
        ∀ e ∈ m.exprs, (∀ t ∈ e.types, t = (b.tagRef plan.family).text b) ∧
          e.Covered b (b.Knows named paths) := by
  unfold tagMethod
  refine (notes_tagType plan.family).bind fun type => ?_
  cases hrole : plan.role with
  | plain => exact .pure fun _ htype => ⟨htype.2,by simp⟩
  | message =>
    refine (notes_tagExpr plan.decl.identity type).bind fun expr => ?_
    refine .pure fun paths hexpr htype => ⟨htype.2,fun m hm => ?_⟩
    obtain rfl := Option.some.inj hm
    rw [htype.1] at hexpr
    exact ⟨by simp [TagMethod.types,htype.1],by simpa [TagMethod.exprs] using hexpr⟩
  | header =>
    dsimp only
    split
    · refine .pure fun _ htype => ⟨htype.2,fun m hm => ?_⟩
      obtain rfl := Option.some.inj hm
      exact ⟨by simp [TagMethod.types,htype.1],by simp [TagMethod.exprs]⟩
    · rename_i f hfield
      have hmem : f ∈ plan.fields := by
        refine List.mem_of_find?_eq_some (?_ : plan.field? "msg" = some f)
        simpa [Plan.Class.tagField?,hrole] using hfield
      split
      · refine (notes_fieldType f).bind fun own => ?_
        refine .pure fun _ hown htype => ⟨htype.2,fun m hm => ?_⟩
        obtain rfl := Option.some.inj hm
        refine ⟨fun t ht => ?_,by simp [TagMethod.exprs]⟩
        rcases List.mem_cons.mp ht with rfl | ht
        · exact .inl htype.1
        · refine .inr ⟨f,hmem,?_⟩
          simp only [Option.bind_some,Option.mem_toList] at ht
          split at ht
          · cases ht
          · obtain rfl := Option.some.inj ht
            exact hown.1
      · exact .throw

theorem notes_accessorsOf (plan : Plan.Class) :
    Notes (b.importable named) (accessorsOf plan) fun accessors paths =>
      ∀ a ∈ accessors, ∀ p ∈ calls (a.bare.lines []), b.Knows named paths p := by
  unfold accessorsOf
  dsimp only
  refine Notes.bind (P := fun _ paths => ∀ f ∈ plan.fields.filter (·.head.transform.isAdapter),
    f.head.transform ≠ .bool → b.Knows named paths ⟨runtimePath,"steamd"⟩)
    (Notes.forIn fun f _ => ?_) fun _ => ?_
  · split
    · exact notes_runtime.bind fun _ => .pure fun _ hruntime => ⟨rfl,fun _ => hruntime⟩
    · rename_i hbool
      exact .pure fun _ => ⟨rfl,fun hother => absurd (by simpa using hother) hbool⟩
  · refine .pure fun paths hruntime a ha p hp => ?_
    obtain ⟨f,hf,rfl⟩ := List.mem_map.mp ha
    rw [calls_accessor] at hp
    split at hp
    · cases hp
    · rename_i hother
      obtain rfl := List.mem_singleton.mp hp
      exact hruntime f hf hother

theorem notes_useForWrites (plan : Plan.Class) :
    Notes (b.importable named) (useForWrites plan) fun _ paths =>
      b.Knows named paths ⟨"io","io"⟩ ∧
      (∀ f ∈ plan.variableSized, ∀ p ∈ calls (renderStep f).bare.lines, b.Knows named paths p) ∧
      ∀ f ∈ plan.fixed, b.Knows named paths ⟨"encoding/binary","binary"⟩ ∧
        b.Knows named paths ⟨runtimePath,"steamd"⟩ := by
  unfold useForWrites
  refine (notes_own (p := ⟨"io","io"⟩) (by decide)).bind fun _ => ?_
  refine Notes.bind (P := fun _ paths => ∀ f ∈ plan.variableSized,
    ∀ p ∈ calls (renderStep f).bare.lines, b.Knows named paths p)
    (Notes.forIn fun f _ => ?_) fun _ => ?_
  · simp only [calls_renderStep]
    cases f.shape with
    | external type =>
      refine (notes_own (p := ⟨protobufPath,"proto"⟩) (by decide)).bind fun _ => ?_
      exact .pure fun _ hknown => ⟨rfl,by simpa using hknown⟩
    | _ => exact notes_runtime.bind fun _ => .pure fun _ hknown => ⟨rfl,by simpa using hknown⟩
  · refine Notes.bind (P := fun _ paths => ∀ f ∈ plan.fixed,
      b.Knows named paths ⟨"encoding/binary","binary"⟩ ∧
        b.Knows named paths ⟨runtimePath,"steamd"⟩) (Notes.forIn fun f _ => ?_) fun _ => ?_
    · refine (notes_own (p := ⟨"encoding/binary","binary"⟩) (by decide)).bind fun _ => ?_
      exact notes_runtime.bind fun _ => .pure fun _ hruntime hbinary => ⟨rfl,hbinary,hruntime⟩
    · exact .pure fun _ hfixed hrender hio => ⟨hio,hrender,hfixed⟩

theorem notes_readFixed (f : PlanField) :
    Notes (b.importable named) (readFixed b f) fun step paths =>
      (∀ p ∈ step.calls, b.Knows named paths p) ∧ ∀ t ∈ step.types, (fieldRef f).Written b t := by
  unfold readFixed
  refine (notes_own (p := ⟨"encoding/binary","binary"⟩) (by decide)).bind fun _ => ?_
  refine notes_runtime.bind fun _ => ?_
  split
  · refine (notes_fieldType f).bind fun type => ?_
    refine .pure fun _ htype hruntime hbinary => ⟨by simp [ReadStep.calls,hbinary,hruntime],?_⟩
    intro t ht
    obtain rfl := List.mem_singleton.mp ht
    exact htype.1
  · exact .pure fun _ hruntime hbinary =>
      ⟨by simp [ReadStep.calls,hbinary,hruntime],by simp [ReadStep.types]⟩

/-- What reading a field of variable size has noted. The rest has been noted for writing it. -/
structure ReadStep.Noted (b : Batch) (named : Bool) (f : PlanField) (step : ReadStep)
    (paths : List Text) : Prop where
  calls : ∀ p ∈ step.calls, p = ⟨"io","io"⟩ ∨ p ∈ Artifact.calls (renderStep f).bare.lines ∨
    b.Knows named paths p
  types : ∀ t ∈ step.types, (readRef f).Written b t
  known : ∀ p ∈ (readRef f).packages b, b.Knows named paths p
  runtime : f.head.lengthField.isSome = true → b.Knows named paths ⟨runtimePath,"steamd"⟩

omit [Casing] in
theorem known_payload {f : PlanField} {name : Plan.Holder → Slot} {p : Package}
    {paths : List Text} (hp : p ∈ payloadCalls (f.head.lengthField.map name))
    (h : (f.head.lengthField.map name).isSome = true → b.Knows named paths ⟨runtimePath,"steamd"⟩) :
    p = ⟨"io","io"⟩ ∨ b.Knows named paths p := by
  unfold payloadCalls at hp
  split at hp
  · rename_i hlength
    obtain rfl := List.mem_singleton.mp hp
    exact .inr (h hlength)
  · exact .inl (List.mem_singleton.mp hp)

theorem notes_numbers {f : PlanField} {carrier : Primitive} {name : Plan.Holder → Slot}
    (hread : readRef f = elementRef f carrier)
    (hrender : ⟨runtimePath,"steamd"⟩ ∈ calls (renderStep f).bare.lines) :
    Notes (b.importable named) (do
      if (f.head.lengthField.map name).isSome then useRuntime
      return ReadStep.numbers (slotOf f) (f.head.lengthField.map name) (← elementType b f carrier))
      fun step => step.Noted b named f := by
  refine .noted (fun _ => notes_runtime) ((notes_elementType f carrier).bind fun element => ?_)
  refine .pure fun paths helement hruntime => ?_
  refine ⟨fun p hp => ?_,fun t ht => ?_,hread ▸ helement.2,by simpa using hruntime⟩
  · rcases List.mem_cons.mp hp with rfl | hp
    · exact .inr (.inl hrender)
    · exact (known_payload hp hruntime).imp_right .inr
  · rw [List.mem_singleton.mp ht,helement.1,hread]
    exact .plain

theorem notes_readVariable (plan : Plan.Class) (f : PlanField) :
    Notes (b.importable named) (readVariable b plan f) fun step => step.Noted b named f := by
  unfold readVariable
  have hcalls := calls_renderStep f
  cases hshape : f.shape with
  | nested record =>
    cases hlength : f.head.lengthField with
    | none =>
      exact .pure fun _ => ⟨by simp [ReadStep.calls],by simp [ReadStep.types],
        by simp [readRef,fieldRef,hshape,TypeRef.packages],by simp [hlength]⟩
    | some holder =>
      refine notes_runtime.bind fun _ => ?_
      refine (notes_own (p := ⟨"bytes","bytes"⟩) (by decide)).bind fun _ => ?_
      refine .pure fun _ hbytes hruntime => ⟨fun p hp => ?_,by simp [ReadStep.types],
        by simp [readRef,fieldRef,hshape,TypeRef.packages],fun _ => hruntime⟩
      simp only [ReadStep.calls,payloadCalls,Option.map_some,Option.isSome_some,if_true,
        List.mem_cons,List.not_mem_nil,or_false] at hp
      rcases hp with rfl | rfl
      · exact .inr (.inr hbytes)
      · exact .inr (.inr hruntime)
  | external type =>
    refine .noted (fun _ => notes_runtime) ?_
    refine (notes_own (p := ⟨protobufPath,"proto"⟩) (by decide)).bind fun _ => ?_
    refine (notes_protoRef type).bind fun t => .pure fun paths htype hproto hruntime => ?_
    have hread : readRef f = .message type := by simp [readRef,fieldRef,hshape]
    refine ⟨fun p hp => ?_,fun t' ht => ?_,hread ▸ htype.2,by simpa using hruntime⟩
    · rcases List.mem_cons.mp hp with rfl | hp
      · exact .inr (.inr hproto)
      · exact (known_payload hp hruntime).imp_right .inr
    · rw [List.mem_singleton.mp ht,htype.1,hread]
      exact .plain
  | slice carrier =>
    exact notes_numbers (by simp [readRef,fieldRef,hshape]) (by simp [hcalls,hshape])
  | scalar carrier =>
    exact notes_numbers (by simp [readRef,hshape]) (by simp [hcalls,hshape])
  | array carrier count =>
    exact notes_numbers (by simp [readRef,fieldRef,hshape]) (by simp [hcalls,hshape])

structure ClassCode.ReadNoted (b : Batch) (named : Bool) (plan : Plan.Class) (steps : List ReadStep)
    (paths : List Text) : Prop where
  calls : ∀ step ∈ steps, ∀ p ∈ step.calls, p = ⟨"io","io"⟩ ∨
    (∃ f ∈ plan.variableSized, p ∈ Artifact.calls (renderStep f).bare.lines) ∨
    b.Knows named paths p
  types : ∀ step ∈ steps, ∀ t ∈ step.types,
    (∃ f ∈ plan.fields, (fieldRef f).Written b t) ∨
      ∃ f ∈ plan.variableSized, (readRef f).Written b t
  known : ∀ f ∈ plan.variableSized, ∀ p ∈ (readRef f).packages b, b.Knows named paths p
  runtime : ∀ f ∈ plan.variableSized, f.head.lengthField.isSome = true →
    b.Knows named paths ⟨runtimePath,"steamd"⟩

theorem notes_readSteps (plan : Plan.Class) :
    Notes (b.importable named) (readSteps b plan) (ClassCode.ReadNoted b named plan) := by
  unfold readSteps
  refine (notes_own (p := ⟨"io","io"⟩) (by decide)).bind fun _ => ?_
  refine (Notes.mapM fun f _ => notes_readFixed f).bind fun fixed => ?_
  refine (Notes.mapM fun f _ => notes_readVariable plan f).bind fun rest => ?_
  refine .pure fun paths hrest hfixed _ => ?_
  -- reading the header neither calls a package nor names a type
  have hsteps : ∀ step ∈ (if plan.parent.isSome then [ReadStep.header] else []) ++ fixed ++ rest,
      step = .header ∨ step ∈ fixed ∨ step ∈ rest := by
    intro step hstep
    rw [List.append_assoc,List.mem_append,List.mem_append] at hstep
    refine hstep.imp_left fun hheader => ?_
    split at hheader
    · exact List.mem_singleton.mp hheader
    · cases hheader
  refine ⟨fun step hstep p hp => ?_,fun step hstep t ht => ?_,fun f hf => ?_,fun f hf => ?_⟩
  · rcases hsteps step hstep with rfl | hstep | hstep
    · cases hp
    · obtain ⟨f,-,hf⟩ := exists_of_forall₂ hfixed hstep
      exact .inr (.inr (hf.1 p hp))
    · obtain ⟨f,hmem,hf⟩ := exists_of_forall₂ hrest hstep
      exact (hf.calls p hp).imp_right fun h => h.imp_left fun hrender => ⟨f,hmem,hrender⟩
  · rcases hsteps step hstep with rfl | hstep | hstep
    · cases ht
    · obtain ⟨f,hmem,hf⟩ := exists_of_forall₂ hfixed hstep
      exact .inl ⟨f,List.mem_of_mem_filter hmem,hf.2 t ht⟩
    · obtain ⟨f,hmem,hf⟩ := exists_of_forall₂ hrest hstep
      exact .inr ⟨f,hmem,hf.types t ht⟩
  · obtain ⟨step,-,hstep⟩ := exists_of_forall₂ hrest.flip hf
    exact hstep.known
  · obtain ⟨step,-,hstep⟩ := exists_of_forall₂ hrest.flip hf
    exact hstep.runtime

theorem writeSteps_cases {plan : Plan.Class} {w : WriteStep} (hw : w ∈ writeSteps plan) :
    (∃ f ∈ plan.variableSized, w = renderStep f) ∨
    (∃ f ∈ plan.variableSized, ∃ holder, f.head.lengthField = some holder ∧
      w = .setLength (holderSlot plan holder) (numberType holder.carrier) (slotOf f)) ∨
    w = .header ∨ (∃ f ∈ plan.fixed, w = .fixed (slotOf f) f.head.transform) ∨
    ∃ f ∈ plan.variableSized, w = .payload (slotOf f) := by
  simp only [writeSteps,List.flatten_cons,List.flatten_nil,List.append_nil,List.mem_append,
    List.mem_map,List.mem_filterMap,Option.map_eq_some_iff] at hw
  rcases hw with ⟨f,hf,rfl⟩ | ⟨f,hf,holder,hholder,rfl⟩ | hheader | ⟨f,hf,rfl⟩ | ⟨f,hf,rfl⟩
  · exact .inl ⟨f,hf,rfl⟩
  · exact .inr (.inl ⟨f,hf,holder,hholder,rfl⟩)
  · split at hheader
    · exact .inr (.inr (.inl (List.mem_singleton.mp hheader)))
    · cases hheader
  · exact .inr (.inr (.inr (.inl ⟨f,hf,rfl⟩)))
  · exact .inr (.inr (.inr (.inr ⟨f,hf,rfl⟩)))

omit [Casing] in
theorem mem_refs {plan : Plan.Class} {r : TypeRef} : r ∈ b.refs plan ↔
    (∃ f ∈ plan.fields, fieldRef f = r) ∨ (∃ p ∈ plan.consts, b.symbolRef? p.type = some r) ∨
    r ∈ b.headerRefs plan ∨ r = b.tagRef plan.family ∨
    (∃ f ∈ plan.variableSized, ∃ holder, f.head.lengthField = some holder ∧
      .number holder.carrier = r) ∨ ∃ f ∈ plan.variableSized, readRef f = r := by
  simp only [Batch.refs,List.flatten_cons,List.flatten_nil,List.append_nil,List.mem_append,
    List.mem_map,List.mem_filterMap,List.mem_singleton,Option.map_eq_some_iff]

omit [Casing] in
theorem tells_field {plan : Plan.Class} {f : PlanField} {t : Text} (hf : f ∈ plan.fields)
    (h : (fieldRef f).Written b t) : b.Tells plan t :=
  ⟨fieldRef f,mem_refs.mpr (.inl ⟨f,hf,rfl⟩),h⟩

omit [Casing] in
theorem tells_tag {plan : Plan.Class} : b.Tells plan ((b.tagRef plan.family).text b) :=
  ⟨_,mem_refs.mpr (.inr (.inr (.inr (.inl rfl)))),.plain⟩

/-- An expression converts to a type that the class refers to, and its values are covered. -/
def Expr.Fits (b : Batch) (known : Package → Prop) (plan : Plan.Class) (e : Expr) : Prop :=
  (∀ t ∈ e.types, b.Tells plan t) ∧ e.Covered b known

structure ClassCode.Noted (b : Batch) (named : Bool) (plan : Plan.Class) (code : ClassCode)
    (paths : List Text) : Prop where
  fields : List.Forall₂ (fun f x => (fieldRef f).Made b named x.type paths) plan.fields code.fields
  constants : List.Forall₂ (fun p k =>
    (∃ r, b.symbolRef? p.type = some r ∧ r.Told b named k.type paths) ∧
      k.expr.Fits b (b.Knows named paths) plan) plan.consts code.constants
  header : ∀ r ∈ b.headerRefs plan, ∀ p ∈ r.packages b, b.Knows named paths p
  setup : ∀ step ∈ code.setup, (∀ t ∈ step.types, b.Tells plan t) ∧
    ∀ e ∈ step.exprs, e.Fits b (b.Knows named paths) plan
  family : ∀ p ∈ (b.tagRef plan.family).packages b, b.Knows named paths p
  tag : ∀ m ∈ code.tag, (∀ t ∈ m.types, b.Tells plan t) ∧
    ∀ e ∈ m.exprs, e.Fits b (b.Knows named paths) plan
  accessors : ∀ a ∈ code.accessors, ∀ p ∈ calls (a.bare.lines []), b.Knows named paths p
  io : b.Knows named paths ⟨"io","io"⟩
  renders : ∀ f ∈ plan.variableSized, ∀ p ∈ calls (renderStep f).bare.lines, b.Knows named paths p
  fixed : ∀ f ∈ plan.fixed, b.Knows named paths ⟨"encoding/binary","binary"⟩ ∧
    b.Knows named paths ⟨runtimePath,"steamd"⟩
  writes : code.writes = writeSteps plan
  reads : ReadNoted b named plan code.reads paths

theorem notes_classParts (plan : Plan.Class) : Notes (b.importable named) (classCode b plan)
    fun code => code.Noted b named plan := by
  unfold classCode
  refine Notes.bind (P := fun _ _ => True) ?_ fun _ => ?_
  · unfold classCode.liftExcept
    split
    · exact .pure fun _ => trivial
    · exact .throw
  refine (Notes.mapM fun f _ => notes_structField f).bind fun fields => ?_
  refine (Notes.mapM fun p _ => notes_classConstant p).bind fun constants => ?_
  refine (notes_headerSetup plan).bind fun header => ?_
  refine (Notes.mapM fun f _ => notes_fieldSetup f).bind fun setup => ?_
  refine (notes_tagMethod plan).bind fun tag => ?_
  refine (notes_accessorsOf plan).bind fun accessors => ?_
  refine (notes_useForWrites plan).bind fun _ => ?_
  refine (notes_readSteps plan).bind fun reads => .pure fun paths => ?_
  intro hreads ⟨hio,hrenders,hfixed⟩ haccessors ⟨hfamily,htag⟩ hsetup ⟨hheader,hsteps⟩ hconstants
    hfields _
  refine ⟨hfields,?_,hheader,fun step hstep => ?_,hfamily,fun m hm => ?_,haccessors,hio,hrenders,
    hfixed,rfl,hreads⟩
  · exact hconstants.imp fun p k ⟨htype,hnone,hcovered⟩ => ⟨htype,by simp [hnone],hcovered⟩
  · rcases List.mem_append.mp hstep with hstep | hstep
    · obtain ⟨hnone,htypes⟩ := hsteps step hstep
      refine ⟨fun t ht => ?_,by simp [hnone]⟩
      obtain ⟨r,hr,hwritten⟩ := htypes t ht
      exact ⟨r,mem_refs.mpr (.inr (.inr (.inl hr))),hwritten⟩
    · obtain ⟨steps,hmem,hstep⟩ := List.mem_flatten.mp hstep
      obtain ⟨f,hf,hset⟩ := exists_of_forall₂ hsetup hmem
      obtain ⟨htypes,hexprs⟩ := hset step hstep
      refine ⟨fun t ht => tells_field hf (htypes t ht),fun e he => ?_⟩
      obtain ⟨hnone,hcovered⟩ := hexprs e he
      exact ⟨by simp [hnone],hcovered⟩
  · obtain ⟨htypes,hexprs⟩ := htag m hm
    refine ⟨fun t ht => ?_,fun e he => ⟨fun t ht => ?_,(hexprs e he).2⟩⟩
    · rcases htypes t ht with rfl | ⟨f,hf,hwritten⟩
      · exact tells_tag
      · exact tells_field hf hwritten
    · exact (hexprs e he).1 t ht ▸ tells_tag

section Noted

variable {plan : Plan.Class} {code : ClassCode} {paths : List Text}

theorem ClassCode.Noted.known (h : code.Noted b named plan paths) {r : TypeRef}
    (hr : r ∈ b.refs plan) : ∀ p ∈ r.packages b, b.Knows named paths p := by
  rcases mem_refs.mp hr with ⟨f,hf,rfl⟩ | ⟨p,hp,hr⟩ | hr | rfl | ⟨f,-,holder,-,rfl⟩ | ⟨f,hf,rfl⟩
  · obtain ⟨x,-,hx⟩ := exists_of_forall₂ h.fields.flip hf
    exact hx.2
  · obtain ⟨k,-,⟨r',hr',htold⟩,-⟩ := exists_of_forall₂ h.constants.flip hp
    obtain rfl := Option.some.inj (hr'.symm.trans hr)
    exact htold.2
  · exact h.header r hr
  · exact h.family
  · exact fun _ hp => nomatch hp
  · exact h.reads.known f hf

theorem ClassCode.Noted.fits (h : code.Noted b named plan paths) {e : Expr} (he : e ∈ code.exprs) :
    e.Fits b (b.Knows named paths) plan := by
  simp only [ClassCode.exprs,List.mem_append,List.mem_map,List.mem_flatMap,Option.mem_toList] at he
  rcases he with (⟨k,hk,rfl⟩ | ⟨step,hstep,he⟩) | ⟨m,hm,he⟩
  · obtain ⟨p,-,-,hfits⟩ := exists_of_forall₂ h.constants hk
    exact hfits
  · exact (h.setup step hstep).2 e he
  · exact (h.tag m hm).2 e he

theorem ClassCode.Noted.tells (h : code.Noted b named plan paths) {t : Text} (ht : t ∈ code.types) :
    b.Tells plan t := by
  simp only [ClassCode.types,List.flatten_cons,List.flatten_nil,List.append_nil,List.mem_append,
    List.mem_map,List.mem_flatMap,Option.mem_toList] at ht
  rcases ht with ⟨x,hx,rfl⟩ | ⟨k,hk,rfl⟩ | ⟨step,hstep,ht⟩ | ⟨m,hm,ht⟩ | ⟨w,hw,ht⟩ | ⟨r,hr,ht⟩ |
    ⟨e,he,ht⟩
  · obtain ⟨f,hf,htype⟩ := exists_of_forall₂ h.fields hx
    exact tells_field hf htype.1
  · obtain ⟨p,hp,⟨r,hr,htold⟩,-⟩ := exists_of_forall₂ h.constants hk
    exact ⟨r,mem_refs.mpr (.inr (.inl ⟨p,hp,hr⟩)),htold.1 ▸ .plain⟩
  · exact (h.setup step hstep).1 t ht
  · exact (h.tag m hm).1 t ht
  · rw [h.writes] at hw
    rcases writeSteps_cases hw with ⟨f,-,rfl⟩ | ⟨f,hf,holder,hholder,rfl⟩ | rfl | ⟨f,-,rfl⟩ |
      ⟨f,-,rfl⟩
    · cases ht
    · obtain rfl := List.mem_singleton.mp ht
      exact ⟨.number holder.carrier,
        mem_refs.mpr (.inr (.inr (.inr (.inr (.inl ⟨f,hf,holder,hholder,rfl⟩))))),.plain⟩
    · cases ht
    · cases ht
    · cases ht
  · rcases h.reads.types r hr t ht with ⟨f,hf,hwritten⟩ | ⟨f,hf,hwritten⟩
    · exact tells_field hf hwritten
    · exact ⟨readRef f,mem_refs.mpr (.inr (.inr (.inr (.inr (.inr ⟨f,hf,rfl⟩))))),hwritten⟩
  · exact (h.fits he).1 t ht

theorem ClassCode.Noted.writeCalls (h : code.Noted b named plan paths) {w : WriteStep}
    (hw : w ∈ code.writes) {p : Package} (hp : p ∈ calls w.bare.lines) : b.Knows named paths p := by
  rw [h.writes] at hw
  rcases writeSteps_cases hw with ⟨f,hf,rfl⟩ | ⟨f,hf,holder,hholder,rfl⟩ | rfl | ⟨f,hf,rfl⟩ |
    ⟨f,-,rfl⟩
  · exact h.renders f hf p hp
  · obtain rfl : p = ⟨runtimePath,"steamd"⟩ := List.mem_singleton.mp hp
    exact h.reads.runtime f hf (by simp [hholder])
  · exact absurd hp (not_mem_calls rfl)
  · have hcalls : calls (WriteStep.fixed (slotOf f) f.head.transform).bare.lines =
        [⟨"encoding/binary","binary"⟩,⟨runtimePath,"steamd"⟩] := by
      cases f.head.transform <;> rfl
    simp only [hcalls,List.mem_cons,List.not_mem_nil,or_false] at hp
    rcases hp with rfl | rfl
    · exact (h.fixed f hf).1
    · exact (h.fixed f hf).2
  · exact absurd hp (not_mem_calls rfl)

theorem ClassCode.Noted.calls (h : code.Noted b named plan paths) {p : Package}
    (hp : p ∈ Artifact.calls code.bare.lines) : b.Knows named paths p := by
  rcases calls_class hp with rfl | ⟨a,ha,hcall⟩ | ⟨w,hw,hcall⟩ | ⟨r,hr,hcall⟩
  · exact h.io
  · exact h.accessors a ha p hcall
  · exact h.writeCalls hw hcall
  · rcases h.reads.calls r hr p hcall with rfl | ⟨f,hf,hcall⟩ | hknown
    · exact h.io
    · exact h.renders f hf p hcall
    · exact hknown

end Noted

theorem notes_classCode (plan : Plan.Class) : Notes (b.importable named) (classCode b plan)
    fun code paths => code.Covered b (b.Knows named paths) plan :=
  (notes_classParts plan).imp fun _ _ h =>
    ⟨fun _ hr => h.known hr,fun _ ht => h.tells ht,fun _ he => (h.fits he).2,fun _ hp => h.calls hp⟩

theorem notes_enumCode (plan : Plan.Enum) (hnamed : plan.decl.flags = false → named = true) :
    Notes (b.importable named) (enumCode b plan) fun code paths =>
      code.Covered b (b.Knows named paths) := by
  unfold enumCode
  refine Notes.bind (P := fun constants paths => ∀ k ∈ constants, k.expr.types = [] ∧
    k.expr.Covered b (b.Knows named paths)) ?_ fun constants => ?_
  · refine (Notes.mapM (R := fun _ k paths => k.expr.types = [] ∧
      k.expr.Covered b (b.Knows named paths)) fun v _ => ?_).imp fun _ _ hall k hk => ?_
    · exact (notes_enumValueExpr plan v).bind fun _ => .pure fun _ h => h
    · exact (exists_of_forall₂ hall hk).elim fun _ h => h.2
  · refine .noted (N := fun paths => b.Knows named paths namingPackage) (fun hflags => ?_)
      (.pure fun paths hfmt hconstants => ⟨fun k hk => (hconstants k hk).1,
        fun k hk => (hconstants k hk).2,fun p hp => ?_⟩)
    · exact notes_naming (hnamed (by simpa using hflags))
    · obtain ⟨hflags,rfl⟩ := calls_enum hp
      exact hfmt (by simpa using hflags)

end Parts

end WireSchema.Artifact
