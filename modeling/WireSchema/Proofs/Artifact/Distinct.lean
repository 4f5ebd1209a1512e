import WireSchema.Proofs.Artifact.Declared
import WireSchema.Proofs.Artifact.Walk
import WireSchema.Proofs.Schema.Bound
set_option autoImplicit false

namespace WireSchema

open Token (isName)

namespace Artifact

def accessorOf [Casing] (f : PlanField) : Accessor := ⟨exported f.name,slotOf f,f.head.transform⟩

def Segment.payload? : Segment → Option Text
  | .header => none
  | .field slot => some slot.payload

section Layouts

variable [Casing] {b : Batch} {plan : Plan.Class} {imports : Imports} {code : ClassCode}

theorem classCode_fields (h : (classCode b plan imports).1 = .ok code) :
    code.parent.isSome = plan.parent.isSome ∧
      code.fields.map StructField.ident = plan.fields.map fieldIdent ∧
      code.accessors = (plan.fields.filter fun f => f.head.transform.isAdapter).map accessorOf := by
  unfold classCode at h
  obtain ⟨_,_,-,h⟩ := bind_rendered h
  obtain ⟨fields,_,hfields,h⟩ := bind_rendered h
  obtain ⟨_,_,-,h⟩ := bind_rendered h
  obtain ⟨_,_,-,h⟩ := bind_rendered h
  obtain ⟨_,_,-,h⟩ := bind_rendered h
  obtain ⟨_,_,-,h⟩ := bind_rendered h
  obtain ⟨accessors,_,haccessors,h⟩ := bind_rendered h
  obtain ⟨_,_,-,h⟩ := bind_rendered h
  obtain ⟨_,_,-,h⟩ := bind_rendered h
  cases h
  refine ⟨Option.isSome_map,map_eq_of_forall₂ (fun f field hfield => ?_) (mapM_rendered hfields),?_⟩
  · obtain ⟨_,hfield⟩ := hfield
    unfold structField at hfield
    obtain ⟨_,_,-,hfield⟩ := bind_rendered hfield
    cases hfield
    rfl
  · unfold accessorsOf at haccessors
    obtain ⟨_,_,-,haccessors⟩ := bind_rendered haccessors
    cases haccessors
    rfl

theorem tag_idents (h : (classCode b plan imports).1 = .ok code) :
    code.tag.toList.map TagMethod.ident = tagIdents plan := by
  obtain ⟨_,htag⟩ := (classCode_from h).tag
  unfold tagIdents
  rcases tagMethod_cases htag with ⟨hrole,heq⟩ | ⟨hrole,_,_,_,heq,-⟩ | ⟨hrole,_,_,heq,-⟩
  · rw [hrole,heq]
    rfl
  · rw [hrole,heq]
    rfl
  · rw [hrole,heq]
    rfl

theorem flatMap_accessorOf (fields : List PlanField) :
    ((fields.filter fun f => f.head.transform.isAdapter).map accessorOf).flatMap Accessor.idents =
      fields.flatMap accessorIdents := by
  induction fields with
  | nil => rfl
  | cons f fields ih =>
    rw [List.flatMap_cons,← ih]
    cases hadapter : f.head.transform.isAdapter <;>
      simp [accessorIdents,accessorOf,Accessor.idents,hadapter]

theorem members_eq (h : (classCode b plan imports).1 = .ok code) :
    code.structIdents ++ code.methods = memberIdents plan := by
  obtain ⟨hparent,hfields,haccessors⟩ := classCode_fields h
  rw [ClassCode.structIdents,ClassCode.methods,hparent,hfields,tag_idents h,haccessors,
    flatMap_accessorOf,memberIdents,headerIdents,List.append_assoc]
  simp

theorem write_variables (h : (classCode b plan imports).1 = .ok code) :
    code.writes.filterMap WriteStep.payload? =
      plan.variableSized.map fun f => (slotOf f).payload := by
  have hlengths : (lengths plan).filterMap WriteStep.payload? = [] := by
    refine List.filterMap_eq_nil_iff.mpr fun s hs => ?_
    obtain ⟨f,-,holder,-,rfl⟩ := mem_lengths.mp hs
    rfl
  have houtputs : (outputs plan).filterMap WriteStep.payload? = [] := by
    refine List.filterMap_eq_nil_iff.mpr fun s hs => ?_
    cases s <;> first | rfl | exact absurd (phase_outputs hs) (by simp [WriteStep.phase])
  have hrenders : (renders plan).filterMap WriteStep.payload? =
      plan.variableSized.map fun f => (slotOf f).payload := by
    simp [renders,List.filterMap_map,Function.comp_def,WriteStep.payload?]
  rw [(classCode_from h).writes,writeSteps_eq,List.filterMap_append,List.filterMap_append,hrenders,
    hlengths,houtputs,List.append_nil,List.append_nil]

omit [Casing] in
theorem ReadStep.payload?_eq (s : ReadStep) :
    s.payload? = none ∨ s.payload? = s.segment.payload? := by
  cases s <;> first | exact .inl rfl | exact .inr rfl

omit [Casing] in
theorem reads_sublist (steps : List ReadStep) : (steps.filterMap ReadStep.payload?).Sublist
    ((steps.map ReadStep.segment).filterMap Segment.payload?) := by
  induction steps with
  | nil => exact .slnil
  | cons s steps ih =>
    rw [List.map_cons,List.filterMap_cons,List.filterMap_cons]
    rcases s.payload?_eq with hnone | hsome
    · rw [hnone]
      cases s.segment.payload? with
      | none => exact ih
      | some v => exact ih.cons v
    · rw [hsome]
      cases s.segment.payload? with
      | none => exact ih
      | some v => exact ih.cons_cons v

theorem read_variables (h : (classCode b plan imports).1 = .ok code) :
    (code.reads.filterMap ReadStep.payload?).Sublist
      (plan.wireOrder.map fun f => (slotOf f).payload) := by
  obtain ⟨_,hreads⟩ := (classCode_from h).reads
  -- Every step stands for a segment of the walk, whose payload is the only one it can declare.
  have hwalk : (walk plan).filterMap Segment.payload? =
      plan.wireOrder.map fun f => (slotOf f).payload := by
    have hheader : (if plan.parent.isSome then [Segment.header] else []).filterMap
        Segment.payload? = [] := by
      split <;> rfl
    rw [walk,List.filterMap_append,hheader]
    simp [List.filterMap_map,Function.comp_def,Segment.payload?]
  have hsublist := reads_sublist code.reads
  rw [readSteps_segments hreads,hwalk] at hsublist
  exact hsublist

theorem locals_nodup (h : (classCode b plan imports).1 = .ok code) :
    ∀ vars ∈ code.locals, vars.Nodup := by
  have hpayloads : (plan.wireOrder.map fun f => (slotOf f).payload).Nodup :=
    ((List.filter_append_perm _ _).map _).nodup_iff.mpr (payloads_nodup (classCode_from h).idents)
  have hwrites : (code.writes.filterMap WriteStep.payload?).Nodup := by
    rw [write_variables h]
    exact hpayloads.sublist ((List.sublist_append_right _ _).map _)
  have hreads := hpayloads.sublist (read_variables h)
  intro vars hvars
  rcases List.mem_cons.mp hvars with rfl | hvars
  · exact .nil
  rcases List.mem_append.mp hvars with hvars | hvars
  · obtain ⟨tag,-,rfl⟩ := List.mem_map.mp hvars
    exact .nil
  rcases List.mem_append.mp hvars with hvars | hvars
  · obtain ⟨a,-,hvars⟩ := List.mem_flatMap.mp hvars
    have hempty : vars = [] := by simpa using hvars
    rw [hempty]
    exact .nil
  · rcases List.mem_cons.mp hvars with rfl | hvars
    · exact hwrites
    · rw [List.mem_singleton.mp hvars]
      exact hreads

theorem slot_of_setup (h : (classCode b plan imports).1 = .ok code) {step : Setup}
    (hstep : step ∈ code.setup) {slot : Slot} (hslot : step.slot? = some slot) :
    ∃ f ∈ plan.fields, slot = slotOf f := by
  obtain ⟨header,fields,⟨_,hheader⟩,hsteps,heq⟩ := (classCode_from h).setup
  rw [heq] at hstep
  rcases List.mem_append.mp hstep with hstep | hstep
  · rcases headerSetup_cases hheader hstep with ⟨_,rfl⟩ | ⟨_,rfl⟩ <;> cases hslot
  · obtain ⟨steps,hmem,hstep⟩ := List.mem_flatten.mp hstep
    obtain ⟨f,hf,_,hsetup⟩ := exists_of_forall₂ hsteps hmem
    refine ⟨f,hf,?_⟩
    rcases fieldSetup_cases hsetup hstep with ⟨_,rfl⟩ | ⟨_,rfl⟩ | ⟨_,_,_,_,rfl,-⟩ <;>
      exact (Option.some.inj hslot).symm

theorem slot_of_tag (h : (classCode b plan imports).1 = .ok code) {tag : TagMethod}
    (htag : tag ∈ code.tag) {slot : Slot} (hslot : tag.slot? = some slot) :
    ∃ f ∈ plan.fields, slot = slotOf f := by
  obtain ⟨_,hmethod⟩ := (classCode_from h).tag
  rw [Option.mem_def.mp htag] at hmethod
  rcases tagMethod_cases hmethod with ⟨-,heq⟩ | ⟨-,_,_,_,heq,-⟩ | ⟨-,_,field,heq,hfield⟩
  · cases heq
  · obtain rfl := Option.some.inj heq
    cases hslot
  · obtain rfl := Option.some.inj heq
    obtain ⟨⟨taken,own⟩,hpair,rfl⟩ := Option.map_eq_some_iff.mp hslot
    exact hfield taken own hpair

theorem slot_of_read (h : (classCode b plan imports).1 = .ok code) {step : ReadStep}
    (hstep : step ∈ code.reads) {slot : Slot} (hslot : step.segment = .field slot) :
    ∃ f ∈ plan.fields, slot = slotOf f := by
  obtain ⟨_,hreads⟩ := (classCode_from h).reads
  have hmem : .field slot ∈ walk plan := by
    rw [← readSteps_segments hreads,← hslot]
    exact List.mem_map_of_mem hstep
  rcases List.mem_append.mp hmem with hmem | hmem
  · split at hmem
    · cases List.mem_singleton.mp hmem
    · cases hmem
  · obtain ⟨f,hf,heq⟩ := List.mem_map.mp hmem
    exact ⟨f,(List.filter_append_perm _ _).mem_iff.mp hf,(Segment.field.inj heq).symm⟩

/-- Whether the names of the fields of a layout are made of the bytes of words. -/
def Worded (plan : Plan.Class) : Prop := ∀ f ∈ plan.fields, isName f.name = true

theorem classCode_worded (hcasing : Casing.KeepsWords)
    (h : (classCode b plan imports).1 = .ok code) (hplan : Worded plan) : code.Worded := by
  obtain ⟨-,hfields,haccessors⟩ := classCode_fields h
  refine ⟨?_,?_,?_,?_,?_,?_⟩
  · intro field hfield
    have hident : field.ident ∈ plan.fields.map fieldIdent := by
      rw [← hfields]
      exact List.mem_map_of_mem hfield
    obtain ⟨f,hf,heq⟩ := List.mem_map.mp hident
    rw [← heq]
    exact isName_fieldIdent hcasing (hplan f hf)
  · intro step hstep slot hslot
    obtain ⟨f,hf,rfl⟩ := slot_of_setup h hstep hslot
    exact slotOf_worded hcasing (hplan f hf)
  · intro tag htag slot hslot
    obtain ⟨f,hf,rfl⟩ := slot_of_tag h htag hslot
    exact slotOf_worded hcasing (hplan f hf)
  · intro a ha
    rw [haccessors] at ha
    obtain ⟨f,hf,rfl⟩ := List.mem_map.mp ha
    have hname := hplan f (List.mem_filter.mp hf).1
    exact ⟨isName_exported hcasing hname,slotOf_worded hcasing hname⟩
  · intro step hstep v hv
    have hmem : v ∈ code.writes.filterMap WriteStep.payload? :=
      List.mem_filterMap.mpr ⟨step,hstep,hv⟩
    rw [write_variables h] at hmem
    obtain ⟨f,hf,rfl⟩ := List.mem_map.mp hmem
    exact (slotOf_worded hcasing (hplan f (List.mem_filter.mp hf).1)).payload
  · intro step hstep slot hslot
    obtain ⟨f,hf,rfl⟩ := slot_of_read h hstep hslot
    exact slotOf_worded hcasing (hplan f hf)

end Layouts

end Artifact

theorem Plan.worded_of_parse {src path : Text} {doc : Document}
    (hsrc : Document.parse src = .ok doc) {schema : Schema} {ws : List Schema.Warning}
    (h : Schema.compile path doc = .ok (schema,ws)) {supportsGc : Bool} {plan : Plan.Class}
    (hlaid : Laid schema supportsGc plan) : Artifact.Worded plan := by
  intro f hf
  obtain ⟨p,hp⟩ := hlaid.property hf
  obtain ⟨node,w,hnode,hcompiled⟩ := Schema.class_of_compile h hlaid.decl
  have hmembers : plan.decl.properties.map Schema.Property.name =
      node.properties.map fun q => q.name.text := by
    simpa [Schema.Decl.members,Schema.memberNames,Function.comp_def] using
      (Schema.Decl.Compiled.class hcompiled).members
  have hname : p.name ∈ plan.decl.properties.map Schema.Property.name :=
    List.mem_map_of_mem hp.property
  rw [hmembers] at hname
  obtain ⟨q,hq,heq⟩ := List.mem_map.mp hname
  rw [hp.name,← heq]
  exact Document.spelled_of_parse hsrc node hnode q hq

namespace Artifact

/-- The members of a class, and the variables of the payloads in each of its functions. -/
structure Distinct [Casing] (plan : Plan.Class) (code : ClassCode) : Prop where
  members : code.structIdents ++ code.methods = memberIdents plan
  once : (memberIdents plan).Nodup
  writes : code.writes.filterMap WriteStep.payload? =
    plan.variableSized.map fun f => (slotOf f).payload
  reads : (code.reads.filterMap ReadStep.payload?).Sublist
    (plan.wireOrder.map fun f => (slotOf f).payload)
  apart : ∀ vars ∈ code.locals, vars.Nodup

/-- The lines of a class declare what its code says, and nothing twice. -/
structure Legible (code : ClassCode) : Prop where
  declared : declaredIn code.name code.lines = code.structIdents ++ code.methods
  bodies : (bodiesIn code.lines).map variablesIn = code.locals
  once : (declaredIn code.name code.lines).Nodup
  apart : ∀ body ∈ bodiesIn code.lines, (variablesIn body).Nodup

section Apart

variable [Casing] {b : Batch} {plan : Plan.Class} {imports : Imports} {code : ClassCode}

theorem classCode_distinct (h : (classCode b plan imports).1 = .ok code) : Distinct plan code where
  members := members_eq h
  once := memberIdents_nodup (classCode_from h).idents
  writes := write_variables h
  reads := read_variables h
  apart := locals_nodup h

theorem classCode_legible (hcasing : Casing.KeepsWords)
    (h : (classCode b plan imports).1 = .ok code) (hplan : Worded plan) : Legible code := by
  have hworded := classCode_worded hcasing h hplan
  have hlines := hworded.readsAs
  have hdeclared : declaredIn code.name code.lines = code.structIdents ++ code.methods := by
    rw [declaredIn,hworded.fields_read,hlines.methods]
  refine ⟨hdeclared,hlines.bodies_read,?_,fun body hbody => ?_⟩
  · rw [hdeclared,members_eq h]
    exact memberIdents_nodup (classCode_from h).idents
  · refine locals_nodup h _ ?_
    rw [← hlines.bodies_read]
    exact List.mem_map_of_mem hbody

/-- No two members of a class have the same identifier, and no two payloads in one function the same
variable. This is what its lines declare wherever the names in them are words, and those of a
source are. -/
theorem identifiers_distinct (h : (classCode b plan imports).1 = .ok code) :
    Distinct plan code ∧ (Casing.KeepsWords → Worded plan → Legible code) ∧
    ∀ (src path : Text) (doc : Document) (schema : Schema) (ws : List Schema.Warning)
      (supportsGc : Bool) (calls : List Planner.Call), ∀ c ∈ schema.classes,
      Document.parse src = .ok doc → Schema.compile path doc = .ok (schema,ws) →
      (((Planner.new schema supportsGc).after calls).layout c).1 = .ok plan → Worded plan := by
  refine ⟨classCode_distinct h,fun hcasing => classCode_legible hcasing h,?_⟩
  intro src path doc schema ws supportsGc calls c hc hsrc hcompile hlayout
  have hs := Schema.sound_of_compile hcompile
  have hplanner : Planner.Sound schema supportsGc
      ((Planner.new schema supportsGc).after calls) := Planner.sound_after hs calls
  obtain ⟨-,hlaid⟩ := (hplanner.layout hs hc).2 plan hlayout
  exact Plan.worded_of_parse hsrc hcompile hlaid.own

end Apart

theorem hello_members : ∃ code, (classCode Codec.helloBatch Codec.helloPlan []).1 = .ok code ∧
    declaredIn code.name code.lines = List.map Text.ofString ["Header","urgent","Body","BodyLen",
      "Urgent","SetUrgent","Serialize","Deserialize"] ∧
    code.writes.filterMap WriteStep.payload? = [Text.ofString "payloadBody"] ∧
    (∀ body ∈ bodiesIn code.lines, (variablesIn body).Nodup) ∧ Distinct Codec.helloPlan code := by
  obtain ⟨code,hcode⟩ : ∃ code, (classCode Codec.helloBatch Codec.helloPlan []).1 = .ok code :=
    Result.exists_of_isOk (by decide +kernel)
  obtain ⟨hdistinct,hlegible,-⟩ := identifiers_distinct hcode
  have hread := hlegible Casing.standard_keepsWords (by unfold Worded; decide +kernel)
  refine ⟨code,hcode,?_,?_,hread.apart,hdistinct⟩
  · rw [hread.declared,hdistinct.members]
    decide +kernel
  · rw [hdistinct.writes]
    decide +kernel

end Artifact

end WireSchema
