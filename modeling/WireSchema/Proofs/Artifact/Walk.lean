import WireSchema.Artifact.Casing
import WireSchema.Artifact.ClassText
import WireSchema.Proofs.Artifact.Idents
import WireSchema.Proofs.Record.Codec
import WireSchema.Proofs.Record.Walk
set_option autoImplicit false

/-!
The methods of a class walk through its fields as a codec does: the header if there is one, then
each field once, in the order of the wire. Lengths are set in between the rendering of the payloads
and the first byte that is written.
-/

namespace WireSchema.Artifact

inductive Segment where
  | header
  | field (slot : Slot)
  deriving DecidableEq, Repr

def WriteStep.segment? : WriteStep → Option Segment
  | .render .. => none
  | .setLength .. => none
  | .header => some .header
  | .fixed slot _ => some (.field slot)
  | .payload slot => some (.field slot)

def ReadStep.segment : ReadStep → Segment
  | .header => .header
  | .fixed slot => .field slot
  | .masked slot _ _ => .field slot
  | .record slot => .field slot
  | .message slot _ _ => .field slot
  | .framedRecord slot _ => .field slot
  | .numbers slot _ _ => .field slot

variable [Casing]

/-- The way through a layout. -/
def walk (plan : Plan.Class) : List Segment :=
  (if plan.parent.isSome then [.header] else []) ++ plan.wireOrder.map fun f => .field (slotOf f)

def WriteStep.phase : WriteStep → Nat
  | .render .. => 0
  | .setLength .. => 1
  | _ => 2

omit [Casing] in
theorem WriteStep.segment?_of_phase {s : WriteStep} (h : s.phase ≤ 1) : s.segment? = none := by
  cases s <;> simp [phase] at h <;> rfl

section Writes

variable (plan : Plan.Class)

def renders : List WriteStep :=
  plan.variableSized.map fun f => .render (slotOf f) (outline f.shape)

def lengths : List WriteStep :=
  plan.variableSized.filterMap fun f => f.head.lengthField.map fun holder =>
    .setLength (holderSlot plan holder) (numberType holder.carrier) (slotOf f)

def outputs : List WriteStep :=
  (if plan.parent.isSome then [.header] else []) ++
    plan.fixed.map (fun f => .fixed (slotOf f) f.head.transform) ++
      plan.variableSized.map fun f => .payload (slotOf f)

theorem writeSteps_eq : writeSteps plan = renders plan ++ (lengths plan ++ outputs plan) := by
  simp [writeSteps,renders,lengths,outputs]

variable {plan} {s : WriteStep}

theorem mem_renders : s ∈ renders plan ↔
    ∃ f ∈ plan.variableSized, s = .render (slotOf f) (outline f.shape) := by
  simp [renders,eq_comm]

theorem mem_lengths : s ∈ lengths plan ↔
    ∃ f ∈ plan.variableSized, ∃ holder, f.head.lengthField = some holder ∧
      s = .setLength (holderSlot plan holder) (numberType holder.carrier) (slotOf f) := by
  simp [lengths,eq_comm]

theorem phase_renders (h : s ∈ renders plan) : s.phase = 0 := by
  obtain ⟨f,-,rfl⟩ := mem_renders.mp h
  rfl

theorem phase_lengths (h : s ∈ lengths plan) : s.phase = 1 := by
  obtain ⟨f,-,holder,-,rfl⟩ := mem_lengths.mp h
  rfl

theorem phase_outputs (h : s ∈ outputs plan) : s.phase = 2 := by
  simp only [outputs,List.mem_append,List.mem_map] at h
  rcases h with (h | ⟨f,-,rfl⟩) | ⟨f,-,rfl⟩
  · split at h
    · rw [List.mem_singleton.mp h]
      rfl
    · cases h
  · rfl
  · rfl

omit [Casing] in
theorem pairwise_of_phase {steps : List WriteStep} {n : Nat} (h : ∀ s ∈ steps, s.phase = n) :
    steps.Pairwise fun a b => a.phase ≤ b.phase :=
  List.pairwise_of_forall_mem_list fun a ha b hb => by rw [h a ha,h b hb]

theorem writeSteps_ordered : (writeSteps plan).Pairwise fun a b => a.phase ≤ b.phase := by
  rw [writeSteps_eq,List.pairwise_append,List.pairwise_append]
  refine ⟨pairwise_of_phase fun _ => phase_renders,⟨pairwise_of_phase fun _ => phase_lengths,
    pairwise_of_phase fun _ => phase_outputs,?_⟩,?_⟩
  · intro a ha b hb
    rw [phase_lengths ha,phase_outputs hb]
    decide
  · intro a ha b _
    rw [phase_renders ha]
    exact Nat.zero_le _

theorem writeSteps_segments : (writeSteps plan).filterMap WriteStep.segment? = walk plan := by
  have hfront : ∀ s ∈ renders plan ++ lengths plan, s.segment? = none := by
    intro s hs
    refine WriteStep.segment?_of_phase ?_
    rcases List.mem_append.mp hs with hs | hs
    · rw [phase_renders hs]
      decide
    · rw [phase_lengths hs]
  have hheader : (if plan.parent.isSome then [WriteStep.header] else []).filterMap
      WriteStep.segment? = if plan.parent.isSome then [Segment.header] else [] := by
    split <;> rfl
  rw [writeSteps_eq,← List.append_assoc,List.filterMap_append,List.filterMap_eq_nil_iff.mpr hfront,
    outputs,List.filterMap_append,List.filterMap_append,hheader]
  simp [walk,Plan.Class.wireOrder,List.filterMap_map,Function.comp_def,WriteStep.segment?]

theorem setLength_between {front back : List WriteStep} {holder slot : Slot} {type : Text}
    (h : writeSteps plan = front ++ .setLength holder type slot :: back) :
    (∃ shape, .render slot shape ∈ front) ∧ ∀ s ∈ front, s.segment? = none := by
  have hordered : (writeSteps plan).Pairwise fun a b => a.phase ≤ b.phase := writeSteps_ordered
  rw [h,List.pairwise_append,List.pairwise_cons] at hordered
  obtain ⟨-,⟨hback,-⟩,hfront⟩ := hordered
  refine ⟨?_,fun s hs => WriteStep.segment?_of_phase (hfront s hs _ List.mem_cons_self)⟩
  have hmem : WriteStep.setLength holder type slot ∈ writeSteps plan := by simp [h]
  have hlength : WriteStep.setLength holder type slot ∈ lengths plan := by
    rw [writeSteps_eq,List.mem_append,List.mem_append] at hmem
    rcases hmem with hmem | hmem | hmem
    · cases phase_renders hmem
    · exact hmem
    · cases phase_outputs hmem
  obtain ⟨f,hf,k,-,heq⟩ := mem_lengths.mp hlength
  obtain ⟨-,-,rfl⟩ := WriteStep.setLength.inj heq
  have hrender : WriteStep.render (slotOf f) (outline f.shape) ∈ writeSteps plan := by
    rw [writeSteps_eq]
    exact List.mem_append_left _ (mem_renders.mpr ⟨f,hf,rfl⟩)
  rw [h] at hrender
  rcases List.mem_append.mp hrender with hrender | hrender
  · exact ⟨_,hrender⟩
  · rcases List.mem_cons.mp hrender with heq | hrender
    · cases heq
    · exact absurd (hback _ hrender) (by simp [WriteStep.phase])

theorem holderSlot_eq (hplan : plan.WellFormed) {f : PlanField} (hf : f ∈ plan.fields)
    {holder : Plan.Holder} (hl : f.head.lengthField = some holder) :
    ∃ g ∈ plan.fixed, g.Measures f ∧ g.name = holder.name ∧ holderSlot plan holder = slotOf g := by
  obtain ⟨g,hg,⟨carrier,hshape,hlink⟩,-⟩ := hplan.framed f hf (by simp [hl])
  have hlink' := hlink
  rw [hl] at hlink'
  cases hlink'
  have hfixed : g.isFixed = true :=
    (Record.isFixed_iff g).mpr ((hplan.fixed g hg).mpr (.inl ⟨carrier,hshape⟩))
  refine ⟨g,List.mem_filter.mpr ⟨hg,hfixed⟩,⟨carrier,hshape,hlink⟩,rfl,?_⟩
  have hfind : plan.field? g.name = some g := find?_of_mem hplan.names hg
  simp only [holderSlot,hfind]

theorem setLength_mem (hplan : plan.WellFormed) {f : PlanField} (hf : f ∈ plan.fields)
    {holder : Plan.Holder} (hl : f.head.lengthField = some holder) :
    ∃ g ∈ plan.fixed, g.Measures f ∧ g.name = holder.name ∧
      .setLength (slotOf g) (numberType holder.carrier) (slotOf f) ∈ writeSteps plan := by
  obtain ⟨g,hg,hmeasures,hname,hslot⟩ := holderSlot_eq hplan hf hl
  have hvariable : f ∈ plan.variableSized := by
    have hzero := hplan.payloads f hf (by simp [hl])
    refine List.mem_filter.mpr ⟨hf,?_⟩
    simp only [Plan.Field.size] at hzero
    simp [Plan.Field.isFixed,hzero]
  refine ⟨g,hg,hmeasures,hname,?_⟩
  rw [writeSteps_eq,List.mem_append,List.mem_append,← hslot]
  exact .inr (.inl (mem_lengths.mpr ⟨f,hvariable,holder,hl,rfl⟩))

end Writes

section Reads

variable {b : Batch} {plan : Plan.Class} {f : PlanField} {step : ReadStep} {imports : Imports}

theorem readFixed_segment (h : (readFixed b f imports).1 = .ok step) :
    step.segment = .field (slotOf f) := by
  unfold readFixed at h
  obtain ⟨_,_,-,h⟩ := bind_rendered h
  obtain ⟨_,_,-,h⟩ := bind_rendered h
  split at h
  · obtain ⟨_,_,-,h⟩ := bind_rendered h
    cases h
    rfl
  · cases h
    rfl

theorem readVariable_segment (h : (readVariable b plan f imports).1 = .ok step) :
    step.segment = .field (slotOf f) := by
  unfold readVariable at h
  cases hshape : f.shape with
  | nested inner =>
    cases hl : f.head.lengthField with
    | none =>
      simp only [hshape,hl,Option.map_none] at h
      cases h
      rfl
    | some holder =>
      simp only [hshape,hl,Option.map_some] at h
      obtain ⟨_,h⟩ := noted_rendered h
      obtain ⟨_,_,-,h⟩ := bind_rendered h
      cases h
      rfl
  | external type =>
    simp only [hshape] at h
    obtain ⟨_,h⟩ := noted_rendered h
    obtain ⟨_,_,-,h⟩ := bind_rendered h
    obtain ⟨_,_,-,h⟩ := bind_rendered h
    cases h
    rfl
  | scalar carrier =>
    simp only [hshape] at h
    obtain ⟨_,h⟩ := noted_rendered h
    obtain ⟨_,_,-,h⟩ := bind_rendered h
    cases h
    rfl
  | array carrier count =>
    simp only [hshape] at h
    obtain ⟨_,h⟩ := noted_rendered h
    obtain ⟨_,_,-,h⟩ := bind_rendered h
    cases h
    rfl
  | slice carrier =>
    simp only [hshape] at h
    obtain ⟨_,h⟩ := noted_rendered h
    obtain ⟨_,_,-,h⟩ := bind_rendered h
    cases h
    rfl

theorem readSteps_segments {steps : List ReadStep} (h : (readSteps b plan imports).1 = .ok steps) :
    steps.map ReadStep.segment = walk plan := by
  unfold readSteps at h
  obtain ⟨_,_,-,h⟩ := bind_rendered h
  obtain ⟨fixed,_,hfixed,h⟩ := bind_rendered h
  obtain ⟨rest,_,hrest,h⟩ := bind_rendered h
  cases h
  have hfixed' : fixed.map ReadStep.segment = plan.fixed.map fun f => .field (slotOf f) :=
    map_eq_of_forall₂ (fun _ _ ⟨_,hstep⟩ => readFixed_segment hstep) (mapM_rendered hfixed)
  have hrest' : rest.map ReadStep.segment = plan.variableSized.map fun f => .field (slotOf f) :=
    map_eq_of_forall₂ (fun _ _ ⟨_,hstep⟩ => readVariable_segment hstep) (mapM_rendered hrest)
  have hheader : (if plan.parent.isSome then [ReadStep.header] else []).map ReadStep.segment =
      if plan.parent.isSome then [Segment.header] else [] := by
    split <;> rfl
  rw [List.map_append,List.map_append,hheader,hfixed',hrest',walk,Plan.Class.wireOrder,
    List.map_append,List.append_assoc]

end Reads

/-- How the methods of a class go through its layout. -/
structure Walks (plan : Plan.Class) (code : ClassCode) : Prop where
  text : ∃ front, code.lines = front ++
    (code.methodLines "Serialize(w io.Writer)" (code.writes.flatMap WriteStep.lines) ++
      code.methodLines "Deserialize(r io.Reader)" (code.reads.flatMap ReadStep.lines))
  writes : code.writes.filterMap WriteStep.segment? = walk plan
  reads : code.reads.map ReadStep.segment = walk plan
  once : (walk plan).Nodup
  measured : ∀ f ∈ plan.fields, ∀ holder, f.head.lengthField = some holder →
    ∃ g ∈ plan.fixed, g.Measures f ∧ g.name = holder.name ∧
      .setLength (slotOf g) (numberType holder.carrier) (slotOf f) ∈ code.writes
  between : ∀ front holder type slot back,
    code.writes = front ++ .setLength holder type slot :: back →
      (∃ shape, .render slot shape ∈ front) ∧ ∀ s ∈ front, s.segment? = none

omit [Casing] in
theorem lines_methods (code : ClassCode) : ∃ front, code.lines = front ++
    (code.methodLines "Serialize(w io.Writer)" (code.writes.flatMap WriteStep.lines) ++
      code.methodLines "Deserialize(r io.Reader)" (code.reads.flatMap ReadStep.lines)) := by
  have hcat : ∀ (front : List Lines) (first second : Lines),
      Lines.cat (front ++ [first,second]) = Lines.cat front ++ (first ++ second) := by
    simp [Lines.cat]
  exact ⟨_,hcat [_,_,_,_,_] _ _⟩

theorem classCode_walks {b : Batch} {plan : Plan.Class} (hplan : plan.WellFormed)
    {imports : Imports} {code : ClassCode} (h : (classCode b plan imports).1 = .ok code) :
    Walks plan code := by
  have hfrom := classCode_from h
  obtain ⟨_,hreads⟩ := hfrom.reads
  have hslots := slots_nodup hfrom.idents
  have horder : plan.wireOrder.Perm plan.fields := List.filter_append_perm _ _
  have hfields : (plan.wireOrder.map fun f => Segment.field (slotOf f)).Nodup := by
    have hmap : (plan.wireOrder.map fun f => Segment.field (slotOf f)) =
        (plan.wireOrder.map slotOf).map Segment.field := by simp [Function.comp_def]
    rw [hmap]
    exact ((horder.map slotOf).nodup_iff.mpr hslots).map fun a b hab => Segment.field.inj hab
  have honce : (walk plan).Nodup := by
    rw [walk]
    split
    · exact List.nodup_cons.mpr ⟨by simp,hfields⟩
    · exact hfields
  refine ⟨lines_methods _,?_,readSteps_segments hreads,honce,?_,?_⟩
  · rw [hfrom.writes]
    exact writeSteps_segments
  · intro f hf holder hl
    rw [hfrom.writes]
    exact setLength_mem hplan hf hl
  · intro front holder type slot back hsplit
    rw [hfrom.writes] at hsplit
    exact setLength_between hsplit

end WireSchema.Artifact

namespace WireSchema.Plan

/-- The fields of a layout are the properties that are written, each once. -/
structure Class.Written (plan : Class) : Prop where
  order : plan.wireOrder.Perm plan.fields
  names : (plan.wireOrder.map Field.name).Nodup
  properties : plan.fields.map (fun f => f.head.property) = plan.decl.properties.filter isWritten
  kept : ∀ f ∈ plan.wireOrder,
    f.head.property.removed = false ∧ f.head.property.flag ≠ some .const

theorem Laid.written {schema : Schema} {supportsGc : Bool} {plan : Class}
    (h : Laid schema supportsGc plan) (hplan : plan.WellFormed) : plan.Written := by
  have horder : plan.wireOrder.Perm plan.fields := List.filter_append_perm _ _
  refine ⟨horder,(horder.map Field.name).nodup_iff.mpr hplan.names,?_,?_⟩
  · have hmap : plan.fields.map (fun f => f.head.property) =
        (plan.fields.map Field.head).map Head.property := by simp [Function.comp_def]
    rw [hmap,h.heads]
    simp [Function.comp_def,headOf]
  · intro f hf
    obtain ⟨p,hp⟩ := h.property (horder.mem_iff.mp hf)
    have hproperty : f.head.property = p := by rw [hp.head]; rfl
    have hwritten := hp.written
    rw [hproperty]
    simpa [isWritten] using hwritten

end WireSchema.Plan

namespace WireSchema.Codec

/-- The methods of a class and a codec go the same way through a layout: the header exactly if there
is one, then each property that is written, once and in the order of the wire. -/
theorem methods_walk [Artifact.Casing] {path : Text} {doc : Document} {schema : Schema}
    {ws : List Schema.Warning} (h : Schema.compile path doc = .ok (schema,ws)) (supportsGc : Bool)
    (calls : List Planner.Call) {c : Schema.Class} (hc : c ∈ schema.classes) {plan : Plan.Class}
    (hplan : (((Planner.new schema supportsGc).after calls).layout c).1 = .ok plan)
    {b : Artifact.Batch} {imports : Artifact.Imports} {code : Artifact.ClassCode}
    (hcode : (Artifact.classCode b plan imports).1 = .ok code) :
    plan.Written ∧ Artifact.Walks plan code ∧
    (∀ reg r bytes, (Record.encode reg plan r).1 = .ok bytes → ∃ header parts,
      (Record.encodeHeader reg plan.parent r.header).1 = .ok header ∧
      bytes = header ++ parts.flatten ∧
      List.Forall₂ (fun f part => Record.writeField reg r.fields
        (Record.encode reg plan r).2.fields f = .ok part) plan.wireOrder parts) ∧
    ∀ reg input, Record.decode reg plan input = do
      let (header,input) ← Record.decodeHeader reg plan.parent input
      let (values,input) ← plan.wireOrder.foldlM (Record.readField reg plan.name) ([],input)
      return (.mk plan.name header values,input) := by
  have hs := Schema.sound_of_compile h
  have hplanner : Planner.Sound schema supportsGc ((Planner.new schema supportsGc).after calls) :=
    Planner.sound_after hs calls
  obtain ⟨-,hlaid⟩ := (hplanner.layout hs hc).2 plan hplan
  have hwf := hlaid.own.wellFormed hs
  exact ⟨hlaid.own.written hwf,Artifact.classCode_walks hwf hcode,
    fun reg r bytes hbytes => Record.encode_parts hwf hbytes,
    fun reg input => Record.decode_eq_foldlM reg plan input⟩

def helloClass : Schema.Class := (helloSchema.class? "MsgHello").getD default

def helloBatch : Artifact.Batch := ⟨helloSchema,"hello",true,true,"hello",[]⟩

def helloPlan : Plan.Class :=
  ((Planner.new helloSchema true).layout helloClass).1.toOption.getD default

theorem layout_hello : ((Planner.new helloSchema true).layout helloClass).1 = .ok helloPlan := by
  obtain ⟨plan,h⟩ : ∃ plan, ((Planner.new helloSchema true).layout helloClass).1 = .ok plan :=
    Result.exists_of_isOk (by decide +kernel)
  simp [helloPlan,h,Except.toOption]

theorem hello_walk : ∃ code, helloClass ∈ helloSchema.classes ∧
    (Artifact.classCode helloBatch helloPlan []).1 = .ok code ∧
    helloPlan.Written ∧ Artifact.Walks helloPlan code := by
  obtain ⟨ws,hcompile⟩ := compile_hello
  have hclass : helloClass ∈ helloSchema.classes := by decide +kernel
  obtain ⟨code,hcode⟩ : ∃ code, (Artifact.classCode helloBatch helloPlan []).1 = .ok code :=
    Result.exists_of_isOk (by decide +kernel)
  obtain ⟨hwritten,hwalks,-⟩ := methods_walk hcompile true [] hclass layout_hello hcode
  exact ⟨code,hclass,hcode,hwritten,hwalks⟩

end WireSchema.Codec
