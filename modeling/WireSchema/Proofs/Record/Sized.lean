import WireSchema.Proofs.Plan.Lineage
import WireSchema.Proofs.Record.PrefixFree
import WireSchema.Proofs.Record.Walk
set_option autoImplicit false

/-!
Fields of fixed size. Their readers take as many bytes as the layout says, whatever these are, and
fail on fewer; their writers give as many. So a class that has no other fields, in itself and in its
ancestors, has one length on the wire.
-/

namespace WireSchema.Record

/-- A reader that takes so many bytes: it fails on fewer because they end too early, and on no
others. -/
def Sized {α : Type} (size : Nat) (read : Text → Except Fault (α × Text)) : Prop :=
  ∀ input, (input.length < size → ∃ fault, read input = .error fault ∧ fault.IsShort) ∧
    (size ≤ input.length → ∃ a, read input = .ok (a,input.drop size))

section Sized

variable {α β : Type} {m n : Nat}

theorem Sized.pure (a : α) : Sized 0 fun input => .ok (a,input) :=
  fun _ => ⟨fun h => absurd h (Nat.not_lt_zero _),fun _ => ⟨a,rfl⟩⟩

theorem Sized.bind {x : Text → Except Fault (α × Text)} {f : α → Text → Except Fault (β × Text)}
    (hx : Sized m x) (hf : ∀ a, Sized n (f a)) :
    Sized (m + n) fun input => x input >>= fun r => f r.1 r.2 := by
  intro input
  by_cases hfirst : input.length < m
  · obtain ⟨fault,hfault,hshort⟩ := (hx input).1 hfirst
    refine ⟨fun _ => ⟨fault,by simp only [hfault,Result.error_bind],hshort⟩,fun henough => ?_⟩
    omega
  · obtain ⟨a,ha⟩ := (hx input).2 (by omega)
    have hleft : (input.drop m).length = input.length - m := List.length_drop
    simp only [ha,Result.ok_bind]
    refine ⟨fun hless => (hf a (input.drop m)).1 (by omega),fun henough => ?_⟩
    obtain ⟨b,hb⟩ := (hf a (input.drop m)).2 (by omega)
    exact ⟨b,by rw [hb,List.drop_drop]⟩

theorem Sized.map {x : Text → Except Fault (α × Text)} (hx : Sized m x) (g : α → β) :
    Sized m fun input => x input >>= fun r => .ok (g r.1,r.2) :=
  hx.bind fun a => Sized.pure (g a)

theorem Sized.within {x : Text → Except Fault (α × Text)} (hx : Sized m x)
    (className field : Text) : Sized m fun input => within className field (x input) := by
  intro input
  refine ⟨fun hless => ?_,fun henough => ?_⟩
  · obtain ⟨fault,hfault,hshort⟩ := (hx input).1 hless
    exact ⟨_,Result.mapError_eq_error.mpr ⟨fault,hfault,rfl⟩,hshort⟩
  · obtain ⟨a,ha⟩ := (hx input).2 henough
    exact ⟨a,Result.mapError_eq_ok.mpr ha⟩

theorem Sized.whole {x : Text → Except Fault (Record × Text)} (hx : Sized m x) (input : Text) :
    ((∃ r, whole (x input) = .ok r) ↔ input.length = m) ∧
      (input.length < m → ∃ fault, whole (x input) = .error fault ∧ fault.IsShort) ∧
      (m < input.length → whole (x input) = .error (.trailing (input.length - m))) := by
  by_cases hless : input.length < m
  · obtain ⟨fault,hfault,hshort⟩ := (hx input).1 hless
    have hwhole : Record.whole (x input) = .error fault := by rw [hfault]; rfl
    refine ⟨⟨?_,fun heq => by omega⟩,fun _ => ⟨fault,hwhole,hshort⟩,fun hmore => by omega⟩
    rintro ⟨r,hr⟩
    rw [hwhole] at hr
    cases hr
  · obtain ⟨r,hr⟩ := (hx input).2 (by omega)
    have hleft : (input.drop m).length = input.length - m := List.length_drop
    by_cases hsame : input.length = m
    · have hnil : input.drop m = [] := List.drop_eq_nil_of_le (by omega)
      have hwhole : Record.whole (x input) = .ok r := by rw [hr,hnil]; rfl
      exact ⟨⟨fun _ => hsame,fun _ => ⟨r,hwhole⟩⟩,fun h => by omega,fun h => by omega⟩
    · have hsome : (input.drop m).isEmpty = false := by
        rw [List.isEmpty_eq_false_iff]
        exact List.ne_nil_of_length_pos (by omega)
      have hwhole : Record.whole (x input) = .error (.trailing (input.length - m)) := by
        rw [hr,← hleft]
        simp only [Record.whole,Result.ok_bind,hsome,Bool.false_eq_true,if_false]
      refine ⟨⟨?_,fun h => absurd h hsame⟩,fun h => absurd h hless,fun _ => hwhole⟩
      rintro ⟨r,hr⟩
      rw [hwhole] at hr
      cases hr

end Sized

theorem readBits_sized (size : Nat) : Sized size (readBits size) := by
  intro input
  unfold readBits
  refine ⟨fun hless => ⟨.payload .unexpectedEnd,if_pos hless,rfl⟩,fun henough => ?_⟩
  exact ⟨load (input.take size),if_neg (by omega)⟩

theorem readMany_sized (size count : Nat) : Sized (size * count) (readMany size count) := by
  induction count with
  | zero => exact Sized.pure []
  | succ count ih =>
    rw [Nat.mul_succ,Nat.add_comm]
    exact (readBits_sized size).bind fun bits => ih.map (bits :: ·)

theorem decodeFixedField_sized {f : Plan.Field Plan.Class} (hf : Regular f)
    (hfixed : f.isFixed = true) : Sized f.size (decodeFixedField f) := by
  unfold decodeFixedField
  rw [hf.size]
  rcases hf.fixed.mp ((isFixed_iff f).mp hfixed) with ⟨carrier,hshape⟩ | ⟨carrier,count,hshape⟩
  · simp only [hshape,Plan.Shape.fixedSize]
    exact (readBits_sized carrier.size).map fun bits =>
      scalarValue f.head.transform (some carrier) (unmaskBits f.head.transform bits)
  · simp only [hshape,Plan.Shape.fixedSize]
    exact (readMany_sized carrier.size count).map (numbers carrier)

theorem decodeFixed_sized (className : Text) {fields : List (Plan.Field Plan.Class)}
    (hfields : ∀ f ∈ fields, Regular f) (values : Fields) :
    Sized (fields.map Plan.Field.size).sum (decodeFixed className fields values) := by
  induction fields generalizing values with
  | nil => exact Sized.pure values
  | cons f fields ih =>
    have hrest : ∀ g ∈ fields, Regular g := fun g hg => hfields g (by simp [hg])
    rw [List.map_cons,List.sum_cons]
    cases hfixed : f.isFixed with
    | true =>
      simp only [decodeFixed,hfixed,if_true]
      exact ((decodeFixedField_sized (hfields f (by simp)) hfixed).within className f.name).bind
        fun value => ih hrest (values.set f.name value)
    | false =>
      simp only [decodeFixed,hfixed,Bool.false_eq_true,if_false]
      rw [size_of_not_isFixed hfixed,Nat.zero_add]
      exact ih hrest values

theorem decode_sized (reg : Registry) {plan : Plan.Class} (h : plan.Forall Plan.Class.WellFormed)
    (hfixed : ∀ a ∈ plan.lineage, a.variableSized = []) :
    Sized plan.wireSize (decode reg plan) := by
  induction h with
  | @mk plan hwf _ _ hparent _ =>
    rw [Plan.Class.lineage_eq] at hfixed
    have hheader : Sized ((plan.parent.map Plan.Class.wireSize).getD 0)
        (decodeHeader reg plan.parent) := by
      cases hp : plan.parent with
      | none => exact Sized.pure none
      | some p => exact (hparent p hp fun a ha => hfixed a (by simp [hp,ha])).map some
    have hpayloads : ∀ values, decodePayloads reg plan.name plan.fields values =
        fun input => .ok (values,input) := by
      intro values
      funext input
      have hnone : plan.fields.filter (fun f => !f.isFixed) = [] := hfixed plan (by simp)
      rw [decodePayloads_eq_foldlM,hnone]
      rfl
    -- Without payloads the reader is the one of the header and then that of the fixed fields.
    have hread : decode reg plan = fun input =>
        decodeHeader reg plan.parent input >>= fun r =>
          decodeFixed plan.name plan.fields [] r.2 >>= fun s =>
            .ok (mk plan.name r.1 s.1,s.2) := by
      funext input
      rw [decode_eq]
      simp only [hpayloads]
      rfl
    rw [hread,Plan.Class.wireSize_eq]
    exact hheader.bind fun header =>
      (decodeFixed_sized plan.name (arranged_of_wellFormed hwf).regular []).map
        (mk plan.name header)

theorem length_encodeFixedField {f : Plan.Field Plan.Class} (hf : Regular f)
    (hfixed : f.isFixed = true) {value : Value} {bytes : Text}
    (h : encodeFixedField f value = .ok bytes) : bytes.length = f.size := by
  rw [hf.size]
  unfold encodeFixedField at h
  rcases hf.fixed.mp ((isFixed_iff f).mp hfixed) with ⟨carrier,hshape⟩ | ⟨carrier,count,hshape⟩
  · simp only [hshape] at h
    obtain ⟨bits,-,hbytes⟩ := Result.bind_eq_ok.mp h
    cases hbytes
    rw [hshape]
    exact length_store _ _
  · simp only [hshape] at h
    obtain ⟨bits,-,hbytes⟩ := Result.bind_eq_ok.mp h
    split at hbytes
    · cases hbytes
    · rename_i hcount
      cases hbytes
      have hfilled : bits.length + (count - bits.length) = count := by omega
      rw [hshape,length_flatMap_store,List.length_append,List.length_replicate,hfilled]
      rfl

theorem length_fixedParts {reg : Registry} {given values : Fields}
    {fields : List (Plan.Field Plan.Class)} (hfields : ∀ f ∈ fields, Regular f)
    {parts : List Text} (h : List.Forall₂ (fun f part => writeField reg given values f = .ok part)
      (fields.filter Plan.Field.isFixed) parts) :
    parts.flatten.length = (fields.map Plan.Field.size).sum := by
  induction fields generalizing parts with
  | nil =>
    cases h
    rfl
  | cons f fields ih =>
    have hrest : ∀ g ∈ fields, Regular g := fun g hg => hfields g (by simp [hg])
    rw [List.map_cons,List.sum_cons]
    cases hfixed : f.isFixed with
    | true =>
      rw [List.filter_cons_of_pos hfixed] at h
      cases h with
      | cons hpart hparts =>
        rw [writeField,if_pos hfixed] at hpart
        rw [List.flatten_cons,List.length_append,ih hrest hparts,
          length_encodeFixedField (hfields f (by simp)) hfixed hpart]
    | false =>
      rw [List.filter_cons_of_neg (by simp [hfixed])] at h
      rw [ih hrest h,size_of_not_isFixed hfixed,Nat.zero_add]

/-- Between the header and the first payload stand the fixed fields, in so many bytes as the layout
says. -/
theorem encode_sections {reg : Registry} {plan : Plan.Class} (hplan : plan.WellFormed) {r : Record}
    {bytes : Text} (h : (encode reg plan r).1 = .ok bytes) : ∃ header fixed payloads,
      (encodeHeader reg plan.parent r.header).1 = .ok header ∧
      bytes = header ++ fixed ++ payloads.flatten ∧ fixed.length = plan.baseSize ∧
      List.Forall₂ (fun f payload => (encodePayload reg f r.fields).1 = .ok payload)
        plan.variableSized payloads := by
  obtain ⟨header,parts,hheader,rfl,hparts⟩ := encode_parts hplan h
  obtain ⟨fixed,payloads,hfixed,hpayloads,rfl⟩ :
      ∃ fixed payloads, List.Forall₂ (fun f part =>
          writeField reg r.fields (encode reg plan r).2.fields f = .ok part) plan.fixed fixed ∧
        List.Forall₂ (fun f part =>
          writeField reg r.fields (encode reg plan r).2.fields f = .ok part) plan.variableSized
            payloads ∧ parts = fixed ++ payloads := by
    have htake := List.forall₂_take_append parts plan.fixed plan.variableSized hparts.flip
    have hdrop := List.forall₂_drop_append parts plan.fixed plan.variableSized hparts.flip
    exact ⟨_,_,htake.flip,hdrop.flip,(List.take_append_drop _ _).symm⟩
  refine ⟨header,fixed.flatten,payloads,hheader,by simp,
    length_fixedParts (arranged_of_wellFormed hplan).regular hfixed,?_⟩
  have hvariable : ∀ f ∈ plan.variableSized, f.isFixed = false :=
    fun f hf => by simpa using (List.mem_filter.mp hf).2
  refine ((List.forall₂_and_left _ _).mpr ⟨hvariable,hpayloads⟩).imp fun f payload hf => ?_
  obtain ⟨hnot,hpayload⟩ := hf
  rwa [writeField,if_neg (by simp [hnot])] at hpayload

theorem length_encode_of_fixed {reg : Registry} {plan : Plan.Class}
    (h : plan.Forall Plan.Class.WellFormed) (hfixed : ∀ a ∈ plan.lineage, a.variableSized = [])
    {r : Record} {bytes : Text} (hbytes : (encode reg plan r).1 = .ok bytes) :
    bytes.length = plan.wireSize := by
  induction h generalizing r bytes with
  | @mk plan hwf _ _ hparent _ =>
    rw [Plan.Class.lineage_eq] at hfixed
    obtain ⟨header,fixed,payloads,hheader,rfl,hlength,hpayloads⟩ := encode_sections hwf hbytes
    have hfront : header.length = (plan.parent.map Plan.Class.wireSize).getD 0 := by
      cases hp : plan.parent with
      | none =>
        rw [hp] at hheader
        cases hheader
        rfl
      | some p =>
        have hancestors : ∀ a ∈ p.lineage, a.variableSized = [] :=
          fun a ha => hfixed a (by simp [hp,ha])
        rw [hp] at hheader
        cases hr : r.header with
        | some front =>
          simp only [hr,encodeHeader,encodeOr] at hheader
          exact hparent p hp hancestors hheader
        | none =>
          simp only [hr,encodeHeader,encodeOr,Result.bind_eq_ok] at hheader
          obtain ⟨fresh,-,hfresh⟩ := hheader
          exact hparent p hp hancestors hfresh
    rw [hfixed plan (by simp)] at hpayloads
    cases hpayloads
    rw [Plan.Class.wireSize_eq,← hfront,← hlength]
    simp

end WireSchema.Record

namespace WireSchema.Codec

open Record (encodeHeader encodePayload)

variable {path : Text} {doc : Document} {schema : Schema} {ws : List Schema.Warning}
  {supportsGc : Bool} {c : Codec}

/-- A class that writes nothing but fixed sizes, as its ancestors do, has a layout, and in it one
length: bytes of that length are a record, fewer end too early, more leave something over, and every
record is written in as many. In the layout of any class the bytes between the header and the first
payload are as many as its base size, which is the sum of the sizes in the schema. -/
theorem wire_lengths (h : Schema.compile path doc = .ok (schema,ws)) {calls : List Planner.Call}
    (hc : c.planner = (Planner.new schema supportsGc).after calls) :
    (∀ decl ∈ schema.classes, decl.removed = false → schema.FixedThroughout decl →
      ∃ plan, (c.plan decl.name).1 = .ok plan ∧ (∀ a ∈ plan.lineage, a.variableSized = []) ∧
        (∀ buf, ((∃ r, (c.decode decl.name buf).1 = .ok r) ↔ buf.length = plan.wireSize) ∧
          (buf.length < plan.wireSize → ∃ fault, (c.decode decl.name buf).1 = .error fault ∧
            fault.root = .payload .unexpectedEnd) ∧
          (plan.wireSize < buf.length →
            (c.decode decl.name buf).1 = .error (.trailing (buf.length - plan.wireSize)))) ∧
        ∀ r bytes, r.className = decl.name → (c.encode r).1 = .ok bytes →
          bytes.length = plan.wireSize) ∧
    ∀ name plan, (c.plan name).1 = .ok plan →
      plan.baseSize =
        ((plan.decl.properties.filter Plan.isWritten).map schema.sizeOf).sum ∧
      ∀ r bytes, r.className = name → (c.encode r).1 = .ok bytes → ∃ header fixed payloads,
        (encodeHeader c.registry plan.parent r.header).1 = .ok header ∧
        bytes = header ++ fixed ++ payloads.flatten ∧ fixed.length = plan.baseSize ∧
        List.Forall₂ (fun f payload => (encodePayload c.registry f r.fields).1 = .ok payload)
          plan.variableSized payloads := by
  have hs := Schema.sound_of_compile h
  have hplanner : c.planner.Sound schema supportsGc := hc ▸ Planner.sound_after hs calls
  have hencode : ∀ {name plan r}, (c.plan name).1 = .ok plan → r.className = name →
      (c.encode r).1 = (Record.encode c.registry plan r).1 := by
    intro name plan r hplan hname
    rw [encode_of_plan (hname ▸ hplan)]
  refine ⟨fun decl hdecl hkept hfixed => ?_,fun name plan hplan => ?_⟩
  · have hfound : (c.planner.schema.class? decl.name).filter (!·.removed) = some decl := by
      rw [hplanner.schema,Schema.class?,Schema.decl?_of_mem_classes hs hdecl]
      simp [Schema.Decl.class?,hkept]
    have hlaidOut := (Planner.layout_iff_acyclic h supportsGc calls hdecl).1.mpr
      (hfixed.acyclic h hdecl)
    rw [← hc] at hlaidOut
    obtain ⟨plan,hlayout⟩ := hlaidOut
    have hplan : (c.plan decl.name).1 = .ok plan := by
      rw [plan_eq hfound,hlayout]
      rfl
    obtain ⟨hsame,hforall⟩ := (hplanner.layout hs hdecl).2 plan hlayout
    have hwf := hforall.imp fun _ hl => hl.wellFormed hs
    have hvariable : ∀ a ∈ plan.lineage, a.variableSized = [] :=
      fun a ha => Plan.variableSized_of_throughout hforall (hsame ▸ hfixed) ha
    refine ⟨plan,hplan,hvariable,fun buf => ?_,fun r bytes hname hbytes => ?_⟩
    · rw [decode_of_plan hplan]
      exact (Record.decode_sized c.registry hwf hvariable).whole buf
    · rw [hencode hplan hname] at hbytes
      exact Record.length_encode_of_fixed hwf hvariable hbytes
  · have hlaid := (plan_forall hs hplanner hplan).2.own
    refine ⟨hlaid.baseSize,fun r bytes hname hbytes => ?_⟩
    rw [hencode hplan hname] at hbytes
    exact Record.encode_sections (hlaid.wellFormed hs) hbytes

def moveDocument : Document where
  span := ⟨0,0⟩
  directives := []
  decls := [
    .enum ⟨⟨0,0⟩,⟨"Step",0⟩,some ⟨"sbyte",0⟩,false,[]⟩,
    .class ⟨⟨0,0⟩,⟨"Hdr",0⟩,none,none,none,[
      property (some .protoMask) none "int" "msg",
      property none none "ulong" "seq"]⟩,
    .class ⟨⟨0,0⟩,⟨"MsgMove",0⟩,none,some ⟨"Hdr",0⟩,none,[
      property (some .bool) none "byte" "back",
      property none (some "3") "ushort" "cells",
      property none none "Step" "step"]⟩]

def moveSchema : Schema :=
  ((Schema.compile [] moveDocument).toOption.map Prod.fst).getD default

theorem compile_move : ∃ ws, Schema.compile [] moveDocument = .ok (moveSchema,ws) := by
  obtain ⟨result,h⟩ : ∃ result, Schema.compile [] moveDocument = .ok result :=
    Result.exists_of_isOk (by decide +kernel)
  exact ⟨result.2,by simp [moveSchema,h,Except.toOption]⟩

theorem move_lengths : ∃ decl ∈ moveSchema.classes, decl.name = "MsgMove" ∧
    moveSchema.FixedThroughout decl ∧
    (∀ buf, (∃ r, ((new moveSchema true .empty).decode "MsgMove" buf).1 = .ok r) ↔
        buf.length = 20) ∧
    ∀ (r : Record) bytes, r.className = "MsgMove" →
      ((new moveSchema true .empty).encode r).1 = .ok bytes → bytes.length = 20 := by
  obtain ⟨ws,hcompile⟩ := compile_move
  obtain ⟨decl,hdecl,hname,hkept⟩ : ∃ decl ∈ moveSchema.classes, decl.name = "MsgMove" ∧
      decl.removed = false := by
    decide +kernel
  have hsizes : ∀ d ∈ moveSchema.classes, ∀ p ∈ d.properties, Plan.isWritten p = true →
      0 < moveSchema.sizeOf p := by
    decide +kernel
  have hfixed : moveSchema.FixedThroughout decl := fun d hd =>
    hsizes d (Schema.mem_classes_of_ancestor hdecl hd)
  have hplanner : (new moveSchema true .empty).planner = (Planner.new moveSchema true).after [] :=
    rfl
  obtain ⟨plan,hplan,-,hdecode,hencode⟩ :=
    (wire_lengths hcompile hplanner).1 decl hdecl hkept hfixed
  have hsize : plan.wireSize = 20 := by
    have hall : ((new moveSchema true .empty).plan "MsgMove").1.toOption.all
        (fun plan => plan.wireSize == 20) = true := by
      decide +kernel
    rw [hname] at hplan
    simpa [hplan,Except.toOption] using hall
  rw [hname] at hdecode hencode
  rw [hsize] at hencode
  exact ⟨decl,hdecl,hname,hfixed,fun buf => hsize ▸ (hdecode buf).1,hencode⟩

end WireSchema.Codec
