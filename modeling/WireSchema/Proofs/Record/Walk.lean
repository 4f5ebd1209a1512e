import WireSchema.Proofs.Record.Steps
import WireSchema.Proofs.Record.Wire
set_option autoImplicit false

namespace WireSchema.Record

variable {reg : Registry} {className : Text} {f : Plan.Field Plan.Class}
  {fields : List (Plan.Field Plan.Class)}

/-- One step of reading: the value of a field, and what is left of the input. -/
def readField (reg : Registry) (className : Text) (state : Fields × Text)
    (f : Plan.Field Plan.Class) : Except Fault (Fields × Text) := do
  let (value,rest) ← within className f.name
    (if f.isFixed then decodeFixedField f state.2 else decodePayload reg f state.1 state.2)
  return (state.1.set f.name value,rest)

theorem decodeFixed_eq_foldlM (reg : Registry) (className : Text)
    (fields : List (Plan.Field Plan.Class)) (values : Fields) (input : Text) :
    decodeFixed className fields values input =
      (fields.filter Plan.Field.isFixed).foldlM (readField reg className) (values,input) := by
  induction fields generalizing values input with
  | nil => rfl
  | cons f fields ih =>
    rw [decodeFixed]
    cases hfixed : f.isFixed with
    | false => simpa [hfixed] using ih values input
    | true =>
      simp only [if_true,List.filter_cons,hfixed,List.foldlM_cons,readField,bind_assoc]
      congr 1
      funext x
      simpa using ih (values.set f.name x.1) x.2

theorem decodePayloads_eq_foldlM (reg : Registry) (className : Text)
    (fields : List (Plan.Field Plan.Class)) (values : Fields) (input : Text) :
    decodePayloads reg className fields values input =
      (fields.filter fun f => !f.isFixed).foldlM (readField reg className) (values,input) := by
  induction fields generalizing values input with
  | nil => simp [decodePayloads]
  | cons f fields ih =>
    rw [decodePayloads_cons]
    cases hfixed : f.isFixed with
    | true => simpa [hfixed] using ih values input
    | false =>
      simp only [List.filter_cons,hfixed,Bool.not_false,if_true,List.foldlM_cons,readField,
        bind_assoc,Bool.false_eq_true,if_false]
      congr 1
      funext x
      simpa using ih (values.set f.name x.1) x.2

theorem decode_eq_foldlM (reg : Registry) (plan : Plan.Class) (input : Text) :
    decode reg plan input = do
      let (header,input) ← decodeHeader reg plan.parent input
      let (values,input) ← plan.wireOrder.foldlM (readField reg plan.name) ([],input)
      return (.mk plan.name header values,input) := by
  simp only [decode_eq,Plan.Class.wireOrder,List.foldlM_append,decodeFixed_eq_foldlM reg,
    decodePayloads_eq_foldlM,bind_assoc]
  rfl

/-- The bytes of a field, from the values before the writing and those after it: a length is
written as it has been set, and a payload as it was given. -/
def writeField (reg : Registry) (before after : Fields) (f : Plan.Field Plan.Class) :
    Except Fault Text :=
  if f.isFixed then encodeFixedField f ((after.get? f.name).getD .nil)
  else (encodePayload reg f before).1

theorem encodeFixed_parts (reg : Registry) (before : Fields) {after : Fields} {bytes : Text}
    (h : encodeFixed className after fields = .ok bytes) :
    ∃ parts, bytes = parts.flatten ∧
      List.Forall₂ (fun f part => writeField reg before after f = .ok part)
        (fields.filter Plan.Field.isFixed) parts := by
  induction fields generalizing bytes with
  | nil =>
    cases h
    exact ⟨[],rfl,.nil⟩
  | cons f fields ih =>
    rw [encodeFixed] at h
    cases hfixed : f.isFixed with
    | false =>
      simp only [hfixed,Bool.false_eq_true,if_false] at h
      simpa [hfixed] using ih h
    | true =>
      simp only [hfixed,if_true,Result.bind_eq_ok,Result.pure_eq_ok,Except.ok.injEq] at h
      obtain ⟨part,hpart,more,hmore,rfl⟩ := h
      obtain ⟨parts,rfl,hparts⟩ := ih hmore
      have hwritten : writeField reg before after f = .ok part := by
        rw [writeField,if_pos hfixed]
        exact Result.mapError_eq_ok.mp hpart
      refine ⟨part :: parts,by simp,?_⟩
      rw [List.filter_cons_of_pos hfixed]
      exact .cons hwritten hparts

theorem encodePayload_congr {values other : Fields} (h : values.get? f.name = other.get? f.name) :
    (encodePayload reg f values).1 = (encodePayload reg f other).1 := by
  unfold encodePayload
  rw [h]
  cases f.shape with
  | nested plan =>
    simp only
    cases recordIn ((other.get? f.name).getD .nil) <;> rfl
  | _ => rfl

theorem get?_encodePayload {values : Fields} {name : Text} (h : name ≠ f.name) :
    (encodePayload reg f values).2.get? name = values.get? name := by
  have hkeep (r : Option Record) : (keep f.name values r).get? name = values.get? name := by
    cases r with
    | none => rfl
    | some r => rw [keep,Fields.get?_set,if_neg h]
  unfold encodePayload
  cases f.shape with
  | nested plan =>
    simp only
    cases recordIn ((values.get? f.name).getD .nil) with
    | error fault => rfl
    | ok r => exact hkeep _
  | _ => rfl

theorem get?_setLength {holder : Option Plan.Holder} {payload : Text} {values set : Fields}
    (h : setLength holder payload values = .ok set) {name : Text}
    (hname : ∀ k, holder = some k → k.name ≠ name) : set.get? name = values.get? name := by
  cases holder with
  | none =>
    cases h
    rfl
  | some k =>
    obtain ⟨bits,-,rfl⟩ := setLength_some_eq_ok.mp h
    rw [Fields.get?_set,if_neg (hname k rfl).symm]

theorem encodeThen_inv {name : Text} {holder : Option Plan.Holder}
    {next : Fields → Except Fault Text × Fields} {payload : Except Fault Text × Fields}
    {bytes : Text} (h : (encodeThen className name holder next payload).1 = .ok bytes) :
    ∃ part values more, payload.1 = .ok part ∧ setLength holder part payload.2 = .ok values ∧
      (next values).1 = .ok more ∧ bytes = part ++ more := by
  unfold encodeThen at h
  split at h
  · cases h
  · rename_i part values hpart
    have hset := Result.mapError_eq_ok.mp hpart
    simp only [Result.bind_eq_ok,Result.pure_eq_ok,Except.ok.injEq,Prod.mk.injEq] at hset
    obtain ⟨_,hpayload,updated,hlength,rfl,rfl⟩ := hset
    cases hnext : (next updated).1 with
    | error fault => simp [hnext,Except.map] at h
    | ok more =>
      simp only [hnext,Except.map,Except.ok.injEq] at h
      exact ⟨_,_,_,hpayload,hlength,hnext,h.symm⟩

theorem encodePayloads_inv (hfixed : f.isFixed = false) {values : Fields} {bytes : Text}
    (h : (encodePayloads reg className (f :: fields) values).1 = .ok bytes) :
    ∃ part after more, (encodePayload reg f values).1 = .ok part ∧
      setLength f.head.lengthField part (encodePayload reg f values).2 = .ok after ∧
      (encodePayloads reg className fields after).1 = .ok more ∧ bytes = part ++ more := by
  rw [encodePayloads_cons,if_neg (by simp [hfixed])] at h
  exact encodeThen_inv h

theorem Arranged.get?_behind (h : Arranged (f :: fields)) {values after : Fields} {part : Text}
    (hset : setLength f.head.lengthField part (encodePayload reg f values).2 = .ok after)
    {g : Plan.Field Plan.Class} (hg : g ∈ fields) (hvariable : g.isFixed = false) :
    after.get? g.name = values.get? g.name := by
  have hother : g.name ≠ f.name := h.other hg
  have hholder : ∀ k, f.head.lengthField = some k → k.name ≠ g.name :=
    h.apart g (by simp [hg]) hvariable f (by simp)
  rw [get?_setLength hset hholder,get?_encodePayload hother]

/-- Payloads are written as they were given: none sees the lengths that have been set and the
records that have been written in front of it. -/
theorem encodePayloads_parts (hfields : Arranged fields) (after : Fields) {given values : Fields}
    (hgiven : ∀ f ∈ fields, f.isFixed = false → values.get? f.name = given.get? f.name)
    {bytes : Text} (h : (encodePayloads reg className fields values).1 = .ok bytes) :
    ∃ parts, bytes = parts.flatten ∧
      List.Forall₂ (fun f part => writeField reg given after f = .ok part)
        (fields.filter fun f => !f.isFixed) parts := by
  induction fields generalizing values bytes with
  | nil =>
    simp only [encodePayloads,Except.ok.injEq] at h
    exact ⟨[],h.symm,.nil⟩
  | cons f fields ih =>
    cases hfixed : f.isFixed with
    | true =>
      rw [encodePayloads_of_fixed hfixed] at h
      simpa [hfixed] using ih hfields.tail (fun g hg => hgiven g (by simp [hg])) h
    | false =>
      obtain ⟨part,updated,more,hpart,hset,hmore,rfl⟩ := encodePayloads_inv hfixed h
      have hback : ∀ g ∈ fields, g.isFixed = false → updated.get? g.name = given.get? g.name :=
        fun g hg hvariable =>
          (hfields.get?_behind hset hg hvariable).trans (hgiven g (by simp [hg]) hvariable)
      obtain ⟨parts,rfl,hparts⟩ := ih hfields.tail hback hmore
      have hfirst : writeField reg given after f = .ok part := by
        simp only [writeField,hfixed,Bool.false_eq_true,if_false]
        exact (encodePayload_congr (hgiven f (by simp) hfixed)).symm.trans hpart
      refine ⟨part :: parts,by simp,?_⟩
      simpa [List.filter_cons,hfixed] using ⟨hfirst,hparts⟩

theorem encode_parts {plan : Plan.Class} (hplan : plan.WellFormed) {r : Record} {bytes : Text}
    (h : (encode reg plan r).1 = .ok bytes) :
    ∃ header parts, (encodeHeader reg plan.parent r.header).1 = .ok header ∧
      bytes = header ++ parts.flatten ∧
      List.Forall₂ (fun f part =>
        writeField reg r.fields (encode reg plan r).2.fields f = .ok part)
          plan.wireOrder parts := by
  have hfields := arranged_of_wellFormed hplan
  rw [encode_eq] at h ⊢
  cases hpayloads : encodePayloads reg plan.name plan.fields r.fields with
  | mk result values =>
    rw [hpayloads] at h
    cases result with
    | error fault => cases h
    | ok payloads =>
      simp only [encodeAround,Result.bind_eq_ok,Result.pure_eq_ok,Except.ok.injEq] at h ⊢
      obtain ⟨header,hheader,fixed,hfixed,rfl⟩ := h
      have hwritten : (encodePayloads reg plan.name plan.fields r.fields).1 = .ok payloads := by
        rw [hpayloads]
      obtain ⟨fixedParts,rfl,hfixedParts⟩ := encodeFixed_parts reg r.fields hfixed
      obtain ⟨payloadParts,rfl,hpayloadParts⟩ :=
        encodePayloads_parts hfields values (fun _ _ _ => rfl) hwritten
      exact ⟨header,fixedParts ++ payloadParts,hheader,by simp,
        List.rel_append hfixedParts hpayloadParts⟩

end WireSchema.Record
