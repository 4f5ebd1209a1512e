import WireSchema.Proofs.Basic
import WireSchema.Record.Codec
set_option autoImplicit false

namespace WireSchema.Record

def decodeHeader (reg : Registry) : Option Plan.Class → Text → Except Fault (Option Record × Text)
  | none, input => .ok (none,input)
  | some p, input => do
    let (h,input) ← decode reg p input
    return (some h,input)

def decodePayload (reg : Registry) (f : Plan.Field Plan.Class) (values : Fields) (input : Text) :
    Except Fault (Value × Text) :=
  match f.shape, f.head.lengthField with
  | .nested plan, none => do
    let (r,input) ← decode reg plan input
    return (.record (some r),input)
  | .nested plan, some holder => do
    let (payload,input) ← readPayload (some holder) values input
    return (.record (some (← whole (decode reg plan payload))),input)
  | shape, holder => do
    let (payload,input) ← readPayload holder values input
    return (← decodePlain reg shape payload,input)

theorem decode_eq (reg : Registry) (plan : Plan.Class) (input : Text) :
    decode reg plan input = do
      let (header,input) ← decodeHeader reg plan.parent input
      let (values,input) ← decodeFixed plan.name plan.fields [] input
      let (values,input) ← decodePayloads reg plan.name plan.fields values input
      return (.mk plan.name header values,input) := by
  obtain ⟨decl,parent,_,_,fields,_⟩ := plan
  cases parent with
  | none => rw [decode]; rfl
  | some p =>
    rw [decode,decodeHeader]
    cases decode reg p input <;> rfl

theorem decodePayloads_cons (reg : Registry) (className : Text) (f : Plan.Field Plan.Class)
    (rest : List (Plan.Field Plan.Class)) (values : Fields) (input : Text) :
    decodePayloads reg className (f :: rest) values input =
      if f.isFixed then decodePayloads reg className rest values input
      else (do
        let (value,input) ← within className f.name (decodePayload reg f values input)
        decodePayloads reg className rest (values.set f.name value) input) := by
  obtain ⟨head,shape⟩ := f
  simp only [Plan.Field.isFixed,Plan.Field.name,decodePayload,decide_eq_true_eq]
  cases shape with
  | nested plan =>
    cases hl : head.lengthField with
    | none => rw [decodePayloads.eq_2 _ _ _ _ _ _ _ hl]
    | some holder => rw [decodePayloads.eq_3 _ _ _ _ _ _ _ _ hl]
  | scalar carrier => rw [decodePayloads.eq_4 _ _ _ _ _ _ _ (by simp) (by simp)]
  | array carrier count => rw [decodePayloads.eq_4 _ _ _ _ _ _ _ (by simp) (by simp)]
  | slice carrier => rw [decodePayloads.eq_4 _ _ _ _ _ _ _ (by simp) (by simp)]
  | external type => rw [decodePayloads.eq_4 _ _ _ _ _ _ _ (by simp) (by simp)]

theorem decodePayload_plain (reg : Registry) {f : Plan.Field Plan.Class}
    (hf : ∀ p, f.shape ≠ .nested p) (values : Fields) (input : Text) :
    decodePayload reg f values input = (do
      let (payload,input) ← readPayload f.head.lengthField values input
      return (← decodePlain reg f.shape payload,input)) := by
  unfold decodePayload
  cases hshape : f.shape with
  | nested p => exact absurd hshape (hf p)
  | _ => rfl

def encodeHeader (reg : Registry) :
    Option Plan.Class → Option Record → Except Fault Text × Option Record
  | none, header => (.ok [],header)
  | some p, header => encodeOr (create reg p) (encode reg p) header

/-- What is written for a field of variable size, and the values with a record in it written. -/
def encodePayload (reg : Registry) (f : Plan.Field Plan.Class) (values : Fields) :
    Except Fault Text × Fields :=
  let value := (values.get? f.name).getD .nil
  match f.shape with
  | .nested plan => match recordIn value with
    | .error fault => (.error fault,values)
    | .ok r =>
      let (bytes,r) := encodeOr (create reg plan) (encode reg plan) r
      (bytes,keep f.name values r)
  | shape => (encodePlain shape value,values)

theorem encode_eq (reg : Registry) (plan : Plan.Class) (r : Record) :
    encode reg plan r = encodeAround plan.name plan.fields r.className r.header
      (encodeHeader reg plan.parent) (encodePayloads reg plan.name plan.fields r.fields) := by
  obtain ⟨decl,parent,_,_,fields,_⟩ := plan
  obtain ⟨className,header,values⟩ := r
  cases parent with
  | none => rw [encode]; rfl
  | some p => rw [encode]; rfl

theorem encodePayloads_cons (reg : Registry) (className : Text) (f : Plan.Field Plan.Class)
    (rest : List (Plan.Field Plan.Class)) (values : Fields) :
    encodePayloads reg className (f :: rest) values =
      if f.isFixed then encodePayloads reg className rest values
      else encodeThen className f.name f.head.lengthField (encodePayloads reg className rest)
        (encodePayload reg f values) := by
  obtain ⟨head,shape⟩ := f
  rw [encodePayloads]
  have hfixed : 0 < head.size ↔ Plan.Field.isFixed ⟨head,shape⟩ = true := by
    simp [Plan.Field.isFixed]
  cases shape <;> exact if_congr hfixed rfl rfl

theorem encodePayload_plain (reg : Registry) {f : Plan.Field Plan.Class}
    (hf : ∀ p, f.shape ≠ .nested p) (values : Fields) : encodePayload reg f values =
      (encodePlain f.shape ((values.get? f.name).getD .nil),values) := by
  unfold encodePayload
  cases hshape : f.shape with
  | nested p => exact absurd hshape (hf p)
  | _ => rfl

theorem encodePayload_nested (reg : Registry) {f : Plan.Field Plan.Class} {plan : Plan.Class}
    (hf : f.shape = .nested plan) {values : Fields} {r : Record}
    (h : values.get? f.name = some (.record (some r))) : encodePayload reg f values =
      ((encode reg plan r).1,values.set f.name (.record (some (encode reg plan r).2))) := by
  unfold encodePayload
  simp only [hf,h,Option.getD_some]
  rfl

theorem encodeThen_ok {className name : Text} {holder : Option Plan.Holder}
    {next : Fields → Except Fault Text × Fields} {bytes : Text} {values set : Fields}
    (h : setLength holder bytes values = .ok set) :
    encodeThen className name holder next (.ok bytes,values) =
      ((next set).1.map (bytes ++ ·),(next set).2) := by
  simp only [encodeThen,Result.ok_bind,h,within,Result.pure_eq_ok,Except.mapError]

theorem setLength_some_eq_ok {holder : Plan.Holder} {payload : Text} {values after : Fields} :
    setLength (some holder) payload values = .ok after ↔
      ∃ bits, lengthBits holder.carrier payload.length = .ok bits ∧
        values.set holder.name (number holder.carrier bits) = after := by
  simp only [setLength,Result.bind_eq_ok,Result.pure_eq_ok,Except.ok.injEq]

section
variable {reg : Registry} {className : Text} {f : Plan.Field Plan.Class}
  {fields : List (Plan.Field Plan.Class)} {values after : Fields}

theorem encodePayloads_of_fixed (hfixed : f.isFixed = true) :
    encodePayloads reg className (f :: fields) values =
      encodePayloads reg className fields values := by
  rw [encodePayloads_cons,if_pos hfixed]

theorem encodePayloads_of_part (hfixed : f.isFixed = false) {part : Text}
    (hpart : (encodePayload reg f values).1 = .ok part)
    (hset : setLength f.head.lengthField part (encodePayload reg f values).2 = .ok after) :
    encodePayloads reg className (f :: fields) values =
      ((encodePayloads reg className fields after).1.map (part ++ ·),
        (encodePayloads reg className fields after).2) := by
  have hpair : encodePayload reg f values = (.ok part,(encodePayload reg f values).2) :=
    Prod.ext hpart rfl
  rw [encodePayloads_cons,hpair,if_neg (by simp [hfixed]),encodeThen_ok hset]

end

end WireSchema.Record
