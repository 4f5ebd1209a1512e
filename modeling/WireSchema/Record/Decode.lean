import WireSchema.Message.Tag
import WireSchema.Record.Create
set_option autoImplicit false

/-!
Reading records: the header, then the fixed fields, then the payloads, each of the length that its
length field announces. A payload without a length field takes what is left.
-/

namespace WireSchema.Record

def load (bytes : Text) : UInt64 :=
  bytes.foldr (fun b high => b.toUInt64 ||| (high <<< 8)) 0

def readBits (size : Nat) (input : Text) : Except Fault (UInt64 × Text) :=
  if input.length < size then .error (.payload .unexpectedEnd)
  else .ok (load (input.take size),input.drop size)

def readMany (size : Nat) : Nat → Text → Except Fault (List UInt64 × Text)
  | 0, input => .ok ([],input)
  | count + 1, input => do
    let (bits,input) ← readBits size input
    let (more,input) ← readMany size count input
    return (bits :: more,input)

def unmaskBits (transform : Transform) (bits : UInt64) : UInt64 :=
  if transform.isMask then (Tag.number bits.toUInt32).toUInt64 else bits

def decodeFixedField (field : Plan.Field Plan.Class) (input : Text) :
    Except Fault (Value × Text) :=
  match field.shape with
  | .array carrier count => do
    let (bits,input) ← readMany carrier.size count input
    return (numbers carrier bits,input)
  | .scalar carrier => do
    let (bits,input) ← readBits carrier.size input
    let transform := field.head.transform
    return (scalarValue transform (some carrier) (unmaskBits transform bits),input)
  | shape => .error (.unexpectedKind shape.kind)

def decodeFixed (className : Text) :
    List (Plan.Field Plan.Class) → Fields → Text → Except Fault (Fields × Text)
  | [], values, input => .ok (values,input)
  | field :: rest, values, input => do
    if field.isFixed then
      let (value,input) ← within className field.name (decodeFixedField field input)
      decodeFixed className rest (values.set field.name value) input
    else decodeFixed className rest values input

/-- The bytes of a payload, and what follows them. -/
def readPayload (holder : Option Plan.Holder) (values : Fields) (input : Text) :
    Except Fault (Text × Text) :=
  match holder with
  | none => .ok (input,[])
  | some h => match values.get? h.name with
    | some (.word bits) => (Payload.read bits.toNat input).mapError .payload
    | some (.int n) => (Payload.read n.toInt input).mapError .payload
    | _ => .error (.noLength h.name)

def decodePlain (reg : Registry) (shape : Plan.Shape Plan.Class) (payload : Text) :
    Except Fault Value :=
  match shape with
  | .external type => match reg.externals.find? type with
    | none => .ok (.bytes payload)
    | some kind => match kind.read payload with
      | some m => .ok (.external m)
      | none => .error .badExternal
  | .slice carrier =>
    if payload.length % carrier.size ≠ 0 then .error (.payload .misaligned)
    else do
      let (bits,_) ← readMany carrier.size (payload.length / carrier.size) payload
      return numbers carrier bits
  | shape => .error (.unexpectedKind shape.kind)

/-- A record that has to fill its bytes. -/
def whole (result : Except Fault (Record × Text)) : Except Fault Record := do
  let (r,rest) ← result
  if rest.isEmpty then return r else .error (.trailing rest.length)

mutual

def decode (reg : Registry) : Plan.Class → Text → Except Fault (Record × Text)
  | ⟨decl,parent,_,_,fields,_⟩, input => do
    let (header,input) ← match parent with
      | none => pure (none,input)
      | some p => do
        let (h,input) ← decode reg p input
        pure (some h,input)
    let (values,input) ← decodeFixed decl.name fields [] input
    let (values,input) ← decodePayloads reg decl.name fields values input
    return (.mk decl.name header values,input)

def decodePayloads (reg : Registry) (className : Text) :
    List (Plan.Field Plan.Class) → Fields → Text → Except Fault (Fields × Text)
  | [], values, input => .ok (values,input)
  | ⟨head,shape⟩ :: rest, values, input => do
    let name := head.property.name
    if 0 < head.size then decodePayloads reg className rest values input
    else
      let (value,input) ← within className name (match shape, head.lengthField with
        | .nested plan, none => do
          let (r,input) ← decode reg plan input
          return (.record (some r),input)
        | .nested plan, some holder => do
          let (payload,input) ← readPayload (some holder) values input
          return (.record (some (← whole (decode reg plan payload))),input)
        | shape, holder => do
          let (payload,input) ← readPayload holder values input
          return (← decodePlain reg shape payload,input))
      decodePayloads reg className rest (values.set name value) input

end

end WireSchema.Record
