import WireSchema.Record.Error
set_option autoImplicit false

namespace WireSchema

/-- What records are written and read by: a schema, and the message types known besides it. -/
structure Registry where
  schema : Schema
  externals : External.Kinds
  deriving Inhabited

namespace Record

def number (carrier : Primitive) (bits : UInt64) : Value :=
  if carrier.unsigned then .word (carrier.mask bits) else .int (carrier.signed (carrier.mask bits))

/-- The value in a record of a number on the wire. A field that holds no numbers takes them whole
and signed. -/
def scalarValue (transform : Transform) (carrier : Option Primitive) (bits : UInt64) : Value :=
  match transform, carrier with
  | .steamId, _ => .steamId ⟨bits⟩
  | .gameId, _ => .gameId ⟨bits⟩
  | .bool, some p => .bool (p.mask bits != 0)
  | .bool, none => .bool (bits != 0)
  | _, some p => number p bits
  | _, none => .int bits.toInt64

/-- Numbers in a record: bytes for unsigned types of one byte, else a list of their sign. -/
def numbers (carrier : Primitive) (bits : List UInt64) : Value :=
  if carrier.unsigned && carrier.size == 1 then .bytes (bits.map UInt64.toUInt8)
  else if carrier.unsigned then .words bits
  else .ints (bits.map carrier.signed)

def identity? (reg : Registry) (decl : Schema.Class) : Option UInt64 :=
  decl.identity.bind fun symbol => Plan.evalOnce reg.schema [symbol]

/-- The header of a message with the tag of the message in it. -/
def stamp (reg : Registry) (decl : Schema.Class) (role : Role) (parent : Plan.Class)
    (header : Record) : Record :=
  if role = .message then
    match parent.tagField?, identity? reg decl with
    | some field, some tag =>
      header.withFields
        (header.fields.set field.name (scalarValue field.head.transform field.carrier? tag))
    | _, _ => header
  else header

def defaultBits (reg : Registry) (terms : List Reference) : Except Fault UInt64 :=
  if terms.isEmpty then .ok 0
  else match Plan.evalOnce reg.schema terms with
    | some bits => .ok bits
    | none => .error .noDefault

mutual

def create (reg : Registry) : Plan.Class → Except Fault Record
  | ⟨decl,parent,role,_,fields,_⟩ => do
    let header ← match parent with
      | none => pure none
      | some p => (some ∘ stamp reg decl role p) <$> create reg p
    return .mk decl.name header (← createFields reg decl.name fields)

def createFields (reg : Registry) (className : Text) :
    List (Plan.Field Plan.Class) → Except Fault Fields
  | [] => .ok []
  | ⟨head,shape⟩ :: rest => do
    let name := head.property.name
    let value ← match shape with
      | .scalar carrier => within className name do
        return scalarValue head.transform (some carrier) (← defaultBits reg head.property.default)
      | .array carrier count => pure (numbers carrier (List.replicate count 0))
      | .slice carrier => pure (numbers carrier [])
      | .external type => match reg.externals.find? type with
        | some kind => pure (.external kind.fresh)
        | none => pure (.bytes [])
      | .nested plan => (Value.record ∘ some) <$> create reg plan
    return (← createFields reg className rest).set name value

end

end Record

end WireSchema
