import WireSchema.Message.Tag
import WireSchema.Record.Create
set_option autoImplicit false

/-!
Writing records. The payloads of a record are written first, so that the fields that hold their
lengths can be set; the bytes come in the order header, fixed fields, payloads. Lengths stay set in
the record, whether the writing succeeds or not.
-/

namespace WireSchema.Record

/-- The bits of a value that is one number. Nothing counts as zero. -/
def bitsOf : Value → Except Fault UInt64
  | .nil => .ok 0
  | .bool b => .ok (if b then 1 else 0)
  | .steamId id => .ok id.bits
  | .gameId id => .ok id.bits
  | .word bits => .ok bits
  | .int n => .ok n.toUInt64
  | .number _ n => .ok (n % 0x10000000000000000).toNat.toUInt64
  | value => .error (.notInteger value.typeName)

/-- The bits of a value that is a list of numbers. Nothing counts as an empty list, and a text as
its bytes. -/
def elements : Value → Except Fault (List UInt64)
  | .nil => .ok []
  | .text t => .ok (t.map UInt8.toUInt64)
  | .bytes t => .ok (t.map UInt8.toUInt64)
  | .words bits => .ok bits
  | .ints ns => .ok (ns.map Int64.toUInt64)
  | .numbers _ ns => .ok (ns.map fun n => (n % 0x10000000000000000).toNat.toUInt64)
  | .list values => values.mapM bitsOf
  | value => .error (.notList value.typeName)

def store (size : Nat) (bits : UInt64) : Text :=
  (List.range size).map fun i => (bits >>> (8 * i).toUInt64).toUInt8

def lengthBits (carrier : Primitive) (n : Int) : Except Fault UInt64 :=
  let bits := UInt64.ofInt n
  if n < 0 ∨ (Payload.maxSize : Int) < n ∨ carrier.mask bits ≠ bits ∨ carrier.signed bits < 0 then
    .error (.tooLong n)
  else .ok bits

def maskBits (transform : Transform) (bits : UInt64) : UInt64 :=
  if transform.isMask then (Tag.make bits.toUInt32 true).toUInt64 else bits

def encodeFixedField (field : Plan.Field Plan.Class) (value : Value) : Except Fault Text :=
  match field.shape with
  | .array carrier count => do
    let bits ← elements value
    if count < bits.length then .error (.tooManyElements bits.length count)
    else .ok ((bits ++ List.replicate (count - bits.length) 0).flatMap (store carrier.size))
  | .scalar carrier => do
    return store carrier.size (maskBits field.head.transform (← bitsOf value))
  | shape => .error (.unsuited value.typeName shape.kind)

def encodeFixed (className : Text) (values : Fields) :
    List (Plan.Field Plan.Class) → Except Fault Text
  | [] => .ok []
  | field :: rest => do
    if field.isFixed then
      let bytes ← within className field.name
        (encodeFixedField field ((values.get? field.name).getD .nil))
      return bytes ++ (← encodeFixed className values rest)
    else encodeFixed className values rest

def setLength (holder : Option Plan.Holder) (payload : Text) (values : Fields) :
    Except Fault Fields :=
  match holder with
  | none => .ok values
  | some h => do
    let bits ← lengthBits h.carrier payload.length
    return values.set h.name (number h.carrier bits)

def encodePlain (shape : Plan.Shape Plan.Class) (value : Value) : Except Fault Text :=
  match shape, value with
  | .external _, .nil => .ok []
  | .external _, .bytes t => .ok t
  | .external _, .external m => match m.bytes with
    | some t => .ok t
    | none => .error .unwritableExternal
  | .slice carrier, value => do return (← elements value).flatMap (store carrier.size)
  | shape, value => .error (.unsuited value.typeName shape.kind)

def recordIn : Value → Except Fault (Option Record)
  | .nil => .ok none
  | .record r => .ok r
  | value => .error (.unsuited value.typeName "class")

/-- The bytes of a record that may be missing, and the record with its lengths set. A missing one is
written as a fresh one, which is not kept. -/
def encodeOr (fresh : Except Fault Record) (write : Record → Except Fault Text × Record) :
    Option Record → Except Fault Text × Option Record
  | some r =>
    let (bytes,r) := write r
    (bytes,some r)
  | none => (do (write (← fresh)).1,none)

/-- The values with a record that has been written, if it is one of them. -/
def keep (name : Text) (values : Fields) : Option Record → Fields
  | some r => values.set name (.record (some r))
  | none => values

/-- A payload whose length is then set in the values, and what is written behind it. -/
def encodeThen (className name : Text) (holder : Option Plan.Holder)
    (next : Fields → Except Fault Text × Fields) (payload : Except Fault Text × Fields) :
    Except Fault Text × Fields :=
  match within className name (do
    let bytes ← payload.1
    return (bytes,← setLength holder bytes payload.2)) with
  | .error fault => (.error fault,payload.2)
  | .ok (bytes,values) =>
    let (more,values) := next values
    (more.map (bytes ++ ·),values)

/-- A record from its payloads. The header is written once they are, and the fixed fields last. -/
def encodeAround (declName : Text) (fields : List (Plan.Field Plan.Class)) (className : Text)
    (header : Option Record) (front : Option Record → Except Fault Text × Option Record) :
    Except Fault Text × Fields → Except Fault Text × Record
  | (.error fault,values) => (.error fault,.mk className header values)
  | (.ok payloads,values) =>
    let (bytes,header) := front header
    (do return (← bytes) ++ (← encodeFixed declName values fields) ++ payloads,
      .mk className header values)

mutual

/-- The bytes of a record, and the record with its lengths set. -/
def encode (reg : Registry) : Plan.Class → Record → Except Fault Text × Record
  | ⟨decl,parent,_,_,fields,_⟩, .mk className header values =>
    encodeAround decl.name fields className header
      (match parent with
        | none => fun header => (.ok [],header)
        | some p => encodeOr (create reg p) (encode reg p))
      (encodePayloads reg decl.name fields values)

/-- The payloads of the fields of variable size, in order, and the values with their lengths set. -/
def encodePayloads (reg : Registry) (className : Text) :
    List (Plan.Field Plan.Class) → Fields → Except Fault Text × Fields
  | [], values => (.ok [],values)
  | ⟨head,shape⟩ :: rest, values =>
    let name := head.property.name
    if 0 < head.size then encodePayloads reg className rest values
    else
      let value := (values.get? name).getD .nil
      encodeThen className name head.lengthField (encodePayloads reg className rest)
        (match shape with
          | .nested plan => match recordIn value with
            | .error fault => (.error fault,values)
            | .ok r =>
              let (bytes,r) := encodeOr (create reg plan) (encode reg plan) r
              (bytes,keep name values r)
          | shape => (encodePlain shape value,values))

end

end WireSchema.Record
