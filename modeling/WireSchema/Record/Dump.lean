import WireSchema.Record.Codec
import WireSchema.Text.Space
set_option autoImplicit false

namespace WireSchema

namespace Dump

/-- Where a dump stands: the codec, the depth of the current line, what has been written, and how
many more pieces the output takes if it takes only so many. -/
structure State where
  codec : Codec
  indent : Nat
  written : Text
  budget : Option Nat
  failed : Bool

abbrev Dumper := StateM State

/-- Writes one piece. Nothing is written after the output has failed once. -/
def write (piece : Text) : Dumper Unit := modify fun s =>
  if s.failed then s
  else match s.budget with
    | some 0 => { s with failed := true }
    | some (n + 1) => { s with written := s.written ++ piece, budget := some n }
    | none => { s with written := s.written ++ piece }

def line (t : Text) : Dumper Unit := do
  let tabs := List.replicate (← get).indent (Text.byte '\t')
  if !tabs.isEmpty then write tabs
  write t
  write [Text.newline]

def indented (body : Dumper Unit) : Dumper Unit := do
  modify fun s => { s with indent := s.indent + 1 }
  body
  modify fun s => { s with indent := s.indent - 1 }

def planOf? (className : Text) : Dumper (Option Plan.Class) := modifyGet fun s =>
  let (plan,codec) := s.codec.plan className
  (plan.toOption,{ s with codec })

def hexList (bytes : Text) : Text :=
  Text.join ", " (bytes.map fun b =>
    "0x" ++ Text.padLeft 2 (Text.byte '0') ((Text.digits 16 b.toNat).map Text.upper))

def quotedPoint (point : Nat) : Text :=
  match point with
  | 92 => "\\\\"
  | 34 => "\\\""
  | 9 => "\\t"
  | 10 => "\\n"
  | _ =>
    if point < 32 ∨ point = 127 then
      "\\x" ++ Text.padLeft 2 (Text.byte '0') ((Text.digits 16 point).map Text.upper)
    else Text.Utf8.encode point

def quoted (bytes : Text) : Text :=
  Text.cat ["\"",(Text.Utf8.points bytes).flatMap quotedPoint,"\""]

/-- The values of a flag set that are single bits and stand in a pattern, each bit once, and the
bits that are left. -/
def flagNames (enumName : Text) : List Plan.EnumValue → UInt64 → List Text × UInt64
  | [], rest => ([],rest)
  | v :: vs, rest =>
    match v.bits with
    | some bits =>
      if bits ≠ 0 ∧ bits &&& (bits - 1) = 0 ∧ rest &&& bits = bits then
        let (names,left) := flagNames enumName vs (rest &&& ~~~bits)
        (Text.cat [enumName,"::",v.name] :: names,left)
      else flagNames enumName vs rest
    | none => flagNames enumName vs rest

/-- A number of an enumeration: the value that has it, or a union of flags, or the number. -/
def enumText (plan : Plan.Enum) (bits : UInt64) : Text :=
  let bits := plan.carrier.mask bits
  let number := Text.cat [plan.name,"(",Text.ofInt (plan.carrier.signed bits).toInt,")"]
  match plan.values.find? fun v => v.bits == some bits with
  | some v => Text.cat [plan.name,"::",v.name]
  | none =>
    if plan.decl.flags ∧ bits ≠ 0 then
      match flagNames plan.name plan.values bits with
      | (names,0) => Text.join " | " names
      | _ => number
    else number

def plainText (schema : Schema) (field : Plan.Field Plan.Class) (value : Value) : Text :=
  match value with
  | .bytes t =>
    match field.shape, field.carrier? with
    | .external _, _ => quoted t
    | _, some .char => quoted t
    | _, _ => Text.cat ["[",hexList t,"]"]
  | .bool b => if b then ".true" else ".false"
  | .steamId id => id.toText
  | .gameId id => id.toText
  | value =>
    match field.head.enum, Record.bitsOf value with
    | some e, .ok bits => enumText (Plan.enumOnce schema e) bits
    | _, _ => value.shown

def braced (title : Text) (body : Dumper Unit) : Dumper Unit := do
  line (Text.cat [title," \x7b"])
  indented body
  line "\x7d"

/-- The text of a message, without the blanks around its lines. The output fails if it has none. -/
def externalLines : Option Text → Dumper Unit
  | none => modify fun s => { s with failed := true }
  | some t => ((Text.splitOn Text.newline t).map Text.trim).forM fun shown =>
    if shown.isEmpty then pure () else line shown

/-- The lines of a record, with records in it nested at most as deep as the fuel says. -/
def record : Nat → Record → Dumper Unit
  | 0, _ => pure ()
  | fuel + 1, r => do
    match ← planOf? r.className with
    | none =>
      for (name,value) in r.fields do
        line (Text.cat [name," = ",value.shown])
    | some plan =>
      if let some header := r.header then
        braced (Text.cat ["header = ",header.className]) (record fuel header)
      for field in plan.wireOrder do
        if let some value := r.fields.get? field.name then
          if !(← get).failed then
            match value with
            | .record (some inner) =>
              braced (Text.cat [field.name," = ",inner.className]) (record fuel inner)
            | .external m =>
              braced (Text.cat [field.name," = ",m.type]) (externalLines m.text)
            | value =>
              let schema := (← get).codec.planner.schema
              line (Text.cat [field.name," = ",plainText schema field value])

def whole (r : Record) : Dumper Unit := braced r.className (record r.depth r)

end Dump

namespace Codec

/-- A record as text, on an output that may take only so many pieces, and whether it has failed. -/
def dumpTo (c : Codec) (r : Record) (budget : Option Nat) : Text × Bool × Codec :=
  let s := (Dump.whole r ⟨c,0,[],budget,false⟩).2
  (s.written,s.failed,s.codec)

def dump (c : Codec) (r : Record) : Text × Codec :=
  let (text,_,c) := c.dumpTo r none
  (text,c)

end Codec

end WireSchema
