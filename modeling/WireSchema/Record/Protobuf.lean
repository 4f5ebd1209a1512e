import WireSchema.Record.External
import WireSchema.Text.Quoted
set_option autoImplicit false

namespace WireSchema.Protobuf

inductive Kind where
  | stringValue
  | bytesValue
  | uint64Value
  | empty
  | short
  deriving DecidableEq, Repr, Inhabited

inductive Content where
  | nothing
  | text (t : Text)
  | number (n : UInt64)
  deriving DecidableEq, Repr, Inhabited

structure Message where
  kind : Kind
  content : Content
  unknown : Text
  deriving DecidableEq, Repr, Inhabited

namespace Kind

def standard : List Kind := [.stringValue,.bytesValue,.uint64Value,.empty]

def all : List Kind := standard ++ [.short]

def fullName : Kind → Text
  | .stringValue => "google.protobuf.StringValue"
  | .bytesValue => "google.protobuf.BytesValue"
  | .uint64Value => "google.protobuf.UInt64Value"
  | .empty => "google.protobuf.Empty"
  | .short => "CMsgShort"

def typeName : Kind → Text
  | .stringValue => "*wrapperspb.StringValue"
  | .bytesValue => "*wrapperspb.BytesValue"
  | .uint64Value => "*wrapperspb.UInt64Value"
  | .empty => "*emptypb.Empty"
  | .short => "*dynamicpb.Message"

def fieldName : Kind → Text
  | .short => "text"
  | _ => "value"

def zero : Kind → Content
  | .stringValue | .bytesValue | .short => .text []
  | .uint64Value => .number 0
  | .empty => .nothing

def wireType? : Kind → Option Nat
  | .stringValue | .bytesValue | .short => some 2
  | .uint64Value => some 0
  | .empty => none

def isTextual : Kind → Bool
  | .stringValue | .short => true
  | _ => false

def keepsTags : Kind → Bool
  | .short => true
  | _ => false

end Kind

def new (kind : Kind) : Message := ⟨kind,kind.zero,[]⟩

/-- A number in groups of seven bits, least significant first, each but the last marked. -/
def varint (n : Nat) : Text :=
  if n < 128 then [n.toUInt8] else (128 + n % 128).toUInt8 :: varint (n / 128)

/-- The number at the start of some bytes, of at most so many groups and at most 64 bits. -/
def readVarint? : Nat → Text → Option (Nat × Text)
  | 0, _ => none
  | _ + 1, [] => none
  | fuel + 1, b :: rest =>
    if b < 128 then
      if fuel = 0 ∧ 1 < b then none else some (b.toNat,rest)
    else do
      let (high,rest) ← readVarint? fuel rest
      return (b.toNat % 128 + 128 * high,rest)

def varint? (t : Text) : Option (Nat × Text) := readVarint? 10 t

def takeBytes? (n : Nat) (t : Text) : Option (Text × Text) :=
  if n ≤ t.length then some (t.take n,t.drop n) else none

def delimited? (t : Text) : Option (Text × Text) := do
  let (n,rest) ← varint? t
  takeBytes? n rest

def tag? (greatest : Nat) (t : Text) : Option (Nat × Nat × Text) := do
  let (tag,rest) ← varint? t
  let number := tag / 8
  if number = 0 ∨ greatest < number then none else some (number,tag % 8,rest)

def skipPlain? (wireType : Nat) (t : Text) : Option Text :=
  match wireType with
  | 0 => (varint? t).map Prod.snd
  | 1 => (takeBytes? 8 t).map Prod.snd
  | 2 => (delimited? t).map Prod.snd
  | 5 => (takeBytes? 4 t).map Prod.snd
  | _ => none

def maxGroups : Nat := 10001

def skipGroups? : Nat → List Nat → Text → Option Text
  | _, [], t => some t
  | 0, _ :: _, _ => none
  | fuel + 1, number :: outer, t => do
    let (inner,wireType,rest) ← tag? 0x7fffffff t
    if wireType = 4 then
      if inner = number then skipGroups? fuel outer rest else none
    else if wireType = 3 then
      if maxGroups ≤ outer.length + 1 then none
      else skipGroups? fuel (inner :: number :: outer) rest
    else skipGroups? fuel (number :: outer) (← skipPlain? wireType rest)

def skip? (number wireType : Nat) (t : Text) : Option Text :=
  if wireType = 3 then skipGroups? (t.length + 1) [number] t else skipPlain? wireType t

def content? (kind : Kind) (t : Text) : Option (Content × Text) :=
  match kind.wireType? with
  | some 0 => (varint? t).map fun (n,rest) => (.number n.toUInt64,rest)
  | _ => do
    let (bytes,rest) ← delimited? t
    if kind.isTextual && !Text.Utf8.valid bytes then none else some (.text bytes,rest)

/-- Reads the fields of a message into it; the last value of a field counts. -/
def readFields? : Nat → Message → Text → Option Message
  | _, m, [] => some m
  | 0, _, _ :: _ => none
  | fuel + 1, m, t => do
    let (number,wireType,rest) ← tag? 0x1fffffff t
    if number = 1 ∧ m.kind.wireType? = some wireType then
      let (content,rest) ← content? m.kind rest
      readFields? fuel { m with content } rest
    else
      let after ← skip? number wireType rest
      let value := rest.take (rest.length - after.length)
      let mark :=
        if m.kind.keepsTags then t.take (t.length - rest.length)
        else varint (number * 8 + wireType)
      readFields? fuel { m with unknown := m.unknown ++ mark ++ value } after

def decode? (kind : Kind) (t : Text) : Option Message := readFields? t.length (new kind) t

/-- The bytes of a message. A field that is zero or empty is left out. -/
def encode (m : Message) : Text :=
  match m.content with
  | .nothing => m.unknown
  | .text t => if t.isEmpty then m.unknown else [0x0a] ++ varint t.length ++ t ++ m.unknown
  | .number n => if n = 0 then m.unknown else [0x08] ++ varint n.toNat ++ m.unknown

/-- How a piece of a text field is shown: control characters, quotes, backslashes and stray bytes
are escaped, and all else stands for itself. -/
def showPiece : Text.Utf8.Piece × Text → Text
  | (.stray b,_) => "\\x" ++ Text.Quoted.hexDigits 2 b.toNat
  | (.code point,bytes) =>
    match point with
    | 10 => "\\n"
    | 13 => "\\r"
    | 9 => "\\t"
    | 34 => "\\\""
    | 92 => "\\\\"
    | _ =>
      if point < 32 ∨ point = 127 then "\\x" ++ Text.Quoted.hexDigits 2 point
      else if 128 ≤ point ∧ point ≤ 0x9f then "\\u" ++ Text.Quoted.hexDigits 4 point
      else bytes

def showBytes (t : Text) : Text :=
  Text.cat ["\"",((Text.Utf8.pieces t).map showPiece).flatten,"\""]

def shownContent? (m : Message) : Option Text :=
  match m.content with
  | .nothing => none
  | .text t => if t.isEmpty then none else some (showBytes t)
  | .number n => if n = 0 then none else some (Text.ofNat n.toNat)

def line? (m : Message) : Option Text :=
  (shownContent? m).map fun shown => Text.cat [m.kind.fieldName,": ",shown]

def littleEndian (t : Text) : Nat := t.foldr (fun b n => b.toNat + 256 * n) 0

/-- The value of an unknown field that is no group. Numbers of a fixed width are shown in
hexadecimal. -/
def shownValue (wireType : Nat) (t : Text) : Text :=
  match wireType with
  | 0 => Text.ofNat (((varint? t).map Prod.fst).getD 0)
  | 1 => "0x" ++ Text.digits 16 (littleEndian (t.take 8))
  | 5 => "0x" ++ Text.digits 16 (littleEndian (t.take 4))
  | _ => showBytes (((delimited? t).map Prod.fst).getD [])

/-- Unknown fields on one line, by their numbers and with blanks between them. Those of a group
stand in braces. The first one of a message has no blank in front. -/
def shownUnknown : Nat → Bool → Text → Text
  | 0, _, _ => []
  | fuel + 1, first, t => match tag? 0x7fffffff t with
    | none => []
    | some (number,wireType,rest) =>
      let name : Text := Text.cat [if first then [] else " ",Text.ofNat number,":"]
      if wireType = 4 then "\x7d" ++ shownUnknown fuel false rest
      else if wireType = 3 then Text.cat [name,"\x7b",shownUnknown fuel true rest]
      else match skipPlain? wireType rest with
        | none => []
        | some after =>
          Text.cat [name,shownValue wireType rest,shownUnknown fuel false after]

def shown (m : Message) : Text :=
  let unknown (first : Bool) : Text := shownUnknown m.unknown.length first m.unknown
  match shownContent? m with
  | none => unknown true
  | some shown => Text.cat [m.kind.fieldName,":",shown,unknown false]

def external (m : Message) : External :=
  ⟨m.kind.fullName,m.kind.typeName,some (encode m),shown m,some ((line? m).getD [])⟩

def kind (k : Kind) : External.Kind := ⟨external (new k),fun t => (decode? k t).map external⟩

def kinds (known : List Kind) : External.Kinds := fun name =>
  (known.find? fun k => k.fullName == name).map kind

end WireSchema.Protobuf
