import WireSchema.Text.Basic
set_option autoImplicit false

namespace WireSchema.Payload

def maxSize : Nat := 0x7ff00000

inductive Fault where
  | tooLarge
  | misaligned
  | unexpectedEnd
  | notFixedWidth (type : Text)
  deriving DecidableEq, Repr

def Fault.message : Fault → Text
  | .tooLarge => "steamd: payload exceeds maximum size"
  | .misaligned => "steamd: payload length is not a multiple of the element size"
  | .unexpectedEnd => "unexpected EOF"
  | .notFixedWidth type => Text.cat ["steamd: ",type," is not a fixed-width type"]

/-- A type of integers. One whose width the machine decides has no fixed width. -/
structure Number where
  name : Text
  width : Option Nat
  unsigned : Bool
  deriving DecidableEq, Repr, Inhabited

namespace Number

def ofBytes (width : Nat) (unsigned : Bool) : Number where
  name := Text.cat [if unsigned then "uint" else "int",Text.ofNat (8 * width)]
  width := some width
  unsigned := unsigned

def machine : Number := ⟨"int",none,false⟩

def all : List Number :=
  [1,2,4,8].flatMap fun width => [ofBytes width false,ofBytes width true]

def ofName? (name : Text) : Option Number := (machine :: all).find? fun t => t.name == name

def bitCount (t : Number) : Nat := 8 * t.width.getD 8

def wrap (t : Number) (n : Int) : Int :=
  if t.unsigned then n % (Nat.pow 2 t.bitCount : Nat) else n.bmod (Nat.pow 2 t.bitCount)

end Number

def lengthOf (t : Number) (n : Int) : Except Fault Int :=
  if n < 0 ∨ (maxSize : Int) < n ∨ t.wrap n ≠ n then .error .tooLarge else .ok (t.wrap n)

def checkLength (n : Int) : Except Fault Nat :=
  if n < 0 ∨ (maxSize : Int) < n then .error .tooLarge else .ok n.toNat

def read (n : Int) (input : Text) : Except Fault (Text × Text) := do
  let size ← checkLength n
  if input.length < size then .error .unexpectedEnd
  else .ok (input.take size,input.drop size)

def bytesOf : Nat → Nat → Text
  | 0, _ => []
  | width + 1, n => (n % 256).toUInt8 :: bytesOf width (n / 256)

def valueOf : Text → Nat
  | [] => 0
  | b :: rest => b.toNat + 256 * valueOf rest

def marshal (t : Number) (values : List Int) : Text :=
  values.flatMap fun n => bytesOf (t.width.getD 0) (n % ((Nat.pow 2 t.bitCount : Nat) : Int)).toNat

def chunks (width : Nat) (input : Text) : List Text :=
  (List.range (input.length / width)).map fun i => (input.drop (i * width)).take width

def unmarshal (t : Number) (input : Text) : Except Fault (List Int) :=
  match t.width with
  | none => .error (.notFixedWidth t.name)
  | some width =>
    if input.length % width ≠ 0 then .error .misaligned
    else .ok ((chunks width input).map fun piece => t.wrap (valueOf piece))

end WireSchema.Payload
