import WireSchema.Text.Basic
set_option autoImplicit false

namespace WireSchema

inductive Primitive where
  | byte
  | sbyte
  | char
  | short
  | ushort
  | int
  | uint
  | long
  | ulong
  deriving DecidableEq, Repr, Inhabited

namespace Primitive

def all : List Primitive := [.byte,.sbyte,.char,.short,.ushort,.int,.uint,.long,.ulong]

def name : Primitive → Text
  | .byte => "byte"
  | .sbyte => "sbyte"
  | .char => "char"
  | .short => "short"
  | .ushort => "ushort"
  | .int => "int"
  | .uint => "uint"
  | .long => "long"
  | .ulong => "ulong"

def size : Primitive → Nat
  | .byte | .sbyte | .char => 1
  | .short | .ushort => 2
  | .int | .uint => 4
  | .long | .ulong => 8

def unsigned : Primitive → Bool
  | .byte | .char | .ushort | .uint | .ulong => true
  | .sbyte | .short | .int | .long => false

def integer : Primitive → Bool
  | .char => false
  | _ => true

def ofName? (name : Text) : Option Primitive := all.find? fun p => p.name == name

def ofSize? (size : Nat) (unsigned : Bool) : Option Primitive :=
  all.find? fun p => p.integer && p.size == size && p.unsigned == unsigned

def enumDefault : Primitive := .int

theorem ofName?_name (p : Primitive) : ofName? p.name = some p := by cases p <;> rfl

theorem size_pos (p : Primitive) : 0 < p.size := by cases p <;> decide

theorem size_le (p : Primitive) : p.size ≤ 8 := by cases p <;> decide

end Primitive

namespace Bits

/-- The pattern cut to a width in bytes. A width of eight or more, or of none, cuts nothing. -/
def mask (size : Nat) (bits : UInt64) : UInt64 :=
  if size = 0 ∨ 8 ≤ size then bits
  else bits &&& ((1 <<< (8 * size).toUInt64) - 1)

/-- The number that a pattern denotes in a storage: its low bytes with their sign, or as it stands
where the storage has none. -/
def signed (size : Nat) (unsigned : Bool) (bits : UInt64) : Int64 :=
  if unsigned ∨ size = 0 ∨ 8 ≤ size then bits.toInt64
  else
    let shift := (64 - 8 * size).toUInt64
    (bits <<< shift).toInt64 >>> shift.toInt64

end Bits

namespace Primitive

def mask (p : Primitive) (bits : UInt64) : UInt64 := Bits.mask p.size bits

def signed (p : Primitive) (bits : UInt64) : Int64 := Bits.signed p.size p.unsigned bits

/-- The integer that a pattern denotes once it is cut to the type. -/
def denote (p : Primitive) (bits : UInt64) : Int :=
  if p.unsigned then (p.mask bits).toNat else (p.signed bits).toInt

end Primitive

end WireSchema
