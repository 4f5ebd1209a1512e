import WireSchema.Schema.Primitive
set_option autoImplicit false

namespace WireSchema

/-- A literal as a 64-bit pattern; a negative one is its two's complement. -/
structure Literal where
  value : UInt64
  negative : Bool
  deriving DecidableEq, Repr, Inhabited

namespace Literal

def named : List (Text × UInt64) := [
  ("byte.MaxValue",0xff),
  ("sbyte.MaxValue",0x7f),
  ("short.MaxValue",0x7fff),
  ("ushort.MaxValue",0xffff),
  ("int.MaxValue",0x7fffffff),
  ("uint.MaxValue",0xffffffff),
  ("long.MaxValue",0x7fffffffffffffff),
  ("ulong.MaxValue",0xffffffffffffffff)]

def magnitude? (body : Text) : Option Nat :=
  match body with
  | 48 :: 120 :: digits => Text.natIn? 16 digits
  | 48 :: 88 :: digits => Text.natIn? 16 digits
  | digits => Text.natIn? 10 digits

def parse? (t : Text) : Option Literal :=
  match named.lookup t with
  | some value => some ⟨value,false⟩
  | none =>
    let negative := t.head? == some (Text.byte '-')
    match magnitude? (if negative then t.tail else t) with
    | none => none
    | some n =>
      if n < 0x10000000000000000 then
        some ⟨if negative then 0 - n.toUInt64 else n.toUInt64,negative⟩
      else none

end Literal

end WireSchema
