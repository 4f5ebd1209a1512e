import WireSchema.Text.Basic
set_option autoImplicit false

namespace WireSchema.Text.Utf8

/-- One step of reading: a code point, or a byte that starts none. -/
inductive Piece where
  | code (point : Nat)
  | stray (byte : UInt8)
  deriving DecidableEq, Repr

def isTail (b : UInt8) : Bool := 0x80 ≤ b && b ≤ 0xbf

def tailBits (b : UInt8) : Nat := b.toNat % 64

/-- The code point whose form starts with a byte, and the number of bytes that continue it. -/
def lead? (b : UInt8) (rest : Text) : Option (Nat × Nat) :=
  if b < 0x80 then some (b.toNat,0)
  else if 0xc2 ≤ b && b ≤ 0xdf then
    match rest with
    | c :: _ => if isTail c then some (b.toNat % 32 * 64 + tailBits c,1) else none
    | _ => none
  else if 0xe0 ≤ b && b ≤ 0xef then
    match rest with
    | c :: d :: _ =>
      let point := b.toNat % 16 * 4096 + tailBits c * 64 + tailBits d
      if isTail c && isTail d && 0x800 ≤ point && !(0xd800 ≤ point && point ≤ 0xdfff) then
        some (point,2)
      else none
    | _ => none
  else if 0xf0 ≤ b && b ≤ 0xf4 then
    match rest with
    | c :: d :: e :: _ =>
      let point := b.toNat % 8 * 262144 + tailBits c * 4096 + tailBits d * 64 + tailBits e
      if isTail c && isTail d && isTail e && 0x10000 ≤ point && point ≤ 0x10ffff then
        some (point,3)
      else none
    | _ => none
  else none

/-- The text as code points and stray bytes, each with the bytes that it was read from. -/
def pieces : Text → List (Piece × Text)
  | [] => []
  | b :: rest =>
    match lead? b rest with
    | some (point,n) => (.code point,b :: rest.take n) :: pieces (rest.drop n)
    | none => (.stray b,[b]) :: pieces rest
termination_by t => t.length
decreasing_by all_goals (simp only [List.length_cons,List.length_drop]; omega)

def valid (t : Text) : Bool :=
  (pieces t).all fun (piece,_) => match piece with
    | .code _ => true
    | .stray _ => false

def encode (point : Nat) : Text :=
  if point < 0x80 then [point.toUInt8]
  else if point < 0x800 then [(0xc0 + point / 64).toUInt8,(0x80 + point % 64).toUInt8]
  else if point < 0x10000 then
    [(0xe0 + point / 4096).toUInt8,(0x80 + point / 64 % 64).toUInt8,(0x80 + point % 64).toUInt8]
  else
    [(0xf0 + point / 262144).toUInt8,(0x80 + point / 4096 % 64).toUInt8,
      (0x80 + point / 64 % 64).toUInt8,(0x80 + point % 64).toUInt8]

def replacement : Nat := 0xfffd

/-- The code points of a text, a stray byte read as the replacement. -/
def points (t : Text) : List Nat :=
  (pieces t).map fun (piece,_) => match piece with
    | .code point => point
    | .stray _ => replacement

end WireSchema.Text.Utf8
