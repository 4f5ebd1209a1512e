import WireSchema.Text.Printable
import WireSchema.Text.Utf8
set_option autoImplicit false

namespace WireSchema.Text.Hex

inductive Fault where
  | badDigit (byte : UInt8)
  | oddLength
  deriving DecidableEq, Repr

def pointText (b : UInt8) : Text :=
  Text.cat ["U+",padLeft 4 (byte '0') ((digits 16 b.toNat).map upper),
    if Printable.isPrintable b.toNat then Text.cat [" '",Utf8.encode b.toNat,"'"] else []]

def Fault.message : Fault → Text
  | .badDigit b => Text.cat ["encoding/hex: invalid byte: ",pointText b]
  | .oddLength => "encoding/hex: odd length hex string"

def pair (b : UInt8) : Text := padLeft 2 (byte '0') (digits 16 b.toNat)

def encode (bytes : Text) : Text := bytes.flatMap pair

/-- The bytes that pairs of digits denote. The first byte that is no digit is reported ahead of a
missing partner. -/
def decode : Text → Except Fault Text
  | [] => .ok []
  | [a] => match digitValue? a with
    | none => .error (.badDigit a)
    | some _ => .error .oddLength
  | a :: b :: rest =>
    match digitValue? a, digitValue? b with
    | none, _ => .error (.badDigit a)
    | some _, none => .error (.badDigit b)
    | some high, some low => (decode rest).map ((high * 16 + low).toUInt8 :: ·)

end WireSchema.Text.Hex
