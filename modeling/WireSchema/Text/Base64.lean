import WireSchema.Text.Basic
set_option autoImplicit false

namespace WireSchema.Text.Base64

def letter (n : Nat) : UInt8 :=
  if n < 26 then (65 + n).toUInt8
  else if n < 52 then (71 + n).toUInt8
  else if n < 62 then (n - 4).toUInt8
  else if n = 62 then byte '+'
  else byte '/'

def value? (c : UInt8) : Option Nat :=
  if isUpper c then some (c.toNat - 65)
  else if isLower c then some (c.toNat - 71)
  else if isDigit c then some (c.toNat + 4)
  else if c == byte '+' then some 62
  else if c == byte '/' then some 63
  else none

def encode : Text → Text
  | [] => []
  | [a] => [letter (a.toNat / 4),letter (a.toNat % 4 * 16),byte '=',byte '=']
  | [a,b] =>
    [letter (a.toNat / 4),letter (a.toNat % 4 * 16 + b.toNat / 16),
      letter (b.toNat % 16 * 4),byte '=']
  | a :: b :: c :: rest =>
    letter (a.toNat / 4) :: letter (a.toNat % 4 * 16 + b.toNat / 16) ::
      letter (b.toNat % 16 * 4 + c.toNat / 64) :: letter (c.toNat % 64) :: encode rest

def decodeGroups? : Text → Option Text
  | [] => some []
  | a :: b :: c :: d :: rest => do
    let p ← value? a
    let q ← value? b
    let first := (p * 4 + q / 16).toUInt8
    if c == byte '=' then
      if d == byte '=' && rest.isEmpty then some [first] else none
    else
      let r ← value? c
      let second := (q % 16 * 16 + r / 4).toUInt8
      if d == byte '=' then
        if rest.isEmpty then some [first,second] else none
      else
        let s ← value? d
        let third := (r % 4 * 64 + s).toUInt8
        (decodeGroups? rest).map fun more => first :: second :: third :: more
  | _ => none

/-- The bytes that a text denotes. Line ends are skipped wherever they stand. -/
def decode? (t : Text) : Option Text :=
  decodeGroups? (t.filter fun c => c != 10 && c != 13)

end WireSchema.Text.Base64
