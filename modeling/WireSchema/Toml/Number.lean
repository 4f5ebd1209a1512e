import WireSchema.Text.Basic
set_option autoImplicit false

namespace WireSchema.Toml

def isDigitRun (base : Nat) (t : Text) : Bool :=
  (Text.splitOn (Text.byte '_') t).all fun run => (Text.natIn? base run).isSome

def numberIn? (base : Nat) (t : Text) : Option Nat :=
  if isDigitRun base t then Text.natIn? base (t.filter (· != Text.byte '_')) else none

def dropSign (t : Text) : Text :=
  if t.head? == some (Text.byte '-') || t.head? == some (Text.byte '+') then t.tail else t

def hasNoLeadingZero (t : Text) : Bool := t.length ≤ 1 || t.head? != some (Text.byte '0')

def isInteger (t : Text) : Bool :=
  let limit := 0x8000000000000000
  let inBase (base : Nat) : Bool := (numberIn? base (t.drop 2)).any (· < limit)
  if Text.startsWith t "0x" then inBase 16
  else if Text.startsWith t "0o" then inBase 8
  else if Text.startsWith t "0b" then inBase 2
  else
    let body := dropSign t
    hasNoLeadingZero body && (numberIn? 10 body).any fun n =>
      if t.head? == some (Text.byte '-') then n ≤ limit else n < limit

/-- The least number that rounds to infinity. It lies halfway between the greatest finite number,
which is 2 ^ 1024 - 2 ^ 971, and 2 ^ 1024. -/
def overflow : Nat := Nat.pow 2 1024 - Nat.pow 2 970

/-- Whether a decimal number, given by its digits and the power of ten that they count, rounds to
infinity. A number of more than 310 or fewer than 300 places is settled by that. -/
def isTooLarge (digits : Nat) (power : Int) : Bool :=
  let places : Int := (Nat.toDigits 10 digits).length + power
  if digits = 0 || places < 300 then false
  else if 310 < places then true
  else if 0 ≤ power then overflow ≤ digits * Nat.pow 10 power.toNat
  else overflow * Nat.pow 10 (-power).toNat ≤ digits

def isFraction (t : Text) : Bool :=
  let body := dropSign t
  let isExponentMark (c : UInt8) : Bool := c == Text.byte 'e' || c == Text.byte 'E'
  let mantissa := body.takeWhile fun c => !isExponentMark c
  let exponent := (body.drop mantissa.length).tail
  let whole := mantissa.takeWhile (· != Text.byte '.')
  let fraction := (mantissa.drop whole.length).tail
  let digits := (whole ++ fraction).filter (· != Text.byte '_')
  let magnitude : Nat := (numberIn? 10 (dropSign exponent)).getD 0
  let power : Int := if exponent.head? == some (Text.byte '-') then -magnitude else magnitude
  let places := (fraction.filter (· != Text.byte '_')).length
  hasNoLeadingZero whole && isDigitRun 10 whole && whole.length < body.length &&
    (whole.length == mantissa.length || isDigitRun 10 fraction) &&
    (mantissa.length == body.length || isDigitRun 10 (dropSign exponent)) &&
    !isTooLarge ((Text.natIn? 10 digits).getD 0) (power - places)

def isSpecial (t : Text) : Bool :=
  let body := dropSign t
  body == Text.ofString "inf" || body == Text.ofString "nan"

def isNumber (t : Text) : Bool := isInteger t || isFraction t || isSpecial t

end WireSchema.Toml
