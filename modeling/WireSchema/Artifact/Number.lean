import WireSchema.Text.Basic
set_option autoImplicit false

namespace WireSchema.Artifact

/-- What the start of a number says about its digits. After a plain zero whole numbers are octal and
all others decimal. -/
inductive Radix where
  | decimal
  | zero
  | hexadecimal
  | octal
  | binary
  deriving DecidableEq, Repr

namespace Radix

def base : Radix → Nat
  | .decimal => 10
  | .zero | .octal => 8
  | .hexadecimal => 16
  | .binary => 2

def isDecimal : Radix → Bool
  | .decimal | .zero => true
  | _ => false

def ofMark? (c : UInt8) : Option Radix :=
  if Text.lower c == Text.byte 'x' then some .hexadecimal
  else if Text.lower c == Text.byte 'o' then some .octal
  else if Text.lower c == Text.byte 'b' then some .binary
  else none

/-- The bytes that numbers go on with. Outside of hexadecimal numbers they are the decimal digits,
whatever the base is. -/
def takes (r : Radix) (c : UInt8) : Bool :=
  c == Text.byte '_' || Text.isDigit c ||
    (r = .hexadecimal && (Text.digitValue? c).isSome)

end Radix

structure Number where
  radix : Radix
  mark : Text
  whole : Text
  fraction : Option Text
  exponent : Option (UInt8 × Text)
  imaginary : Bool
  deriving DecidableEq, Repr

namespace Number

def start (t : Text) : Radix × Text × Text :=
  match t with
  | 48 :: c :: rest => match Radix.ofMark? c with
    | some radix => (radix,[48,c],rest)
    | none => (.zero,[],t)
  | 48 :: _ => (.zero,[],t)
  | _ => (.decimal,[],t)

def split (t : Text) : Number × Text :=
  let (radix,mark,t) := start t
  let whole := t.takeWhile radix.takes
  let t := t.drop whole.length
  let fraction :=
    if t.head? == some (Text.byte '.') then some (t.tail.takeWhile radix.takes) else none
  let t := match fraction with
    | some digits => t.drop (digits.length + 1)
    | none => t
  let exponent := match t with
    | [] => none
    | c :: rest =>
      if Text.lower c == Text.byte 'e' || Text.lower c == Text.byte 'p' then
        some (c,rest.takeWhile Radix.decimal.takes)
      else none
  let t := match exponent with
    | some (_,digits) => t.drop (digits.length + 1)
    | none => t
  let imaginary := t.head? == some (Text.byte 'i')
  (⟨radix,mark,whole,fraction,exponent,imaginary⟩,if imaginary then t.tail else t)

def text (n : Number) : Text := Text.cat [
  n.mark,
  n.whole,
  match n.fraction with
  | some digits => Text.byte '.' :: digits
  | none => [],
  match n.exponent with
  | some (mark,digits) => mark :: digits
  | none => [],
  if n.imaginary then "i" else []]

def hasDigit (t : Text) : Bool := t.any (· != Text.byte '_')

def isSeparated (t : Text) : Bool :=
  t.isEmpty || (Text.splitOn (Text.byte '_') t).all fun run => !run.isEmpty

/-- Whether underscores are where they may be. The letter for the base counts as a digit. -/
def hasSoundSeparators (n : Number) : Bool :=
  (if !n.mark.isEmpty && n.whole.head? == some (Text.byte '_') then
    hasDigit n.whole && isSeparated n.whole.tail
  else isSeparated n.whole) &&
    n.fraction.all isSeparated && n.exponent.all fun (_,digits) => isSeparated digits

/-- Whether all digits are below the base, which only whole numbers have to care about. -/
def hasSoundDigits (n : Number) : Bool :=
  n.fraction.isSome || n.exponent.isSome || n.imaginary ||
    n.whole.all fun c => (Text.digitValue? c).all (· < n.radix.base)

def hasSoundExponent (n : Number) : Bool :=
  match n.exponent with
  | some (mark,digits) =>
    hasDigit digits &&
      if Text.lower mark == Text.byte 'e' then n.radix.isDecimal else n.radix = .hexadecimal
  | none => n.radix != .hexadecimal || n.fraction.isNone

def isSound (n : Number) : Bool :=
  hasDigit (n.whole ++ n.fraction.getD []) &&
    (n.fraction.isNone || n.radix.isDecimal || n.radix = .hexadecimal) &&
    n.hasSoundExponent && n.hasSoundDigits && n.hasSoundSeparators

def read? (t : Text) : Option (Number × Text) :=
  let (n,rest) := split t
  if (t.head?.any Text.isDigit) && n.isSound then some (n,rest) else none

/-- A number as it is usually written: letters for the base and the exponent are small, and whole
imaginary numbers have no needless zeros. -/
def usual (n : Number) : Number :=
  let needless (c : UInt8) : Bool := c == Text.byte '0' || c == Text.byte '_'
  let isPlain := n.radix.isDecimal && n.fraction.isNone && n.exponent.isNone && n.imaginary
  let significant := n.whole.dropWhile needless
  { n with
    mark := n.mark.map Text.lower
    whole :=
      if !isPlain then n.whole
      else if significant.isEmpty then "0"
      else significant
    exponent := n.exponent.map fun (mark,digits) => (Text.lower mark,digits) }

end Number

end WireSchema.Artifact
