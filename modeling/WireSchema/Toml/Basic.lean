import WireSchema.Text.Utf8
set_option autoImplicit false

namespace WireSchema.Toml

abbrev Key := List Text

inductive Value where
  | text (t : Text)
  | bool (b : Bool)
  | quantity
  | array (items : List Value)
  | table (entries : List (List Text × Value))
  deriving Repr, Inhabited

inductive Statement where
  | table (key : Key)
  | tableItem (key : Key)
  | entry (key : Key) (value : Value)
  deriving Repr, Inhabited

def isBlank (c : UInt8) : Bool := c == 32 || c == 9

def skipBlanks (t : Text) : Text := t.dropWhile isBlank

def isBareKeyByte (c : UInt8) : Bool :=
  Text.isLetter c || Text.isDigit c || c == Text.byte '_' || c == Text.byte '-'

/-- Whether a text may be read at all: no control characters other than tabs and line ends, where a
carriage return comes only before a line feed. -/
def isClean : Text → Bool
  | [] => true
  | c :: rest =>
    (if c == 13 then rest.head? == some 10 else c == 9 || c == 10 || (32 ≤ c && c != 127)) &&
      isClean rest

def newline? : Text → Option Text
  | [] => none
  | c :: rest =>
    if c == 10 then some rest
    else if c == 13 then some rest.tail
    else none

def skipComment (t : Text) : Text :=
  if t.head? == some (Text.byte '#') then t.dropWhile fun c => c != 10 && c != 13 else t

/-- What follows the end of a statement: blanks, a comment, and a line end or nothing. -/
def statementEnd? (t : Text) : Option Text :=
  match skipComment (skipBlanks t) with
  | [] => some []
  | rest => newline? rest

def skipLines : Nat → Text → Text
  | 0, t => t
  | fuel + 1, t =>
    match skipComment (skipBlanks t) with
    | [] => []
    | rest => match newline? rest with
      | some rest => skipLines fuel rest
      | none => rest

end WireSchema.Toml
