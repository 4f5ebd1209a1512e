import WireSchema.Text.Utf8
set_option autoImplicit false

namespace WireSchema

inductive Json where
  | null
  | bool (value : Bool)
  | number (text : Text)
  /-- What stands between the quotes, escapes and all. -/
  | string (raw : Text)
  | array (items : List Json)
  | object (members : List (Text × Json))
  deriving Repr, Inhabited

namespace Json

def quoteMark : UInt8 := Text.byte '"'

def escapeMark : UInt8 := Text.byte '\\'

def quoted (raw : Text) : Text := quoteMark :: raw ++ [quoteMark]

mutual

def text : Json → Text
  | .null => "null"
  | .bool true => "true"
  | .bool false => "false"
  | .number t => t
  | .string raw => quoted raw
  | .array items => Text.cat ["[",Text.join "," (itemTexts items),"]"]
  | .object members => Text.cat ["\x7b",Text.join "," (memberTexts members),"\x7d"]

def itemTexts : List Json → List Text
  | [] => []
  | j :: rest => text j :: itemTexts rest

def memberTexts : List (Text × Json) → List Text
  | [] => []
  | (key,j) :: rest => Text.cat [quoted key,":",text j] :: memberTexts rest

end

abbrev ShortEscapes := List (UInt8 × Char)

def plainEscapes : ShortEscapes := [(9,'t'),(10,'n'),(13,'r')]

/-- An ASCII character inside a string. Besides what must be escaped, so are the characters that
mean something in HTML. -/
def escapeAscii (short : ShortEscapes) (c : UInt8) : Text :=
  if c == quoteMark || c == escapeMark then [escapeMark,c]
  else match short.lookup c with
    | some letter => [escapeMark,Text.byte letter]
    | none =>
      if c < 32 || c == Text.byte '<' || c == Text.byte '>' || c == Text.byte '&' then
        "\\u" ++ Text.padLeft 4 (Text.byte '0') (Text.digits 16 c.toNat)
      else [c]

/-- A text as it stands between quotes. The two line separators above ASCII are escaped, and a byte
that is no UTF-8 becomes the replacement character. -/
def escape (short : ShortEscapes) (t : Text) : Text :=
  (Text.Utf8.pieces t).flatMap fun (piece,bytes) => match piece with
    | .stray _ => "\\ufffd"
    | .code point =>
      if point < 128 then escapeAscii short point.toUInt8
      else if point = 0x2028 then "\\u2028"
      else if point = 0x2029 then "\\u2029"
      else bytes

def ofText (t : Text) : Json := .string (escape plainEscapes t)

def ofNat (n : Nat) : Json := .number (Text.ofNat n)

def ofInt (n : Int) : Json := .number (Text.ofInt n)

/-- One step of reading a string: a byte that stands for itself, or an escaped 16-bit unit. -/
inductive Piece where
  | byte (b : UInt8)
  | unit (n : Nat)
  deriving DecidableEq, Repr

def ofFields (fields : List (String × Json)) : Json :=
  .object (fields.map fun (key,j) => (Text.ofString key,j))

def ofOption {α : Type} (write : α → Json) : Option α → Json
  | none => .null
  | some x => write x

/-- What the character after a backslash stands for, other than the four-digit form. -/
def simpleEscape? (c : UInt8) : Option UInt8 :=
  if c == quoteMark || c == escapeMark || c == Text.byte '/' then some c
  else if c == Text.byte 'b' then some 8
  else if c == Text.byte 'f' then some 12
  else if c == Text.byte 'n' then some 10
  else if c == Text.byte 'r' then some 13
  else if c == Text.byte 't' then some 9
  else none

def pieces? : Text → Option (List Piece)
  | [] => some []
  | [c] => if c == escapeMark then none else some [.byte c]
  | c :: d :: rest =>
    if c != escapeMark then (pieces? (d :: rest)).map (.byte c :: ·)
    else if d != Text.byte 'u' then do
      let b ← simpleEscape? d
      return .byte b :: (← pieces? rest)
    else match rest with
      | h₁ :: h₂ :: h₃ :: h₄ :: rest => do
        let n ← Text.natIn? 16 [h₁,h₂,h₃,h₄]
        return .unit n :: (← pieces? rest)
      | _ => none

def isHigh (n : Nat) : Bool := 0xd800 ≤ n && n < 0xdc00

def isLow (n : Nat) : Bool := 0xdc00 ≤ n && n < 0xe000

def unitText (n : Nat) : Text :=
  Text.Utf8.encode (if isHigh n || isLow n then Text.Utf8.replacement else n)

def pairPoint (high low : Nat) : Nat := 0x10000 + (high - 0xd800) * 0x400 + (low - 0xdc00)

def piecesText : List Piece → Text
  | [] => []
  | .byte b :: rest => b :: piecesText rest
  | .unit n :: .unit m :: rest =>
    if isHigh n && isLow m then Text.Utf8.encode (pairPoint n m) ++ piecesText rest
    else unitText n ++ piecesText (.unit m :: rest)
  | .unit n :: rest => unitText n ++ piecesText rest

def unescape? (raw : Text) : Option Text := (pieces? raw).map piecesText

def text? : Json → Option Text
  | .string raw => unescape? raw
  | _ => none

def bool? : Json → Option Bool
  | .bool b => some b
  | _ => none

def list? : Json → Option (List Json)
  | .array items => some items
  | _ => none

end Json

end WireSchema
