import WireSchema.Token.Basic
set_option autoImplicit false

/-!
Reading a source as tokens. Every byte belongs to exactly one token or to a comment; input that
nothing else recognises becomes a token of its own, so reading never fails.
-/

namespace WireSchema.Token

open Text (byte)

def isSpace (c : UInt8) : Bool :=
  c == byte ' ' || (9 ≤ c && c ≤ 13)

def isWordStart (c : UInt8) : Bool := Text.isLetter c || Text.isDigit c || c == byte '_'

def isWordByte (c : UInt8) : Bool := isWordStart c || c == byte ':' || c == byte '.'

def isOperatorByte (c : UInt8) : Bool :=
  c == byte '{' || c == byte '}' || c == byte '<' || c == byte '>' || c == byte ']' ||
    c == byte '=' || c == byte '|'

def isLineEnd (c : UInt8) : Bool := c == 10 || c == 13

def run (p : UInt8 → Bool) (t : Text) : Nat := (t.takeWhile p).length

/-- After an opening quote: the number of bytes up to and including the closing quote. The body is
not empty, its first byte may be a quote itself, and no line ends inside it. -/
def stringTail? : Text → Option Nat
  | [] => none
  | first :: rest =>
    if isLineEnd first then none
    else
      let n := run (fun c => c != byte '"' && !isLineEnd c) rest
      if (rest.drop n).head? == some (byte '"') then some (n + 2) else none

/-- The number of bytes after the first that belong to a word, if a word starts here. A word may
start with one minus sign. -/
def wordTail? (c : UInt8) (rest : Text) : Option Nat :=
  if c == byte '-' then
    match rest with
    | d :: more => if isWordStart d then some (1 + run isWordByte more) else none
    | [] => none
  else if isWordStart c then some (run isWordByte rest)
  else none

/-- The number of bytes after the first that belong to a line comment, if one starts here. -/
def commentTail? (c : UInt8) (rest : Text) : Option Nat :=
  match rest with
  | d :: more =>
    if c == byte '/' && d == byte '/' then some (1 + run (fun b => !isLineEnd b) more) else none
  | [] => none

/-- The kind of the lexeme that starts with a byte, and how many bytes after it belong to it. -/
def lexeme (c : UInt8) (rest : Text) : Kind × Nat :=
  if isSpace c then (.space,run isSpace rest)
  else if c == byte ';' then (.terminator,0)
  else
    match (if c == byte '"' then stringTail? rest else none) with
    | some n => (.string,n)
    | none =>
      match wordTail? c rest with
      | some n => (.ident,n)
      | none =>
        if c == byte '#' then (.directive,run Text.isLetter rest)
        else if isOperatorByte c then (.operator,0)
        else (.invalid,run (fun b => !isSpace b) rest)

/-- The tokens of a source from an offset on, white space included and comments left out, with an
end token after the last. -/
def scan (offset : UInt32) : Text → List Token
  | [] => [⟨.eof,[],offset⟩]
  | c :: rest =>
    match commentTail? c rest with
    | some n => scan (offset + (n + 1).toUInt32) (rest.drop n)
    | none =>
      let n := (lexeme c rest).2
      ⟨(lexeme c rest).1,c :: rest.take n,offset⟩ ::
        scan (offset + (n + 1).toUInt32) (rest.drop n)
termination_by src => src.length
decreasing_by all_goals (simp only [List.length_cons,List.length_drop]; omega)

/-- The tokens of a source without white space and without the end token. -/
def ofSource (src : Text) : List Token :=
  (scan 0 src).filter fun t => t.kind != .space && t.kind != .eof

end WireSchema.Token
