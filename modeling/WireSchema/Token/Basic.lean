import WireSchema.Source.Span
import WireSchema.Text.Quoted
set_option autoImplicit false

namespace WireSchema

/-- What a token is. A code beyond the known kinds is kept as it is. -/
inductive Token.Kind where
  | eof
  | space
  | terminator
  | string
  | ident
  | directive
  | operator
  | invalid
  | unknown (code : UInt8)
  deriving DecidableEq, Repr, Inhabited

namespace Token.Kind

def ofCode (code : UInt8) : Kind :=
  match code.toNat with
  | 0 => .eof
  | 1 => .space
  | 2 => .terminator
  | 3 => .string
  | 4 => .ident
  | 5 => .directive
  | 6 => .operator
  | 7 => .invalid
  | _ => .unknown code

def name : Kind → Text
  | .eof => "EOF"
  | .space => "SPACE"
  | .terminator => "TERMINATOR"
  | .string => "STRING"
  | .ident => "IDENT"
  | .directive => "PREPROCESS"
  | .operator => "OPERATOR"
  | .invalid => "INVALID"
  | .unknown code => Text.cat ["TokenKind(",Text.ofNat code.toNat,")"]

end Token.Kind

/-- One lexeme: its text is the exact stretch of the source, delimiters included. -/
structure Token where
  kind : Token.Kind
  text : Text
  offset : UInt32
  deriving DecidableEq, Repr, Inhabited

namespace Token

def span (t : Token) : Span := .ofText t.offset t.text

/-- The text without its delimiters: the quotes of a string, the mark of a directive. -/
def value (t : Token) : Text :=
  match t.kind with
  | .string => (t.text.drop 1).dropLast
  | .directive => t.text.drop 1
  | _ => t.text

def listing (t : Token) : Text := Text.cat [t.kind.name," ",Text.Quoted.quote t.text]

def describe (t : Token) : Text :=
  if t.kind = .eof then "end of input" else t.listing

def isOperator (op : Text) (t : Token) : Bool := t.kind == .operator && t.text == op

def isWord (word : Text) (t : Token) : Bool := t.kind == .ident && t.text == word

end Token

end WireSchema
