import WireSchema.Token.Basic
set_option autoImplicit false

namespace WireSchema.Document

/-- A reason to refuse a source, with the token it was met at. A declaration is the name of the
class or enumeration being read, empty outside of one. -/
inductive Fault where
  | unrecognized (token : Token) (decl : Text)
  | unexpected (expected : Text) (token : Token) (decl : Text)
  | noDeclaration (token : Token)
  | unclosedBlock (opening : Token) (decl : Text)
  | strayClose (token : Token)
  | noTerminator (token : Token) (decl : Text)
  | unknownFlag (word : Token) (decl : Text)
  | emptyDirective (token : Token)
  deriving DecidableEq, Repr

namespace Fault

def code : Fault → Nat
  | .unrecognized .. => 1000
  | .unexpected .. => 2000
  | .noDeclaration .. => 2001
  | .unclosedBlock .. => 2002
  | .strayClose .. => 2003
  | .noTerminator .. => 2004
  | .unknownFlag .. => 2005
  | .emptyDirective .. => 2006

def token : Fault → Token
  | .unrecognized t _ => t
  | .unexpected _ t _ => t
  | .noDeclaration t => t
  | .unclosedBlock t _ => t
  | .strayClose t => t
  | .noTerminator t _ => t
  | .unknownFlag t _ => t
  | .emptyDirective t => t

def span (f : Fault) : Span := f.token.span

def within (decl reason : Text) : Text :=
  if decl.isEmpty then reason else Text.cat [reason," (in '",decl,"')"]

def reason : Fault → Text
  | .unrecognized t decl =>
    within decl (Text.cat ["Unrecognized input ",Text.Quoted.quote t.text])
  | .unexpected expected t decl =>
    within decl (Text.cat ["Expected ",expected,", got ",t.describe])
  | .noDeclaration t =>
    Text.cat ["Expected 'class', 'enum' or a preprocessor directive, got ",t.describe]
  | .unclosedBlock _ decl => within decl "Block is missing its closing '\x7d'"
  | .strayClose _ => "Unexpected '\x7d' outside of a declaration block"
  | .noTerminator t decl =>
    within decl (Text.cat ["Expected ';' to end the statement, got ",t.describe])
  | .unknownFlag t decl => within decl (Text.cat ["Unknown property flag '",t.text,"'"])
  | .emptyDirective _ => "Preprocessor directive has no name"

def message (f : Fault) : Text := Text.cat ["E",Text.ofNat f.code,": ",f.reason]

end Fault

end WireSchema.Document
