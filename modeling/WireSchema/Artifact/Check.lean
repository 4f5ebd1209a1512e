import WireSchema.Artifact.ClassText
import WireSchema.Artifact.Number
import WireSchema.Text.Letter
set_option autoImplicit false

namespace WireSchema.Artifact.Check

def keywords : List Text := List.map Text.ofString [
  "break","case","chan","const","continue","default","defer","else","fallthrough","for",
  "func","go","goto","if","import","interface","map","package","range","return","select",
  "struct","switch","type","var"]

def isWordPoint (point : Nat) : Bool :=
  Text.Letter.isLetter point || Text.Letter.isDigit point || point == 95

/-- Letters, digits and underscores, no digit first, and no keyword. -/
def isIdentifier (name : Text) : Bool :=
  Text.Utf8.valid name && !keywords.contains name &&
    match Text.Utf8.points name with
    | [] => false
    | first :: rest => !Text.Letter.isDigit first && isWordPoint first && rest.all isWordPoint

def isComment (t : Text) : Bool :=
  Text.Utf8.valid t && (Text.Utf8.points t).all fun point =>
    point != 0 && point != 10 && point != 0xfeff

def refused : Text := "!\"#$%&'()*,:;<=>?[\\]^\x7b|\x7d`"

def isImportPath (path : Text) : Bool :=
  !path.isEmpty && Text.Utf8.valid path && (Text.Utf8.points path).all fun point =>
    Text.Printable.isPrintable point && point != 32 && point != Text.Utf8.replacement &&
      !(refused.any fun c => c.toNat == point)

def isPath (t : Text) : Bool := (Text.splitOn (Text.byte '.') t).all isIdentifier

/-- A name as it may stand in an expression: identifiers with dots between them, the first of which
may also be a number, behind at most one minus sign. -/
def isOperandName (name : Text) : Bool :=
  let body := if name.head? == some (Text.byte '-') then name.tail else name
  if body.head?.any Text.isDigit then match Number.read? body with
    | some (_,rest) => rest.isEmpty || (rest.head? == some (Text.byte '.') && isPath rest.tail)
    | none => false
  else isPath body

def operand : Operand → Bool
  | .unknown name => isOperandName name
  | _ => true

def expr (e : Expr) : Bool := e.operandList.all operand

def deprecated (reason : Option Text) : Bool := reason.all isComment

def enumCode (e : EnumCode) : Bool :=
  isIdentifier e.name && (e.flags || isIdentifier e.table) && e.constants.all fun c =>
    deprecated c.deprecated && isIdentifier (Text.cat [e.name,"_",c.value]) && expr c.expr

def typeName (type : Text) : Bool :=
  let body := (type.dropWhile (· != Text.byte ']')).dropWhile (· == Text.byte ']')
  let body := if body.isEmpty then type else body
  let body := if body.head? == some (Text.byte '*') then body.tail else body
  isPath body

def setup : Setup → Bool
  | .message _ type => typeName type
  | .value _ e => expr e
  | _ => true

def classCode (c : ClassCode) : Bool :=
  isIdentifier c.name &&
    (c.fields.all fun f => deprecated f.deprecated && isIdentifier f.ident && typeName f.type) &&
    (c.constants.all fun k => deprecated k.deprecated &&
      isIdentifier (Text.cat [c.name,"_",k.name]) && typeName k.type && expr k.expr) &&
    c.setup.all setup && c.accessors.all fun a => isIdentifier a.ident

/-- The packages that are imported. Each is referred to by its nickname, or else by the end of its
path. -/
def imports (list : Imports) : Bool :=
  list.all fun (path,nickname) =>
    isImportPath path && isIdentifier (if nickname.isEmpty then Path.base path else nickname)

end WireSchema.Artifact.Check
