import WireSchema.Artifact.Class
import WireSchema.Artifact.Number
import WireSchema.Artifact.Prose
set_option autoImplicit false

namespace WireSchema.Artifact

/-- A name that starts with a number, perhaps behind a minus sign, has that in its usual form. -/
def usualName (name : Text) : Text :=
  let sign := name.takeWhile (· == Text.byte '-')
  match Number.read? (name.drop sign.length) with
  | some (n,rest) => Text.cat [sign,n.usual.text,rest]
  | none => name

def Operand.usual : Operand → Operand
  | .unknown name => .unknown (usualName name)
  | operand => operand

def Expr.usual : Expr → Expr
  | .operands list operator => .operands (list.map Operand.usual) operator
  | .conversion type operand => .conversion type operand.usual
  | expr => expr

def EnumCode.usual (e : EnumCode) : EnumCode :=
  { e with constants := e.constants.map fun c => { c with expr := c.expr.usual } }

/-- Comments on the fields of a structure are not those of declarations and stay as they are. -/
def ClassCode.usual (c : ClassCode) : ClassCode :=
  { c with constants := c.constants.map fun k =>
      { k with deprecated := k.deprecated.map Prose.usual, expr := k.expr.usual } }

end WireSchema.Artifact
