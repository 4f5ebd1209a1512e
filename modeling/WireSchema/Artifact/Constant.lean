import WireSchema.Artifact.Batch
set_option autoImplicit false

namespace WireSchema

def Literal.decimal (l : Literal) : Text :=
  if l.negative then Text.byte '-' :: Text.ofNat (0 - l.value).toNat else Text.ofNat l.value.toNat

namespace Artifact

/-- A pattern as a constant of a storage type, in hexadecimal if asked and not negative. -/
def numeral (storage : Primitive) (hex : Bool) (bits : UInt64) : Text :=
  let bits := storage.mask bits
  if !storage.unsigned && storage.signed bits < 0 then Text.ofInt (storage.signed bits).toInt
  else if hex then "0x" ++ (Text.digits 16 bits.toNat).map Text.upper
  else Text.ofNat bits.toNat

inductive Operand where
  | numeral (text : Text)
  | unknown (name : Text)
  | enumValue (qualifier enum value : Text)
  | classConst (className const : Text)
  deriving DecidableEq, Repr

def Operand.text : Operand → Text
  | .numeral text => text
  | .unknown name => name
  | .enumValue qualifier enum value => Text.cat [qualifier,enum,"_",value]
  | .classConst className const => Text.cat [className,"_",const]

inductive Expr where
  | operands (list : List Operand) (operator : Text)
  | next (enum value : Text)
  | conversion (type : Text) (operand : Operand)
  deriving DecidableEq, Repr

namespace Expr

def one (operand : Operand) : Expr := .operands [operand] "|"

def text : Expr → Text
  | .operands list operator =>
    Text.join (Text.cat [" ",operator," "]) (list.map Operand.text)
  | .next enum value => Text.cat [enum,"_",value," + 1"]
  | .conversion type operand => Text.cat [type,"(",operand.text,")"]

def operandList : Expr → List Operand
  | .operands list _ => list
  | .next enum value => [.enumValue [] enum value]
  | .conversion _ operand => [operand]

end Expr

def operand (b : Batch) (symbol : Reference) : Render Operand :=
  match symbol with
  | .weak name => match Literal.parse? name with
    | none => return .unknown name
    | some l => return .numeral l.decimal
  | .strong _ none => throw (.typeNotValue symbol.identifier)
  | .strong decl (some member) => match b.schema.decl? decl with
    | some (.enum e) => do
      b.useEnums
      return .enumValue b.enumQualifier e.name member
    | some (.class c) => return .classConst c.name member
    | none => throw (.unresolvedValue symbol.identifier)

def symbols (b : Batch) (terms : List Reference) (operator : Text) : Render Expr := do
  return .operands (← terms.mapM (operand b)) operator

/-- Whether a symbol names a value or a constant that is not written out. -/
def isRemoved (schema : Schema) : Reference → Bool
  | .strong decl (some member) => match schema.decl? decl with
    | some (.enum e) => (e.value? member).any (·.removed)
    | some (.class c) => c.removed || (c.property? member).any (·.removed)
    | none => false
  | _ => false

/-- Whether a symbol names a constant of a type that is written out. -/
def isNamed (b : Batch) (type : Text) (symbol : Reference) : Bool :=
  match symbol with
  | .strong decl (some member) =>
    !isRemoved b.schema symbol && match b.schema.decl? decl with
      | some (.enum e) => b.enumTypeName e.name == type
      | some (.class c) => match c.property? member with
        | some p => p.flag == some .const && b.knownTypeName p.type == type
        | none => false
      | none => false
  | _ => false

/-- The expression for a value of a type. References stay if all of them are constants of that type
that are written out; otherwise the number stands in their place. -/
def valueExpr (b : Batch) (terms : List Reference) (type : Text) (storage : Primitive) :
    Render Expr :=
  if !terms.isEmpty && terms.all (isNamed b type) then symbols b terms "|"
  else match Plan.evalOnce b.schema terms with
    | some bits => return .one (.numeral (numeral storage false bits))
    | none => throw (.unevaluated (terms.map Reference.identifier))

end Artifact

end WireSchema
