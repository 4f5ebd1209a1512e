import WireSchema.Artifact.Constant
set_option autoImplicit false

namespace WireSchema.Artifact

structure EnumConstant where
  deprecated : Option Text
  value : Text
  expr : Expr
  deriving Repr

/-- The parts of an enumeration's source code. The named values are those in the table of names. -/
structure EnumCode where
  name : Text
  table : Text
  storage : Primitive
  flags : Bool
  constants : List EnumConstant
  named : List Text
  deriving Repr

/-- The expression of a value: its number if it has one, else what it was declared as. -/
def enumValueExpr (b : Batch) (plan : Plan.Enum) (v : Plan.EnumValue) : Render Expr :=
  match v.bits with
  | some bits => return .one (.numeral (numeral plan.decl.storage plan.decl.flags bits))
  | none =>
    if !v.value.default.isEmpty then symbols b v.value.default "|"
    else match Plan.predecessor? v.name plan.decl.values with
      | some before =>
        if before.removed then throw (.noPredecessor v.name)
        else return .next plan.name before.name
      | none => throw (.noPredecessor v.name)

def firstNamed (seen : List UInt64) : List Plan.EnumValue → List Text
  | [] => []
  | v :: rest => match v.bits with
    | some bits =>
      if seen.contains bits then firstNamed seen rest
      else v.name :: firstNamed (bits :: seen) rest
    | none => firstNamed seen rest

def enumCode [Casing] (b : Batch) (plan : Plan.Enum) : Render EnumCode := do
  let constants ← plan.values.mapM fun v => do
    return {
      deprecated := v.value.obsolete.map deprecation
      value := v.name
      expr := ← enumValueExpr b plan v }
  if !plan.decl.flags then useImport "fmt" []
  return {
    name := plan.name
    table := Text.cat [unexported plan.name,"Names"]
    storage := plan.decl.storage
    flags := plan.decl.flags
    constants
    named := firstNamed [] plan.values }

def deprecatedLine (indent : Text) : Option Text → Lines
  | none => []
  | some reason => [Text.cat [indent,"// Deprecated: ",reason]]

namespace EnumCode

def constantLines (e : EnumCode) : Lines :=
  if e.constants.isEmpty then []
  else Lines.cat [
    ["const ("],
    e.constants.flatMap fun c => Lines.cat [
      deprecatedLine "\t" c.deprecated,
      [Text.cat ["\t",e.name,"_",c.value," ",e.name," = ",c.expr.text]]],
    [")",""]]

def flagLines (e : EnumCode) : Lines := [
  "// Has reports whether every flag set in flag is also set in v.",
  Text.cat ["func (v ",e.name,") Has(flag ",e.name,") bool \x7b"],
  "\treturn v&flag == flag",
  "\x7d",
  ""]

def nameLines (e : EnumCode) : Lines := Lines.cat [
  [Text.cat ["var ",e.table," = map[",e.name,"]string\x7b"]],
  e.named.map fun value =>
    Text.cat ["\t",e.name,"_",value,": ",Text.Quoted.quote value,","],
  ["\x7d",
    "",
    Text.cat ["func (v ",e.name,") String() string \x7b"],
    Text.cat ["\tif name, ok := ",e.table,"[v]; ok \x7b"],
    "\t\treturn name",
    "\t\x7d",
    Text.cat ["\treturn fmt.Sprintf(\"",e.name,"(%d)\", ",
      if e.storage.unsigned then "uint64" else "int64","(v))"],
    "\x7d",
    ""]]

def lines (e : EnumCode) : Lines := Lines.cat [
  if e.flags then [Text.cat ["// ",e.name," is a set of flags."]] else [],
  [Text.cat ["type ",e.name," ",numberType e.storage],""],
  e.constantLines,
  if e.flags then e.flagLines else e.nameLines]

end EnumCode

end WireSchema.Artifact
