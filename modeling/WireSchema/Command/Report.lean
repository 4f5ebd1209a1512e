import WireSchema.Job.Load
import WireSchema.Json.Basic
import WireSchema.Plan.Class
set_option autoImplicit false

namespace WireSchema

structure Report where
  source : Text
  enums : List Plan.Enum
  classes : List (Plan.Class × Option UInt64)
  warnings : List (Located Schema.Warning)
  deriving Repr

namespace Report

def tag? (schema : Schema) (plan : Plan.Class) : Option UInt64 :=
  plan.decl.identity.bind fun symbol => Plan.evalOnce schema [symbol]

structure Fault where
  className : Text
  cause : Plan.Fault
  deriving Repr

def Fault.message (f : Fault) : Text := Text.cat [f.className,": ",f.cause.message]

def layouts (planner : Planner) : List Schema.Class → Except Fault (List Plan.Class)
  | [] => .ok []
  | c :: rest =>
    if c.removed then layouts planner rest
    else match planner.layout c with
      | (.error cause,_) => .error ⟨c.name,cause⟩
      | (.ok plan,planner) => do return plan :: (← layouts planner rest)

def ofCompiled (supportsGc : Bool) (c : Load.Compiled) : Except Fault Report := do
  let classes ← layouts (.new c.schema supportsGc) c.schema.classes
  return {
    source := c.schema.sourcePath
    enums := c.schema.enums.map (Plan.enumOnce c.schema)
    classes := classes.map fun plan => (plan,tag? c.schema plan)
    warnings := c.warnings }

def number (e : Plan.Enum) (bits : UInt64) : Int :=
  if e.decl.storage.unsigned then bits.toNat else (e.decl.storage.signed bits).toInt

def typeText (f : Plan.Field Plan.Class) : Text :=
  let name := f.head.property.type.identifier
  match f.shape with
  | .external type => type
  | .nested plan => plan.name
  | .array _ _ => Text.cat [name,"<",Text.ofNat f.head.property.arrayLength,">"]
  | _ => name

def fieldText (f : Plan.Field Plan.Class) : Text := Text.cat [
  match f.head.property.flag with
    | some flag => Text.cat [Flag.wordOf (some flag)," "]
    | none => [],
  typeText f,
  if f.isFixed then Text.cat [", ",Text.ofNat f.size," bytes"]
    else match f.head.lengthField with
      | some holder => Text.cat [", sized by ",holder.name]
      | none => ", unbounded",
  match f.head.lengthOf with
    | some name => Text.cat [", length of ",name]
    | none => []]

def valueLine (e : Plan.Enum) (v : Plan.EnumValue) : Text := Text.cat [
  "\t",v.name," = ",
  match v.bits with
    | some bits => Text.ofInt (number e bits)
    | none => "?",
  if v.isImplicit then " (implicit)" else [],
  match v.value.obsolete with
    | some marker =>
      if marker.message.isEmpty then " (obsolete)"
      else Text.cat [" (obsolete: ",marker.message,")"]
    | none => []]

def enumLines (e : Plan.Enum) : Lines :=
  Text.cat ["enum ",e.name,"<",e.decl.storage.name,">",if e.decl.flags then " flags" else []]
    :: e.values.map (valueLine e)

def classLines (plan : Plan.Class) (tag : Option UInt64) : Lines :=
  Text.cat [
    "class ",plan.name,
    match tag with
      | some bits => Text.cat ["<",Text.ofNat bits.toNat,">"]
      | none => [],
    match plan.parent with
      | some parent => Text.cat [" expects ",parent.name]
      | none => [],
    " (",plan.role.name,", ",plan.family.name,", ",Text.ofNat plan.baseSize,
    " bytes fixed)"] ::
  (plan.consts.map (fun p => Text.cat [
    "\tconst ",p.name," = ",Text.join " | " (p.default.map Reference.identifier)]) ++
  plan.fields.map fun f => Text.cat ["\t",f.name,": ",fieldText f])

def text (r : Report) : Text :=
  Lines.text (r.enums.flatMap enumLines ++ r.classes.flatMap fun (plan,tag) => classLines plan tag)

def optional {α : Type} (name : String) (write : α → Json) : Option α → List (String × Json)
  | none => []
  | some x => [(name,write x)]

def valueJson (e : Plan.Enum) (v : Plan.EnumValue) : Json :=
  .ofFields ([("name",.ofText v.name)] ++
    optional "value" (fun bits => .ofInt (number e bits)) v.bits ++
    (if v.isImplicit then [("implicit",.bool true)] else []) ++
    optional "obsolete" (fun marker => .ofText marker.message) v.value.obsolete)

def enumJson (e : Plan.Enum) : Json :=
  .ofFields [("name",.ofText e.name),("storage",.ofText e.decl.storage.name),
    ("flags",.bool e.decl.flags),("values",.array (e.values.map (valueJson e)))]

def fieldJson (f : Plan.Field Plan.Class) : Json :=
  .ofFields ([("name",.ofText f.name),("kind",.ofText f.shape.kind),
    ("type",.ofText (typeText f))] ++
    optional "flag" (fun flag => .ofText (Flag.wordOf (some flag))) f.head.property.flag ++
    [("size",.ofNat f.size)] ++
    optional "length_field" (fun holder => .ofText holder.name) f.head.lengthField)

def classJson (plan : Plan.Class) (tag : Option UInt64) : Json :=
  .ofFields ([("name",.ofText plan.name),("role",.ofText plan.role.name),
    ("family",.ofText plan.family.name)] ++
    optional "identity" (fun bits => .ofNat bits.toNat) tag ++
    optional "parent" (fun parent => .ofText parent.name) plan.parent ++
    [("base_size",.ofNat plan.baseSize),("fields",.array (plan.fields.map fieldJson))])

def warningJson (w : Located Schema.Warning) : Json :=
  .ofFields [("path",.ofText w.path),("line",.ofNat w.position.line),
    ("column",.ofNat w.position.column),("code",.ofNat w.cause.code),
    ("message",.ofText w.cause.reason)]

def toJson (r : Report) : Json :=
  .ofFields [("source",.ofText r.source),("enums",.array (r.enums.map enumJson)),
    ("classes",.array (r.classes.map fun (plan,tag) => classJson plan tag)),
    ("warnings",.array (r.warnings.map warningJson))]

def jsonLine (r : Report) : Text := r.toJson.text ++ [Text.newline]

end Report

end WireSchema
