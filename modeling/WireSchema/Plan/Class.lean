import WireSchema.Plan.Enum
set_option autoImplicit false

/-!
How the properties of a class are laid out: the header first, then the fields of fixed size in the
order of their declaration, then those of variable size. A class that contains itself has no layout.
-/

namespace WireSchema

/-- What a class is for: a message has a tag of its own, a header holds the tag of the message that
it stands in front of. -/
inductive Role where
  | plain
  | message
  | header
  deriving DecidableEq, Repr, Inhabited

namespace Role

def all : List Role := [.plain,.message,.header]

def name : Role → Text
  | .plain => "plain"
  | .message => "message"
  | .header => "header"

def nameOfCode (code : UInt8) : Text :=
  match all[code.toNat]? with
  | some role => role.name
  | none => Text.cat ["Role(",Text.ofNat code.toNat,")"]

end Role

inductive Family where
  | primary
  | gc
  deriving DecidableEq, Repr, Inhabited

namespace Family

def all : List Family := [.primary,.gc]

def name : Family → Text
  | .primary => "primary"
  | .gc => "gc"

def nameOfCode (code : UInt8) : Text :=
  match all[code.toNat]? with
  | some family => family.name
  | none => Text.cat ["Family(",Text.ofNat code.toNat,")"]

end Family

/-- What happens to a number between a record and the wire. -/
inductive Transform where
  | none
  | protoMask
  | protoMaskGc
  | steamId
  | gameId
  | bool
  deriving DecidableEq, Repr, Inhabited

namespace Transform

def ofFlag : Option Flag → Transform
  | some .protoMask => .protoMask
  | some .protoMaskGc => .protoMaskGc
  | some .steamId => .steamId
  | some .gameId => .gameId
  | some .bool => .bool
  | _ => .none

/-- Whether the value in a record is of another type than the number on the wire. -/
def isAdapter : Transform → Bool
  | .steamId | .gameId | .bool => true
  | _ => false

def isMask : Transform → Bool
  | .protoMask | .protoMaskGc => true
  | _ => false

end Transform

namespace Plan

/-- The field that holds the length of a payload in bytes, and the type of its number. -/
structure Holder where
  name : Text
  carrier : Primitive
  deriving DecidableEq, Repr, Inhabited

/-- What all fields have. A size of zero means that the size is not fixed. -/
structure Head where
  property : Schema.Property
  size : Nat
  transform : Transform
  enum : Option Schema.Enum
  lengthField : Option Holder
  lengthOf : Option Text
  deriving Repr, Inhabited

inductive Shape (ρ : Type) where
  | scalar (carrier : Primitive)
  | array (carrier : Primitive) (count : Nat)
  | slice (carrier : Primitive)
  | external (type : Text)
  | nested (plan : ρ)
  deriving Repr, Inhabited

structure Field (ρ : Type) where
  head : Head
  shape : Shape ρ
  deriving Repr, Inhabited

namespace Field

variable {ρ : Type}

def name (f : Field ρ) : Text := f.head.property.name

def size (f : Field ρ) : Nat := f.head.size

def isFixed (f : Field ρ) : Bool := 0 < f.head.size

def carrier? (f : Field ρ) : Option Primitive :=
  match f.shape with
  | .scalar carrier => some carrier
  | .array carrier _ => some carrier
  | .slice carrier => some carrier
  | .external _ => none
  | .nested _ => none

end Field

namespace Shape

variable {ρ : Type}

def kinds : List Text := ["scalar","array","slice","proto","class"]

def kind : Shape ρ → Text
  | .scalar _ => "scalar"
  | .array .. => "array"
  | .slice _ => "slice"
  | .external _ => "proto"
  | .nested _ => "class"

def kindOfCode (code : UInt8) : Text :=
  kinds[code.toNat]?.getD (Text.cat ["FieldKind(",Text.ofNat code.toNat,")"])

end Shape

/-- The layout of a class, with the layouts of its parent and of the classes in its fields. -/
structure Class where
  decl : Schema.Class
  parent : Option Class
  role : Role
  family : Family
  fields : List (Field Class)
  consts : List Schema.Property
  deriving Repr, Inhabited

namespace Class

def name (c : Class) : Text := c.decl.name

def field? (c : Class) (name : Text) : Option (Field Class) :=
  c.fields.find? fun f => f.name == name

def fixed (c : Class) : List (Field Class) := c.fields.filter Field.isFixed

def variableSized (c : Class) : List (Field Class) := c.fields.filter fun f => !f.isFixed

/-- The order of the fields behind the header. -/
def wireOrder (c : Class) : List (Field Class) := c.fixed ++ c.variableSized

def baseSize (c : Class) : Nat := (c.fields.map Field.size).foldr (· + ·) 0

def tagField? (c : Class) : Option (Field Class) :=
  if c.role = .header then c.field? "msg" else none

end Class

inductive Fault where
  | containsItself (name : Text)
  | unknownType (name : Text)
  | inProperty (className property : Text) (cause : Fault)
  /-- More classes stand in each other than there are, which no run comes to. -/
  | exhausted
  deriving DecidableEq, Repr

def Fault.root : Fault → Fault
  | .inProperty _ _ cause => cause.root
  | fault => fault

def Fault.message : Fault → Text
  | .containsItself name => Text.cat ["class ",Text.Quoted.quote name," contains itself"]
  | .unknownType name => Text.cat ["unknown type ",Text.Quoted.quote name]
  | .inProperty className property cause =>
    Text.cat [className,".",property,": ",cause.message]
  | .exhausted => "too many classes in each other"

/-- The classes that have been asked for: the latest entry of a name counts, and one without a
layout is being laid out or has failed. -/
abbrev Layouts := List (Text × Option Class)

/-- Planning remembers every class that it meets, also when it fails. -/
abbrev PlanM := ExceptT Fault (StateM Layouts)

/-- Whether a class has a tag of its own, or is named as a header. -/
def roleOf (c : Schema.Class) : Role :=
  if c.identity.isSome then .message
  else if Text.occurs "Hdr" c.name then .header
  else .plain

def familyOf (supportsGc : Bool) (c : Schema.Class) : Family :=
  if supportsGc && Text.occurs "MsgGC" c.name then .gc else .primary

def numbers (p : Schema.Property) (carrier : Primitive) : Shape Class :=
  if 0 < p.arrayLength then .array carrier p.arrayLength
  else if p.lengthField.isSome then .slice carrier
  else .scalar carrier

def enumOf? (schema : Schema) : Reference → Option Schema.Enum
  | .weak _ => none
  | .strong decl _ => schema.enum? decl

def shapeOf (schema : Schema) (ask : Schema.Class → PlanM Class) (p : Schema.Property) :
    PlanM (Shape Class) :=
  if p.flag = some .proto then return .external p.type.identifier
  else match p.type with
    | .weak name => match Primitive.ofName? name with
      | some primitive => return numbers p primitive
      | none => throw (.unknownType name)
    | .strong decl _ => match schema.decl? decl with
      | some (.enum e) => return numbers p (carrierOf e.storage)
      | some (.class c) => return .nested (← ask c)
      | none => throw (.unknownType decl)

def isWritten (p : Schema.Property) : Bool := !p.removed && p.flag != some .const

def holderOf? (schema : Schema) (c : Schema.Class) (p : Schema.Property) : Option Holder := do
  let name ← p.lengthField
  let holder ← (c.properties.filter isWritten).find? fun q => q.name == name
  let carrier ← schema.storage? holder.type
  return { name, carrier }

def headOf (schema : Schema) (c : Schema.Class) (p : Schema.Property) : Head where
  property := p
  size := schema.sizeOf p
  transform := .ofFlag p.flag
  enum := if p.flag = some .proto then none else enumOf? schema p.type
  lengthField := holderOf? schema c p
  lengthOf := ((c.properties.filter isWritten).find? fun q => q.lengthField == some p.name).map
    (·.name)

/-- The field of a property. A class inside it is laid out first. -/
def fieldOf (schema : Schema) (ask : Schema.Class → PlanM Class) (c : Schema.Class)
    (p : Schema.Property) : PlanM (Field Class) :=
  tryCatch (do return { head := headOf schema c p, shape := ← shapeOf schema ask p })
    fun cause => throw (.inProperty c.name p.name cause)

def assemble (schema : Schema) (supportsGc : Bool) (ask : Schema.Class → PlanM Class)
    (c : Schema.Class) (parent : Option Class) : PlanM Class := do
  let fields ← (c.properties.filter isWritten).mapM (fieldOf schema ask c)
  let plan : Class := {
    decl := c
    parent
    role := roleOf c
    family := familyOf supportsGc c
    fields
    consts := c.properties.filter fun p => !p.removed && p.flag == some .const }
  modify ((c.name,some plan) :: ·)
  return plan

/-- The layout of a class, found in at most as many nested steps as the fuel says. -/
def layout (schema : Schema) (supportsGc : Bool) : Nat → Schema.Class → PlanM Class
  | 0, _ => throw .exhausted
  | fuel + 1, c => do
    match (← get).lookup c.name with
    | some none => throw (.containsItself c.name)
    | some (some plan) => return plan
    | none =>
      modify ((c.name,none) :: ·)
      let parent ← (c.parent.bind schema.class?).mapM (layout schema supportsGc fuel)
      assemble schema supportsGc (layout schema supportsGc fuel) c parent

end Plan

/-- A schema with what has been asked about it. Answers do not depend on earlier questions, but the
wording of a failure does. -/
structure Planner where
  schema : Schema
  supportsGc : Bool
  memo : Plan.Memo
  layouts : Plan.Layouts
  deriving Repr, Inhabited

namespace Planner

def new (schema : Schema) (supportsGc : Bool) : Planner := ⟨schema,supportsGc,.empty,[]⟩

def layout (p : Planner) (c : Schema.Class) : Except Plan.Fault Plan.Class × Planner :=
  let (result,layouts) :=
    (Plan.layout p.schema p.supportsGc (p.schema.classes.length + 1) c).run p.layouts
  (result,{ p with layouts })

def ask {α : Type} (p : Planner) (question : Schema → Plan.Eval α) : α × Planner :=
  let (answer,memo) := question p.schema p.memo
  (answer,{ p with memo })

end Planner

end WireSchema
