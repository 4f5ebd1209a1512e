import WireSchema.Artifact.Enum
set_option autoImplicit false

namespace WireSchema.Artifact

variable [Casing]

abbrev PlanField := Plan.Field Plan.Class

/-- How a field is called in the methods of its class: the field itself, and the variable of its
payload. -/
structure Slot where
  ref : Text
  payload : Text
  deriving DecidableEq, Repr

def fieldIdent (f : PlanField) : Text :=
  if f.head.transform.isAdapter then unexported f.name else exported f.name

def slotOf (f : PlanField) : Slot where
  ref := Text.cat ["m.",fieldIdent f]
  payload := Text.cat ["payload",exported f.name]

structure StructField where
  deprecated : Option Text
  ident : Text
  type : Text
  deriving Repr

structure ClassConstant where
  deprecated : Option Text
  name : Text
  type : Text
  expr : Expr
  deriving Repr

inductive Setup where
  | header (parent : Text)
  | tag (conversion : Option Text)
  | message (slot : Slot) (type : Text)
  | record (slot : Slot) (className : Text)
  | value (slot : Slot) (expr : Expr)
  deriving Repr

/-- The method for the tag: a message tells its own, a header takes one. -/
inductive TagMethod where
  | tell (type : Text) (expr : Expr)
  | take (type : Text) (field : Option (Slot × Option Text))
  deriving Repr

structure Accessor where
  ident : Text
  slot : Slot
  transform : Transform
  deriving Repr

inductive WriteStep where
  | render (slot : Slot) (shape : Plan.Shape Unit)
  | setLength (holder : Slot) (type : Text) (slot : Slot)
  | header
  | fixed (slot : Slot) (transform : Transform)
  | payload (slot : Slot)
  deriving Repr

inductive ReadStep where
  | header
  | fixed (slot : Slot)
  | masked (slot : Slot) (type : Text) (transform : Transform)
  | record (slot : Slot)
  | message (slot : Slot) (length : Option Slot) (type : Text)
  | framedRecord (slot : Slot) (length : Option Slot)
  | numbers (slot : Slot) (length : Option Slot) (element : Text)
  deriving Repr

structure ClassCode where
  name : Text
  parent : Option Text
  marker : Text
  fields : List StructField
  constants : List ClassConstant
  setup : List Setup
  tag : Option TagMethod
  accessors : List Accessor
  writes : List WriteStep
  reads : List ReadStep
  deriving Repr

abbrev Use := Text × Text

/-- Takes identifiers one after the other; each may be taken once. -/
def takeIdents (taken : List Use) : List Use → Except Fault (List Use)
  | [] => .ok taken
  | (ident,owner) :: rest =>
    match taken.lookup ident with
    | some first => .error (.clash first owner ident)
    | none => takeIdents ((ident,owner) :: taken) rest

def reservedIdents (plan : Plan.Class) : List Text := List.flatten [
  ["Serialize","Deserialize"],
  if plan.parent.isSome then ["Header"] else [],
  match plan.role with
  | .message => ["GetEMsg"]
  | .header => ["SetEMsg"]
  | .plain => []]

def propertyIdents (f : PlanField) : List Text :=
  if f.head.transform.isAdapter then
    [exported f.name,unexported f.name,Text.cat ["Set",exported f.name]]
  else [exported f.name]

/-- Takes the identifiers of the fields. The class of a field must not be removed. -/
def takeFieldIdents (taken : List Use) : List PlanField → Except Fault Unit
  | [] => .ok ()
  | f :: rest => do
    if let .nested plan := f.shape then
      if plan.decl.removed then .error (.typeRemoved f.name plan.name)
    let owner : Text := Text.cat ["property ",f.name]
    takeFieldIdents (← takeIdents taken ((propertyIdents f).map fun ident => (ident,owner))) rest

/-- No identifier of a class has two uses, and neither its parent nor a class in it is removed. -/
def checkIdents (plan : Plan.Class) : Except Fault Unit := do
  if let some parent := plan.parent then
    if parent.decl.removed then .error (.parentRemoved parent.name)
  let reserved := (reservedIdents plan).map fun ident =>
    (ident,Text.cat ["generated method ",ident])
  takeFieldIdents (← takeIdents [] reserved) plan.fields

def elementType (b : Batch) (f : PlanField) (carrier : Primitive) : Render Text :=
  match f.head.enum with
  | some e => b.enumRef e.name
  | none => return numberType carrier

def fieldType (b : Batch) (f : PlanField) : Render Text :=
  match f.shape with
  | .scalar carrier =>
    if f.head.transform.isAdapter then return numberType carrier else elementType b f carrier
  | .array carrier count => do
    return Text.cat ["[",Text.ofNat count,"]",← elementType b f carrier]
  | .slice carrier => do return Text.cat ["[]",← elementType b f carrier]
  | .external type => do return Text.cat ["*",← b.protoRef type]
  | .nested plan => return plan.name

def structField (b : Batch) (f : PlanField) : Render StructField := do
  return {
    deprecated := f.head.property.obsolete.map deprecation
    ident := fieldIdent f
    type := ← fieldType b f }

def familyMark : Family → Text
  | .primary => "Steam"
  | .gc => "GC"

def markerOf (plan : Plan.Class) : Text :=
  match plan.role with
  | .message => Text.cat [familyMark plan.family,"SerializableMessage"]
  | .header => Text.cat [familyMark plan.family,"SerializableHeader"]
  | .plain => "SteamSerializable"

def during {α : Type} (wrap : Fault → Fault) (body : Render α) : Render α :=
  tryCatch body fun cause => throw (wrap cause)

def classConstant (b : Batch) (p : Schema.Property) : Render ClassConstant :=
  during (.inConst p.name) do
    let type ← b.typeName p.type
    let storage := (b.schema.storage? p.type).getD .long
    return {
      deprecated := p.obsolete.map deprecation
      name := p.name
      type
      expr := ← valueExpr b p.default type storage }

def headerSetup (b : Batch) (plan : Plan.Class) : Render (List Setup) :=
  match plan.parent with
  | none => return []
  | some parent => do
    if plan.role = .message ∧ parent.role = .header then
      let own ← b.tagType plan.family
      let theirs ← b.tagType parent.family
      return [.header parent.name,.tag (if own == theirs then none else some theirs)]
    else return [.header parent.name]

def fieldSetup (b : Batch) (f : PlanField) : Render (List Setup) := do
  let slot := slotOf f
  let fresh ← match f.shape with
    | .external type => do pure [Setup.message slot (← b.protoRef type)]
    | .nested plan => pure [Setup.record slot plan.name]
    | _ => pure []
  let terms := f.head.property.default
  if terms.isEmpty then return fresh
  match f.shape with
  | .scalar carrier =>
    let type ← fieldType b f
    let expr ← during (.inProperty f.name) (valueExpr b terms type carrier)
    return fresh ++ [Setup.value slot expr]
  | shape => throw (.inProperty f.name (.defaultOnKind shape.kind))

def tagExpr (b : Batch) (identity : Option Reference) (type : Text) : Render Expr :=
  match identity with
  | none => throw .noTag
  | some (.weak name) => match Literal.parse? name with
    | some ⟨value,false⟩ => return .one (.numeral (numeral .uint false value))
    | _ => throw (.badTag name)
  | some symbol@(.strong decl _) => do
    let enum := b.schema.enum? decl
    if isRemoved b.schema symbol then
      match Plan.evalOnce b.schema [symbol] with
      | none => throw (.unevaluatedTag symbol.identifier)
      | some bits =>
        let storage := match enum with
          | some e => e.storage
          | none => .uint
        return .conversion type (.numeral (numeral storage false bits))
    let ref ← operand b symbol
    match enum with
    | some e => return if b.enumTypeName e.name == type then .one ref else .conversion type ref
    | none => return .conversion type ref

def tagMethod (b : Batch) (plan : Plan.Class) : Render (Option TagMethod) := do
  let type ← b.tagType plan.family
  match plan.role with
  | .plain => return none
  | .message => return some (.tell type (← tagExpr b plan.decl.identity type))
  | .header => match plan.tagField? with
    | none => return some (.take type none)
    | some f => match f.shape, f.head.transform.isAdapter with
      | .scalar _, false =>
        let own ← fieldType b f
        return some (.take type (some (slotOf f,if own == type then none else some own)))
      | _, _ => throw (.tagNotScalar f.name)

def accessorsOf (plan : Plan.Class) : Render (List Accessor) := do
  let adapted := plan.fields.filter fun f => f.head.transform.isAdapter
  for f in adapted do
    if f.head.transform != .bool then useRuntime
  return adapted.map fun f => ⟨exported f.name,slotOf f,f.head.transform⟩

def holderSlot (plan : Plan.Class) (holder : Plan.Holder) : Slot :=
  match plan.field? holder.name with
  | some f => slotOf f
  | none => ⟨Text.cat ["m.",exported holder.name],Text.cat ["payload",exported holder.name]⟩

def outline : Plan.Shape Plan.Class → Plan.Shape Unit
  | .scalar carrier => .scalar carrier
  | .array carrier count => .array carrier count
  | .slice carrier => .slice carrier
  | .external type => .external type
  | .nested _ => .nested ()

/-- The writing method: payloads are rendered first, so that the fields with their lengths are set
when they are written. -/
def writeSteps (plan : Plan.Class) : List WriteStep := List.flatten [
  plan.variableSized.map fun f => .render (slotOf f) (outline f.shape),
  plan.variableSized.filterMap fun f => f.head.lengthField.map fun holder =>
    .setLength (holderSlot plan holder) (numberType holder.carrier) (slotOf f),
  if plan.parent.isSome then [.header] else [],
  plan.fixed.map fun f => .fixed (slotOf f) f.head.transform,
  plan.variableSized.map fun f => .payload (slotOf f)]

def useForWrites (plan : Plan.Class) : Render Unit := do
  useImport "io" []
  for f in plan.variableSized do
    match f.shape with
    | .external _ => useImport protobufPath []
    | _ => useRuntime
  for _ in plan.fixed do
    useImport "encoding/binary" []
    useRuntime

def readFixed (b : Batch) (f : PlanField) : Render ReadStep := do
  useImport "encoding/binary" []
  useRuntime
  if f.head.transform.isMask then
    return .masked (slotOf f) (← fieldType b f) f.head.transform
  else return .fixed (slotOf f)

def readVariable (b : Batch) (plan : Plan.Class) (f : PlanField) : Render ReadStep := do
  let slot := slotOf f
  let length := f.head.lengthField.map (holderSlot plan)
  match f.shape, length with
  | .nested _, none => return .record slot
  | shape, length =>
    if length.isSome then useRuntime
    match shape with
    | .external type =>
      useImport protobufPath []
      return .message slot length (← b.protoRef type)
    | .nested _ =>
      useImport "bytes" []
      return .framedRecord slot length
    | .slice carrier => return .numbers slot length (← elementType b f carrier)
    | .scalar carrier => return .numbers slot length (← elementType b f carrier)
    | .array carrier _ => return .numbers slot length (← elementType b f carrier)

/-- The reading method, in the order of the writing one. -/
def readSteps (b : Batch) (plan : Plan.Class) : Render (List ReadStep) := do
  useImport "io" []
  let fixed ← plan.fixed.mapM (readFixed b)
  let rest ← plan.variableSized.mapM (readVariable b plan)
  return (if plan.parent.isSome then [ReadStep.header] else []) ++ fixed ++ rest

def classCode (b : Batch) (plan : Plan.Class) : Render ClassCode := do
  liftExcept (checkIdents plan)
  let fields ← plan.fields.mapM (structField b)
  let constants ← plan.consts.mapM (classConstant b)
  let header ← headerSetup b plan
  let setup ← plan.fields.mapM (fieldSetup b)
  let tag ← tagMethod b plan
  let accessors ← accessorsOf plan
  useForWrites plan
  let reads ← readSteps b plan
  return {
    name := plan.name
    parent := plan.parent.map Plan.Class.name
    marker := markerOf plan
    fields
    constants
    setup := header ++ setup.flatten
    tag
    accessors
    writes := writeSteps plan
    reads }
where
  liftExcept (result : Except Fault Unit) : Render Unit := match result with
    | .ok _ => pure ()
    | .error fault => throw fault

end WireSchema.Artifact
