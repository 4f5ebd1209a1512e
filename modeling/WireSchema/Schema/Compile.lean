import WireSchema.Schema.Basic
import WireSchema.Schema.Error
set_option autoImplicit false

/-!
From a document to a schema. Names may refer forward, so every check reads the whole document and
none depends on what another has found. The first fault in this order decides: declarations and
their member names, then enumerations, then classes, then the chains of parents.
-/

namespace WireSchema.Schema

abbrev Warned (α : Type) := α × List Warning

def collect {α β : Type} (check : α → Except Fault (Warned β)) :
    List α → Except Fault (Warned (List β))
  | [] => .ok ([],[])
  | x :: xs => do
    let (y,warnings) ← check x
    let (ys,more) ← collect check xs
    return (y :: ys,warnings ++ more)

def fail {α : Type} (cause : Cause) (span : Span) : Except Fault α := .error ⟨cause,span⟩

def resolve (doc : Document) (strongOnly : Bool) (name : Ident) : Except Fault Reference :=
  match Symbol.resolve doc strongOnly name.text with
  | .error fault => fail (.symbol fault) name.span
  | .ok symbol => .ok symbol.reference

def obsoleteMarker? (doc : Document) : Reference → Option Marker
  | .strong declName (some member) =>
    match doc.decl? declName with
    | some (.class c) => (c.property? member).bind (·.obsolete)
    | some (.enum e) => (e.value? member).bind (·.obsolete)
    | none => none
  | _ => none

/-- Resolves a term of a default. One that binds has to name a member. -/
def resolveValue (doc : Document) (decl : Text) (term : Ident) : Except Fault
    (Warned Reference) := do
  match ← resolve doc false term with
  | .strong _ none => fail (.notAValue decl term.text) term.span
  | symbol =>
    let warnings := match obsoleteMarker? doc symbol with
      | some _ => [⟨.obsoleteReference decl term.text,term.span⟩]
      | none => []
    return (symbol,warnings)

/-- Resolves a term of an enumeration value. A bare name refers to a sibling first. -/
def resolveEnumTerm (doc : Document) (e : Document.Enum) (term : Ident) :
    Except Fault (Warned Reference) :=
  if (e.value? term.text).isSome then .ok (.strong e.name.text (some term.text),[])
  else resolveValue doc e.name.text term

def declaredStorage (e : Document.Enum) : Primitive :=
  match e.storage with
  | none => .enumDefault
  | some name => (Primitive.ofName? name.text).getD .enumDefault

/-- A declared storage is an integer type that no declaration shadows. -/
def checkStorage (doc : Document) (e : Document.Enum) : Except Fault Unit :=
  match e.storage with
  | none => .ok ()
  | some name =>
    let sound := match Primitive.ofName? name.text with
      | some p => p.integer && (doc.decl? name.text).isNone
      | none => false
    if sound then .ok () else fail (.enumStorage e.name.text name.text) name.span

def compileEnumValue (doc : Document) (e : Document.Enum) (v : Document.EnumValue) :
    Except Fault (Warned EnumValue) := do
  let (terms,warnings) ← collect (resolveEnumTerm doc e) v.defaults
  return ({
    name := v.name.text
    default := terms
    obsolete := v.obsolete
    removed := v.removed.isSome },warnings)

def compileEnum (doc : Document) (e : Document.Enum) : Except Fault (Warned Enum) := do
  checkStorage doc e
  let (values,warnings) ← collect (compileEnumValue doc e) e.values
  return ({ name := e.name.text, storage := declaredStorage e, flags := e.flags, values },warnings)

inductive TypeShape where
  | primitive (p : Primitive)
  | enum (e : Document.Enum)
  | class (name : Text)
  | external

def typeShape (doc : Document) : Reference → TypeShape
  | .weak name => match Primitive.ofName? name with
    | some p => .primitive p
    | none => .external
  | .strong declName _ => match doc.decl? declName with
    | some (.enum e) => .enum e
    | _ => .class declName

def maskable : TypeShape → Bool
  | .primitive p => p.size == 4 && p.integer
  | .enum e => (declaredStorage e).size == 4
  | _ => false

def checkType (doc : Document) (decl : Text) (p : Document.Property) (type : Reference) :
    Except Fault Unit :=
  let refuse (cause : Cause) : Except Fault Unit := fail cause p.type.span
  let shape := typeShape doc type
  match shape, type with
  | _, .strong _ (some _) => refuse (.typeIsMember decl p.type.text)
  | .external, .weak _ =>
    if p.flag = some .proto then .ok () else refuse (.unknownType decl p.type.text)
  | _, _ =>
    match p.flag with
    | none => .ok ()
    | some .proto => match type with
      | .weak _ => .ok ()
      | .strong .. => refuse (.protoTypeDeclared decl p.name.text p.type.text)
    | some .const => match shape with
      | .primitive _ | .enum _ => .ok ()
      | _ => refuse (.constType decl p.name.text p.type.text)
    | some .bool =>
      if p.type.text == Text.ofString "byte" then .ok ()
      else refuse (.adapterType decl p.name.text .bool "byte" p.type.text)
    | some .protoMask =>
      if maskable shape then .ok () else refuse (.maskType decl p.name.text .protoMask p.type.text)
    | some .protoMaskGc =>
      if maskable shape then .ok ()
      else refuse (.maskType decl p.name.text .protoMaskGc p.type.text)
    | some flag =>
      if p.type.text == Text.ofString "ulong" then .ok ()
      else refuse (.adapterType decl p.name.text flag "ulong" p.type.text)

/-- The array length that an option gives, zero if it names a sibling. Arrays have at least one
element of a built-in type. -/
def arrayLength (decl : Text) (p : Document.Property) (type : Reference) : Except Fault Nat :=
  match p.option with
  | none => .ok 0
  | some option =>
    let refuse : Except Fault Nat :=
      fail (.badArrayLength decl p.name.text option.text) option.span
    match (Text.natIn? 10 option.text).filter (· < 0x80000000) with
    | some n =>
      match type with
      | .weak _ => if n = 0 ∨ p.flag = some .proto then refuse else .ok n
      | .strong .. => refuse
    | none =>
      if option.text.head?.any Text.isDigit then refuse else .ok 0

def checkOption (decl : Text) (p : Document.Property) : Except Fault Unit :=
  match p.option, p.flag with
  | none, _ => .ok ()
  | some _, none => .ok ()
  | some _, some .proto => .ok ()
  | some option, some flag => fail (.optionNotAllowed decl p.name.text flag) option.span

def compileProperty (doc : Document) (decl : Text) (p : Document.Property) :
    Except Fault (Warned Property) := do
  let type ← resolve doc false p.type
  checkType doc decl p type
  let (terms,warnings) ← collect (resolveValue doc decl) p.defaults
  if p.flag = some .const ∧ terms.isEmpty then
    fail (.constWithoutValue decl p.name.text) p.name.span
  checkOption decl p
  let length ← arrayLength decl p type
  return ({
    name := p.name.text
    type
    flag := p.flag
    arrayLength := length
    lengthField := none
    lengthOf := none
    default := terms
    obsolete := p.obsolete
    removed := p.removed.isSome },warnings)

/-- A payload and the sibling that holds its length, by name. -/
abbrev Link := Text × Text

/-- Whether a property may hold the length of a payload: a plain integer of its own that no other
payload has taken, and that is written whenever the payload is. -/
def canHold (taken : List Link) (payload holder : Property) (holderNode : Document.Property) :
    Bool :=
  let integer := match holder.type with
    | .weak name => (Primitive.ofName? name).any Primitive.integer
    | .strong .. => false
  integer && holder.name != payload.name && holder.flag.isNone && holder.arrayLength == 0 &&
    holderNode.option.isNone && !(taken.any fun link => link.2 == holder.name) &&
    (!holder.removed || payload.removed)

def linkOf (decl : Text) (all : List (Document.Property × Property)) (taken : List Link)
    (node : Document.Property) (p : Property) : Except Fault (List Link) :=
  match node.option with
  | none => .ok taken
  | some option =>
    if 0 < p.arrayLength then .ok taken
    else match all.find? fun (_,sibling) => sibling.name == option.text with
      | none => fail (.unknownLengthField decl p.name option.text) option.span
      | some (holderNode,holder) =>
        if canHold taken p holder holderNode then .ok (taken ++ [(p.name,holder.name)])
        else fail (.badLengthField decl p.name holder.name) option.span

def linksOf (decl : Text) (all : List (Document.Property × Property)) :
    Except Fault (List Link) :=
  all.foldlM (fun taken (node,p) => linkOf decl all taken node p) []

def withLinks (links : List Link) (p : Property) : Property :=
  { p with
    lengthField := links.lookup p.name
    lengthOf := (links.find? fun link => link.2 == p.name).map Prod.fst }

def isVariable (doc : Document) (p : Property) : Bool :=
  p.flag == some .proto || p.lengthField.isSome ||
    match p.type with
    | .weak _ => false
    | .strong .. => match typeShape doc p.type with
      | .class _ => true
      | _ => false

/-- The first payload that runs to the end of the input although another variable property follows
it, and that property. -/
def unboundedPair? : List (Document.Property × Property) →
    Option (Document.Property × Property)
  | [] => none
  | (node,p) :: rest =>
    if p.flag = some .proto ∧ p.lengthField.isNone then rest.head?.map fun next => (node,next.2)
    else unboundedPair? rest

def unboundedWarnings (doc : Document) (decl : Text)
    (all : List (Document.Property × Property)) : List Warning :=
  let sized := all.filter fun (_,p) =>
    p.flag != some .const && !p.removed && isVariable doc p
  match unboundedPair? sized with
  | none => []
  | some (node,next) => [⟨.unboundedField decl node.name.text next.name,node.name.span⟩]

def compileIdentity (doc : Document) (c : Document.Class) : Except Fault
    (Warned (Option Reference)) :=
  match c.identity with
  | none => .ok (none,[])
  | some name => do
    match ← resolve doc false name with
    | .strong _ none => fail (.notAValue c.name.text name.text) name.span
    | symbol =>
      let warnings := match obsoleteMarker? doc symbol with
        | some marker => [⟨.obsoleteIdentity c.name.text name.text marker.message,name.span⟩]
        | none => []
      return (some symbol,warnings)

def headerMark : Text := "Hdr"

def compileParent (doc : Document) (c : Document.Class) : Except Fault (Warned (Option Text)) :=
  match c.parent with
  | none => .ok (none,[])
  | some name => do
    let refuse : Except Fault (Warned (Option Text)) :=
      fail (.parentNotClass c.name.text name.text) name.span
    match ← resolve doc true name with
    | .strong declName none =>
      match doc.decl? declName with
      | some (.class _) =>
        let warnings :=
          if Text.occurs headerMark declName then []
          else [⟨.parentNotHeader c.name.text declName,name.span⟩]
        return (some declName,warnings)
      | _ => refuse
    | _ => refuse

def compileClass (doc : Document) (c : Document.Class) : Except Fault (Warned Class) := do
  let (identity,identityWarnings) ← compileIdentity doc c
  let (parent,parentWarnings) ← compileParent doc c
  let (properties,propertyWarnings) ← collect (compileProperty doc c.name.text) c.properties
  let pairs := c.properties.zip properties
  let links ← linksOf c.name.text pairs
  let linked := pairs.map fun (node,p) => (node,withLinks links p)
  return ({
    name := c.name.text
    identity
    parent
    properties := linked.map Prod.snd
    removed := c.removed.isSome },
    identityWarnings ++ parentWarnings ++ propertyWarnings ++
      unboundedWarnings doc c.name.text linked)

def duplicate? (seen : List Text) : List Ident → Option Ident
  | [] => none
  | name :: rest =>
    if seen.contains name.text then some name else duplicate? (name.text :: seen) rest

def memberNames : Document.Decl → List Ident
  | .class c => c.properties.map (·.name)
  | .enum e => e.values.map (·.name)

def checkNames (seen : List Text) : List Document.Decl → Except Fault (Warned Unit)
  | [] => .ok ((),[])
  | decl :: rest => do
    let name := decl.name
    if seen.contains name.text then fail (.duplicateDecl name.text) name.span
    if let some member := duplicate? [] (memberNames decl) then
      fail (.duplicateMember name.text member.text) member.span
    let warnings := match Primitive.ofName? name.text with
      | some _ => [⟨.shadowsPrimitive name.text,name.span⟩]
      | none => []
    let (_,more) ← checkNames (name.text :: seen) rest
    return ((),warnings ++ more)

/-- Whether the chain of parents comes back to a class that it has passed. -/
def climbs (classes : List Class) : Nat → List Text → Option Text → Bool
  | _, _, none => false
  | 0, _, some _ => true
  | fuel + 1, seen, some parent =>
    seen.contains parent ||
      climbs classes fuel (parent :: seen)
        ((classes.find? fun c => c.name == parent).bind (·.parent))

/-- No class is its own ancestor, and none has an ancestor that is. -/
def checkParents (doc : Document) (classes : List Class) : Except Fault Unit :=
  doc.classes.forM fun c =>
    match c.parent with
    | none => .ok ()
    | some parent =>
      if climbs classes classes.length [c.name.text] (some parent.text) then
        fail (.parentCycle c.name.text) parent.span
      else .ok ()

def arrange (enums : List Enum) (classes : List Class) (decl : Document.Decl) : Option Decl :=
  match decl with
  | .class c => (classes.find? fun d => d.name == c.name.text).map .class
  | .enum e => (enums.find? fun d => d.name == e.name.text).map .enum

def compile (sourcePath : Text) (doc : Document) : Except Fault (Warned Schema) := do
  let (_,nameWarnings) ← checkNames [] doc.decls
  let (enums,enumWarnings) ← collect (compileEnum doc) doc.enums
  let (classes,classWarnings) ← collect (compileClass doc) doc.classes
  checkParents doc classes
  return ({ sourcePath, decls := doc.decls.filterMap (arrange enums classes) },
    nameWarnings ++ enumWarnings ++ classWarnings)

end WireSchema.Schema
