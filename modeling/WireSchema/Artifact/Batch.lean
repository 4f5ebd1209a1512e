import WireSchema.Artifact.Error
import WireSchema.Text.Path
set_option autoImplicit false

namespace WireSchema.Artifact

/-- The packages that a source file imports, by path and in order, each with the name that it has in
the file; no name means the package's own. -/
abbrev Imports := List (Text × Text)

namespace Imports

/-- Imports a package. The latest name counts. -/
def use (path nickname : Text) : Imports → Imports
  | [] => [(path,nickname)]
  | (other,old) :: rest =>
    if path = other then (path,nickname) :: rest
    else if Text.before path other then (path,nickname) :: (other,old) :: rest
    else (other,old) :: use path nickname rest

end Imports

/-- Rendering notes imports, also when it fails. -/
abbrev Render := ExceptT Fault (StateM Imports)

/-- What all declarations of a source file share. Classes go to the internal file. -/
structure Batch where
  schema : Schema
  scope : Text
  supportsGc : Bool
  internal : Bool
  base : Text
  options : List (Text × Text)
  deriving Repr, Inhabited

def enumImportOption : Text := "enum_import"

def protoImportOption : Text := "proto_import"

def tagTypeOption : Text := "tag_type"

def runtimePath : Text := "go.steamd-lang.org/steamd"

def protobufPath : Text := "google.golang.org/protobuf/proto"

def useImport (path nickname : Text) : Render Unit := modify (Imports.use path nickname)

def useRuntime : Render Unit := useImport runtimePath []

def numberType : Primitive → Text
  | .byte => "uint8"
  | .sbyte => "int8"
  | .char => "uint8"
  | .short => "int16"
  | .ushort => "uint16"
  | .int => "int32"
  | .uint => "uint32"
  | .long => "int64"
  | .ulong => "uint64"

/-- How a library writes names that other packages see. -/
class Casing where
  camel : Text → Text

variable [Casing]

def exported (name : Text) : Text := Casing.camel name

def unexported (name : Text) : Text :=
  match exported name with
  | [] => []
  | first :: rest => Text.lower first :: rest

def deprecation (marker : Marker) : Text :=
  if marker.message.isEmpty then "obsolete" else marker.message

def reservedAliases : List Text := ["binary","bytes","io","pb","proto","steamd"]

def importAlias (path : Text) : Text :=
  let name := (Text.Utf8.points (Path.base path)).flatMap fun point =>
    Text.Utf8.encode (if point = 45 ∨ point = 46 then 95 else point)
  if reservedAliases.contains name then "enums" else name

namespace Batch

/-- The value of an option, or a fallback if it is missing or empty. -/
def option (b : Batch) (key fallback : Text) : Text :=
  match b.options.lookup key with
  | some value => if value.isEmpty then fallback else value
  | none => fallback

def separateEnums (b : Batch) : Bool := !(b.option enumImportOption []).isEmpty

def packageName (b : Batch) : Text :=
  if b.internal && b.separateEnums then "internal" else b.scope

def enumImport (b : Batch) : Text := if b.internal then b.option enumImportOption [] else []

def enumQualifier (b : Batch) : Text :=
  if b.enumImport.isEmpty then [] else importAlias b.enumImport ++ Text.ofString "."

def enumTypeName (b : Batch) (name : Text) : Text := b.enumQualifier ++ name

def useEnums (b : Batch) : Render Unit :=
  let path := b.enumImport
  if path.isEmpty then pure ()
  else
    let nickname := importAlias path
    useImport path (if nickname == Path.base path then [] else nickname)

def enumRef (b : Batch) (name : Text) : Render Text := do
  b.useEnums
  return b.enumTypeName name

def protoRef (b : Batch) (type : Text) : Render Text := do
  let name := (type.reverse.takeWhile (· != Text.byte '.')).reverse
  let path := b.option protoImportOption []
  if path.isEmpty then return name
  useImport path "pb"
  return Text.cat ["pb.",name]

def tagType (b : Batch) (family : Family) : Render Text :=
  match family with
  | .gc => return "uint32"
  | .primary =>
    let name := b.option tagTypeOption "EMsg"
    if (b.schema.enum? name).isSome then b.enumRef name else return "uint32"

def typeName (b : Batch) (symbol : Reference) : Render Text :=
  match symbol with
  | .weak name => match Primitive.ofName? name with
    | some p => return numberType p
    | none => throw (.noType name)
  | .strong _ (some _) => throw (.valueNotType symbol.identifier)
  | .strong decl none => match b.schema.decl? decl with
    | some (.enum e) => b.enumRef e.name
    | some (.class c) => return c.name
    | none => throw (.unresolvedType decl)

/-- The type of a symbol for comparison, without noting an import; empty if it has none. -/
def knownTypeName (b : Batch) (symbol : Reference) : Text :=
  match symbol with
  | .weak name => match Primitive.ofName? name with
    | some p => numberType p
    | none => []
  | .strong decl none => match b.schema.enum? decl with
    | some e => b.enumTypeName e.name
    | none => []
  | .strong _ (some _) => []

end Batch

end WireSchema.Artifact
