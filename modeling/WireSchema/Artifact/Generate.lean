import WireSchema.Artifact.Align
import WireSchema.Artifact.Opening
import WireSchema.Artifact.Output
import WireSchema.Artifact.Usual
set_option autoImplicit false

namespace WireSchema.Artifact

variable [Casing]

/-- What to write source code for. The sources are read as one, each behind those that it imports;
sources that are missing are told apart from an empty list. -/
structure Request where
  sources : Option SourceSet
  file : Text
  scope : Text
  supportsGc : Bool
  options : List (Text × Text)
  deriving Repr, Inhabited

def Request.sourceSet (r : Request) : SourceSet := r.sources.getD []

def compileSources (sources : SourceSet) : Except Fault Schema :=
  match sources.getLast? with
  | none => .error .noSources
  | some last => match sources.compile last.path with
    | .error fault => .error (.sources fault)
    | .ok (schema,_) => .ok schema

def Request.base (r : Request) : Text :=
  if !r.file.isEmpty then r.file
  else match r.sourceSet.getLast? with
    | none => r.scope
    | some last =>
      let name := Path.base last.path
      name.take (name.length - (Path.extension name).length)

def familyLines (b : Batch) (family : Family) : Render Lines := do
  let mark := familyMark family
  let tag ← b.tagType family
  return [
    Text.cat ["// ",mark,"SerializableHeader is implemented by header classes, which"],
    "// carry the tag of the message that follows them.",
    Text.cat ["type ",mark,"SerializableHeader interface \x7b"],
    "\tSteamSerializable",
    Text.cat ["\tSetEMsg(msg ",tag,")"],
    "\x7d",
    "",
    Text.cat ["type ",mark,"SerializableMessage interface \x7b"],
    "\tSteamSerializable",
    Text.cat ["\tGetEMsg() ",tag],
    "\x7d",
    ""]

def markerLines (b : Batch) : Render Lines := do
  useRuntime
  let families : List Family := if b.supportsGc then [.primary,.gc] else [.primary]
  let interfaces ← families.mapM (familyLines b)
  return Lines.cat [
    ["// SteamSerializable is implemented by every generated class.",
      "type SteamSerializable interface \x7b",
      "\tsteamd.Serializable",
      "\x7d",
      ""],
    interfaces.flatten]

/-- The lines of a declaration, in their usual form if asked, and whether they can be read as source
code. -/
def declLines (b : Batch) (format : Bool) : Schema.Decl → Render (Lines × Bool)
  | .enum e => during (.inDecl e.name) do
    let code ← enumCode b (Plan.enumOnce b.schema e)
    return ((if format then code.usual else code).lines,Check.enumCode code)
  | .class c => during (.inDecl c.name) do
    match (Planner.new b.schema b.supportsGc).layout c with
    | (.error fault,_) => throw (.plan fault)
    | (.ok plan,_) =>
      let code ← classCode b plan
      return ((if format then code.usual else code).lines,Check.classCode code)

def bodyLines (b : Batch) (format : Bool) (decls : List Schema.Decl) :
    Render (Lines × Bool) := do
  let markers ← if b.internal then markerLines b else pure []
  let kept := decls.filter fun
    | .class c => !c.removed
    | .enum _ => true
  let bodies ← kept.mapM (declLines b format)
  return (markers ++ (bodies.map Prod.fst).flatten,bodies.all Prod.snd)

def fileText (b : Batch) (format : Bool) (decls : List Schema.Decl) : Except Fault Text :=
  match bodyLines b format decls [] with
  | (.error fault,_) => .error fault
  | (.ok (body,sound),imports) =>
    if !format then .ok (openingLines b imports ++ body).text
    else match usualOpening? b imports, sound with
      | some opening, true => .ok (Lines.text (Align.align (opening ++ body)))
      | _, _ => .error .malformed

def filePath (b : Batch) : List Text :=
  if !b.internal then [Text.cat [b.base,".go"]]
  else if b.separateEnums then ["internal",Text.cat [b.base,".go"]]
  else [Text.cat [b.base,"_internal.go"]]

def outputFile (b : Batch) (format : Bool) (decls : List Schema.Decl) :
    Except Fault OutputFile := do
  return ⟨some (filePath b),some (← fileText b format decls)⟩

/-- The two files of a schema. Either both are written or neither is. -/
def generateFrom (r : Request) (format : Bool) (schema : Schema) :
    Except Fault (List OutputFile) := do
  let batch (internal : Bool) : Batch :=
    ⟨schema,r.scope,r.supportsGc,internal,r.base,r.options⟩
  let enums ← outputFile (batch false) format (schema.enums.map .enum)
  let classes ← outputFile (batch true) format (schema.classes.map .class)
  return [enums,classes]

def generate (r : Request) (format : Bool) : Except Fault (List OutputFile) := do
  if r.scope.isEmpty then .error .noNamespace
  generateFrom r format (← compileSources r.sourceSet)

def generateUnless (canceled : Bool) (r : Request) (format : Bool) :
    Except Fault (List OutputFile) :=
  if canceled then .error .canceled else generate r format

end WireSchema.Artifact
