import WireSchema.Artifact.Exchange
import WireSchema.Json.Parser
import WireSchema.Text.Base64
set_option autoImplicit false

namespace WireSchema

namespace Source

def toJson (s : Source) : Json :=
  .ofFields [("Path",.ofText s.path),("Text",.ofText s.text)]

def ofJson? : Json → Option Source :=
  Json.read? (Json.readers [
    ("Path",fun j s => do return { s with path := ← j.text? }),
    ("Text",fun j s => do return { s with text := ← j.text? })]) ⟨[],[]⟩

end Source

namespace OutputFile

def toJson (f : OutputFile) : Json :=
  .ofFields [
    ("path",.ofOption (fun names => .array (names.map .ofText)) f.path),
    ("content",.ofOption (fun bytes => .string (Text.Base64.encode bytes)) f.content)]

def ofJson? : Json → Option OutputFile :=
  Json.read? (Json.readers [
    ("path",fun j f => do return { f with path := some (← (← j.list?).mapM Json.text?) }),
    ("content",fun j f => do
      return { f with content := some (← Text.Base64.decode? (← j.text?)) })]) ⟨none,none⟩

end OutputFile

namespace Artifact

namespace Request

def optionsJson (options : List (Text × Text)) : Json :=
  .object (options.map fun (key,value) => (Json.escape Json.plainEscapes key,.ofText value))

def toJson (r : Request) : Json :=
  .ofFields ([
    ("sources",.ofOption (fun set => .array (set.map Source.toJson)) r.sources),
    ("file",.ofText r.file),
    ("namespace",.ofText r.scope),
    ("supports_gc",.bool r.supportsGc)] ++
    if r.options.isEmpty then [] else [("options",optionsJson r.options)])

def setOption (key value : Text) (options : List (Text × Text)) : List (Text × Text) :=
  options.filter (fun (other,_) => other != key) ++ [(key,value)]

def options? : Json → Option (List (Text × Text))
  | .object members => members.foldlM (fun options (key,j) => do
      return setOption (← Json.unescape? key) (← j.text?) options) []
  | _ => none

def ofJson? : Json → Option Request :=
  Json.read? (Json.readers [
    ("sources",fun j r => do
      return { r with sources := some (← (← j.list?).mapM Source.ofJson?) }),
    ("file",fun j r => do return { r with file := ← j.text? }),
    ("namespace",fun j r => do return { r with scope := ← j.text? }),
    ("supports_gc",fun j r => do return { r with supportsGc := ← j.bool? }),
    ("options",fun j r => do return { r with options := ← options? j })])
    ⟨none,[],[],false,[]⟩

end Request

namespace Response

def toJson (r : Response) : Json :=
  .ofFields ([("files",.ofOption (fun files => .array (files.map OutputFile.toJson)) r.files)] ++
    if r.error.isEmpty then [] else [("error",.ofText r.error)])

def ofJson? : Json → Option Response :=
  Json.read? (Json.readers [
    ("files",fun j r => do
      return { r with files := some (← (← j.list?).mapM OutputFile.ofJson?) }),
    ("error",fun j r => do return { r with error := ← j.text? })]) ⟨none,[]⟩

end Response

end Artifact

def Json.format {α : Type} (toJson : α → Json) (ofJson? : Json → Option α) : Exchange.Format α where
  write x := .ok (toJson x).text
  read t := match (Json.parse? t).bind ofJson? with
    | some x => .ok x
    | none => .error "malformed JSON"

def Exchange.json : Exchange where
  request := Json.format Artifact.Request.toJson Artifact.Request.ofJson?
  response := Json.format Artifact.Response.toJson Artifact.Response.ofJson?

end WireSchema
