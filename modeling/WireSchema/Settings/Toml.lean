import WireSchema.Settings.Load
import WireSchema.Toml.Document
set_option autoImplicit false

namespace WireSchema.Settings

def foldPoint (point : Nat) : Nat :=
  if 65 ≤ point ∧ point ≤ 90 then point + 32
  else if point = 0x17f then 115
  else if point = 0x212a then 107
  else point

def sameName (a b : Text) : Bool :=
  (Text.Utf8.points a).map foldPoint == (Text.Utf8.points b).map foldPoint

abbrev Shape (α : Type) := List (String × (Toml.Node → α → Option α))

/-- Reads a table. Keys are compared up to case; those that the shape does not have are passed over,
and a value of the wrong type is refused. -/
def readTable {α : Type} (shape : Shape α) (t : Toml.Table) (start : α) : Option α :=
  t.foldlM (fun found (key,node) =>
    match shape.find? fun (name,_) => sameName (Text.ofString name) key with
    | some (_,take) => take node found
    | none => some found) start

def table? : Toml.Node → Option Toml.Table
  | .table t => some t
  | _ => none

def text? : Toml.Node → Option Text
  | .text t => some t
  | _ => none

def bool? : Toml.Node → Option Bool
  | .bool b => some b
  | _ => none

def texts? : Toml.Node → Option (List Text)
  | .array items => items.mapM text?
  | _ => none

def tables? : Toml.Node → Option (List Toml.Table)
  | .items list => some list.reverse
  | .array items => items.mapM table?
  | _ => none

def logShape : Shape File := [
  ("level",fun n f => do return { f with level := ← text? n }),
  ("format",fun n f => do return { f with format := ← text? n })]

def goShape : Shape GoOptions := [
  ("enum_import",fun n g => do return { g with enumImport := ← text? n }),
  ("proto_import",fun n g => do return { g with protoImport := ← text? n }),
  ("tag_type",fun n g => do return { g with tagType := ← text? n })]

def pluginShape : Shape File := [
  ("path",fun n f => do return { f with pluginPath := ← texts? n })]

def jobShape : Shape Job := [
  ("source",fun n j => do return { j with source := ← text? n }),
  ("namespace",fun n j => do return { j with scope := ← text? n }),
  ("output",fun n j => do return { j with output := ← text? n }),
  ("file",fun n j => do return { j with file := ← text? n }),
  ("supports_gc",fun n j => do return { j with supportsGc := ← bool? n }),
  ("backend",fun n j => do return { j with backend := ← text? n }),
  ("plugin",fun n j => do return { j with plugin := ← text? n })]

def fileShape : Shape File := [
  ("log",fun n f => do readTable logShape (← table? n) f),
  ("go",fun n f => do return { f with go := ← readTable goShape (← table? n) f.go }),
  ("output",fun n f => do return { f with output := ← text? n }),
  ("plugin",fun n f => do readTable pluginShape (← table? n) f),
  ("job",fun n f => do
    let jobs ← (← tables? n).mapM fun t =>
      readTable jobShape t ⟨[],[],[],[],false,[],[]⟩
    return { f with jobs })]

def knownKeys : List (List String) :=
  let below {α : Type} (name : String) (shape : Shape α) : List (List String) :=
    shape.map fun (inner,_) => [name,inner]
  fileShape.map (fun (name,_) => [name]) ++ below "log" logShape ++ below "go" goShape ++
    below "plugin" pluginShape ++ below "job" jobShape

def isKnown (key : Toml.Key) : Bool :=
  knownKeys.any fun names =>
    names.length == key.length &&
      (names.zip key).all fun (name,part) => sameName (Text.ofString name) part

/-- Whether a key has been read: it is one that a file may have, and what it was given has not been
replaced. -/
def isRead (d : Toml.Document) (key : Toml.Key) : Bool :=
  isKnown key && Toml.leadsFrom key d.root

def isDefined (d : Toml.Document) (names : List Text) : Bool := (d.root.get? names).isSome

def decode (text : Text) : Except Text Decoded :=
  match Toml.Document.parse? text with
  | none => .error "malformed"
  | some d => match readTable fileShape d.root File.empty with
    | none => .error "malformed"
    | some file =>
      .ok ⟨file,isDefined d,(d.orderedKeys.filter fun key => !isRead d key).map (·.text)⟩

def valueOf? (env : Environment) (name : String) : Option Text :=
  (env.lookup (Text.ofString name)).filter fun value => !value.isEmpty

def Readers.standard : Readers where
  file := decode
  environment env := .ok ⟨valueOf? env "STEAMD_LOG_LEVEL",valueOf? env "STEAMD_LOG_FORMAT",
    valueOf? env "STEAMD_OUTPUT",valueOf? env "STEAMD_PLUGIN_PATH"⟩

end WireSchema.Settings
