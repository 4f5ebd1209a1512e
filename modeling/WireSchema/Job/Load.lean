import WireSchema.Files.Basic
import WireSchema.Log.Basic
import WireSchema.Schema.Sources
set_option autoImplicit false

/-!
A source with all that it imports, directly or through others. A file stands behind those that it
imports, unless they import each other.
-/

namespace WireSchema

inductive Load.Fault where
  | missing (file : Files.Fault)
  | importMissing (importer path : Text) (file : Files.Fault)
  | importWithoutPath (path : Text)
  | sources (fault : SourceSet.Fault)
  /-- More files import each other in a row than there are, which no run comes to. -/
  | exhausted
  deriving Repr

namespace Load

def Fault.message : Fault → Text
  | .missing file => file.message
  | .importMissing importer path file =>
    Text.cat [importer,": import ",path,": ",file.message]
  | .importWithoutPath path => Text.cat [path,": #import without a path"]
  | .sources fault => fault.message
  | .exhausted => "too many imports in a row"

/-- The clean paths that were met, the sources that are complete, and what was reported. -/
structure State where
  seen : List Text
  sources : List Source
  log : List Log.Entry
  deriving Repr, Inhabited

/-- What has been reported stays when loading fails. -/
abbrev Loader := ExceptT Fault (StateM State)

def ignored (path name : Text) : Log.Entry :=
  ⟨.debug,Text.cat ["ignoring #",name," directive"],[("source",.text path)]⟩

def resolve (importer argument : Text) : Text :=
  if Path.isRooted argument then argument else Path.join [Path.directory importer,argument]

/-- Reads a file, unless it has been met before, with everything that it imports. The number bounds
how many files can import each other in a row. -/
def visit (fs : Files) : Nat → Option Text → Text → Loader Unit
  | 0, _, _ => throw .exhausted
  | fuel + 1, importer, path => do
    let path := Path.clean path
    if (← get).seen.contains path then return ()
    modify fun s => { s with seen := path :: s.seen }
    match fs.read path with
    | .error file => match importer with
      | some importer => throw (.importMissing importer path file)
      | none => throw (.missing file)
    | .ok text =>
      let source : Source := ⟨path,text⟩
      match SourceSet.parse [source] with
      | .error fault => throw (.sources (.document fault))
      | .ok doc =>
        doc.directives.forM fun directive =>
          if directive.name != Text.ofString "import" then
            modify fun s => { s with log := s.log ++ [ignored path directive.name] }
          else match directive.argument with
            | none | some [] => throw (.importWithoutPath path)
            | some argument => visit fs fuel (some path) (resolve path argument)
        modify fun s => { s with sources := s.sources ++ [source] }

/-- The sources of a file, itself last. Every clean path is met once, and only the root has more
than one of them, so no more files can import each other in a row than there are and two. -/
def sources (fs : Files) (path : Text) : Except Fault SourceSet × List Log.Entry :=
  match (visit fs (fs.entries.length + 3) none path).run.run ⟨[],[],[]⟩ with
  | (.error fault,s) => (.error fault,s.log)
  | (.ok (),s) => (.ok s.sources,s.log)

structure Compiled where
  sources : SourceSet
  schema : Schema
  warnings : List (Located Schema.Warning)
  deriving Repr

def warningText (w : Located Schema.Warning) : Text := w.message Schema.Warning.message

def compile (fs : Files) (path : Text) : Except Fault Compiled × List Log.Entry :=
  match sources fs path with
  | (.error fault,log) => (.error fault,log)
  | (.ok set,log) => match set.compile path with
    | .error fault => (.error (.sources fault),log)
    | .ok (schema,warnings) => (.ok ⟨set,schema,warnings⟩,log)

end Load

end WireSchema
