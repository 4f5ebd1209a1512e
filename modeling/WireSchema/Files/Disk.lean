import WireSchema.Artifact.Output
import WireSchema.Files.Basic
set_option autoImplicit false

/-!
Writing several files at once. Each one is first written under a name that nobody else has, and only
when all of them are there do they move to their places. Any call to the disk may fail; whatever was
only staged by then is taken away again.
-/

namespace WireSchema

/-- The calls that change a disk, other than removing a file, which does not fail. -/
inductive Call where
  | mkdir
  | create
  | write
  | close
  | chmod
  | rename
  deriving DecidableEq, Repr, Inhabited

/-- What a disk decides by itself: which calls fail, by their kind and number, where the first call
of a kind has the number one, what it says then, and how a file in a directory is told from all that
are there until it is in its place, by their paths. -/
structure Storage where
  fails : Call → Nat → Bool
  cause : Call → Text
  suffix : List Text → Text → Text

namespace Storage

def temporary (storage : Storage) (taken : List Text) (dir : Text) : Text :=
  Path.join [dir,Text.cat [".steamd-",storage.suffix taken dir]]

/-- The first number that no file has. There are more numbers than files. -/
def counted (taken : List Text) (dir : Text) : Text :=
  let isFree (number : Nat) : Bool :=
    !taken.contains (Files.key (Path.join [dir,Text.cat [".steamd-",Text.ofNat number]]))
  Text.ofNat (((List.range (taken.length + 1)).find? isFree).getD 0)

def counting (fails : Call → Nat → Bool) (cause : Text) : Storage := ⟨fails,fun _ => cause,counted⟩

end Storage

/-- Files, with the calls that have been made and the paths that files have moved to, the latest
ones first. -/
structure Disk where
  files : Files
  calls : List Call
  placed : List Text
  deriving DecidableEq, Repr, Inhabited

namespace Disk

def ofFiles (files : Files) : Disk := ⟨files,[],[]⟩

def attempt (storage : Storage) (call : Call) (d : Disk) : Bool × Disk :=
  let calls := call :: d.calls
  (!storage.fails call (calls.count call),{ d with calls })

def change (f : Files → Files) (d : Disk) : Disk := { d with files := f d.files }

/-- Writes a file under a fresh name next to its place. Nothing of it stays if that fails. -/
def stage (storage : Storage) (path content : Text) (d : Disk) : Except Call Text × Disk :=
  let dir := Path.directory path
  match d.attempt storage .mkdir with
  | (false,d) => (.error .mkdir,d)
  | (true,d) =>
    match (d.change (·.makeDirectory dir)).attempt storage .create with
    | (false,d) => (.error .create,d)
    | (true,d) =>
      let name := storage.temporary (d.files.entries.map Prod.fst) dir
      let (written,d) := (d.change (·.put name [])).attempt storage .write
      let (closed,d) :=
        (if written then d.change (·.put name content) else d).attempt storage .close
      if !written then (.error .write,d.change (·.remove name))
      else if !closed then (.error .close,d.change (·.remove name))
      else match d.attempt storage .chmod with
        | (false,d) => (.error .chmod,d.change (·.remove name))
        | (true,d) => (.ok name,d)

def removeAll (names : List Text) (d : Disk) : Disk :=
  names.foldl (fun d name => d.change (·.remove name)) d

/-- Stages all files. The names of those that are staged already come first. -/
def stageAll (storage : Storage) (staged : List Text) :
    List (Text × Text) → Disk → Except Call (List Text) × Disk
  | [], d => (.ok staged,d)
  | (path,content) :: rest, d =>
    match d.stage storage path content with
    | (.error call,d) => (.error call,d.removeAll staged)
    | (.ok name,d) => stageAll storage (staged ++ [name]) rest d

def move (name path : Text) (d : Disk) : Disk :=
  let content := (d.files.get? name).getD []
  { d.change (fun fs => (fs.remove name).put path content) with
    placed := Files.key path :: d.placed }

/-- Moves all staged files to their places. At the first one that cannot be moved, it and the others
behind it are taken away. -/
def placeAll (storage : Storage) : List (Text × Text) → Disk → Except Call Unit × Disk
  | [], d => (.ok (),d)
  | (name,path) :: rest, d =>
    match d.attempt storage .rename with
    | (false,d) => (.error .rename,d.removeAll (name :: rest.map Prod.fst))
    | (true,d) => placeAll storage rest (d.move name path)

inductive Fault where
  | path (fault : OutputFile.Fault)
  | call (call : Call) (cause : Text)
  deriving DecidableEq, Repr

def Fault.message : Fault → Text
  | .path fault => fault.message
  | .call _ cause => cause

def writeAll (storage : Storage) (root : Text) (files : List OutputFile) (d : Disk) :
    Except Fault (List Text) × Disk :=
  match files.mapM (·.join root) with
  | .error fault => (.error (.path fault),d)
  | .ok paths =>
    match d.stageAll storage [] (paths.zip (files.map (·.bytes))) with
    | (.error call,d) => (.error (.call call (storage.cause call)),d)
    | (.ok names,d) =>
      match d.placeAll storage (names.zip paths) with
      | (.error call,d) => (.error (.call call (storage.cause call)),d)
      | (.ok (),d) => (.ok paths,d)

def written (d : Disk) : List (Text × Text) :=
  Text.sortBy Prod.fst (d.files.entries.filter fun (path,_) => d.placed.contains path)

end Disk

end WireSchema
