import WireSchema.Text.Path
set_option autoImplicit false

/-!
A tree of files that is held in memory. Paths are compared in their clean form; those from the root
and those from the working directory are different, except that the working directory itself is the
root.
-/

namespace WireSchema

/-- What regular files hold, by their clean paths, and the directories that were made on purpose. A
disk that has a reason for it refuses to read directories, and on any other one they read as empty
files. -/
structure Files where
  entries : List (Text × Text)
  directories : List Text
  refusal : Option Text
  deriving DecidableEq, Repr, Inhabited

namespace Files

def empty : Files := ⟨[],[],none⟩

def root : Text := [Path.slash]

/-- The path that a file is kept under. -/
def key (path : Text) : Text :=
  let clean := Path.clean path
  if clean == Text.ofString "." || clean == Text.ofString ".." then root else clean

def get? (fs : Files) (path : Text) : Option Text := fs.entries.lookup (key path)

def isBelow (dir path : Text) : Bool := (dir ++ [Path.slash]).isPrefixOf path

/-- Every directory on the way to something that exists is there too. -/
def isDirectory (fs : Files) (path : Text) : Bool :=
  let path := key path
  path == root || fs.directories.contains path ||
    (fs.entries.map Prod.fst ++ fs.directories).any (isBelow path)

def isRegular (fs : Files) (path : Text) : Bool := (fs.get? path).isSome && !fs.isDirectory path

def put (path content : Text) (fs : Files) : Files :=
  { fs with entries := (key path,content) ::
      fs.entries.filter fun (other,_) => other != key path }

def remove (path : Text) (fs : Files) : Files :=
  { fs with entries := fs.entries.filter fun (other,_) => other != key path }

def makeDirectory (path : Text) (fs : Files) : Files :=
  if fs.isDirectory path then fs else { fs with directories := key path :: fs.directories }

/-- The files of a list, the latest of those with one path. -/
def ofList (files : List (Text × Text)) : Files :=
  files.foldl (fun fs (path,content) => fs.put path content) empty

inductive Fault where
  | missing (path : Text)
  | directory (path cause : Text)
  deriving DecidableEq, Repr

namespace Fault

def path : Fault → Text
  | .missing path => path
  | .directory path _ => path

def message : Fault → Text
  | .missing path => Text.cat ["open ",path,": file does not exist"]
  | .directory path cause => Text.cat ["read ",path,": ",cause]

end Fault

def readDirectory (fs : Files) (path : Text) : Except Fault Text :=
  match fs.refusal with
  | none => .ok []
  | some cause => .error (.directory (key path) cause)

def read (fs : Files) (path : Text) : Except Fault Text :=
  match fs.get? path with
  | some content => .ok content
  | none => if fs.isDirectory path then fs.readDirectory path else .error (.missing (key path))

end Files

end WireSchema
