import WireSchema.Text.Path
import WireSchema.Text.Quoted
set_option autoImplicit false

namespace WireSchema

/-- A file by the names of its directories and its own, with what it holds. A path that is missing
is told apart from an empty one, and so is the content. -/
structure OutputFile where
  path : Option (List Text)
  content : Option Text
  deriving DecidableEq, Repr, Inhabited

namespace OutputFile

def components (f : OutputFile) : List Text := f.path.getD []

def bytes (f : OutputFile) : Text := f.content.getD []

inductive Reason where
  | empty
  | badComponent (name : Text)
  | absolute (name : Text)
  | separator (name : Text)
  deriving DecidableEq, Repr

structure Fault where
  path : Option (List Text)
  reason : Reason
  deriving DecidableEq, Repr

def listing : Option (List Text) → Text
  | none => "[]string(nil)"
  | some names =>
    Text.cat ["[]string\x7b",Text.join ", " (names.map Text.Quoted.quote),"\x7d"]

def Fault.message (f : Fault) : Text :=
  Text.cat ["Invalid output path ",listing f.path,": ",match f.reason with
    | .empty => "empty"
    | .badComponent name => Text.cat ["bad path component ",Text.Quoted.quote name]
    | .absolute name => Text.cat ["absolute path component ",Text.Quoted.quote name]
    | .separator name =>
      Text.cat ["component ",Text.Quoted.quote name," contains a separator"]]

def refusal? (name : Text) : Option Reason :=
  if name.isEmpty || name == Text.ofString "." || name == Text.ofString ".." then
    some (.badComponent name)
  else if Path.isRooted name then some (.absolute name)
  else if name.any fun c => c == Path.slash || c == Text.byte '\\' then some (.separator name)
  else none

def join (f : OutputFile) (root : Text) : Except Fault Text :=
  if f.components.isEmpty then .error ⟨f.path,.empty⟩
  else match f.components.findSome? refusal? with
    | some reason => .error ⟨f.path,reason⟩
    | none => .ok (Path.join (root :: f.components))

end OutputFile

end WireSchema
