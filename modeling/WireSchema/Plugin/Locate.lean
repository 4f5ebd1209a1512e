import WireSchema.Files.Basic
set_option autoImplicit false

namespace WireSchema.Plugin

inductive Absence where
  | notFound (name : Text)
  | noSearchPath
  deriving DecidableEq, Repr

def Absence.message : Absence → Text
  | .notFound name => Text.cat ["codegen plugin not found: ",name]
  | .noSearchPath => "no plugin path set"

def fileName (language : Text) : Text := Text.cat ["steamd-codegen-",language,".wasm"]

def candidates (search : List Text) (language : Text) : List Text :=
  (search.filter fun dir => !dir.isEmpty).map fun dir => Path.join [dir,fileName language]

def locate (fs : Files) (search : List Text) (language : Text) : Except Absence Text :=
  if search.isEmpty then .error .noSearchPath
  else match (candidates search language).find? fs.isRegular with
    | some path => .ok path
    | none => .error (.notFound (fileName language))

end WireSchema.Plugin
