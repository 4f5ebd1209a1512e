import WireSchema.Files.Basic
import WireSchema.Settings.Basic
import WireSchema.Text.Space
set_option autoImplicit false

/-!
Where settings come from: a file, then the environment. What comes later counts. Files and variables
are read by libraries; what these report is all that is known of them.
-/

namespace WireSchema.Settings

structure File where
  level : Text
  format : Text
  go : GoOptions
  output : Text
  pluginPath : List Text
  jobs : List Job
  deriving DecidableEq, Repr, Inhabited

def File.empty : File := ⟨[],[],⟨[],[],[]⟩,[],[],[]⟩

/-- What a reader reports of a settings file: its values, the keys that it has, and the keys that
were not read. A value may come from a key that the reader does not report, and of two keys for one
value it is up to the reader which one counts. -/
structure Decoded where
  file : File
  defined : List Text → Bool
  unread : List Text

structure Variables where
  level : Option Text
  format : Option Text
  output : Option Text
  pluginPath : Option Text
  deriving DecidableEq, Repr, Inhabited

abbrev Environment := List (Text × Text)

structure Readers where
  file : Text → Except Text Decoded
  environment : Environment → Except Text Variables

/-- The settings with those of a file in their place. What the file only has under a key that is not
reported does not take the place of what held before. -/
def applyFile (r : Readers) (path text : Text) (s : Settings) : Except Fault Settings :=
  match r.file text with
  | .error cause => .error (.malformed path cause)
  | .ok d => match d.unread with
    | key :: _ => .error (.unknownKey path key)
    | [] => .ok {
        level := if d.defined ["log","level"] then Text.trim d.file.level else s.level
        format := if d.defined ["log","format"] then Text.trim d.file.format else s.format
        output := if d.defined ["output"] then Text.trim d.file.output else s.output
        pluginPath := if d.defined ["plugin","path"] then d.file.pluginPath else s.pluginPath
        go := d.file.go
        jobs := d.file.jobs }

def directories (list : Text) : List Text :=
  ((Text.splitOn (Text.byte ':') list).map Text.trim).filter fun dir => !dir.isEmpty

def applyEnvironment (v : Variables) (s : Settings) : Settings :=
  { s with
    level := v.level.getD s.level
    format := v.format.getD s.format
    output := v.output.getD s.output
    pluginPath := (v.pluginPath.map directories).getD s.pluginPath }

def load (r : Readers) (log : Log.Library) (fs : Files) (path : Text) (env : Environment) :
    Except Fault Settings := do
  let s ←
    if path.isEmpty then pure default
    else match fs.read path with
      | .error m => .error (.unreadable m)
      | .ok text => applyFile r path text default
  let v ← (r.environment env).mapError .environment
  let s := s.applyEnvironment v
  s.validate log
  return s

end WireSchema.Settings
