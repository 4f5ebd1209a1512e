import WireSchema.Artifact.Batch
import WireSchema.Files.Basic
import WireSchema.Log.Basic
set_option autoImplicit false

namespace WireSchema

inductive Backend where
  | go
  | wasm
  deriving DecidableEq, Repr, Inhabited

namespace Backend

def goName : Text := "go"

def wasmName : Text := "wasm"

def ofName? (t : Text) : Option Backend :=
  if t.isEmpty || t == goName then some .go
  else if t == wasmName then some .wasm
  else none

end Backend

structure Job where
  source : Text
  scope : Text
  output : Text
  file : Text
  supportsGc : Bool
  backend : Text
  plugin : Text
  deriving DecidableEq, Repr, Inhabited

structure GoOptions where
  enumImport : Text
  protoImport : Text
  tagType : Text
  deriving DecidableEq, Repr, Inhabited

def GoOptions.toList (g : GoOptions) : List (Text × Text) :=
  [(Artifact.enumImportOption,g.enumImport),(Artifact.protoImportOption,g.protoImport),
    (Artifact.tagTypeOption,g.tagType)].filter fun (_,value) => !value.isEmpty

structure Settings where
  level : Text
  format : Text
  output : Text
  pluginPath : List Text
  go : GoOptions
  jobs : List Job
  deriving DecidableEq, Repr, Inhabited

namespace Settings

def default : Settings := ⟨"info","text",".",[],⟨[],[],[]⟩,[]⟩

inductive JobFault where
  | noSource
  | noNamespace (source : Text)
  | needlessPlugin (source : Text)
  | noPlugin (source : Text)
  | unknownBackend (source backend : Text)
  deriving DecidableEq, Repr

def JobFault.message : JobFault → Text
  | .noSource => "no source"
  | .noNamespace source => Text.cat [source,": no namespace"]
  | .needlessPlugin source =>
    Text.cat [source,": plugin set for the ",Backend.goName," backend"]
  | .noPlugin source => Text.cat [source,": the ",Backend.wasmName," backend needs a plugin"]
  | .unknownBackend source backend =>
    Text.cat [source,": unknown backend ",Text.Quoted.quote backend]

inductive Fault where
  | unreadable (cause : Files.Fault)
  | malformed (path cause : Text)
  | unknownKey (path key : Text)
  | environment (cause : Text)
  | level (cause : Text)
  | format (name : Text)
  | job (number : Nat) (cause : JobFault)
  deriving DecidableEq, Repr

def Fault.message : Fault → Text
  | .unreadable cause => Text.cat ["load config: ",cause.message]
  | .malformed path cause => Text.cat ["load config ",path,": ",cause]
  | .unknownKey path key =>
    Text.cat ["load config ",path,": unknown key ",Text.Quoted.quote key]
  | .environment cause => Text.cat ["read environment: ",cause]
  | .level cause => Text.cat ["log level: ",cause]
  | .format name =>
    Text.cat ["log format ",Text.Quoted.quote name,": must be \"text\" or \"json\""]
  | .job number cause => Text.cat ["job ",Text.ofNat number,": ",cause.message]

def checkJob (job : Job) : Except JobFault Unit :=
  if job.source.isEmpty then .error .noSource
  else if job.scope.isEmpty then .error (.noNamespace job.source)
  else match Backend.ofName? job.backend with
    | some .go => if job.plugin.isEmpty then .ok () else .error (.needlessPlugin job.source)
    | some .wasm => if job.plugin.isEmpty then .error (.noPlugin job.source) else .ok ()
    | none => .error (.unknownBackend job.source job.backend)

def checkJobs (number : Nat) : List Job → Except Fault Unit
  | [] => .ok ()
  | job :: rest => match checkJob job with
    | .error cause => .error (.job number cause)
    | .ok () => checkJobs (number + 1) rest

def logger (log : Log.Library) (s : Settings) : Except Fault Log.Logger :=
  match log.level s.level, Log.Format.ofName? s.format with
  | .error cause, _ => .error (.level cause)
  | .ok _, none => .error (.format s.format)
  | .ok level, some format => .ok ⟨level,format⟩

def validate (log : Log.Library) (s : Settings) : Except Fault Unit := do
  let _ ← s.logger log
  checkJobs 1 s.jobs

def outputOf (s : Settings) (job : Job) : Text :=
  if job.output.isEmpty then s.output else job.output

end Settings

end WireSchema
