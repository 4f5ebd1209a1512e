import WireSchema.Command.Basic
import WireSchema.Job.Run
set_option autoImplicit false

namespace WireSchema.Command.Codegen

variable [Artifact.Casing]

inductive Fault where
  | settings (fault : Settings.Fault)
  | nothingToDo
  | absence (cause : Plugin.Absence) (tried : List Text)
  | missing (file : Files.Fault)
  | job (fault : Job.Fault)
  deriving Repr

namespace Fault

def message : Fault → Text
  | .settings fault => fault.message
  | .nothingToDo => "nothing to do: pass a source file or a config file with [[job]] entries"
  | .absence cause _ => cause.message
  | .missing file => file.message
  | .job fault => fault.message

def missingFiles : Fault → List Text
  | .settings (.unreadable file) => [file.path]
  | .absence _ tried => tried
  | .missing file => [file.path]
  | .job (.load (.missing file)) => [file.path]
  | .job (.load (.importMissing _ _ file)) => [file.path]
  | _ => []

end Fault

def jobOf (p : Parsed) (source : Text) : Job where
  source
  scope := (p.value? "namespace").getD []
  output := []
  file := (p.value? "file").getD []
  supportsGc := p.isSet "gc"
  backend := (p.value? "backend").getD Backend.goName
  plugin := (p.value? "plugin").getD []

def override (p : Parsed) (s : Settings) : Settings :=
  { s with
    level := (p.value? "log-level").getD s.level
    format := (p.value? "log-format").getD s.format
    output := (p.value? "output").getD s.output
    pluginPath := (p.items? "plugin-path").getD s.pluginPath
    jobs := match p.arguments with
      | [source] => [jobOf p source]
      | _ => s.jobs }

/-- The settings of a run, checked both before and after the flags. -/
def settings (r : Settings.Readers) (log : Log.Library) (fs : Files) (env : Settings.Environment)
    (p : Parsed) : Except Settings.Fault Settings := do
  let s ← Settings.load r log fs ((p.value? "config").getD []) env
  let s := override p s
  s.validate log
  return s

/-- The file of a plugin. A name that is neither a path nor a file name is the name of a
language. -/
def pluginPath (fs : Files) (s : Settings) (job : Job) : Except Fault Text :=
  if Text.endsWith job.plugin ".wasm" || job.plugin.contains Path.slash then .ok job.plugin
  else match Plugin.locate fs s.pluginPath job.plugin with
    | .ok path => .ok path
    | .error absence => .error (.absence absence (Plugin.candidates s.pluginPath job.plugin))

/-- What runs the programs of plugins: the name of a plugin and its program give a generator. -/
abbrev Host := Text → Text → Job.Generator

namespace Host

def none : Host := fun name _ _ _ => .error (.plugin name (.runtime "invalid magic number"))

end Host

def generator (host : Host) (fs : Files) (s : Settings) (job : Job) :
    Except Fault Job.Generator :=
  if job.backend != Backend.wasmName then .ok (Job.builtIn true)
  else do
    let path ← pluginPath fs s job
    match fs.read path with
    | .error file => .error (.missing file)
    | .ok program => .ok (host (Path.base path) program)

def done (job : Job) (r : Job.Result) : Log.Entry :=
  ⟨.debug,"job done",[("source",.text job.source),
    ("artifacts",.number r.artifacts.length),("warnings",.number r.warnings.length)]⟩

def runJobs (host : Host) (storage : Storage) (s : Settings) : List Job → Job.State →
    Except Fault Unit × Job.State
  | [], state => (.ok (),state)
  | job :: rest, state =>
    match generator host state.disk.files s job with
    | .error fault => (.error fault,state)
    | .ok generate =>
      match job.run storage (s.outputOf job) generate s.go.toList state with
      | (.error fault,state) => (.error (.job fault),state)
      | (.ok result,state) =>
        runJobs host storage s rest { state with log := state.log ++ [done job result] }

def runSettings (log : Log.Library) (host : Host) (storage : Storage) (s : Settings)
    (disk : Disk) : Outcome :=
  let stop (fault : Fault) (disk : Disk) : Outcome :=
    (Outcome.fail fault.message disk).lacking fault.missingFiles
  if s.jobs.isEmpty then stop .nothingToDo disk
  else match s.logger log with
    | .error fault => stop (.settings fault) disk
    | .ok logger => match runJobs host storage s s.jobs ⟨disk,[]⟩ with
      | (.error fault,state) => (stop fault state.disk).after (logger.write log state.log)
      | (.ok (),state) => (Outcome.ok [] state.disk).after (logger.write log state.log)

def run (r : Settings.Readers) (log : Log.Library) (host : Host) (storage : Storage)
    (env : Settings.Environment) (p : Parsed) (disk : Disk) : Outcome :=
  if 1 < p.arguments.length then Outcome.usage .codegen disk
  else match settings r log disk.files env p with
    | .error fault =>
      (Outcome.fail fault.message disk).lacking (Fault.settings fault).missingFiles
    | .ok s => runSettings log host storage s disk

end WireSchema.Command.Codegen
