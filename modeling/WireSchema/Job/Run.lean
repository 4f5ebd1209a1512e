import WireSchema.Files.Disk
import WireSchema.Job.Load
import WireSchema.Plugin.Host
import WireSchema.Plugin.Locate
import WireSchema.Settings.Basic
set_option autoImplicit false

namespace WireSchema.Job

inductive Fault where
  | load (fault : Load.Fault)
  | artifact (fault : Artifact.Fault)
  | plugin (name : Text) (fault : Plugin.Fault)
  | generator (message : Text)
  | noArtifacts
  | disk (fault : Disk.Fault)
  deriving Repr

def Fault.message : Fault → Text
  | .load fault => fault.message
  | .artifact fault => fault.message
  | .plugin name fault => fault.message name
  | .generator message => message
  | .noArtifacts => "generator produced no files"
  | .disk fault => fault.message

/-- What turns a request into files. The schema of its sources is known already. -/
abbrev Generator := Artifact.Request → Schema → Except Fault Artifact.Response

def builtIn [Artifact.Casing] (format : Bool) : Generator := fun r schema =>
  if r.scope.isEmpty then .error (.artifact .noNamespace)
  else match Artifact.generateFrom r format schema with
    | .error fault => .error (.artifact fault)
    | .ok files => .ok ⟨some files,[]⟩

structure State where
  disk : Disk
  log : List Log.Entry
  deriving Repr

structure Result where
  artifacts : List Text
  warnings : List (Located Schema.Warning)
  deriving Repr

def fields (job : Job) : List (Text × Log.Value) :=
  [("source",.text job.source),("namespace",.text job.scope)]

def warned (job : Job) (w : Located Schema.Warning) : Log.Entry :=
  ⟨.warning,Load.warningText w,job.fields⟩

def wrote (job : Job) (path content : Text) : Log.Entry :=
  ⟨.info,"wrote artifact",
    ("artifact",.text path) :: ("bytes",.number content.length) :: job.fields⟩

def request (job : Job) (sources : SourceSet) (options : List (Text × Text)) : Artifact.Request :=
  ⟨some sources,job.file,job.scope,job.supportsGc,options⟩

def files (job : Job) (generator : Generator) (options : List (Text × Text))
    (compiled : Load.Compiled) : Except Fault (List OutputFile) := do
  let response ← generator (job.request compiled.sources options) compiled.schema
  if !response.error.isEmpty then .error (.generator response.error)
  else if response.fileList.isEmpty then .error .noArtifacts
  else .ok response.fileList

def run (storage : Storage) (job : Job) (out : Text) (generator : Generator)
    (options : List (Text × Text)) (s : State) : Except Fault Result × State :=
  match Load.compile s.disk.files job.source with
  | (.error fault,log) => (.error (.load fault),{ s with log := s.log ++ log })
  | (.ok compiled,log) =>
    let s := { s with log := s.log ++ log ++ compiled.warnings.map (warned job) }
    match job.files generator options compiled with
    | .error fault => (.error fault,s)
    | .ok files =>
      match s.disk.writeAll storage out files with
      | (.error fault,disk) => (.error (.disk fault),{ s with disk })
      | (.ok paths,disk) =>
        let wrote := (paths.zip files).map fun (path,file) => job.wrote path file.bytes
        (.ok ⟨paths,compiled.warnings⟩,{ disk, log := s.log ++ wrote })

end WireSchema.Job
