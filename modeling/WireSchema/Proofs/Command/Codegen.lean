import WireSchema.Command.Codegen
import WireSchema.Command.Line
import WireSchema.Proofs.Job.Met
import WireSchema.Proofs.Settings.Layers
set_option autoImplicit false

/-!
What a run depends on. The flags lie on top of the environment, which lies on top of the settings
file, and of each setting only what the highest layer says of it counts. There is one exception:
what the lower two layers come to is checked before the flags are looked at, so that a value without
any effect can still be one that is refused.
-/

namespace WireSchema.Command.Codegen

open Settings (Environment Layer Readers Stated Variables)
open Files (key)

variable {r r' : Readers} {log : Log.Library} {host : Host} {storage : Storage}
    {env env' : Environment} {v v' : Variables} {p p' : Parsed} {fs fs' : Files} {f f' : Stated}
    {s : Settings} {disk disk' : Disk}

def flagLayer (p : Parsed) : Layer where
  level := p.value? "log-level"
  format := p.value? "log-format"
  output := p.value? "output"
  pluginPath := p.items? "plugin-path"

def jobsOf (p : Parsed) (f : Stated) : List Job :=
  match p.arguments with
  | [source] => [jobOf p source]
  | _ => f.jobs

/-- What the command line, the environment and the settings file come to. -/
def effective (p : Parsed) (v : Variables) (f : Stated) : Settings :=
  ((flagLayer p).above ((Layer.ofVariables v).above f.layer)).settle f.go (jobsOf p f)

def configOf? (r : Readers) (fs : Files) (p : Parsed) : Option Stated :=
  Settings.config? r fs ((p.value? "config").getD [])

/-- The flags are looked at: there is one source at most, and the settings below the flags are
sound. -/
structure Accepted (log : Log.Library) (p : Parsed) (v : Variables) (f : Stated) : Prop where
  arguments : p.arguments.length ≤ 1
  below : (Settings.below v f).validate log = .ok ()

instance (log : Log.Library) (p : Parsed) (v : Variables) (f : Stated) :
    Decidable (Accepted log p v f) :=
  decidable_of_iff (p.arguments.length ≤ 1 ∧ ((Settings.below v f).validate log).isOk = true) (by
    constructor
    · rintro ⟨harguments,hok⟩
      obtain ⟨_,hbelow⟩ := Result.exists_of_isOk hok
      exact ⟨harguments,hbelow⟩
    · intro h
      exact ⟨h.arguments,by rw [h.below]; rfl⟩)

theorem override_below (p : Parsed) (v : Variables) (f : Stated) :
    override p (Settings.below v f) = effective p v f := by
  rw [effective,Layer.settle_above]
  rfl

theorem settings_eq (hf : configOf? r fs p = some f) (hv : r.environment env = .ok v) :
    settings r log fs env p = do
      (Settings.below v f).validate log
      (effective p v f).validate log
      return effective p v f := by
  unfold settings
  rw [Settings.load_eq hf hv]
  cases (Settings.below v f).validate log with
  | error fault => rfl
  | ok =>
    simp only [Result.ok_bind]
    rw [override_below]

/-- The exit code of a run and the files that it has written. -/
def result (o : Outcome) : Nat × List (Text × Text) := (o.status,o.disk.written)

theorem result_fail (message : Text) (missing : List Text) (fs : Files) :
    result ((Outcome.fail message (.ofFiles fs)).lacking missing) = (1,[]) := by
  simp [result,Outcome.fail,Outcome.lacking,Disk.written,Disk.ofFiles,Text.sortBy]

theorem run_refused [Artifact.Casing] (hf : configOf? r fs p = some f)
    (hv : r.environment env = .ok v) (h : ¬ Accepted log p v f) :
    result (run r log host storage env p (.ofFiles fs)) = (1,[]) := by
  unfold run
  split
  · simp [result,Outcome.usage,Disk.written,Disk.ofFiles,Text.sortBy]
  rename_i harguments
  rw [Disk.ofFiles,settings_eq hf hv]
  cases hbelow : (Settings.below v f).validate log with
  | error fault => exact result_fail _ _ fs
  | ok => exact absurd ⟨by omega,hbelow⟩ h

theorem run_accepted [Artifact.Casing] (hf : configOf? r fs p = some f)
    (hv : r.environment env = .ok v) (h : Accepted log p v f) :
    result (run r log host storage env p (.ofFiles fs)) =
      match (effective p v f).validate log with
      | .error _ => (1,[])
      | .ok () => result (runSettings log host storage (effective p v f) (.ofFiles fs)) := by
  have harguments := h.arguments
  unfold run
  rw [if_neg (by omega),Disk.ofFiles,settings_eq hf hv,h.below]
  cases hvalid : (effective p v f).validate log with
  | error fault =>
    exact result_fail _ _ fs
  | ok => simp only [Result.ok_bind,Result.pure_eq_ok]

def programOf (fs : Files) (s : Settings) (job : Job) : List Text :=
  if job.backend != Backend.wasmName then []
  else match pluginPath fs s job with
    | .error _ => []
    | .ok path => [path]

/-- The paths of the files that jobs read: their plugins, and their sources with all that these
import. -/
def reads [Artifact.Casing] (host : Host) (storage : Storage)
    (s : Settings) : List Job → Job.State → List Text
  | [], _ => []
  | job :: rest, state =>
    programOf state.disk.files s job ++ Load.met state.disk.files job.source ++
      match generator host state.disk.files s job with
      | .error _ => []
      | .ok generate => match job.run storage (s.outputOf job) generate s.go.toList state with
        | (.error _,_) => []
        | (.ok result,state) =>
          reads host storage s rest { state with log := state.log ++ [done job result] }

/-- Both trees have the same paths, and whatever the jobs of the settings read in the first one is
the same in the second one. -/
def SameSources [Artifact.Casing] (host : Host) (storage : Storage) (s : Settings)
    (fs fs' : Files) : Prop :=
  Files.Agree {name | ∃ path ∈ reads host storage s s.jobs ⟨.ofFiles fs,[]⟩, key path = name} fs fs'

section Agree

variable {on : Set Text}

theorem pluginPath_agree (h : Files.Agree on fs fs') (s : Settings) (job : Job) :
    pluginPath fs' s job = pluginPath fs s job := by
  have hregular : fs'.isRegular = fs.isRegular := (funext h.isRegular).symm
  simp only [pluginPath,Plugin.locate,hregular]

theorem generator_agree [Artifact.Casing] (h : Files.Agree on fs fs') {job : Job}
    (hreads : ∀ path ∈ programOf fs s job, key path ∈ on) :
    generator host fs' s job = generator host fs s job := by
  unfold programOf at hreads
  unfold generator
  rw [pluginPath_agree h]
  split
  · rfl
  rename_i hbackend
  rw [if_neg hbackend] at hreads
  cases hpath : pluginPath fs s job with
  | error fault => rfl
  | ok path =>
    simp only [hpath] at hreads
    simp only [Result.ok_bind]
    rw [h.read (hreads path List.mem_cons_self)]

theorem runJobs_agree [Artifact.Casing] {jobs : List Job} {state state' : Job.State}
    (h : Job.State.Agree on state state')
    (hreads : ∀ path ∈ reads host storage s jobs state, key path ∈ on) :
    ∃ on', (runJobs host storage s jobs state).1 = (runJobs host storage s jobs state').1 ∧
      Job.State.Agree on' (runJobs host storage s jobs state).2
        (runJobs host storage s jobs state').2 := by
  induction jobs generalizing on state state' with
  | nil => exact ⟨on,rfl,h⟩
  | cons job jobs ih =>
    simp only [reads,List.forall_mem_append] at hreads
    obtain ⟨⟨hprogram,hmet⟩,hrest⟩ := hreads
    simp only [runJobs,generator_agree h.disk.files hprogram]
    cases hgenerator : generator host state.disk.files s job with
    | error fault => exact ⟨on,rfl,h⟩
    | ok generate =>
    simp only [hgenerator] at hrest
    obtain ⟨on',hsub,hresult,hagree⟩ :=
      Job.run_agree h storage job (s.outputOf job) generate s.go.toList hmet
    rcases hrun : job.run storage (s.outputOf job) generate s.go.toList state with ⟨one,next⟩
    rcases hrun' : job.run storage (s.outputOf job) generate s.go.toList state' with ⟨one',next'⟩
    rw [hrun,hrun'] at hresult hagree
    obtain rfl : one = one' := hresult
    rw [hrun] at hrest
    simp only [hrun,hrun']
    cases one with
    | error fault => exact ⟨on',rfl,hagree⟩
    | ok result =>
      have hlogged : Job.State.Agree on' { next with log := next.log ++ [done job result] }
          { next' with log := next'.log ++ [done job result] } :=
        ⟨hagree.disk,by rw [hagree.log]⟩
      exact ih hlogged fun path hpath => hsub (hrest path hpath)

theorem runSettings_agree [Artifact.Casing] (h : SameSources host storage s fs fs') :
    result (runSettings log host storage s (.ofFiles fs)) =
      result (runSettings log host storage s (.ofFiles fs')) := by
  unfold runSettings
  split
  · simp only [result_fail]
  cases s.logger log with
  | error fault => simp only [result_fail]
  | ok logger =>
  have hstart : Job.State.Agree _ ⟨.ofFiles fs,[]⟩ ⟨.ofFiles fs',[]⟩ :=
    ⟨⟨h,rfl,rfl,by simp [Disk.ofFiles]⟩,rfl⟩
  obtain ⟨on',hresult,hagree⟩ := runJobs_agree hstart fun path hpath => ⟨path,hpath,rfl⟩
  have hwritten := hagree.disk.written
  rcases hrun : runJobs host storage s s.jobs ⟨.ofFiles fs,[]⟩ with ⟨one,state⟩
  rcases hrun' : runJobs host storage s s.jobs ⟨.ofFiles fs',[]⟩ with ⟨one',state'⟩
  rw [hrun,hrun'] at hresult hwritten
  obtain rfl : one = one' := hresult
  simp only
  cases one with
  | error fault => exact Prod.ext rfl hwritten
  | ok => exact Prod.ext rfl hwritten

end Agree

def noFailures : Storage := .counting (fun _ _ => false) []

def sourceTree (config : Text) : Files :=
  ⟨[("a.steamd","enum A \x7b X; \x7d;"),("steamd.toml",config)],[],none⟩

def levelConfig : Text := "[log]\nlevel = \"debug\"\n"

def outputConfig : Text := "output = \"gen\"\n"

def lineOf (arguments : List Text) : Parsed :=
  ((Given.ofArguments (flagsOf .codegen) arguments).toOption.getD default).parsed

def outputLine : Parsed := lineOf ["-c","steamd.toml","-n","a","-o","out","a.steamd"]

def levelLine : Parsed := lineOf ["-n","a","--log-level","error","a.steamd"]

def nothingSet : Variables := ⟨none,none,none,none⟩

def levelSet (level : Text) : Variables := { nothingSet with level := some level }

/-- A run of the usual libraries, with the given environment, over the given settings file. -/
def usualRun (env : Environment) (p : Parsed) (config : Text) : Outcome :=
  run .standard .standard .none noFailures env p (.ofFiles (sourceTree config))

end WireSchema.Command.Codegen
