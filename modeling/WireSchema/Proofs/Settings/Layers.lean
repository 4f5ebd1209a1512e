import WireSchema.Proofs.Basic
import WireSchema.Settings.Load
set_option autoImplicit false

/-!
Settings in layers. Each layer says something about some of the settings; the highest one that says
something counts, and where none of them does the settings are what they are by default. Loading is
the layer of the environment on top of that of the file, if what comes of it is sound.
-/

namespace WireSchema.Settings

/-- What is said of the settings that more than one place can speak of. -/
structure Layer where
  level : Option Text
  format : Option Text
  output : Option Text
  pluginPath : Option (List Text)
  deriving DecidableEq, Repr, Inhabited

namespace Layer

def silent : Layer := ⟨none,none,none,none⟩

def above (upper lower : Layer) : Layer where
  level := upper.level <|> lower.level
  format := upper.format <|> lower.format
  output := upper.output <|> lower.output
  pluginPath := upper.pluginPath <|> lower.pluginPath

def settle (l : Layer) (go : GoOptions) (jobs : List Job) : Settings where
  level := l.level.getD default.level
  format := l.format.getD default.format
  output := l.output.getD default.output
  pluginPath := l.pluginPath.getD default.pluginPath
  go
  jobs

theorem settle_above (upper lower : Layer) (go : GoOptions) (jobs : List Job) :
    (upper.above lower).settle go jobs =
      { lower.settle go jobs with
        level := upper.level.getD (lower.settle go jobs).level
        format := upper.format.getD (lower.settle go jobs).format
        output := upper.output.getD (lower.settle go jobs).output
        pluginPath := upper.pluginPath.getD (lower.settle go jobs).pluginPath } := by
  simp [settle,above,Option.getD_or]

def ofVariables (v : Variables) : Layer where
  level := v.level
  format := v.format
  output := v.output
  pluginPath := v.pluginPath.map directories

end Layer

/-- What a settings file says. -/
structure Stated where
  layer : Layer
  go : GoOptions
  jobs : List Job
  deriving DecidableEq, Repr, Inhabited

def Stated.nothing : Stated := ⟨.silent,⟨[],[],[]⟩,[]⟩

def said {α : Type} (d : Decoded) (key : List Text) (value : α) : Option α :=
  if d.defined key then some value else none

theorem getD_said {α : Type} (d : Decoded) (key : List Text) (value other : α) :
    (said d key value).getD other = if d.defined key then value else other := by
  unfold said
  split <;> rfl

def Decoded.stated (d : Decoded) : Stated where
  layer := {
    level := said d ["log","level"] (Text.trim d.file.level)
    format := said d ["log","format"] (Text.trim d.file.format)
    output := said d ["output"] (Text.trim d.file.output)
    pluginPath := said d ["plugin","path"] d.file.pluginPath }
  go := d.file.go
  jobs := d.file.jobs

/-- What the text of a settings file says, if it can be read and nothing in it is left unread. -/
def stated? (r : Readers) (text : Text) : Option Stated :=
  match r.file text with
  | .error _ => none
  | .ok d => if d.unread.isEmpty then some d.stated else none

/-- What is said by the settings file under a path. No path is no file, which says nothing. -/
def config? (r : Readers) (fs : Files) (path : Text) : Option Stated :=
  if path.isEmpty then some .nothing
  else match fs.read path with
    | .error _ => none
    | .ok text => stated? r text

def below (v : Variables) (f : Stated) : Settings :=
  ((Layer.ofVariables v).above f.layer).settle f.go f.jobs

variable {r : Readers} {log : Log.Library} {fs : Files} {path text : Text} {env : Environment}
    {v : Variables} {f : Stated}

theorem applyFile_eq (path : Text) (h : stated? r text = some f) :
    applyFile r path text default = .ok (f.layer.settle f.go f.jobs) := by
  unfold stated? at h
  unfold applyFile
  cases hfile : r.file text with
  | error cause => simp [hfile] at h
  | ok d =>
  simp only [hfile] at h ⊢
  cases hunread : d.unread with
  | cons key more => simp [hunread] at h
  | nil =>
  simp only [hunread,List.isEmpty_nil,if_true] at h
  obtain rfl := Option.some.inj h
  simp only [Decoded.stated,Layer.settle,getD_said]

theorem applyEnvironment_settle (v : Variables) (l : Layer) (go : GoOptions) (jobs : List Job) :
    (l.settle go jobs).applyEnvironment v = ((Layer.ofVariables v).above l).settle go jobs := by
  rw [Layer.settle_above]
  rfl

theorem load_eq (h : config? r fs path = some f) (hv : r.environment env = .ok v) :
    load r log fs path env = (below v f).validate log >>= fun _ => .ok (below v f) := by
  unfold config? at h
  unfold load
  simp only [hv,Except.mapError,Result.ok_bind]
  split at h
  · rename_i hempty
    obtain rfl := Option.some.inj h
    have hdefault : default = Layer.silent.settle ⟨[],[],[]⟩ [] := rfl
    simp only [hempty,if_true,Result.pure_eq_ok,Result.ok_bind]
    rw [hdefault,applyEnvironment_settle]
    rfl
  · rename_i hempty
    rw [if_neg hempty]
    cases hread : fs.read path with
    | error file => simp [hread] at h
    | ok text =>
      simp only [hread] at h ⊢
      rw [applyFile_eq path h,Result.ok_bind,applyEnvironment_settle]
      rfl

end WireSchema.Settings
