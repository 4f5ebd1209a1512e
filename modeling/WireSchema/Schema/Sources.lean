import WireSchema.Schema.Compile
import WireSchema.Source.Set
set_option autoImplicit false

namespace WireSchema.SourceSet

inductive Fault where
  | document (fault : Located Document.Fault)
  | schema (fault : Located Schema.Fault)
  deriving Repr

def Fault.message : Fault → Text
  | .document fault => fault.message Document.Fault.message
  | .schema fault => fault.message Schema.Fault.message

def place {ε : Type} (set : SourceSet) (offset : UInt32) (cause : ε) : Located ε :=
  let (path,position) := set.locate offset
  ⟨path,position,cause⟩

def compile (path : Text) (set : SourceSet) :
    Except Fault (Schema × List (Located Schema.Warning)) :=
  match set.parse with
  | .error fault => .error (.document fault)
  | .ok doc => match Schema.compile path doc with
    | .error fault => .error (.schema (set.place fault.span.start fault))
    | .ok (schema,warnings) =>
      .ok (schema,warnings.map fun w => set.place w.span.start w)

end WireSchema.SourceSet
