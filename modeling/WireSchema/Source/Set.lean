import WireSchema.Document.Parser
set_option autoImplicit false

namespace WireSchema

structure Source where
  path : Text
  text : Text
  deriving DecidableEq, Repr, Inhabited

structure Located (ε : Type) where
  path : Text
  position : Position
  cause : ε
  deriving Repr

def Located.message {ε : Type} (render : ε → Text) (l : Located ε) : Text :=
  Text.cat [l.path,":",l.position.toText,": ",render l.cause]

abbrev SourceSet := List Source

namespace SourceSet

def text (set : SourceSet) : Text := set.flatMap fun s => s.text ++ [Text.newline]

/-- Each source with the offset where it starts in the text of all. -/
def starts (base : Nat) : SourceSet → List (UInt32 × Source)
  | [] => []
  | s :: rest => (base.toUInt32,s) :: starts (base + s.text.length + 1) rest

/-- The path and the position that an offset of the text of all sources has. The last source that
starts at or before the offset has it; without sources the path is empty. -/
def locate (set : SourceSet) (offset : UInt32) : Text × Position :=
  match (starts 0 set).reverse.find? (fun (start,_) => start ≤ offset) with
  | some (start,s) => (s.path,.ofOffset s.text (offset - start))
  | none => ([],.first)

/-- The first fault of a source that cannot be read on its own, located in it. -/
def checkEach : SourceSet → Except (Located Document.Fault) Unit
  | [] => .ok ()
  | s :: rest =>
    match Document.parse s.text with
    | .error fault => .error ⟨s.path,.ofOffset s.text fault.span.start,fault⟩
    | .ok _ => checkEach rest

/-- The document that the sources spell together. Each is read on its own first, so that a block
left open in one cannot run into the next. -/
def parse (set : SourceSet) : Except (Located Document.Fault) Document := do
  checkEach set
  match Document.parse set.text with
  | .error fault =>
    let (path,position) := locate set fault.span.start
    .error ⟨path,position,fault⟩
  | .ok doc => .ok doc

end SourceSet

end WireSchema
