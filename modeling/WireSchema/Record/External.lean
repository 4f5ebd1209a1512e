import WireSchema.Text.Basic
set_option autoImplicit false

namespace WireSchema

/-- A message: the names of its type, in its own format and among the types of values, the bytes
that it is written as, and how it is shown, on one line and as a text of its own. Some messages
cannot be written or have no text. -/
structure External where
  type : Text
  typeName : Text
  bytes : Option Text
  shown : Text
  text : Option Text
  deriving DecidableEq, Repr, Inhabited

namespace External

/-- A type of messages: the one in which nothing has been set, and the one that some bytes are. -/
structure Kind where
  fresh : External
  read : Text → Option External

/-- The types that are known, by their full names. Any other type is bytes. -/
abbrev Kinds := Text → Option Kind

namespace Kinds

def empty : Kinds := fun _ => none

/-- A type by its full name, or else by the part after the last dot. -/
def find? (known : Kinds) (name : Text) : Option Kind :=
  match known name with
  | some kind => some kind
  | none => known (name.reverse.takeWhile (· != Text.byte '.')).reverse

end Kinds

end External

end WireSchema
