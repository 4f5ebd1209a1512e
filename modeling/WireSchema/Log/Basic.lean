import WireSchema.Text.Basic
set_option autoImplicit false

namespace WireSchema.Log

inductive Level where
  | panic
  | fatal
  | error
  | warning
  | info
  | debug
  | trace
  deriving DecidableEq, Repr, Inhabited

def Level.rank : Level → Nat
  | .panic => 0
  | .fatal => 1
  | .error => 2
  | .warning => 3
  | .info => 4
  | .debug => 5
  | .trace => 6

inductive Value where
  | text (t : Text)
  | number (n : Nat)
  deriving DecidableEq, Repr

structure Entry where
  level : Level
  message : Text
  fields : List (Text × Value)
  deriving DecidableEq, Repr

inductive Format where
  | text
  | json
  deriving DecidableEq, Repr, Inhabited

def Format.ofName? (t : Text) : Option Format :=
  if t == Text.ofString "text" then some .text
  else if t == Text.ofString "json" then some .json
  else none

structure Library where
  level : Text → Except Text Level
  line : Format → Entry → Text

structure Logger where
  level : Level
  format : Format
  deriving DecidableEq, Repr, Inhabited

def Logger.write (lib : Library) (l : Logger) (entries : List Entry) : Text :=
  (entries.filter fun e => e.level.rank ≤ l.level.rank).flatMap (lib.line l.format)

end WireSchema.Log
