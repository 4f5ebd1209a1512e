import WireSchema.Text.Basic
set_option autoImplicit false

namespace WireSchema.Path

def slash : UInt8 := Text.byte '/'

def isRooted (path : Text) : Bool := path.head? == some slash

/-- One component added to the cleaned components so far, kept in reverse. A parent reference takes
away the component before it, vanishes at the root, and stays where there is nothing to take. -/
def step (rooted : Bool) (done : List Text) (component : Text) : List Text :=
  if component.isEmpty || component == Text.ofString "." then done
  else if component == Text.ofString ".." then
    match done with
    | [] => if rooted then [] else [component]
    | last :: before => if last == Text.ofString ".." then component :: done else before
  else component :: done

/-- The components of the shortest path that names the same place. -/
def components (path : Text) : List Text :=
  ((Text.splitOn slash path).foldl (step (isRooted path)) []).reverse

/-- The shortest path that names the same place; the empty path is the current directory. -/
def clean (path : Text) : Text :=
  let body := Text.join [slash] (components path)
  if isRooted path then slash :: body
  else if body.isEmpty then "."
  else body

/-- The pieces from the first non-empty one on, joined by slashes and cleaned. -/
def join (pieces : List Text) : Text :=
  match pieces.dropWhile List.isEmpty with
  | [] => []
  | rest => clean (Text.join [slash] rest)

def split (path : Text) : Text × Text :=
  let name := (path.reverse.takeWhile (· != slash)).reverse
  (path.take (path.length - name.length),name)

def directory (path : Text) : Text := clean (split path).1

def base (path : Text) : Text :=
  if path.isEmpty then "."
  else
    match (path.reverse.dropWhile (· == slash)).reverse with
    | [] => [slash]
    | trimmed => (split trimmed).2

def extension (path : Text) : Text :=
  let name := (split path).2
  let tail := (name.reverse.takeWhile (· != Text.byte '.')).reverse
  if tail.length = name.length then [] else Text.byte '.' :: tail

end WireSchema.Path
