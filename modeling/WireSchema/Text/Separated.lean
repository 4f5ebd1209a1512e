import WireSchema.Text.Basic
set_option autoImplicit false

namespace WireSchema.Text.Separated

structure Place where
  line : Nat
  column : Nat
  deriving DecidableEq, Repr

inductive Fault where
  | nothing
  | bareQuote (start : Nat) (place : Place)
  | unclosed (start : Nat) (place : Place)
  deriving DecidableEq, Repr

def located (start : Nat) (place : Place) (cause : Text) : Text := cat [
  if start = place.line then [] else cat ["record on line ",ofNat start,"; "],
  "parse error on line ",ofNat place.line,", column ",ofNat place.column,": ",cause]

def Fault.message : Fault → Text
  | .nothing => "EOF"
  | .bareQuote start place => located start place "bare \" in non-quoted-field"
  | .unclosed start place => located start place "extraneous or missing \" in quoted-field"

def quote : UInt8 := byte '"'

def comma : UInt8 := byte ','

/-- The lines of a text, each with its line end. A carriage return before that is dropped, and so is
one at the end of the text. -/
def lines (t : Text) : List Text :=
  let pieces := splitOn newline t
  let dropReturn (line : Text) : Text := if line.getLast? == some 13 then line.dropLast else line
  let last := dropReturn (pieces.getLastD [])
  pieces.dropLast.map (fun line => dropReturn line ++ [newline]) ++
    (if (pieces.getLastD []).isEmpty then [] else [last])

def isDone (line : Text) : Bool := line.isEmpty || line == [newline]

/-- What is left to read: the rest of a line, where that is, and the lines behind it. -/
structure Rest where
  text : Text
  place : Place
  more : List Text
  deriving Repr

def Rest.drop (r : Rest) (n : Nat) : Rest :=
  { r with text := r.text.drop n, place := ⟨r.place.line,r.place.column + n⟩ }

/-- The end of an item in quotes, whose first quote has been read, and the rest behind a comma if
there is one. -/
def quoted (start : Nat) : Nat → Rest → Except Fault (Text × Option Rest)
  | 0, r => .error (.unclosed start r.place)
  | fuel + 1, r => match r.text with
    | [] => match r.more with
      | [] => .error (.unclosed start r.place)
      | line :: more =>
        if line.isEmpty then .error (.unclosed start r.place)
        else quoted start fuel ⟨line,⟨r.place.line + 1,1⟩,more⟩
    | c :: rest =>
      if c != quote then do
        let (item,after) ← quoted start fuel (r.drop 1)
        return (c :: item,after)
      else if rest.head? == some quote then do
        let (item,after) ← quoted start fuel (r.drop 2)
        return (quote :: item,after)
      else if rest.head? == some comma then return ([],some (r.drop 2))
      else if isDone rest then return ([],none)
      else .error (.unclosed start r.place)

def plain (start : Nat) (r : Rest) : Except Fault (Text × Option Rest) :=
  let piece := r.text.takeWhile (· != comma)
  let isLast := piece.length = r.text.length
  let item := if isLast && piece.getLast? == some newline then piece.dropLast else piece
  let before := item.takeWhile (· != quote)
  if before.length < item.length then .error (.bareQuote start (r.drop before.length).place)
  else .ok (item,if isLast then none else some (r.drop (piece.length + 1)))

def readItems (start : Nat) : Nat → Rest → Except Fault (List Text)
  | 0, _ => .ok []
  | fuel + 1, r => do
    let (item,after) ←
      if r.text.head? == some quote then quoted start (fuel + 1) (r.drop 1) else plain start r
    match after with
    | none => return [item]
    | some rest => return item :: (← readItems start fuel rest)

def firstRecord (bound number : Nat) : List Text → Except Fault (List Text)
  | [] => .error .nothing
  | line :: more =>
    if isDone line then firstRecord bound (number + 1) more
    else readItems number bound ⟨line,⟨number,1⟩,more⟩

def items (t : Text) : Except Fault (List Text) :=
  if t.isEmpty then .ok [] else firstRecord (2 * t.length + 2) 1 (lines t)

end WireSchema.Text.Separated
