import WireSchema.Text.Space
set_option autoImplicit false

namespace WireSchema.Artifact.Align

def isBlank (line : Text) : Bool := line.all (· == Text.byte '\t')

def isComment (line : Text) : Bool :=
  Text.startsWith (line.dropWhile (· == Text.byte '\t')) "//"

def isEntry (line : Text) : Bool := !isBlank line && !isComment line

def splitEntry (line : Text) : Text × Text :=
  let first := line.takeWhile (· != Text.byte ' ')
  (first,(line.drop first.length).dropWhile (· == Text.byte ' '))

def pad (width : Nat) (line : Text) : Text :=
  let (first,rest) := splitEntry line
  if rest.isEmpty then line else Text.cat [Text.padRight width first," ",rest]

def columns (entries : Lines) : Lines :=
  let width := (entries.map fun line => (splitEntry line).1.length).foldl max 0
  entries.map (pad width)

/-- The size of the key of a table's entry, which has a tab in front and a colon behind it. -/
def keySize (line : Text) : Nat := (splitEntry line).1.length - 2

/-- Whether a key starts columns of its own, behind keys of other sizes, the latest one first. Keys
up to forty bytes stay together; beyond that one may be up to two and a half times as long, or as
short, as the geometric mean of those before it. -/
def breaksColumns (size : Nat) (before : List Nat) : Bool :=
  if size ≤ 40 && before.head?.all (· ≤ 40) then false
  else
    let n := before.length
    let product := before.foldl (· * ·) 1
    Nat.pow (5 * size) n ≤ Nat.pow 2 n * product || Nat.pow 5 n * product ≤ Nat.pow (2 * size) n

/-- The entries of a table in groups that each have their own columns. The entries before those to
come are the latest group, in reverse, with the sizes of their keys. -/
def groups (before : Lines) (sizes : List Nat) : Lines → List Lines
  | [] => [before.reverse]
  | line :: rest =>
    let size := keySize line
    if !before.isEmpty && breaksColumns size sizes then
      before.reverse :: groups [line] [size] rest
    else groups (line :: before) (size :: sizes) rest

inductive Block where
  | constants
  | fields
  | names
  deriving DecidableEq, Repr

namespace Block

def ofLine? (line : Text) : Option Block :=
  if line == Text.ofString "const (" then some .constants
  else if Text.startsWith line "type " && Text.endsWith line " struct \x7b" then some .fields
  else if Text.startsWith line "var " && Text.endsWith line "]string\x7b" then some .names
  else none

def close : Block → Text
  | .constants => ")"
  | .fields | .names => "\x7d"

def columns (b : Block) (entries : Lines) : Lines :=
  if b = .names then (groups [] [] entries).flatMap Align.columns else Align.columns entries

end Block

def trimComment (line : Text) : Text := if isComment line then Text.trimEnd line else line

/-- Lines of which those in lists are in columns. The entries are those collected since the last
line that was none. -/
def arrange : Option Block → Lines → Lines → Lines
  | none, _, [] => []
  | some block, entries, [] => block.columns entries
  | none, _, line :: rest => trimComment line :: arrange (Block.ofLine? line) [] rest
  | some block, entries, line :: rest =>
    if line == block.close then block.columns entries ++ line :: arrange none [] rest
    else if isEntry line then arrange (some block) (entries ++ [line]) rest
    else block.columns entries ++ trimComment line :: arrange (some block) [] rest

def foldEmpty : Lines → Lines
  | first :: second :: rest =>
    if Text.endsWith first "]string\x7b" && second == Text.ofString "\x7d" then
      Text.cat [first,"\x7d"] :: foldEmpty rest
    else first :: foldEmpty (second :: rest)
  | lines => lines

def trimEnd (lines : Lines) : Lines := (lines.reverse.dropWhile isBlank).reverse

def align (lines : Lines) : Lines := foldEmpty (arrange none [] (trimEnd lines))

end WireSchema.Artifact.Align
