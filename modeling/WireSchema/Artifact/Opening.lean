import WireSchema.Artifact.Check
import WireSchema.Text.Space
set_option autoImplicit false

namespace WireSchema.Artifact

def sourceName (b : Batch) : Text :=
  if b.schema.sourcePath.isEmpty then "a steamd definition" else Path.base b.schema.sourcePath

def sourceLine (name : Text) : Text :=
  Text.cat ["// Code generated by steamd from ",name,". DO NOT EDIT."]

def importLines (imports : Imports) : Lines :=
  if imports.isEmpty then []
  else Lines.cat [
    ["import ("],
    imports.map fun (path,nickname) =>
      if nickname.isEmpty then Text.cat ["\t",Text.Quoted.quote path]
      else Text.cat ["\t",nickname," ",Text.Quoted.quote path],
    [")",""]]

def openingLines (b : Batch) (imports : Imports) : Lines := Lines.cat [
  [sourceLine (sourceName b),"",Text.cat ["package ",b.packageName],""],
  importLines imports]

/-- The clause that names the package. There may be a comment in front of the name, and comments
behind it, each with the number of line ends before it. -/
structure Clause where
  front : Option Text
  name : Text
  back : List (Nat × Text)
  deriving DecidableEq, Repr

namespace Clause

def isBlank (c : UInt8) : Bool := c == 32 || c == 9 || c == 13

def isWhite (c : UInt8) : Bool := isBlank c || c == 10

def comment? (t : Text) : Option (Text × Text) :=
  if Text.startsWith t "//" then
    let body := t.takeWhile (· != 10)
    some (Text.trimEnd (body.filter (· != 13)),t.drop body.length)
  else if Text.startsWith t "/*" then do
    let (body,rest) ← Text.cut? "*/" (t.drop 2)
    if body.contains 10 then none
    else some (Text.cat ["/*",body.filter (· != 13),"*/"],rest)
  else none

def dropSemicolon (t : Text) : Text :=
  if t.head? == some (Text.byte ';') then t.tail else t

def endsName (c : UInt8) : Bool := isWhite c || c == Text.byte ';' || c == Text.byte '/'

def comments? : Nat → Text → Option (List (Nat × Text))
  | 0, _ => none
  | fuel + 1, t =>
    let white := t.takeWhile isWhite
    match t.drop white.length with
    | [] => some []
    | rest => do
      let (comment,rest) ← comment? rest
      return (white.count 10,comment) :: (← comments? fuel rest)

/-- Reads what stands behind the word that starts the clause. One semicolon may end it, on the line
of the name. -/
def read? (t : Text) : Option Clause := do
  let t := t.dropWhile isWhite
  let (front,t) := match (if Text.startsWith t "/*" then comment? t else none) with
    | some (comment,rest) => (some comment,rest.dropWhile isWhite)
    | none => (none,t)
  let name := t.takeWhile fun c => !endsName c
  let rest := dropSemicolon ((t.drop name.length).dropWhile isBlank)
  let back ← comments? (rest.length + 1) rest
  if Check.isIdentifier name && front.all Check.isComment &&
      back.all fun (_,comment) => Check.isComment comment then
    return ⟨front,name,back⟩
  else none

/-- Comments below the line of what stands before them, with at most one blank line between. -/
def commentLines : List (Nat × Text) → Lines
  | [] => []
  | (lineEnds,comment) :: rest =>
    Lines.cat [if 2 ≤ lineEnds then [""] else [],[comment],commentLines rest]

/-- The clause in its usual form. A blank line sets the name off from comments below it. -/
def lines (c : Clause) : Lines :=
  let beside := c.back.takeWhile fun (lineEnds,_) => lineEnds = 0
  let below := c.back.drop beside.length
  Lines.cat [
    [Text.join " " ("package" ::
      List.flatten [c.front.toList,[c.name],beside.map Prod.snd])],
    match beside, below with
    | [], (_,comment) :: rest => "" :: comment :: commentLines rest
    | _, _ => commentLines below]

end Clause

/-- The first lines in their usual form, if they can be read as source code. A comment has no
carriage returns, and a form feed in it takes the place of the blank line behind it. -/
def usualOpening? (b : Batch) (imports : Imports) : Option Lines := do
  let name := sourceName b
  let clause ← Clause.read? b.packageName
  if Check.isComment name && Check.imports imports then
    return Lines.cat [
      [sourceLine (name.filter (· != 13))],
      if name.contains 12 then [] else [""],
      clause.lines,
      [""],
      importLines imports]
  else none

end WireSchema.Artifact
