import WireSchema.Toml.Basic
set_option autoImplicit false

namespace WireSchema.Toml

def letterEscape? (c : UInt8) : Option UInt8 :=
  if c == Text.byte 'b' then some 8
  else if c == Text.byte 't' then some 9
  else if c == Text.byte 'n' then some 10
  else if c == Text.byte 'f' then some 12
  else if c == Text.byte 'r' then some 13
  else if c == Text.byte 'e' then some 27
  else if c == Text.byte '"' || c == Text.byte '\\' then some c
  else none

def digitsOf (c : UInt8) : Nat :=
  if c == Text.byte 'x' then 2
  else if c == Text.byte 'u' then 4
  else if c == Text.byte 'U' then 8
  else 0

def pointText? (digits : Text) : Option Text := do
  let point ← Text.natIn? 16 digits
  if point < 0xd800 || (0xe000 ≤ point && point ≤ 0x10ffff) then
    some (Text.Utf8.encode point)
  else none

def escape? : Text → Option (Text × Text)
  | [] => none
  | c :: rest =>
    let n := digitsOf c
    if n = 0 then (letterEscape? c).map fun b => ([b],rest)
    else if rest.length < n then none
    else (pointText? (rest.take n)).map fun piece => (piece,rest.drop n)

/-- The inside of a string with escapes whose first quote has been read, and what follows it. -/
def basicString? : Nat → Text → Option (Text × Text)
  | 0, _ => none
  | _, [] => none
  | fuel + 1, c :: rest =>
    if c == Text.byte '"' then some ([],rest)
    else if c == 10 || c == 13 then none
    else if c == Text.byte '\\' then do
      let (piece,rest) ← escape? rest
      let (body,after) ← basicString? fuel rest
      return (piece ++ body,after)
    else (basicString? fuel rest).map fun (body,after) => (c :: body,after)

/-- The inside of a string without escapes whose first quote has been read, and what follows it. -/
def literalString? : Text → Option (Text × Text)
  | [] => none
  | c :: rest =>
    if c == Text.byte '\'' then some ([],rest)
    else if c == 10 || c == 13 then none
    else (literalString? rest).map fun (body,after) => (c :: body,after)

def string? (c : UInt8) (rest : Text) : Option (Text × Text) :=
  if c == Text.byte '"' then basicString? (rest.length + 1) rest
  else if c == Text.byte '\'' then literalString? rest
  else none

def isWhite (c : UInt8) : Bool := isBlank c || c == 10 || c == 13

/-- The inside of a string over several lines whose first three quotes have been read, and what
follows it. Up to two quotes may stand in front of the last three, and one more behind a backslash
that is written as an escape. -/
def basicBlock? : Nat → Bool → Text → Option (Text × Text)
  | 0, _, _ => none
  | _, _, [] => none
  | fuel + 1, afterBackslash, c :: rest =>
    if c == Text.byte '"' then
      let quotes := (c :: rest).takeWhile (· == c)
      let after := (c :: rest).drop quotes.length
      if quotes.length < 3 then
        (basicBlock? fuel false after).map fun (body,after) => (quotes ++ body,after)
      else if quotes.length ≤ (if afterBackslash then 6 else 5) then some (quotes.drop 3,after)
      else none
    else if c == Text.byte '\\' then
      let white := rest.takeWhile isWhite
      if white.contains 10 then basicBlock? fuel false (rest.drop white.length)
      else do
        let afterBackslash := rest.head? == some (Text.byte '\\')
        let (piece,rest) ← escape? rest
        let (body,after) ← basicBlock? fuel afterBackslash rest
        return (piece ++ body,after)
    else (basicBlock? fuel false rest).map fun (body,after) => (c :: body,after)

/-- The inside of a string over several lines without escapes. Up to two quotes may stand in front
of the last three. -/
def literalBlock? : Nat → Text → Option (Text × Text)
  | 0, _ => none
  | _, [] => none
  | fuel + 1, c :: rest =>
    if c == Text.byte '\'' then
      let quotes := (c :: rest).takeWhile (· == c)
      let after := (c :: rest).drop quotes.length
      if quotes.length < 3 then
        (literalBlock? fuel after).map fun (body,after) => (quotes ++ body,after)
      else if quotes.length ≤ 5 then some (quotes.drop 3,after)
      else none
    else (literalBlock? fuel rest).map fun (body,after) => (c :: body,after)

def dropNewline (t : Text) : Text := (newline? t).getD t

def quotation? (t : Text) : Option (Text × Text) :=
  let fuel := t.length + 1
  if Text.startsWith t "\"\"\"" then basicBlock? fuel false (dropNewline (t.drop 3))
  else if Text.startsWith t "'''" then literalBlock? fuel (dropNewline (t.drop 3))
  else match t with
    | [] => none
    | c :: rest => string? c rest

end WireSchema.Toml
