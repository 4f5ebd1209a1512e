import WireSchema.Text.Basic
set_option autoImplicit false

namespace WireSchema.Toml

def digits? (count : Nat) (t : Text) : Option (Nat × Text) := do
  let run := t.take count
  if run.length = count ∧ run.all Text.isDigit then
    return (← Text.natIn? 10 run,t.drop count)
  else none

def skipUpTo? (greatest : Nat) (t : Text) : Option Text := do
  let (n,rest) ← digits? 2 t
  if n ≤ greatest then some rest else none

def skipByte? (c : Char) (t : Text) : Option Text :=
  if t.head? == some (Text.byte c) then some t.tail else none

def isLeapYear (year : Nat) : Bool :=
  year % 4 == 0 && (year % 100 != 0 || year % 400 == 0)

def daysIn (year month : Nat) : Nat :=
  if month = 2 then (if isLeapYear year then 29 else 28)
  else if [4,6,9,11].contains month then 30
  else if 1 ≤ month ∧ month ≤ 12 then 31
  else 0

def skipDate? (t : Text) : Option Text := do
  let (year,rest) ← digits? 4 t
  let (month,rest) ← digits? 2 (← skipByte? '-' rest)
  let (day,rest) ← digits? 2 (← skipByte? '-' rest)
  if 1 ≤ day ∧ day ≤ daysIn year month then some rest else none

def skipFraction (t : Text) : Text :=
  match t with
  | 46 :: d :: rest => if Text.isDigit d then rest.dropWhile Text.isDigit else t
  | _ => t

def skipTime? (t : Text) : Option Text := do
  let rest ← skipUpTo? 23 t
  let rest ← skipUpTo? 59 (← skipByte? ':' rest)
  match skipByte? ':' rest with
  | none => return rest
  | some rest => return skipFraction (← skipUpTo? 59 rest)

def isZone (t : Text) : Bool :=
  match t with
  | [] => false
  | c :: rest =>
    if c == Text.byte 'Z' then rest.isEmpty
    else (c == Text.byte '+' || c == Text.byte '-') &&
      (do skipUpTo? 60 (← skipByte? ':' (← skipUpTo? 24 rest))) == some []

/-- The letters of dates and times in capitals, and a blank as the letter in its place. -/
def plainMoment (t : Text) : Text :=
  t.map fun c =>
    if c == 32 || c == Text.byte 't' then Text.byte 'T'
    else if c == Text.byte 'z' then Text.byte 'Z'
    else c

def isMoment (t : Text) : Bool :=
  let t := plainMoment t
  match skipDate? t with
  | none => skipTime? t == some []
  | some [] => true
  | some rest => match (do skipTime? (← skipByte? 'T' rest)) with
    | none => false
    | some zone => zone.isEmpty || isZone zone

def isMomentByte (c : UInt8) : Bool := Text.isDigit c || (Text.ofString "-:Tt .Zz+").contains c

def startsMoment (t : Text) : Bool :=
  match t.dropWhile Text.isDigit with
  | [] => false
  | c :: rest =>
    rest.length + 1 < t.length && (c == Text.byte '-' || c == Text.byte ':')

end WireSchema.Toml
