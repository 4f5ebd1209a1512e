import WireSchema.Json.Basic
set_option autoImplicit false

/-!
Reading JSON in two degrees of strictness. The reader is lenient inside of numbers and strings: a
number is any run of number characters in a plausible order, and a string ends at the first quote
that no backslash escapes. The exact rules are a property of what was read.
-/

namespace WireSchema.Json

def isBlank (c : UInt8) : Bool := c == 32 || c == 9 || c == 10 || c == 13

def skipBlanks (t : Text) : Text := t.dropWhile isBlank

def endsWord : Text → Bool
  | [] => true
  | c :: _ => isBlank c || (Text.ofString "[]\x7b\x7d,:").contains c

/-- The inside of a string whose first quote has been read, and what follows its last one. -/
def stringBody? : Text → Option (Text × Text)
  | [] => none
  | [c] => if c == quoteMark then some ([],[]) else none
  | c :: d :: rest =>
    if c == quoteMark then some ([],d :: rest)
    else if c == escapeMark then
      (stringBody? rest).map fun (body,after) => (c :: d :: body,after)
    else (stringBody? (d :: rest)).map fun (body,after) => (c :: body,after)

/-- The rest of a number: one point, which comes before the exponent, one exponent, and a sign right
after its mark. -/
def numberTail (point exponent marked : Bool) : Text → Text × Text
  | [] => ([],[])
  | c :: rest =>
    let more (found : Text × Text) : Text × Text := (c :: found.1,found.2)
    if Text.isDigit c then more (numberTail point exponent false rest)
    else if c == Text.byte '.' && !point then more (numberTail true exponent marked rest)
    else if (c == Text.byte 'e' || c == Text.byte 'E') && !exponent then
      more (numberTail true true true rest)
    else if (c == Text.byte '+' || c == Text.byte '-') && marked then
      more (numberTail point exponent false rest)
    else ([],c :: rest)

def word? (word t : Text) : Option Text :=
  if word.isPrefixOf t && endsWord (t.drop word.length) then some (t.drop word.length) else none

def scalar? (c : UInt8) (rest : Text) : Option (Json × Text) :=
  if c == quoteMark then (stringBody? rest).map fun (body,after) => (.string body,after)
  else if Text.isDigit c || c == Text.byte '-' then
    let (tail,after) := numberTail false false false rest
    if endsWord after then some (.number (c :: tail),after) else none
  else if c == Text.byte 'n' then (word? "null" (c :: rest)).map (Json.null,·)
  else if c == Text.byte 't' then (word? "true" (c :: rest)).map (Json.bool true,·)
  else if c == Text.byte 'f' then (word? "false" (c :: rest)).map (Json.bool false,·)
  else none

def past? (c : UInt8) (t : Text) : Option Text :=
  match skipBlanks t with
  | d :: rest => if d == c then some rest else none
  | [] => none

mutual

def value? : Nat → Text → Option (Json × Text)
  | 0, _ => none
  | fuel + 1, t => match skipBlanks t with
    | [] => none
    | c :: rest =>
      if c == Text.byte '[' then
        match past? (Text.byte ']') rest with
        | some after => some (.array [],after)
        | none => (items? fuel rest).map fun (items,after) => (.array items,after)
      else if c == Text.byte '\x7b' then
        match past? (Text.byte '\x7d') rest with
        | some after => some (.object [],after)
        | none => (members? fuel rest).map fun (members,after) => (.object members,after)
      else scalar? c rest

def items? : Nat → Text → Option (List Json × Text)
  | 0, _ => none
  | fuel + 1, t => do
    let (item,after) ← value? fuel t
    match past? (Text.byte ']') after with
    | some after => return ([item],after)
    | none =>
      let (items,after) ← items? fuel (← past? (Text.byte ',') after)
      return (item :: items,after)

def members? : Nat → Text → Option (List (Text × Json) × Text)
  | 0, _ => none
  | fuel + 1, t => do
    let (key,after) ← stringBody? (← past? quoteMark t)
    let (j,after) ← value? fuel (← past? (Text.byte ':') after)
    match past? (Text.byte '\x7d') after with
    | some after => return ([(key,j)],after)
    | none =>
      let (members,after) ← members? fuel (← past? (Text.byte ',') after)
      return ((key,j) :: members,after)

end

/-- The value that a whole text denotes. A level of nesting takes two steps and at least one
character. -/
def parse? (t : Text) : Option Json := do
  let (j,after) ← value? (2 * t.length + 2) t
  if (skipBlanks after).isEmpty then some j else none

def someDigits? (t : Text) : Option Text :=
  if (t.takeWhile Text.isDigit).isEmpty then none else some (t.dropWhile Text.isDigit)

/-- What follows the sign and the whole part of a number, which has no needless zero in front. -/
def wholePart? (t : Text) : Option Text :=
  let t := if t.head? == some (Text.byte '-') then t.tail else t
  match t with
  | c :: rest =>
    if c == Text.byte '0' then some rest
    else if Text.isDigit c then some (rest.dropWhile Text.isDigit)
    else none
  | [] => none

def fraction? (t : Text) : Option Text :=
  match t with
  | c :: rest => if c == Text.byte '.' then someDigits? rest else some t
  | [] => some []

def exponent? (t : Text) : Option Text :=
  match t with
  | c :: rest =>
    if c == Text.byte 'e' || c == Text.byte 'E' then
      match rest with
      | d :: more =>
        someDigits? (if d == Text.byte '+' || d == Text.byte '-' then more else rest)
      | [] => none
    else some t
  | [] => some []

def isExactNumber (t : Text) : Bool :=
  ((wholePart? t).bind fraction?).bind exponent? == some []

def isExactString (raw : Text) : Bool := raw.all (32 ≤ ·) && (pieces? raw).isSome

mutual

def isExact : Nat → Json → Bool
  | _, .null => true
  | _, .bool _ => true
  | _, .number t => isExactNumber t
  | _, .string raw => isExactString raw
  | depth, .array items => 0 < depth && areExact (depth - 1) items
  | depth, .object members => 0 < depth && membersExact (depth - 1) members

def areExact : Nat → List Json → Bool
  | _, [] => true
  | depth, j :: rest => isExact depth j && areExact depth rest

def membersExact : Nat → List (Text × Json) → Bool
  | _, [] => true
  | depth, (key,j) :: rest => isExactString key && isExact depth j && membersExact depth rest

end

def maxDepth : Nat := 10000

/-- Whether a value may be passed over. Lists and objects must be exact for that. -/
def isSkippable : Json → Bool
  | .array items => isExact maxDepth (.array items)
  | .object members => isExact maxDepth (.object members)
  | _ => true

def readers {α : Type} (known : List (String × (Json → α → Option α))) :
    List (Text × (Json → α → Option α)) :=
  known.map fun (key,take) => (Text.ofString key,take)

/-- Reads an object member by member. A member whose value is null changes nothing, and neither does
one that nobody knows; of members with the same key, each is read in turn. Null reads as an object
without members. -/
def read? {α : Type} (known : List (Text × (Json → α → Option α))) (start : α) :
    Json → Option α
  | .null => some start
  | .object members => members.foldlM (fun found (key,j) => do
      let key ← unescape? key
      match j with
      | .null => some found
      | _ => match known.lookup key with
        | some take => take j found
        | none => if j.isSkippable then some found else none) start
  | _ => none

end WireSchema.Json
