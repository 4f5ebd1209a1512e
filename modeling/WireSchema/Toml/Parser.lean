import WireSchema.Toml.Moment
import WireSchema.Toml.Number
import WireSchema.Toml.Quotation
set_option autoImplicit false

namespace WireSchema.Toml

def keyPart? (t : Text) : Option (Text × Text) :=
  match t with
  | [] => none
  | c :: rest =>
    if c == Text.byte '"' || c == Text.byte '\'' then string? c rest
    else
      let name := t.takeWhile isBareKeyByte
      if name.isEmpty then none else some (name,t.dropWhile isBareKeyByte)

def key? : Nat → Text → Option (Key × Text)
  | 0, _ => none
  | fuel + 1, t => do
    let (part,after) ← keyPart? (skipBlanks t)
    match skipBlanks after with
    | [] => return ([part],[])
    | c :: rest =>
      if c == Text.byte '.' then do
        let (parts,after) ← key? fuel rest
        return (part :: parts,after)
      else return ([part],c :: rest)

def isWordByte (c : UInt8) : Bool :=
  Text.isLetter c || Text.isDigit c || (Text.ofString "_+-.:").contains c

def dropBlanksAtEnd (t : Text) : Text := (t.reverse.dropWhile isBlank).reverse

def scalar? (t : Text) : Option (Value × Text) :=
  if t.head? == some (Text.byte '"') || t.head? == some (Text.byte '\'') then
    (quotation? t).map fun (body,after) => (.text body,after)
  else if startsMoment t then
    let word := t.takeWhile isMomentByte
    if isMoment (dropBlanksAtEnd word) then some (.quantity,t.drop word.length) else none
  else
    let word := t.takeWhile isWordByte
    let after := t.drop word.length
    if word == Text.ofString "true" then some (.bool true,after)
    else if word == Text.ofString "false" then some (.bool false,after)
    else if isNumber word then some (.quantity,after)
    else none

mutual

def value? : Nat → Text → Option (Value × Text)
  | 0, _ => none
  | fuel + 1, t =>
    let t := skipBlanks t
    if t.head? == some (Text.byte '[') then
      (items? fuel t.tail).map fun (items,after) => (.array items,after)
    else if t.head? == some (Text.byte '{') then
      (entries? fuel t.tail).map fun (entries,after) => (.table entries,after)
    else scalar? t

/-- The items of a list up to its closing bracket. The last one may have a comma behind it. -/
def items? : Nat → Text → Option (List Value × Text)
  | 0, _ => none
  | fuel + 1, t =>
    let t := skipLines t.length t
    if t.head? == some (Text.byte ']') then some ([],t.tail)
    else do
      let (item,after) ← value? fuel t
      match skipLines after.length after with
      | c :: rest =>
        if c == Text.byte ']' then return ([item],rest)
        else if c == Text.byte ',' then do
          let (items,after) ← items? fuel rest
          return (item :: items,after)
        else none
      | [] => none

/-- The entries of a table up to its closing brace. The last one may have a comma behind it. -/
def entries? : Nat → Text → Option (List (Key × Value) × Text)
  | 0, _ => none
  | fuel + 1, t =>
    let t := skipLines t.length t
    if t.head? == some (Text.byte '}') then some ([],t.tail)
    else do
      let (key,after) ← key? (fuel + 1) t
      if after.head? != some (Text.byte '=') then none
      let (value,after) ← value? fuel after.tail
      match skipLines after.length after with
      | c :: rest =>
        if c == Text.byte '}' then return ([(key,value)],rest)
        else if c == Text.byte ',' then do
          let (entries,after) ← entries? fuel rest
          return ((key,value) :: entries,after)
        else none
      | [] => none

end

def statement? (t : Text) : Option (Statement × Text) :=
  let fuel := 2 * t.length + 2
  let close (brackets : Nat) (make : Key → Statement) : Option (Statement × Text) := do
    let (key,after) ← key? fuel (t.drop brackets)
    if after.take brackets == List.replicate brackets (Text.byte ']') then
      return (make key,← statementEnd? (after.drop brackets))
    else none
  if Text.startsWith t "[[" then close 2 .tableItem
  else if Text.startsWith t "[" then close 1 .table
  else do
    let (key,after) ← key? fuel t
    if after.head? == some (Text.byte '=') then
      let (value,after) ← value? fuel after.tail
      return (.entry key value,← statementEnd? after)
    else none

def statements? : Nat → Text → Option (List Statement)
  | 0, _ => none
  | fuel + 1, t =>
    match skipLines t.length t with
    | [] => some []
    | rest => do
      let (statement,after) ← statement? rest
      return statement :: (← statements? fuel after)

def dropMark (t : Text) : Text :=
  if t.take 2 == [0xff,0xfe] || t.take 2 == [0xfe,0xff] then t.drop 2
  else if t.take 3 == [0xef,0xbb,0xbf] then t.drop 3
  else t

def parse? (t : Text) : Option (List Statement) :=
  let t := dropMark t
  if Text.Utf8.valid t && isClean t then statements? (t.length + 1) t else none

end WireSchema.Toml
