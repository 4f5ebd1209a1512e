set_option autoImplicit false

namespace WireSchema

/-- A run of bytes, not necessarily valid in any encoding. -/
abbrev Text := List UInt8

namespace Text

def ofString (s : String) : Text := s.toUTF8.data.toList

instance : Coe String Text := ⟨ofString⟩

def cat (pieces : List Text) : Text := pieces.flatten

@[simp] theorem cat_nil : cat [] = [] := rfl

@[simp] theorem cat_cons (t : Text) (ts : List Text) : cat (t :: ts) = t ++ cat ts := rfl

def byte (c : Char) : UInt8 := c.toNat.toUInt8

def newline : UInt8 := 10

def digits (base n : Nat) : Text := (Nat.toDigits base n).map byte

def ofNat (n : Nat) : Text := digits 10 n

def ofInt (n : Int) : Text :=
  if n < 0 then byte '-' :: ofNat n.natAbs else ofNat n.natAbs

def padLeft (width : Nat) (filler : UInt8) (t : Text) : Text :=
  List.replicate (width - t.length) filler ++ t

def padRight (width : Nat) (t : Text) : Text :=
  t ++ List.replicate (width - t.length) (byte ' ')

def join (sep : Text) : List Text → Text
  | [] => []
  | [t] => t
  | t :: ts => t ++ sep ++ join sep ts

/-- The pieces between the occurrences of a separating byte. There is always at least one. -/
def splitOn (sep : UInt8) : Text → List Text
  | [] => [[]]
  | c :: rest =>
    if c == sep then [] :: splitOn sep rest
    else match splitOn sep rest with
      | [] => [[c]]
      | piece :: pieces => (c :: piece) :: pieces

def startsWith (t head : Text) : Bool := head.isPrefixOf t

def endsWith (t tail : Text) : Bool := tail.isSuffixOf t

def cut? (sep : Text) : Text → Option (Text × Text)
  | [] => if sep.isEmpty then some ([],[]) else none
  | c :: rest =>
    if sep.isPrefixOf (c :: rest) then some ([],(c :: rest).drop sep.length)
    else (cut? sep rest).map fun (before,after) => (c :: before,after)

def occurs (piece t : Text) : Bool := (cut? piece t).isSome

def before : Text → Text → Bool
  | _, [] => false
  | [], _ :: _ => true
  | a :: as, b :: bs => a < b || (a == b && before as bs)

/-- Insertion into a list sorted by a key, in front of the entries whose key is not smaller. -/
def insertBy {α : Type} (key : α → Text) (x : α) : List α → List α
  | [] => [x]
  | y :: ys => if before (key y) (key x) then y :: insertBy key x ys else x :: y :: ys

/-- Sorting by bytewise order of a key; equal keys keep their order. -/
def sortBy {α : Type} (key : α → Text) (xs : List α) : List α :=
  xs.foldr (insertBy key) []

def isUpper (c : UInt8) : Bool := byte 'A' ≤ c && c ≤ byte 'Z'

def isLower (c : UInt8) : Bool := byte 'a' ≤ c && c ≤ byte 'z'

def isLetter (c : UInt8) : Bool := isLower c || isUpper c

def isDigit (c : UInt8) : Bool := byte '0' ≤ c && c ≤ byte '9'

def upper (c : UInt8) : UInt8 := if isLower c then c - 32 else c

def lower (c : UInt8) : UInt8 := if isUpper c then c + 32 else c

def digitValue? (c : UInt8) : Option Nat :=
  if isDigit c then some (c.toNat - 48)
  else if byte 'a' ≤ c && c ≤ byte 'f' then some (c.toNat - 87)
  else if byte 'A' ≤ c && c ≤ byte 'F' then some (c.toNat - 55)
  else none

def natIn? (base : Nat) (t : Text) : Option Nat :=
  if t.isEmpty then none
  else t.foldl (fun acc c => do
    let n ← acc
    let d ← digitValue? c
    if d < base then some (n * base + d) else none) (some 0)

end Text

/-- Lines of text, none of which holds its line end. -/
abbrev Lines := List Text

namespace Lines

def cat (groups : List Lines) : Lines := groups.flatten

def text (lines : Lines) : Text := lines.flatMap fun l => l ++ [Text.newline]

end Lines

end WireSchema
