import WireSchema.Text.Basic
set_option autoImplicit false

namespace WireSchema.Text

/-- The rest of a row of distances, from the row above it and the number to its left. -/
def distanceRow (c : UInt8) (left : Nat) : Text → List Nat → List Nat
  | d :: t, diagonal :: above :: row =>
    let here := if c == d then diagonal else min (min left above) diagonal + 1
    here :: distanceRow c here t (above :: row)
  | _, _ => []

def nextRow (t : Text) (row : List Nat) (c : UInt8) : List Nat :=
  let first := row.headD 0 + 1
  first :: distanceRow c first t row

def distance (s t : Text) : Nat :=
  (s.foldl (nextRow t) (List.range (t.length + 1))).getLastD 0

end WireSchema.Text
