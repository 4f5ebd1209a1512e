import WireSchema.Text.Utf8
set_option autoImplicit false

namespace WireSchema.Text

def isSpacePoint (point : Nat) : Bool :=
  (9 ≤ point && point ≤ 13) || point == 0x20 || point == 0x85 || point == 0xa0 ||
    point == 0x1680 || (0x2000 ≤ point && point ≤ 0x200a) || point == 0x2028 ||
    point == 0x2029 || point == 0x202f || point == 0x205f || point == 0x3000

def isSpacePiece : Utf8.Piece → Bool
  | .code point => isSpacePoint point
  | .stray _ => false

def dropSpace (pieces : List (Utf8.Piece × Text)) : List (Utf8.Piece × Text) :=
  pieces.dropWhile fun p => isSpacePiece p.1

def trimEnd (t : Text) : Text := (dropSpace (Utf8.pieces t).reverse).reverse.flatMap Prod.snd

def trim (t : Text) : Text := trimEnd ((dropSpace (Utf8.pieces t)).flatMap Prod.snd)

def withoutSpace (t : Text) : Text :=
  ((Utf8.pieces t).filter fun (piece,_) => !isSpacePiece piece).flatMap Prod.snd

end WireSchema.Text
