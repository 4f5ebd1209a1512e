import WireSchema.Text.Printable
import WireSchema.Text.Utf8
set_option autoImplicit false

namespace WireSchema.Text.Quoted

def hexDigits (width n : Nat) : Text := padLeft width (byte '0') (digits 16 n)

def short? : Nat → Option Text
  | 7 => some "\\a"
  | 8 => some "\\b"
  | 9 => some "\\t"
  | 10 => some "\\n"
  | 11 => some "\\v"
  | 12 => some "\\f"
  | 13 => some "\\r"
  | 34 => some "\\\""
  | 92 => some "\\\\"
  | _ => none

/-- How one piece of a text is written: a stray byte and an ASCII control by its two hexadecimal
digits, any other code point that is not printable by four or eight of them. -/
def piece : Utf8.Piece × Text → Text
  | (.stray b,_) => "\\x" ++ hexDigits 2 b.toNat
  | (.code point,bytes) =>
    match short? point with
    | some escape => escape
    | none =>
      if Printable.isPrintable point then bytes
      else if point < 0x80 then "\\x" ++ hexDigits 2 point
      else if point < 0x10000 then "\\u" ++ hexDigits 4 point
      else "\\U" ++ hexDigits 8 point

def quote (t : Text) : Text :=
  cat ["\"",((Utf8.pieces t).map piece).flatten,"\""]

end WireSchema.Text.Quoted
