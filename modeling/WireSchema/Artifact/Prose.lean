import WireSchema.Text.Letter
import WireSchema.Text.Utf8
set_option autoImplicit false

namespace WireSchema.Artifact.Prose

/-- Whether a code point is a letter or a digit of ASCII, or one of some other characters. -/
def isPlainOr (others : Text) (point : Nat) : Bool :=
  point < 128 && (Text.isLetter point.toUInt8 || Text.isDigit point.toUInt8 ||
    others.contains point.toUInt8)

def isHost : Nat → Bool := isPlainOr "_@-.[]:"

def isMark (point : Nat) : Bool := point < 128 && (Text.ofString ".,:;?!").contains point.toUInt8

def isPath : Nat → Bool := isPlainOr "/$'()*+&#=@~_[]\x7b\x7d%-"

def schemes : List Text := ["file","ftp","gopher","http","https","mailto","nntp"]

/-- The length of the path at the start of some text. Brackets in it come in pairs; it ends outside
of them, and not with a mark. -/
def pathLength (length : Nat) (walked : Nat) (pending : List Nat) : List Nat → Nat
  | [] => length
  | c :: rest =>
    if isMark c then pathLength length (walked + 1) pending rest
    else if !isPath c then length
    else
      let closing : Option Nat :=
        if c = 40 then some 41
        else if c = 91 then some 93
        else if c = 123 then some 125
        else none
      let isClosing := c = 41 || c = 93 || c = 125
      if isClosing && pending.head? != some c then length
      else
        let pending := match closing with
          | some close => close :: pending
          | none => if isClosing then pending.tail else pending
        pathLength (if pending.isEmpty then walked + 1 else length) (walked + 1) pending rest

/-- The length of the host at the start of some text, which has no marks at its ends. -/
def hostLength (t : List Nat) : Nat :=
  if t.head?.any isMark then 0
  else ((t.takeWhile isHost).reverse.dropWhile isMark).length

def addressLength (t : List Nat) : Nat :=
  let scheme := t.takeWhile (isPlainOr [])
  let named := schemes.any fun name => name.map UInt8.toNat == scheme
  let rest := t.drop scheme.length
  if !named || rest.take 3 != [58,47,47] then 0
  else
    let host := hostLength (rest.drop 3)
    if host = 0 then 0
    else scheme.length + 3 + host + pathLength 0 0 [] (rest.drop (3 + host))

/-- The length of the word at the start of some text: letters, underscores and, not in front,
digits of ASCII. -/
def wordLength (t : List Nat) : Nat :=
  let isDigit (c : Nat) : Bool := 48 ≤ c && c ≤ 57
  if t.head?.any isDigit then 0
  else (t.takeWhile fun c => c == 95 || isDigit c || Text.Letter.isLetter c).length

/-- Text with the marks of print around its quotations. Three backquotes or more are no mark. -/
def quotationMarks : Nat → List Nat → List Nat
  | 0, t => t
  | _, [] => []
  | fuel + 1, c :: rest =>
    let t := c :: rest
    let kept := max (addressLength t) (wordLength t)
    let backquotes := (t.takeWhile (· == 96)).length
    if 0 < kept then t.take kept ++ quotationMarks fuel (t.drop kept)
    else if 3 ≤ backquotes then t.take backquotes ++ quotationMarks fuel (t.drop backquotes)
    else if backquotes = 2 then 0x201c :: quotationMarks fuel (t.drop 2)
    else if t.take 2 == [39,39] then 0x201d :: quotationMarks fuel (t.drop 2)
    else c :: quotationMarks fuel rest

def usual (t : Text) : Text :=
  let points := Text.Utf8.points t
  (quotationMarks points.length points).flatMap Text.Utf8.encode

end WireSchema.Artifact.Prose
