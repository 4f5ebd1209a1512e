import WireSchema.Text.Basic
set_option autoImplicit false

namespace WireSchema

/-- An account: the account number in bits 0 to 31, the instance in bits 32 to 51, the kind of the
account in bits 52 to 55 and the universe in bits 56 to 63. -/
structure SteamId where
  bits : UInt64
  deriving DecidableEq, Repr, Inhabited

namespace SteamId

def pack (account inst : UInt32) (kind universeId : UInt8) : SteamId where
  bits := account.toUInt64 ||| ((inst &&& 0xfffff).toUInt64 <<< 32) |||
    ((kind &&& 0xf).toUInt64 <<< 52) ||| (universeId.toUInt64 <<< 56)

def account (id : SteamId) : UInt32 := id.bits.toUInt32

def inst (id : SteamId) : UInt32 := (id.bits >>> 32).toUInt32 &&& 0xfffff

def kind (id : SteamId) : UInt8 := (id.bits >>> 52).toUInt8 &&& 0xf

def universeId (id : SteamId) : UInt8 := (id.bits >>> 56).toUInt8

def isValid (id : SteamId) : Bool :=
  id.kind != 0 && id.kind ≤ 10 && id.universeId != 0 && id.universeId ≤ 4

def letter (kind : UInt8) : Text :=
  match kind.toNat with
  | 0 => "I"
  | 1 => "U"
  | 2 => "M"
  | 3 => "G"
  | 4 => "A"
  | 5 => "P"
  | 6 => "C"
  | 7 => "g"
  | 8 => "T"
  | 10 => "a"
  | _ => "i"

def toText (id : SteamId) : Text :=
  Text.cat ["[",letter id.kind,":",Text.ofNat id.universeId.toNat,":",
    Text.ofNat id.account.toNat,"]"]

end SteamId

/-- A game: the application number in bits 0 to 23, the kind of game in bits 24 to 31 and the
modification in bits 32 to 63. -/
structure GameId where
  bits : UInt64
  deriving DecidableEq, Repr, Inhabited

namespace GameId

def pack (app : UInt32) (kind : UInt8) (mod : UInt32) : GameId where
  bits := (app &&& 0xffffff).toUInt64 ||| (kind.toUInt64 <<< 24) ||| (mod.toUInt64 <<< 32)

def app (id : GameId) : UInt32 := id.bits.toUInt32 &&& 0xffffff

def kind (id : GameId) : UInt8 := (id.bits >>> 24).toUInt8

def mod (id : GameId) : UInt32 := (id.bits >>> 32).toUInt32

def toText (id : GameId) : Text := Text.ofNat id.bits.toNat

end GameId

end WireSchema
