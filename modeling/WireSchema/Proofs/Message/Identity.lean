import WireSchema.Message.Identity
import Mathlib.Data.Nat.Bitwise
import Mathlib.Logic.Function.Basic
set_option autoImplicit false

namespace WireSchema

namespace Word

theorem toNat_or_shift {low high : UInt64} {m n k : Nat} (hk : k < 64)
    (hlow : low.toNat = m) (hhigh : high.toNat = n) (hm : m < 2 ^ k) (hn : n * 2 ^ k < 2 ^ 64) :
    (low ||| high <<< UInt64.ofNat k).toNat = m + n * 2 ^ k := by
  have hshift : (UInt64.ofNat k).toNat % 64 = k := by
    rw [UInt64.toNat_ofNat']
    omega
  have hshifted : (high <<< UInt64.ofNat k).toNat = 2 ^ k * n := by
    rw [UInt64.toNat_shiftLeft,hshift,hhigh,Nat.shiftLeft_eq,Nat.mod_eq_of_lt hn,Nat.mul_comm]
  rw [UInt64.toNat_or,hshifted,hlow,Nat.or_comm,← Nat.two_pow_add_eq_or_of_lt hm,
    Nat.mul_comm n,Nat.add_comm]

theorem toNat_shift {bits shift : UInt64} (k : Nat) (hshift : shift.toNat % 64 = k) :
    (bits >>> shift).toNat = bits.toNat / 2 ^ k := by
  rw [UInt64.toNat_shiftRight,hshift,Nat.shiftRight_eq_div_pow]

end Word

namespace SteamId

theorem toNat_low20 (inst : UInt32) : (inst &&& 0xfffff).toNat = inst.toNat % 2 ^ 20 :=
  Nat.and_two_pow_sub_one_eq_mod inst.toNat 20

theorem toNat_low4 (kind : UInt8) : (kind &&& 0xf).toNat = kind.toNat % 2 ^ 4 :=
  Nat.and_two_pow_sub_one_eq_mod kind.toNat 4

theorem toNat_account (id : SteamId) : id.account.toNat = id.bits.toNat % 2 ^ 32 :=
  UInt64.toNat_toUInt32 id.bits

theorem toNat_inst (id : SteamId) : id.inst.toNat = id.bits.toNat / 2 ^ 32 % 2 ^ 20 := by
  rw [inst,toNat_low20,UInt64.toNat_toUInt32,Word.toNat_shift 32 rfl]
  omega

theorem toNat_kind (id : SteamId) : id.kind.toNat = id.bits.toNat / 2 ^ 52 % 2 ^ 4 := by
  rw [kind,toNat_low4,UInt64.toNat_toUInt8,Word.toNat_shift 52 rfl]
  omega

theorem toNat_universeId (id : SteamId) : id.universeId.toNat = id.bits.toNat / 2 ^ 56 := by
  have hbits : id.bits.toNat < 2 ^ 64 := id.bits.toNat_lt
  rw [universeId,UInt64.toNat_toUInt8,Word.toNat_shift 56 rfl]
  omega

theorem toNat_pack (account inst : UInt32) (kind universeId : UInt8) :
    (pack account inst kind universeId).bits.toNat = account.toNat +
      inst.toNat % 2 ^ 20 * 2 ^ 32 + kind.toNat % 2 ^ 4 * 2 ^ 52 + universeId.toNat * 2 ^ 56 := by
  have haccount : account.toNat < 2 ^ 32 := account.toNat_lt
  have huniverse : universeId.toNat < 2 ^ 8 := universeId.toNat_lt
  have hinst := (UInt32.toNat_toUInt64 (inst &&& 0xfffff)).trans (toNat_low20 inst)
  have hkind := (UInt8.toNat_toUInt64 (kind &&& 0xf)).trans (toNat_low4 kind)
  have h32 := Word.toNat_or_shift (by decide : 32 < 64) (UInt32.toNat_toUInt64 account) hinst
    haccount (by omega)
  have h52 := Word.toNat_or_shift (by decide : 52 < 64) h32 hkind (by omega) (by omega)
  have h56 := Word.toNat_or_shift (by decide : 56 < 64) h52 (UInt8.toNat_toUInt64 universeId)
    (by omega) (by omega)
  -- The literal shifts of `pack` are these numbers as words.
  exact h56

example : (pack 22202 1 1 1).bits = 76561197960287930 := by decide

theorem pack_parts (id : SteamId) : pack id.account id.inst id.kind id.universeId = id := by
  have hbits : (pack id.account id.inst id.kind id.universeId).bits.toNat = id.bits.toNat := by
    rw [toNat_pack,toNat_account,toNat_inst,toNat_kind,toNat_universeId]
    omega
  exact congrArg mk (UInt64.toNat_inj.mp hbits)

section Packed

variable (account inst : UInt32) (kind universeId : UInt8)

theorem account_pack : (pack account inst kind universeId).account = account := by
  have haccount : account.toNat < 2 ^ 32 := account.toNat_lt
  refine UInt32.toNat_inj.mp ?_
  rw [toNat_account,toNat_pack]
  omega

theorem inst_pack : (pack account inst kind universeId).inst.toNat = inst.toNat % 2 ^ 20 := by
  have haccount : account.toNat < 2 ^ 32 := account.toNat_lt
  rw [toNat_inst,toNat_pack]
  omega

theorem kind_pack : (pack account inst kind universeId).kind.toNat = kind.toNat % 2 ^ 4 := by
  have haccount : account.toNat < 2 ^ 32 := account.toNat_lt
  rw [toNat_kind,toNat_pack]
  omega

theorem universeId_pack : (pack account inst kind universeId).universeId = universeId := by
  have haccount : account.toNat < 2 ^ 32 := account.toNat_lt
  refine UInt8.toNat_inj.mp ?_
  rw [toNat_universeId,toNat_pack]
  omega

end Packed

@[ext]
structure Parts where
  account : UInt32
  inst : UInt32
  kind : UInt8
  universeId : UInt8
  inst_lt : inst.toNat < 2 ^ 20
  kind_lt : kind.toNat < 2 ^ 4

def ofParts (p : Parts) : SteamId := pack p.account p.inst p.kind p.universeId

def parts (id : SteamId) : Parts where
  account := id.account
  inst := id.inst
  kind := id.kind
  universeId := id.universeId
  inst_lt := (toNat_inst id).trans_lt (Nat.mod_lt _ (by decide))
  kind_lt := (toNat_kind id).trans_lt (Nat.mod_lt _ (by decide))

theorem parts_ofParts (p : Parts) : (ofParts p).parts = p := by
  have hinst := (inst_pack p.account p.inst p.kind p.universeId).trans (Nat.mod_eq_of_lt p.inst_lt)
  have hkind := (kind_pack p.account p.inst p.kind p.universeId).trans (Nat.mod_eq_of_lt p.kind_lt)
  ext1
  · exact account_pack _ _ _ _
  · exact UInt32.toNat_inj.mp hinst
  · exact UInt8.toNat_inj.mp hkind
  · exact universeId_pack _ _ _ _

theorem ofParts_bijective : Function.Bijective ofParts :=
  Function.bijective_iff_has_inverse.mpr ⟨parts,parts_ofParts,pack_parts⟩

end SteamId

namespace GameId

theorem toNat_low24 (app : UInt32) : (app &&& 0xffffff).toNat = app.toNat % 2 ^ 24 :=
  Nat.and_two_pow_sub_one_eq_mod app.toNat 24

theorem toNat_app (id : GameId) : id.app.toNat = id.bits.toNat % 2 ^ 24 := by
  rw [app,toNat_low24,UInt64.toNat_toUInt32]
  omega

theorem toNat_kind (id : GameId) : id.kind.toNat = id.bits.toNat / 2 ^ 24 % 2 ^ 8 := by
  rw [kind,UInt64.toNat_toUInt8,Word.toNat_shift 24 rfl]

theorem toNat_mod (id : GameId) : id.mod.toNat = id.bits.toNat / 2 ^ 32 := by
  have hbits : id.bits.toNat < 2 ^ 64 := id.bits.toNat_lt
  rw [mod,UInt64.toNat_toUInt32,Word.toNat_shift 32 rfl]
  omega

theorem toNat_pack (app : UInt32) (kind : UInt8) (mod : UInt32) :
    (pack app kind mod).bits.toNat =
      app.toNat % 2 ^ 24 + kind.toNat * 2 ^ 24 + mod.toNat * 2 ^ 32 := by
  have hkind : kind.toNat < 2 ^ 8 := kind.toNat_lt
  have hmod : mod.toNat < 2 ^ 32 := mod.toNat_lt
  have happ := (UInt32.toNat_toUInt64 (app &&& 0xffffff)).trans (toNat_low24 app)
  have h24 := Word.toNat_or_shift (by decide : 24 < 64) happ (UInt8.toNat_toUInt64 kind)
    (by omega) (by omega)
  have h32 := Word.toNat_or_shift (by decide : 32 < 64) h24 (UInt32.toNat_toUInt64 mod)
    (by omega) (by omega)
  exact h32

theorem pack_parts (id : GameId) : pack id.app id.kind id.mod = id := by
  have hbits : (pack id.app id.kind id.mod).bits.toNat = id.bits.toNat := by
    rw [toNat_pack,toNat_app,toNat_kind,toNat_mod]
    omega
  exact congrArg mk (UInt64.toNat_inj.mp hbits)

section Packed

variable (app : UInt32) (kind : UInt8) (mod : UInt32)

theorem app_pack : (pack app kind mod).app.toNat = app.toNat % 2 ^ 24 := by
  rw [toNat_app,toNat_pack]
  omega

theorem kind_pack : (pack app kind mod).kind = kind := by
  have hkind : kind.toNat < 2 ^ 8 := kind.toNat_lt
  refine UInt8.toNat_inj.mp ?_
  rw [toNat_kind,toNat_pack]
  omega

theorem mod_pack : (pack app kind mod).mod = mod := by
  have hkind : kind.toNat < 2 ^ 8 := kind.toNat_lt
  refine UInt32.toNat_inj.mp ?_
  rw [toNat_mod,toNat_pack]
  omega

end Packed

@[ext]
structure Parts where
  app : UInt32
  kind : UInt8
  mod : UInt32
  app_lt : app.toNat < 2 ^ 24

def ofParts (p : Parts) : GameId := pack p.app p.kind p.mod

def parts (id : GameId) : Parts where
  app := id.app
  kind := id.kind
  mod := id.mod
  app_lt := (toNat_app id).trans_lt (Nat.mod_lt _ (by decide))

theorem parts_ofParts (p : Parts) : (ofParts p).parts = p := by
  have happ := (app_pack p.app p.kind p.mod).trans (Nat.mod_eq_of_lt p.app_lt)
  ext1
  · exact UInt32.toNat_inj.mp happ
  · exact kind_pack _ _ _
  · exact mod_pack _ _ _

theorem ofParts_bijective : Function.Bijective ofParts :=
  Function.bijective_iff_has_inverse.mpr ⟨parts,parts_ofParts,pack_parts⟩

end GameId

/-- Identifiers and parts within their widths stand for each other one to one. Packing takes what
does not fit off the instance and the kind of an account and off the number of an application, and
every part is read back as it was packed, whatever the others are. -/
theorem pack_bijective :
    (Function.Bijective SteamId.ofParts ∧
      (∀ id : SteamId, SteamId.pack id.account id.inst id.kind id.universeId = id) ∧
      ∀ account inst kind universeId,
        (SteamId.pack account inst kind universeId).account = account ∧
        (SteamId.pack account inst kind universeId).inst.toNat = inst.toNat % 2 ^ 20 ∧
        (SteamId.pack account inst kind universeId).kind.toNat = kind.toNat % 2 ^ 4 ∧
        (SteamId.pack account inst kind universeId).universeId = universeId) ∧
    Function.Bijective GameId.ofParts ∧
      (∀ id : GameId, GameId.pack id.app id.kind id.mod = id) ∧
      ∀ app kind mod,
        (GameId.pack app kind mod).app.toNat = app.toNat % 2 ^ 24 ∧
        (GameId.pack app kind mod).kind = kind ∧ (GameId.pack app kind mod).mod = mod := by
  refine ⟨⟨SteamId.ofParts_bijective,SteamId.pack_parts,?_⟩,
    GameId.ofParts_bijective,GameId.pack_parts,?_⟩
  · intro account inst kind universeId
    exact ⟨SteamId.account_pack _ _ _ _,SteamId.inst_pack _ _ _ _,SteamId.kind_pack _ _ _ _,
      SteamId.universeId_pack _ _ _ _⟩
  · intro app kind mod
    exact ⟨GameId.app_pack _ _ _,GameId.kind_pack _ _ _,GameId.mod_pack _ _ _⟩

end WireSchema
