import WireSchema.Schema.Basic
set_option autoImplicit false

namespace WireSchema.Plan

abbrev Member := Text × Text

/-- What has been found out about members so far: the finished enumeration values, and the values
and constants whose evaluation is under way. Whether an evaluation has ever used up its steps is
remembered too; none does. -/
structure Memo where
  done : List (Member × Option UInt64)
  busy : List Member
  exhausted : Bool
  deriving Repr, Inhabited

namespace Memo

def empty : Memo := ⟨[],[],false⟩

def enter (m : Member) (memo : Memo) : Memo := { memo with busy := m :: memo.busy }

def leave (m : Member) (memo : Memo) : Memo := { memo with busy := memo.busy.erase m }

def finish (m : Member) (bits : Option UInt64) (memo : Memo) : Memo :=
  { memo with done := (m,bits) :: memo.done }

def exhaust (memo : Memo) : Memo := { memo with exhausted := true }

end Memo

abbrev Eval := StateM Memo

def term (ask : Member → Eval (Option UInt64)) : Reference → Eval (Option UInt64)
  | .weak name => return (Literal.parse? name).map Literal.value
  | .strong _ none => return none
  | .strong decl (some member) => ask (decl,member)

/-- The bitwise union of terms, known if each of them is. -/
def union (ask : Member → Eval (Option UInt64)) : List Reference → UInt64 → Eval (Option UInt64)
  | [], bits => return some bits
  | first :: rest, bits => do
    match ← term ask first with
    | none => return none
    | some more => union ask rest (bits ||| more)

/-- The number of an expression. One without terms has none. -/
def expression (ask : Member → Eval (Option UInt64)) (terms : List Reference) :
    Eval (Option UInt64) :=
  if terms.isEmpty then return none else union ask terms 0

def predecessor? (name : Text) : List Schema.EnumValue → Option Schema.EnumValue
  | first :: second :: rest =>
    if first.name == name then none
    else if second.name == name then some first
    else predecessor? name (second :: rest)
  | _ => none

/-- The number of a member, found in at most as many nested steps as the fuel says. An enumeration
value without an expression is one more than its predecessor, and the first one is zero; all of them
are cut to the storage of the enumeration. A constant is its expression as it stands. -/
def member (schema : Schema) : Nat → Member → Eval (Option UInt64)
  | 0, _ => do
    modify Memo.exhaust
    return none
  | fuel + 1, (declName,name) =>
    match schema.decl? declName with
    | none => return none
    | some (.enum e) =>
      match e.value? name with
      | none => return none
      | some value => do
        let memo ← get
        match memo.done.lookup (declName,name) with
        | some bits => return bits
        | none =>
          if memo.busy.contains (declName,name) then return none
          set (memo.enter (declName,name))
          let bits ←
            if value.default.isEmpty then
              match predecessor? name e.values with
              | none => pure (some 0)
              | some before => Option.map (· + 1) <$> member schema fuel (declName,before.name)
            else expression (member schema fuel) value.default
          let masked := bits.map e.storage.mask
          modify fun memo => (memo.leave (declName,name)).finish (declName,name) masked
          return masked
    | some (.class c) =>
      match c.property? name with
      | none => return none
      | some property => do
        if property.flag ≠ some .const then return none
        let memo ← get
        if memo.busy.contains (declName,name) then return none
        set (memo.enter (declName,name))
        let bits ← expression (member schema fuel) property.default
        modify (Memo.leave (declName,name))
        return bits

/-- The number of members of all declarations: no chain of references without a repetition is
longer. -/
def memberCount (schema : Schema) : Nat :=
  (schema.decls.map fun
    | .class c => c.properties.length
    | .enum e => e.values.length).foldr (· + ·) 0

def depth (schema : Schema) : Nat := memberCount schema + 1

def value (schema : Schema) (m : Member) : Eval (Option UInt64) := member schema (depth schema) m

def eval (schema : Schema) (terms : List Reference) : Eval (Option UInt64) :=
  expression (value schema) terms

/-- The number of an expression, with nothing found out before. -/
def evalOnce (schema : Schema) (terms : List Reference) : Option UInt64 :=
  (eval schema terms Memo.empty).1

end WireSchema.Plan
