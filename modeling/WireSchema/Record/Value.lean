import WireSchema.Message.Identity
import WireSchema.Message.Payload
import WireSchema.Record.External
set_option autoImplicit false

namespace WireSchema

mutual

inductive Value where
  | nil
  | word (bits : UInt64)
  | int (n : Int64)
  | number (type : Payload.Number) (n : Int)
  | bool (b : Bool)
  /-- A fraction, kept as it is shown. -/
  | fraction (shown : Text)
  | text (t : Text)
  | steamId (id : SteamId)
  | gameId (id : GameId)
  | bytes (t : Text)
  | words (bits : List UInt64)
  | ints (ns : List Int64)
  | numbers (type : Payload.Number) (ns : List Int)
  | list (values : List Value)
  | record (r : Option Record)
  | external (m : External)

/-- The values of a class, in the order of their names, with the record of its header. -/
inductive Record where
  | mk (className : Text) (header : Option Record) (fields : List (Text × Value))

end

instance : Inhabited Value := ⟨.nil⟩

instance : Inhabited Record := ⟨.mk [] none []⟩

/-- Values by name, each name once and in order. -/
abbrev Fields := List (Text × Value)

namespace Fields

def get? : Fields → Text → Option Value
  | [], _ => none
  | (other,value) :: rest, name => if name = other then some value else get? rest name

def set (name : Text) (value : Value) : Fields → Fields
  | [] => [(name,value)]
  | (other,old) :: rest =>
    if name = other then (name,value) :: rest
    else if Text.before name other then (name,value) :: (other,old) :: rest
    else (other,old) :: set name value rest

def unset (name : Text) (fields : Fields) : Fields := fields.filter fun entry => entry.1 != name

theorem get?_set (fields : Fields) (name other : Text) (value : Value) :
    (set name value fields).get? other =
      if other = name then some value else fields.get? other := by
  induction fields with
  | nil => rfl
  | cons entry rest ih =>
    obtain ⟨key,old⟩ := entry
    grind [set,get?]

end Fields

namespace Record

def className : Record → Text
  | .mk className _ _ => className

def header : Record → Option Record
  | .mk _ header _ => header

def fields : Record → Fields
  | .mk _ _ fields => fields

def withFields (fields : Fields) : Record → Record
  | .mk className header _ => .mk className header fields

def withHeader (header : Option Record) : Record → Record
  | .mk className _ fields => .mk className header fields

@[simp] theorem fields_mk (c : Text) (h : Option Record) (f : Fields) : (mk c h f).fields = f := rfl

@[simp] theorem header_mk (c : Text) (h : Option Record) (f : Fields) : (mk c h f).header = h := rfl

@[simp] theorem className_mk (c : Text) (h : Option Record) (f : Fields) :
    (mk c h f).className = c := rfl

@[simp] theorem fields_withFields (r : Record) (fields : Fields) :
    (r.withFields fields).fields = fields := by
  cases r
  rfl

@[simp] theorem header_withFields (r : Record) (fields : Fields) :
    (r.withFields fields).header = r.header := by
  cases r
  rfl

@[simp] theorem fields_withHeader (r : Record) (header : Option Record) :
    (r.withHeader header).fields = r.fields := by
  cases r
  rfl

@[simp] theorem header_withHeader (r : Record) (header : Option Record) :
    (r.withHeader header).header = header := by
  cases r
  rfl

@[simp] theorem className_withHeader (r : Record) (header : Option Record) :
    (r.withHeader header).className = r.className := by
  cases r
  rfl

/-- The value of a name in a record, or else in the headers in front of it. -/
def get? : Record → Text → Option Value
  | .mk _ header fields, name =>
    match Fields.get? fields name with
    | some value => some value
    | none => match header with
      | some h => h.get? name
      | none => none

end Record

namespace Value

def typeName : Value → Text
  | .nil => "<nil>"
  | .word _ => "uint64"
  | .int _ => "int64"
  | .number type _ => type.name
  | .bool _ => "bool"
  | .fraction _ => "float64"
  | .text _ => "string"
  | .steamId _ => "steamd.SteamID"
  | .gameId _ => "steamd.GameID"
  | .bytes _ => "[]uint8"
  | .words _ => "[]uint64"
  | .ints _ => "[]int64"
  | .numbers type _ => "[]" ++ type.name
  | .list _ => "[]interface \x7b\x7d"
  | .record _ => "*wire.Record"
  | .external m => m.typeName

def bracketed (shown : List Text) : Text := Text.cat ["[",Text.join " " shown,"]"]

mutual

def shown : Value → Text
  | .nil => "<nil>"
  | .word bits => Text.ofNat bits.toNat
  | .int n => Text.ofInt n.toInt
  | .number _ n => Text.ofInt n
  | .bool b => if b then "true" else "false"
  | .fraction shown => shown
  | .text t => t
  | .steamId id => id.toText
  | .gameId id => id.toText
  | .bytes t => bracketed (t.map fun b => Text.ofNat b.toNat)
  | .words bits => bracketed (bits.map fun b => Text.ofNat b.toNat)
  | .ints ns => bracketed (ns.map fun n => Text.ofInt n.toInt)
  | .numbers _ ns => bracketed (ns.map Text.ofInt)
  | .list values => bracketed (shownAll values)
  | .record none => "<nil>"
  | .record (some (.mk className _ fields)) =>
    Text.cat ["&\x7b",className," <nil> map[",Text.join " " (shownFields fields),"]\x7d"]
  | .external m => m.shown

def shownAll : List Value → List Text
  | [] => []
  | v :: rest => v.shown :: shownAll rest

def shownFields : List (Text × Value) → List Text
  | [] => []
  | (name,v) :: rest => Text.cat [name,":",v.shown] :: shownFields rest

end

end Value

mutual

def Value.depth : Value → Nat
  | .list values => Value.depthAll values
  | .record (some r) => r.depth
  | _ => 0

def Value.depthAll : List Value → Nat
  | [] => 0
  | v :: rest => max v.depth (Value.depthAll rest)

def Record.depth : Record → Nat
  | .mk _ none fields => Record.depthFields fields + 1
  | .mk _ (some h) fields => max h.depth (Record.depthFields fields) + 1

def Record.depthFields : List (Text × Value) → Nat
  | [] => 0
  | (_,v) :: rest => max v.depth (Record.depthFields rest)

end

end WireSchema
