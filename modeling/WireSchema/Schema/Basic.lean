import WireSchema.Schema.Literal
import WireSchema.Schema.Symbol
set_option autoImplicit false

namespace WireSchema

namespace Schema

/-- A property of a class. An array length of zero means that it is no array; the length field is
the sibling that holds the payload's length in bytes, and the other way round. -/
structure Property where
  name : Text
  type : Reference
  flag : Option Flag
  arrayLength : Nat
  lengthField : Option Text
  lengthOf : Option Text
  default : List Reference
  obsolete : Option Marker
  removed : Bool
  deriving DecidableEq, Repr, Inhabited

/-- A value of an enumeration. Without default terms it continues from its predecessor. -/
structure EnumValue where
  name : Text
  default : List Reference
  obsolete : Option Marker
  removed : Bool
  deriving DecidableEq, Repr, Inhabited

structure Class where
  name : Text
  identity : Option Reference
  parent : Option Text
  properties : List Property
  removed : Bool
  deriving DecidableEq, Repr, Inhabited

structure Enum where
  name : Text
  storage : Primitive
  flags : Bool
  values : List EnumValue
  deriving DecidableEq, Repr, Inhabited

inductive Decl where
  | class (c : Class)
  | enum (e : Enum)
  deriving DecidableEq, Repr, Inhabited

def Class.property? (c : Class) (name : Text) : Option Property :=
  c.properties.find? fun p => p.name == name

def Enum.value? (e : Enum) (name : Text) : Option EnumValue :=
  e.values.find? fun v => v.name == name

namespace Decl

def name : Decl → Text
  | .class c => c.name
  | .enum e => e.name

def class? : Decl → Option Class
  | .class c => some c
  | .enum _ => none

def enum? : Decl → Option Enum
  | .class _ => none
  | .enum e => some e

end Decl

end Schema

/-- The declarations in source order, and the path that they were read from. -/
structure Schema where
  sourcePath : Text
  decls : List Schema.Decl
  deriving DecidableEq, Repr, Inhabited

namespace Schema

def decl? (s : Schema) (name : Text) : Option Decl := s.decls.find? fun d => d.name == name

def class? (s : Schema) (name : Text) : Option Class := (s.decl? name).bind Decl.class?

def enum? (s : Schema) (name : Text) : Option Enum := (s.decl? name).bind Decl.enum?

def classes (s : Schema) : List Class := s.decls.filterMap Decl.class?

def enums (s : Schema) : List Enum := s.decls.filterMap Decl.enum?

/-- The storage type that a type name stands for: a built-in type, or that of an enumeration. -/
def storage? (s : Schema) : Reference → Option Primitive
  | .weak name => Primitive.ofName? name
  | .strong decl _ => (s.enum? decl).map Enum.storage

/-- The number of bytes that a property always has, or zero if it has no fixed size. -/
def sizeOf (s : Schema) (p : Property) : Nat :=
  if p.flag = some .proto then 0
  else match s.storage? p.type with
    | none => 0
    | some storage =>
      if 0 < p.arrayLength then storage.size * p.arrayLength
      else if p.lengthField.isSome then 0
      else storage.size

end Schema

end WireSchema
