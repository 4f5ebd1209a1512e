import WireSchema.Token.Basic
set_option autoImplicit false

namespace WireSchema

inductive Flag where
  | const
  | proto
  | steamId
  | gameId
  | bool
  | protoMask
  | protoMaskGc
  deriving DecidableEq, Repr, Inhabited

namespace Flag

def all : List Flag := [.const,.proto,.steamId,.gameId,.bool,.protoMask,.protoMaskGc]

def word : Flag → Text
  | .const => "const"
  | .proto => "proto"
  | .steamId => "steamidmarshal"
  | .gameId => "gameidmarshal"
  | .bool => "boolmarshal"
  | .protoMask => "protomask"
  | .protoMaskGc => "protomaskgc"

def ofWord? (w : Text) : Option Flag := all.find? fun flag => flag.word == w

def wordOf : Option Flag → Text
  | none => []
  | some flag => flag.word

def nameOfCode (code : UInt8) : Text :=
  if code = 0 then []
  else match all[code.toNat - 1]? with
    | some flag => flag.word
    | none => Text.cat ["PropFlag(",Text.ofNat code.toNat,")"]

theorem ofWord?_word (flag : Flag) : ofWord? flag.word = some flag := by
  cases flag <;> rfl

end Flag

structure Ident where
  text : Text
  start : UInt32
  deriving DecidableEq, Repr, Inhabited

def Ident.span (i : Ident) : Span := .ofText i.start i.text

structure Marker where
  span : Span
  message : Text
  deriving DecidableEq, Repr, Inhabited

structure Directive where
  span : Span
  name : Text
  argument : Option Text
  deriving DecidableEq, Repr, Inhabited

namespace Document

/-- A property of a class. The option is the text in angle brackets: an array length or the name of
the sibling that holds the payload's length. -/
structure Property where
  span : Span
  name : Ident
  type : Ident
  flag : Option Flag
  option : Option Ident
  defaults : List Ident
  obsolete : Option Marker
  removed : Option Marker
  deriving DecidableEq, Repr, Inhabited

/-- A value of an enumeration. Without default terms it continues from its predecessor. -/
structure EnumValue where
  span : Span
  name : Ident
  defaults : List Ident
  obsolete : Option Marker
  removed : Option Marker
  deriving DecidableEq, Repr, Inhabited

/-- A class. The identity is the message tag; the parent is the header that is written first. -/
structure Class where
  span : Span
  name : Ident
  identity : Option Ident
  parent : Option Ident
  removed : Option Marker
  properties : List Property
  deriving DecidableEq, Repr, Inhabited

structure Enum where
  span : Span
  name : Ident
  storage : Option Ident
  flags : Bool
  values : List EnumValue
  deriving DecidableEq, Repr, Inhabited

inductive Decl where
  | class (c : Class)
  | enum (e : Enum)
  deriving DecidableEq, Repr, Inhabited

def Class.property? (c : Class) (name : Text) : Option Property :=
  c.properties.find? fun p => p.name.text == name

def Enum.value? (e : Enum) (name : Text) : Option EnumValue :=
  e.values.find? fun v => v.name.text == name

/-- What stands in a declaration. -/
inductive MemberNode where
  | property (p : Property)
  | value (v : EnumValue)
  deriving DecidableEq, Repr, Inhabited

def MemberNode.name : MemberNode → Ident
  | .property p => p.name
  | .value v => v.name

namespace Decl

def name : Decl → Ident
  | .class c => c.name
  | .enum e => e.name

def span : Decl → Span
  | .class c => c.span
  | .enum e => e.span

def class? : Decl → Option Class
  | .class c => some c
  | .enum _ => none

def enum? : Decl → Option Enum
  | .class _ => none
  | .enum e => some e

def memberNodes : Decl → List MemberNode
  | .class c => c.properties.map .property
  | .enum e => e.values.map .value

def member? (d : Decl) (name : Text) : Option MemberNode :=
  d.memberNodes.find? fun m => m.name.text == name

end Decl

end Document

structure Document where
  span : Span
  directives : List Directive
  decls : List Document.Decl
  deriving DecidableEq, Repr, Inhabited

namespace Document

def decl? (d : Document) (name : Text) : Option Decl :=
  d.decls.find? fun decl => decl.name.text == name

def classes (d : Document) : List Class := d.decls.filterMap Decl.class?

def enums (d : Document) : List Enum := d.decls.filterMap Decl.enum?

/-- The declarations of several documents in order. Directives are dropped, and the span is that of
the last document. -/
def merge (docs : List Document) : Document where
  span := match docs.getLast? with
    | some last => last.span
    | none => ⟨0,0⟩
  directives := []
  decls := docs.flatMap decls

end Document

end WireSchema
