import WireSchema.Document.Basic
set_option autoImplicit false

/-!
What a name in a schema refers to. A scoped name must bind to a declaration and one of its members;
an unscoped one that binds to nothing is left to be read as a built-in type or a literal.
-/

namespace WireSchema

/-- A resolved name: one that binds to nothing, or a declaration with possibly a member of it. -/
inductive Symbol where
  | weak (name : Text)
  | strong (decl : Document.Decl) (member : Option Document.MemberNode)
  deriving DecidableEq, Repr, Inhabited

/-- What a schema keeps of a symbol: the names of what it binds to. -/
inductive Reference where
  | weak (name : Text)
  | strong (decl : Text) (member : Option Text)
  deriving DecidableEq, Repr, Inhabited

def Symbol.scopeMark : Text := "::"

namespace Reference

def identifier : Reference → Text
  | .weak name => name
  | .strong decl none => decl
  | .strong decl (some member) => Text.cat [decl,Symbol.scopeMark,member]

end Reference

namespace Symbol

/-- The text that resolves to a symbol, put together from the names of what it binds to. -/
def identifier : Symbol → Text
  | .weak name => name
  | .strong decl none => decl.name.text
  | .strong decl (some member) => Text.cat [decl.name.text,scopeMark,member.name.text]

def reference : Symbol → Reference
  | .weak name => .weak name
  | .strong decl member => .strong decl.name.text (member.map (·.name.text))

inductive Fault where
  | unresolved (identifier : Text)
  | unknownScope (identifier scope : Text)
  | unknownMember (identifier scope member : Text)
  | malformed (identifier : Text)
  deriving DecidableEq, Repr

namespace Fault

def code : Fault → Nat
  | .unresolved .. => 3000
  | .unknownScope .. => 3001
  | .unknownMember .. => 3002
  | .malformed .. => 3100

def reason : Fault → Text
  | .unresolved identifier => Text.cat ["Unresolvable strong symbol '",identifier,"'"]
  | .unknownScope identifier scope =>
    Text.cat ["Unknown declaration '",scope,"' in identifier '",identifier,"'"]
  | .unknownMember identifier scope member =>
    Text.cat ["Declaration '",scope,"' has no member '",member,"' (in identifier '",
      identifier,"')"]
  | .malformed identifier => Text.cat ["Malformed identifier ",Text.Quoted.quote identifier]

end Fault

def isWordChar (c : UInt8) : Bool := Text.isLetter c || Text.isDigit c || c == Text.byte '_'

/-- A word character, then word characters and dots. -/
def isDotted : Text → Bool
  | [] => false
  | c :: rest => isWordChar c && rest.all fun d => isWordChar d || d == Text.byte '.'

/-- Whether a text has the form of a name: two runs of word characters around the first scope mark,
or a dotted word behind at most one minus sign. -/
def wellFormed (identifier : Text) : Bool :=
  match Text.cut? scopeMark identifier with
  | some (scope,member) => scope.all isWordChar && member.all isWordChar
  | none =>
    match identifier with
    | 45 :: body => isDotted body
    | body => isDotted body

/-- What a name refers to in a document. With `strongOnly` it has to bind. -/
def resolve (doc : Document) (strongOnly : Bool) (identifier : Text) : Except Fault Symbol :=
  if !wellFormed identifier then .error (.malformed identifier)
  else match Text.cut? scopeMark identifier with
    | none => match doc.decl? identifier with
      | some decl => .ok (.strong decl none)
      | none => if strongOnly then .error (.unresolved identifier) else .ok (.weak identifier)
    | some (scope,member) => match doc.decl? scope with
      | none => .error (.unknownScope identifier scope)
      | some decl => match decl.member? member with
        | none => .error (.unknownMember identifier scope member)
        | some found => .ok (.strong decl (some found))

end Symbol

end WireSchema
