import WireSchema.Document.Basic
import WireSchema.Document.Error
import WireSchema.Token.Lexer
set_option autoImplicit false

namespace WireSchema.Document

abbrev Parser := StateT (List Token) (Except Fault)

/-- Where the reading stands: the token that the end of the list counts as, and the name of the
declaration being read, empty outside of one. -/
structure Place where
  stop : Token
  decl : Text

namespace Parser

/-- The next token, which stays in the list. A token that no lexeme explains is a fault before any
decision is made on it. -/
def peek (place : Place) : Parser Token := do
  let token := (← get).head?.getD place.stop
  if token.kind = .invalid then throw (.unrecognized token place.decl)
  return token

def accept? (place : Place) (fits : Token → Bool) : Parser (Option Token) := do
  let token ← peek place
  if fits token then
    modify List.tail
    return some token
  else return none

def expect (place : Place) (what : Text) (fits : Token → Bool) : Parser Token := do
  match ← accept? place fits with
  | some token => return token
  | none => throw (.unexpected what (← peek place) place.decl)

def operator? (place : Place) (op : Text) : Parser Bool := do
  return (← accept? place (Token.isOperator op)).isSome

def operator (place : Place) (op : Text) : Parser Token :=
  expect place (Text.cat ["'",op,"'"]) (Token.isOperator op)

def word? (place : Place) (word : Text) : Parser (Option Token) :=
  accept? place (Token.isWord word)

def ident? (place : Place) : Parser (Option Ident) := do
  return (← accept? place (·.kind == .ident)).map fun t => ⟨t.text,t.offset⟩

def ident (place : Place) (what : Text) : Parser Ident := do
  let token ← expect place what (·.kind == .ident)
  return ⟨token.text,token.offset⟩

def string? (place : Place) : Parser (Option Token) := accept? place (·.kind == .string)

def terminator? (place : Place) : Parser (Option Token) := accept? place (·.kind == .terminator)

def terminator (place : Place) : Parser Token := do
  match ← terminator? place with
  | some token => return token
  | none => throw (.noTerminator (← peek place) place.decl)

def marker? (place : Place) (word : Text) : Parser (Option Marker) := do
  match ← word? place word with
  | none => return none
  | some token =>
    match ← string? place with
    | none => return some ⟨token.span,[]⟩
    | some arg => return some ⟨.between token.span arg.span,arg.value⟩

def bracketed? (place : Place) (what : Text) : Parser (Option Ident) := do
  if ← operator? place "<" then
    let name ← ident place what
    discard <| operator place ">"
    return some name
  else return none

def moreTerms (place : Place) : Nat → Parser (List Ident)
  | 0 => return []
  | fuel + 1 => do
    if ← operator? place "|" then
      let term ← ident place "default value"
      return term :: (← moreTerms place fuel)
    else return []

def defaults (place : Place) : Parser (List Ident) := do
  if ← operator? place "=" then
    let term ← ident place "default value"
    return term :: (← moreTerms place (← get).length)
  else return []

/-- The later end of a statement and its annotations. -/
def latest (stop : Span) (markers : List (Option Marker)) : Span :=
  markers.foldl (fun last marker => match marker with
    | some m => if last.stop < m.span.stop then m.span else last
    | none => last) stop

def property (place : Place) : Parser Property := do
  let first ← ident place "property type"
  let option ← bracketed? place "array length or length field"
  let second ← ident place "property name"
  let (flag,type,name) ← match ← ident? place with
    | none => pure (none,first,second)
    | some third =>
      match Flag.ofWord? first.text with
      | some flag => pure (some flag,second,third)
      | none => throw (.unknownFlag ⟨.ident,first.text,first.start⟩ place.decl)
  let terms ← defaults place
  let stop ← terminator place
  let obsolete ← marker? place "obsolete"
  let removed ← marker? place "removed"
  return {
    span := .between first.span (latest stop.span [obsolete,removed])
    name, type, flag, option, defaults := terms, obsolete, removed }

def enumValue (place : Place) : Parser EnumValue := do
  let name ← ident place "enum value name"
  let terms ← defaults place
  let stop ← terminator place
  let obsolete ← marker? place "obsolete"
  let removed ← marker? place "removed"
  return {
    span := .between name.span (latest stop.span [obsolete,removed])
    name, defaults := terms, obsolete, removed }

/-- The members up to the closing brace, which stays in the list. -/
def members {α : Type} (place : Place) (opening : Token) (member : Parser α) :
    Nat → Parser (List α)
  | 0 => return []
  | fuel + 1 => do
    let token ← peek place
    if token.kind = .eof then throw (.unclosedBlock opening place.decl)
    if token.isOperator "\x7d" then return []
    let first ← member
    return first :: (← members place opening member fuel)

/-- A block of members in braces with an optional terminator behind it, and where it ends. -/
def block {α : Type} (place : Place) (member : Parser α) : Parser (List α × Span) := do
  let opening ← operator place "\x7b"
  let list ← members place opening member ((← get).length + 1)
  let closing ← operator place "\x7d"
  match ← terminator? place with
  | some token => return (list,token.span)
  | none => return (list,closing.span)

def classDecl (stop keyword : Token) : Parser Class := do
  let name ← ident ⟨stop,[]⟩ "class name"
  let place : Place := ⟨stop,name.text⟩
  let identity ← bracketed? place "message identity"
  let parent ← match ← word? place "expects" with
    | some _ => some <$> ident place "parent class name"
    | none => pure none
  let removed ← marker? place "removed"
  let (properties,last) ← block place (property place)
  return { span := .between keyword.span last, name, identity, parent, removed, properties }

def enumDecl (stop keyword : Token) : Parser Enum := do
  let name ← ident ⟨stop,[]⟩ "enum name"
  let place : Place := ⟨stop,name.text⟩
  let storage ← bracketed? place "enum storage type"
  let flags := (← word? place "flags").isSome
  let (values,last) ← block place (enumValue place)
  return { span := .between keyword.span last, name, storage, flags, values }

def directive (stop token : Token) : Parser Directive := do
  if token.value.isEmpty then throw (.emptyDirective token)
  match ← string? ⟨stop,[]⟩ with
  | some arg => return ⟨.between token.span arg.span,token.value,some arg.value⟩
  | none => return ⟨token.span,token.value,none⟩

inductive Item where
  | directive (d : Directive)
  | decl (d : Decl)
  deriving DecidableEq, Repr

def Item.directive? : Item → Option Directive
  | .directive d => some d
  | .decl _ => none

def Item.decl? : Item → Option Decl
  | .directive _ => none
  | .decl d => some d

def item (stop token : Token) : Parser Item :=
  if token.kind = .directive then .directive <$> directive stop token
  else if token.isWord "class" then (.decl ∘ .class) <$> classDecl stop token
  else if token.isWord "enum" then (.decl ∘ .enum) <$> enumDecl stop token
  else if token.isOperator "\x7d" then throw (.strayClose token)
  else throw (.noDeclaration token)

def items (stop : Token) : Nat → Parser (List Item)
  | 0 => return []
  | fuel + 1 => do
    let token ← peek ⟨stop,[]⟩
    if token.kind = .eof then return []
    modify List.tail
    let first ← item stop token
    return first :: (← items stop fuel)

end Parser

/-- The token that counts as the end: the first end token of the list, or else one behind the last
token. -/
def stopOf (tokens : List Token) : Token :=
  match tokens.find? (·.kind == .eof), tokens.getLast? with
  | some token, _ => token
  | none, some last => ⟨.eof,[],last.span.stop⟩
  | none, none => ⟨.eof,[],0⟩

/-- The tokens that are read: those in front of the end, white space left out. -/
def readable (tokens : List Token) : List Token :=
  (tokens.takeWhile (·.kind != .eof)).filter (·.kind != .space)

def ofTokens (tokens : List Token) : Except Fault Document := do
  let stop := stopOf tokens
  let input := readable tokens
  let items ← (Parser.items stop (input.length + 1)).run' input
  return {
    span := ⟨0,stop.offset⟩
    directives := items.filterMap Parser.Item.directive?
    decls := items.filterMap Parser.Item.decl? }

def parse (src : Text) : Except Fault Document := ofTokens (Token.ofSource src)

end WireSchema.Document
