import WireSchema.Document.Parser
import WireSchema.Proofs.Basic
set_option autoImplicit false

/-!
The grammar of documents, told without reading one. A part stands in front of some tokens and leaves
others behind it; what is optional is there whenever its first token is, so that a marker word
behind a statement is never the first word of the next one.
-/

namespace WireSchema.Document.Grammar

/-- The tokens from the first one of a part on, what the part says, and the tokens behind it. -/
abbrev Part (α : Type) := List Token → α → List Token → Prop

def next (fits : Token → Bool) (ts : List Token) : Bool := ts.head?.any fits

@[simp] theorem next_nil (fits : Token → Bool) : next fits [] = false := rfl

@[simp] theorem next_cons (fits : Token → Bool) (t : Token) (ts : List Token) :
    next fits (t :: ts) = fits t := by
  simp [next]

inductive One (fits : Token → Bool) : Part Token
  | mk {t : Token} {rest : List Token} (fit : fits t = true) : One fits (t :: rest) t rest

/-- A part that is taken whenever its first token is there. -/
inductive Optional {α : Type} (first : Token → Bool) (part : Part α) : Part (Option α)
  | present {ts rest : List Token} {a : α} (there : next first ts = true) (taken : part ts a rest) :
      Optional first part ts (some a) rest
  | absent {ts : List Token} (lacks : next first ts = false) : Optional first part ts none ts

/-- A part that is taken again as long as its first token is there. -/
inductive Many {α : Type} (first : Token → Bool) (part : Part α) : Part (List α)
  | nil {ts : List Token} (lacks : next first ts = false) : Many first part ts [] ts
  | cons {ts mid rest : List Token} {a : α} {more : List α} (there : next first ts = true)
      (taken : part ts a mid) (again : Many first part mid more rest) :
      Many first part ts (a :: more) rest

def isIdent (t : Token) : Bool := t.kind == .ident

def isString (t : Token) : Bool := t.kind == .string

def isTerminator (t : Token) : Bool := t.kind == .terminator

def isOpener (t : Token) : Bool :=
  t.kind == .directive || t.isWord "class" || t.isWord "enum"

def identOf (t : Token) : Ident := ⟨t.text,t.offset⟩

inductive Name : Part Ident
  | mk {t : Token} {rest : List Token} (fit : isIdent t = true) : Name (t :: rest) (identOf t) rest

inductive Behind (op : Token → Bool) : Part Ident
  | mk {t : Token} {ts rest : List Token} {name : Ident} (mark : op t = true)
      (named : Name ts name rest) : Behind op (t :: ts) name rest

inductive Bracketed : Part Ident
  | mk {t : Token} {ts rest : List Token} {name : Ident}
      (opened : Behind (Token.isOperator "<") ts name (t :: rest))
      (closed : t.isOperator ">" = true) : Bracketed ts name rest

/-- `'=' IDENT ('|' IDENT)*` -/
inductive Defaults : Part (List Ident)
  | mk {ts mid rest : List Token} {term : Ident} {more : List Ident}
      (head : Behind (Token.isOperator "=") ts term mid)
      (again : Many (Token.isOperator "|") (Behind (Token.isOperator "|")) mid more rest) :
      Defaults ts (term :: more) rest

def markerOf (keyword : Token) : Option Token → Marker
  | none => ⟨keyword.span,[]⟩
  | some message => ⟨.between keyword.span message.span,message.value⟩

inductive Marked (word : Text) : Part Marker
  | mk {t : Token} {ts rest : List Token} {message : Option Token} (mark : t.isWord word = true)
      (said : Optional isString (One isString) ts message rest) :
      Marked word (t :: ts) (markerOf t message) rest

structure Ending where
  defaults : List Ident
  stop : Token
  obsolete : Option Marker
  removed : Option Marker

def Ending.last (e : Ending) : Span := Parser.latest e.stop.span [e.obsolete,e.removed]

/-- `['=' IDENT ('|' IDENT)*] ';' ['obsolete' [STRING]] ['removed' [STRING]]` -/
inductive Ended : Part Ending
  | mk {t : Token} {ts mid between rest : List Token} {terms : Option (List Ident)}
      {obsolete removed : Option Marker}
      (assigned : Optional (Token.isOperator "=") Defaults ts terms (t :: mid))
      (stopped : isTerminator t = true)
      (aged : Optional (Token.isWord "obsolete") (Marked "obsolete") mid obsolete between)
      (gone : Optional (Token.isWord "removed") (Marked "removed") between removed rest) :
      Ended ts ⟨terms.getD [],t,obsolete,removed⟩ rest

/-- What comes first in a property: the flag, if there is one, the option, the type and the name. -/
structure Beginning where
  first : Ident
  flag : Option Flag
  option : Option Ident
  type : Ident
  name : Ident

def Beginning.property (b : Beginning) (e : Ending) : Property where
  span := .between b.first.span e.last
  name := b.name
  type := b.type
  flag := b.flag
  option := b.option
  defaults := e.defaults
  obsolete := e.obsolete
  removed := e.removed

/-- `FLAG ['<' IDENT '>'] TYPE NAME` or `TYPE ['<' IDENT '>'] NAME` -/
inductive Begun : Part Beginning
  | flagged {ts ts₁ ts₂ ts₃ rest : List Token} {word type name : Ident} {flag : Flag}
      {option : Option Ident} (head : Name ts word ts₁) (known : Flag.ofWord? word.text = some flag)
      (opt : Optional (Token.isOperator "<") Bracketed ts₁ option ts₂)
      (typed : Name ts₂ type ts₃) (named : Name ts₃ name rest) :
      Begun ts ⟨word,some flag,option,type,name⟩ rest
  | plain {ts ts₁ ts₂ rest : List Token} {type name : Ident} {option : Option Ident}
      (typed : Name ts type ts₁) (opt : Optional (Token.isOperator "<") Bracketed ts₁ option ts₂)
      (named : Name ts₂ name rest) : Begun ts ⟨type,none,option,type,name⟩ rest

inductive PropertyAt : Part Property
  | mk {ts mid rest : List Token} {b : Beginning} {e : Ending} (begun : Begun ts b mid)
      (ended : Ended mid e rest) : PropertyAt ts (b.property e) rest

def valueOf (name : Ident) (e : Ending) : EnumValue where
  span := .between name.span e.last
  name := name
  defaults := e.defaults
  obsolete := e.obsolete
  removed := e.removed

inductive ValueAt : Part EnumValue
  | mk {ts mid rest : List Token} {name : Ident} {e : Ending} (named : Name ts name mid)
      (ended : Ended mid e rest) : ValueAt ts (valueOf name e) rest

/-- `'{' member* '}' [';']`, with the last token of it. -/
inductive Block {α : Type} (member : Part α) : Part (List α × Token)
  | mk {t u : Token} {ts mid rest : List Token} {list : List α} {stop : Option Token}
      (opened : t.isOperator "\x7b" = true) (members : Many isIdent member ts list (u :: mid))
      (closed : u.isOperator "\x7d" = true)
      (stopped : Optional isTerminator (One isTerminator) mid stop rest) :
      Block member (t :: ts) (list,stop.getD u) rest

/-- `'class' NAME ['<' IDENT '>'] ['expects' IDENT] ['removed' [STRING]] '{' property* '}' [';']` -/
inductive ClassAt : Part Class
  | mk {t last : Token} {ts ts₁ ts₂ ts₃ ts₄ rest : List Token} {name : Ident}
      {identity parent : Option Ident} {removed : Option Marker} {properties : List Property}
      (mark : t.isWord "class" = true) (named : Name ts name ts₁)
      (tagged : Optional (Token.isOperator "<") Bracketed ts₁ identity ts₂)
      (headed : Optional (Token.isWord "expects") (Behind (Token.isWord "expects")) ts₂ parent ts₃)
      (gone : Optional (Token.isWord "removed") (Marked "removed") ts₃ removed ts₄)
      (block : Block PropertyAt ts₄ (properties,last) rest) :
      ClassAt (t :: ts) ⟨.between t.span last.span,name,identity,parent,removed,properties⟩ rest

/-- `'enum' NAME ['<' IDENT '>'] ['flags'] '{' value* '}' [';']` -/
inductive EnumAt : Part Enum
  | mk {t last : Token} {ts ts₁ ts₂ ts₃ rest : List Token} {name : Ident} {storage : Option Ident}
      {flags : Option Token} {values : List EnumValue}
      (mark : t.isWord "enum" = true) (named : Name ts name ts₁)
      (stored : Optional (Token.isOperator "<") Bracketed ts₁ storage ts₂)
      (flagged : Optional (Token.isWord "flags") (One (Token.isWord "flags")) ts₂ flags ts₃)
      (block : Block ValueAt ts₃ (values,last) rest) :
      EnumAt (t :: ts) ⟨.between t.span last.span,name,storage,flags.isSome,values⟩ rest

def directiveOf (t : Token) : Option Token → Directive
  | none => ⟨t.span,t.value,none⟩
  | some argument => ⟨.between t.span argument.span,t.value,some argument.value⟩

inductive DirectiveAt : Part Directive
  | mk {t : Token} {ts rest : List Token} {argument : Option Token} (mark : t.kind = .directive)
      (named : t.value ≠ []) (given : Optional isString (One isString) ts argument rest) :
      DirectiveAt (t :: ts) (directiveOf t argument) rest

inductive ItemAt : Part Parser.Item
  | directive {ts rest : List Token} {d : Directive} (taken : DirectiveAt ts d rest) :
      ItemAt ts (.directive d) rest
  | class {ts rest : List Token} {c : Class} (taken : ClassAt ts c rest) :
      ItemAt ts (.decl (.class c)) rest
  | enum {ts rest : List Token} {e : Enum} (taken : EnumAt ts e rest) :
      ItemAt ts (.decl (.enum e)) rest

/-- `(directive | class | enum)*` and nothing behind. -/
def Derives (tokens : List Token) (items : List Parser.Item) : Prop :=
  Many isOpener ItemAt tokens items []

def documentOf (tokens : List Token) (items : List Parser.Item) : Document where
  span := ⟨0,(tokens.getLast?.map fun t => t.span.stop).getD 0⟩
  directives := items.filterMap Parser.Item.directive?
  decls := items.filterMap Parser.Item.decl?

end WireSchema.Document.Grammar
