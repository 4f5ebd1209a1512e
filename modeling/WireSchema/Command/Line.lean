import WireSchema.Artifact.Casing
import WireSchema.Command.Basic
import WireSchema.Log.Lines
import WireSchema.Record.Protobuf
import WireSchema.Settings.Toml
import WireSchema.Text.Distance
import WireSchema.Text.Separated
set_option autoImplicit false

namespace WireSchema.Command

namespace Flag

inductive Fault where
  | badSyntax (argument : Text)
  | unknown (name : Text)
  | unknownShort (short : UInt8) (argument : Text)
  | noValue (argument : Text)
  | noShortValue (short : UInt8) (argument : Text)
  | notBool (flag : Flag) (value : Text)
  | notList (flag : Flag) (value : Text) (cause : Text.Separated.Fault)
  deriving DecidableEq, Repr

def quotedByte (b : UInt8) : Text :=
  let inside : Text :=
    if b == Text.byte '"' then "\""
    else if b == Text.byte '\'' then "\\'"
    else Text.Quoted.piece (.code b.toNat,Text.Utf8.encode b.toNat)
  Text.cat ["'",inside,"'"]

def title (f : Flag) : Text :=
  match f.short with
  | some short => Text.cat ["-",[short],", --",f.name]
  | none => Text.cat ["--",f.name]

def refusal (f : Flag) (value cause : Text) : Text :=
  Text.cat ["invalid argument ",Text.Quoted.quote value," for ",Text.Quoted.quote f.title,
    " flag: ",cause]

def Fault.message : Fault → Text
  | .badSyntax argument => Text.cat ["bad flag syntax: ",argument]
  | .unknown name => Text.cat ["unknown flag: --",name]
  | .unknownShort short argument =>
    Text.cat ["unknown shorthand flag: ",quotedByte short," in -",argument]
  | .noValue argument => Text.cat ["flag needs an argument: ",argument]
  | .noShortValue short argument =>
    Text.cat ["flag needs an argument: ",quotedByte short," in -",argument]
  | .notBool flag value => refusal flag value
    (Text.cat ["strconv.ParseBool: parsing ",Text.Quoted.quote value,": invalid syntax"])
  | .notList flag value cause => refusal flag value cause.message

def trueWords : List Text := ["1","t","T","true","TRUE","True"]

def falseWords : List Text := ["0","f","F","false","FALSE","False"]

def bool? (value : Text) : Option Bool :=
  if trueWords.contains value then some true
  else if falseWords.contains value then some false
  else none

def given (f : Flag) (value : Text) : Except Fault (Flag × Text) :=
  match f.kind with
  | .text => .ok (f,value)
  | .bool => if (bool? value).isSome then .ok (f,value) else .error (.notBool f value)
  | .list => match Text.Separated.items value with
    | .ok _ => .ok (f,value)
    | .error cause => .error (.notList f value cause)

def implied? (f : Flag) : Option Text := if f.kind = .bool then some "true" else none

def readLong (flags : List Flag) (argument : Text) (next : Option Text) :
    Except Fault ((Flag × Text) × Bool) :=
  let body := argument.drop 2
  if body.head? == some (Text.byte '-') || body.head? == some (Text.byte '=') then
    .error (.badSyntax argument)
  else
    let name := body.takeWhile (· != Text.byte '=')
    match flags.find? (·.name == name) with
    | none => .error (.unknown name)
    | some f =>
      if name.length < body.length then do
        return (← f.given (body.drop (name.length + 1)),false)
      else match f.implied?, next with
        | some value, _ => do return (← f.given value,false)
        | none, some value => do return (← f.given value,true)
        | none, none => .error (.noValue argument)

/-- Short flags in a row, and whether the argument behind them is the value of the last one. What
looks like a flag of a test runner is passed over. -/
def readShort (flags : List Flag) (next : Option Text) :
    Text → Except Fault (List (Flag × Text) × Bool)
  | [] => .ok ([],false)
  | c :: rest =>
    if Text.startsWith (c :: rest) "test." then .ok ([],false)
    else match flags.find? (·.short == some c) with
    | none => .error (.unknownShort c (c :: rest))
    | some f =>
      if rest.head? == some (Text.byte '=') && 1 < rest.length then do
        return ([← f.given rest.tail],false)
      else match f.implied? with
        | some value => do
          let this ← f.given value
          let (more,usesNext) ← readShort flags next rest
          return (this :: more,usesNext)
        | none =>
          if !rest.isEmpty then do return ([← f.given rest],false)
          else match next with
            | some value => do return ([← f.given value],true)
            | none => .error (.noShortValue c [c])

end Flag

/-- Flags in order, each with its value, and the other arguments. -/
structure Given where
  flags : List (Flag × Text)
  arguments : List Text
  deriving DecidableEq, Repr, Inhabited

namespace Given

def isFlag (argument : Text) : Bool :=
  argument.head? == some (Text.byte '-') && 1 < argument.length

def ofArguments (flags : List Flag) : List Text → Except Flag.Fault Given
  | [] => .ok ⟨[],[]⟩
  | argument :: rest =>
    if !isFlag argument then do
      let p ← ofArguments flags rest
      return { p with arguments := argument :: p.arguments }
    else if argument == Text.ofString "--" then .ok ⟨[],rest⟩
    else do
      let (found,usesNext) ←
        if Text.startsWith argument "--" then do
          let (one,usesNext) ← Flag.readLong flags argument rest.head?
          pure ([one],usesNext)
        else Flag.readShort flags rest.head? argument.tail
      let p ← match usesNext, rest with
        | true, _ :: rest => ofArguments flags rest
        | _, rest => ofArguments flags rest
      return { p with flags := found ++ p.flags }

def values (p : Given) (name : Text) : List Text :=
  (p.flags.filter fun (f,_) => f.name == name).map Prod.snd

def value? (p : Given) (name : Text) : Option Text := (p.values name).getLast?

def isSet (p : Given) (name : Text) : Bool :=
  ((p.value? name).bind Flag.bool?).getD false

def items? (p : Given) (name : Text) : Option (List Text) :=
  match p.values name with
  | [] => none
  | values => some (values.flatMap fun value => ((Text.Separated.items value).toOption).getD [])

def parsed (p : Given) : Parsed := ⟨p.value?,p.isSet,p.items?,p.arguments⟩

end Given

def usageText : Text :=
  let line (name : Name) : Text := Text.cat ["  ",Text.padRight 11 name.text," ",name.summary]
  Lines.text (Lines.cat [
    ["Usage:",
      "  steamd [options] COMMAND [flags]",
      "  steamd [command]",
      "",
      "Available Commands:"],
    (Text.sortBy Name.text Name.all).map line,
    ["",
      "Flags:",
      "  -h, --help   help for steamd",
      "",
      "Use \"steamd [command] --help\" for more information about a command."]])

def resembles (typed : Text) (name : Name) : Bool :=
  let typed := Text.lowercase typed
  Text.distance typed name.text ≤ 2 || Text.startsWith name.text typed

def suggestions (typed : Text) : List Name :=
  (Name.all.filter (· != .help)).filter (resembles typed)

def unknownMessage (typed : Text) : Text :=
  let close := suggestions typed
  Text.cat ["unknown command ",Text.Quoted.quote typed," for \"steamd\"",
    if close.isEmpty then []
    else Text.cat ["\n\nDid you mean this?\n",
      Lines.text (close.map fun name => Text.byte '\t' :: name.text)]]

/-- Whether an argument in front of the command takes the next one for its value. No flag is known
there. -/
def takesNext (argument : Text) : Bool :=
  !argument.contains (Text.byte '=') &&
    (Text.startsWith argument "--" ||
      (Text.startsWith argument "-" && argument.length == 2))

/-- The first argument that is not a flag or its value. A last argument is no value. -/
def firstWord? : List Text → Option Text
  | [] => none
  | argument :: rest =>
    if argument == Text.ofString "--" then none
    else if takesNext argument then
      match rest with
      | _ :: next :: more => firstWord? (next :: more)
      | _ => none
    else if !argument.isEmpty && argument.head? != some (Text.byte '-') then some argument
    else firstWord? rest

def withoutWord (word : Text) : List Text → List Text
  | [] => []
  | argument :: rest =>
    if argument == Text.ofString "--" then argument :: rest
    else if takesNext argument then
      match rest with
      | [] => [argument]
      | value :: more => argument :: value :: withoutWord word more
    else if argument.head? != some (Text.byte '-') && argument == word then rest
    else argument :: withoutWord word rest

/-- The command that a command line means, if it has one, and the arguments of that. -/
def find (arguments : List Text) : Except Text (Option Name × List Text) :=
  match firstWord? arguments with
  | none => .ok (none,arguments)
  | some word => match Name.ofText? word with
    | some name => .ok (some name,withoutWord word arguments)
    | none => .error (unknownMessage word)

def Library.standard : Library where
  settings := .standard
  log := .standard
  externals := Protobuf.kinds Protobuf.Kind.standard
  casing := .standard
  find := Command.find
  flags flags arguments :=
    ((Given.ofArguments flags arguments).map Given.parsed).mapError Flag.Fault.message
  usage := usageText

end WireSchema.Command
