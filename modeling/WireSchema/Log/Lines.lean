import WireSchema.Json.Basic
import WireSchema.Log.Basic
import WireSchema.Text.Lowercase
import WireSchema.Text.Quoted
set_option autoImplicit false

namespace WireSchema.Log

namespace Level

def name : Level → Text
  | .panic => "panic"
  | .fatal => "fatal"
  | .error => "error"
  | .warning => "warning"
  | .info => "info"
  | .debug => "debug"
  | .trace => "trace"

def names : List (Text × Level) :=
  ("warn",.warning) ::
    [panic,fatal,error,warning,info,debug,trace].map fun level => (level.name,level)

def ofName? (t : Text) : Option Level := names.lookup (Text.lowercase t)

def refusal (t : Text) : Text :=
  Text.cat ["not a valid logrus Level: ",Text.Quoted.quote t]

end Level

def isBare (c : UInt8) : Bool :=
  Text.isLetter c || Text.isDigit c || (Text.ofString "-._/@^+").contains c

def bareOrQuoted (t : Text) : Text := if t.all isBare then t else Text.Quoted.quote t

def Value.bare : Value → Text
  | .text t => bareOrQuoted t
  | .number n => Text.ofNat n

def shortEscapes : Json.ShortEscapes := (8,'b') :: (12,'f') :: Json.plainEscapes

def jsonText (t : Text) : Json := .string (Json.escape shortEscapes t)

def Value.toJson : Value → Json
  | .text t => jsonText t
  | .number n => .ofNat n

namespace Entry

def toJson (e : Entry) : Json :=
  .object (Text.sortBy Prod.fst
    ((Text.ofString "level",jsonText e.level.name) ::
      (Text.ofString "msg",jsonText e.message) ::
      e.fields.map fun (key,value) => (key,value.toJson)))

def plain (e : Entry) : Text :=
  Text.join " " ([
    Text.cat ["level=",e.level.name],
    Text.cat ["msg=",bareOrQuoted e.message]] ++
    (Text.sortBy Prod.fst e.fields).map fun (key,value) => Text.cat [key,"=",value.bare])

def line (format : Format) (e : Entry) : Text :=
  match format with
  | .text => e.plain ++ [Text.newline]
  | .json => e.toJson.text ++ [Text.newline]

end Entry

def Library.standard : Library where
  level t := match Level.ofName? t with
    | some level => .ok level
    | none => .error (Level.refusal t)
  line := Entry.line

end WireSchema.Log
