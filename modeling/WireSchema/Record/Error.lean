import WireSchema.Message.Payload
import WireSchema.Plan.Class
import WireSchema.Record.Value
set_option autoImplicit false

namespace WireSchema.Record

inductive Fault where
  | unknownClass (name : Text)
  | plan (fault : Plan.Fault)
  | noDefault
  | notInteger (type : Text)
  | notList (type : Text)
  | unsuited (type kind : Text)
  | unexpectedKind (kind : Text)
  | noLength (name : Text)
  | tooManyElements (given declared : Nat)
  | payload (fault : Payload.Fault)
  | tooLong (size : Int)
  | trailing (size : Nat)
  | badExternal
  | unwritableExternal
  | inField (className field : Text) (cause : Fault)
  deriving DecidableEq, Repr

namespace Fault

def root : Fault → Fault
  | .inField _ _ cause => cause.root
  | fault => fault

def wrongType (detail : Text) : Text :=
  Text.cat ["wire: field value has the wrong type: ",detail]

def message : Fault → Text
  | .unknownClass name => Text.cat ["wire: unknown class ",Text.Quoted.quote name]
  | .plan fault => fault.message
  | .noDefault => "default value cannot be evaluated"
  | .notInteger type => wrongType (Text.cat [type," is not an integer"])
  | .notList type => wrongType (Text.cat [type," is not a list"])
  | .unsuited type kind => wrongType (Text.cat [type," for ",kind," field"])
  | .unexpectedKind kind => wrongType (Text.cat ["unexpected ",kind," field"])
  | .noLength name => wrongType (Text.cat ["length field ",name])
  | .tooManyElements given declared =>
    Text.cat ["wire: array value is longer than its declared length: ",Text.ofNat given," > ",
      Text.ofNat declared]
  | .payload fault => fault.message
  | .tooLong size => Text.cat [Payload.Fault.tooLarge.message,": ",Text.ofInt size," bytes"]
  | .trailing size =>
    Text.cat ["wire: trailing data after message: ",Text.ofNat size," bytes"]
  | .badExternal => "malformed external message"
  | .unwritableExternal => "external message cannot be written"
  | .inField className field cause => Text.cat [className,".",field,": ",cause.message]

end Fault

def within {α : Type} (className field : Text) (result : Except Fault α) : Except Fault α :=
  result.mapError (.inField className field)

end WireSchema.Record
