import WireSchema.Schema.Symbol
set_option autoImplicit false

namespace WireSchema.Schema

def within (decl reason : Text) : Text :=
  if decl.isEmpty then reason else Text.cat [reason," (in '",decl,"')"]

inductive Cause where
  | symbol (fault : Symbol.Fault)
  | unknownLengthField (decl property holder : Text)
  | constWithoutValue (decl property : Text)
  | unknownType (decl type : Text)
  | duplicateDecl (name : Text)
  | duplicateMember (decl name : Text)
  | parentNotClass (decl parent : Text)
  | parentCycle (decl : Text)
  | typeIsMember (decl type : Text)
  | protoTypeDeclared (decl property type : Text)
  | badLengthField (decl property holder : Text)
  | optionNotAllowed (decl property : Text) (flag : Flag)
  | adapterType (decl property : Text) (flag : Flag) (want got : Text)
  | maskType (decl property : Text) (flag : Flag) (got : Text)
  | enumStorage (decl type : Text)
  | notAValue (decl identifier : Text)
  | badArrayLength (decl property length : Text)
  | constType (decl property type : Text)
  deriving DecidableEq, Repr

namespace Cause

def code : Cause → Nat
  | .symbol fault => fault.code
  | .unknownLengthField .. => 3003
  | .constWithoutValue .. => 3004
  | .unknownType .. => 3005
  | .duplicateDecl .. => 3200
  | .duplicateMember .. => 3201
  | .parentNotClass .. => 3202
  | .parentCycle .. => 3203
  | .typeIsMember .. => 3204
  | .protoTypeDeclared .. => 3205
  | .badLengthField .. => 3206
  | .optionNotAllowed .. => 3207
  | .adapterType .. => 3208
  | .maskType .. => 3209
  | .enumStorage .. => 3210
  | .notAValue .. => 3211
  | .badArrayLength .. => 3212
  | .constType .. => 3213

def reason : Cause → Text
  | .symbol fault => fault.reason
  | .unknownLengthField decl property holder =>
    within decl (Text.cat ["Property '",property,"' refers to missing length field '",holder,
      "'"])
  | .constWithoutValue decl property =>
    within decl (Text.cat ["Constant '",property,"' has no value"])
  | .unknownType decl type =>
    within decl (Text.cat ["Type '",type,"' is neither a primitive nor a declared class or enum"])
  | .duplicateDecl name => Text.cat ["Duplicate declaration '",name,"'"]
  | .duplicateMember decl name => within decl (Text.cat ["Duplicate member '",name,"'"])
  | .parentNotClass decl parent =>
    within decl (Text.cat ["Parent '",parent,"' is not a class"])
  | .parentCycle decl =>
    Text.cat ["Class '",decl,"' is embedded in itself through its parents"]
  | .typeIsMember decl type =>
    within decl (Text.cat ["Type '",type,"' names a member, not a declaration"])
  | .protoTypeDeclared decl property type =>
    within decl (Text.cat ["Proto property '",property,
      "' must name an external message type, not '",type,"'"])
  | .badLengthField decl property holder =>
    within decl (Text.cat ["Length field '",holder,"' of property '",property,
      "' must be a fixed-size integer"])
  | .optionNotAllowed decl property flag =>
    within decl (Text.cat ["Property '",property,"' with flag '",flag.word,
      "' cannot take a length"])
  | .adapterType decl property flag want got =>
    within decl (Text.cat ["Property '",property,"' with flag '",flag.word,
      "' must have type '",want,"', not '",got,"'"])
  | .maskType decl property flag got =>
    within decl (Text.cat ["Property '",property,"' with flag '",flag.word,
      "' must be a 4-byte integer or enum, not '",got,"'"])
  | .enumStorage decl type =>
    within decl (Text.cat ["Enum storage type '",type,"' is not an integer primitive"])
  | .notAValue decl identifier =>
    within decl (Text.cat ["'",identifier,"' names a declaration where a value is expected"])
  | .badArrayLength decl property length =>
    within decl (Text.cat ["Property '",property,"' has invalid array length '",length,"'"])
  | .constType decl property type =>
    within decl (Text.cat ["Constant '",property,"' must have a primitive or enum type, not '",
      type,"'"])

end Cause

structure Fault where
  cause : Cause
  span : Span
  deriving DecidableEq, Repr

namespace Fault

def code (f : Fault) : Nat := f.cause.code

def message (f : Fault) : Text := Text.cat ["E",Text.ofNat f.code,": ",f.cause.reason]

end Fault

inductive Concern where
  | shadowsPrimitive (name : Text)
  | unboundedField (decl property next : Text)
  | obsoleteIdentity (decl identifier reason : Text)
  | parentNotHeader (decl parent : Text)
  | obsoleteReference (decl identifier : Text)
  deriving DecidableEq, Repr

structure Warning where
  concern : Concern
  span : Span
  deriving DecidableEq, Repr

namespace Warning

def code (w : Warning) : Nat :=
  match w.concern with
  | .shadowsPrimitive .. => 4000
  | .unboundedField .. => 4001
  | .obsoleteIdentity .. => 4002
  | .parentNotHeader .. => 4003
  | .obsoleteReference .. => 4004

def reason (w : Warning) : Text :=
  match w.concern with
  | .shadowsPrimitive name =>
    Text.cat ["Declaration '",name,"' shadows the primitive type of the same name"]
  | .unboundedField decl property next =>
    within decl (Text.cat ["Property '",property,
      "' has no length field and consumes the rest of the input, so '",next,
      "' can never be read back"])
  | .obsoleteIdentity decl identifier reason =>
    within decl (Text.cat ["Message identity '",identifier,"' is obsolete",
      if reason.isEmpty then [] else ": " ++ reason])
  | .parentNotHeader decl parent =>
    within decl (Text.cat ["Parent '",parent,"' is not named as a header type"])
  | .obsoleteReference decl identifier =>
    within decl (Text.cat ["Reference to obsolete value '",identifier,"'"])

def message (w : Warning) : Text := Text.cat ["W",Text.ofNat w.code,": ",w.reason]

end Warning

end WireSchema.Schema
