import WireSchema.Plan.Class
import WireSchema.Schema.Sources
set_option autoImplicit false

namespace WireSchema.Artifact

inductive Fault where
  | canceled
  | noNamespace
  | noSources
  | sources (fault : SourceSet.Fault)
  | plan (fault : Plan.Fault)
  | malformed
  | noType (name : Text)
  | valueNotType (identifier : Text)
  | typeNotValue (identifier : Text)
  | unresolvedType (identifier : Text)
  | unresolvedValue (identifier : Text)
  | noPredecessor (value : Text)
  | clash (first second ident : Text)
  | parentRemoved (parent : Text)
  | typeRemoved (property type : Text)
  | unevaluated (terms : List Text)
  | defaultOnKind (kind : Text)
  | badTag (name : Text)
  | unevaluatedTag (identifier : Text)
  | noTag
  | tagNotScalar (property : Text)
  | inDecl (name : Text) (cause : Fault)
  | inConst (name : Text) (cause : Fault)
  | inProperty (name : Text) (cause : Fault)
  deriving Repr

namespace Fault

def root : Fault → Fault
  | .inDecl _ cause => cause.root
  | .inConst _ cause => cause.root
  | .inProperty _ cause => cause.root
  | fault => fault

def message : Fault → Text
  | .canceled => "context canceled"
  | .noNamespace => "no namespace in request"
  | .noSources => "no sources in request"
  | .sources fault => fault.message
  | .plan fault => fault.message
  | .malformed => "malformed source code"
  | .noType name => Text.cat ["no Go type for ",Text.Quoted.quote name]
  | .valueNotType identifier =>
    Text.cat [Text.Quoted.quote identifier," names a value, not a type"]
  | .typeNotValue identifier =>
    Text.cat [Text.Quoted.quote identifier," names a type, not a value"]
  | .unresolvedType identifier => Text.cat ["unresolved type ",Text.Quoted.quote identifier]
  | .unresolvedValue identifier => Text.cat ["unresolved value ",Text.Quoted.quote identifier]
  | .noPredecessor value => Text.cat ["cannot number ",value,": no emitted value precedes it"]
  | .clash first second ident =>
    Text.cat [first," and ",second," both map to Go identifier ",ident]
  | .parentRemoved parent => Text.cat ["parent ",parent," is removed"]
  | .typeRemoved property type => Text.cat ["field ",property," has removed type ",type]
  | .unevaluated terms => Text.cat ["cannot evaluate ",Text.join " | " terms]
  | .defaultOnKind kind => Text.cat ["default value on ",kind," field"]
  | .badTag name =>
    Text.cat ["message tag ",Text.Quoted.quote name," is not a non-negative integer"]
  | .unevaluatedTag identifier => Text.cat ["cannot evaluate message tag ",identifier]
  | .noTag => "class has no message tag"
  | .tagNotScalar property => Text.cat ["tag property ",property," must be a plain scalar"]
  | .inDecl name cause => Text.cat [name,": ",cause.message]
  | .inConst name cause => Text.cat ["const ",name,": ",cause.message]
  | .inProperty name cause => Text.cat ["property ",name,": ",cause.message]

end Fault

end WireSchema.Artifact
