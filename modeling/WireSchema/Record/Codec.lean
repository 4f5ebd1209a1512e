import WireSchema.Record.Decode
import WireSchema.Record.Encode
set_option autoImplicit false

namespace WireSchema

structure Codec where
  planner : Planner
  externals : External.Kinds
  deriving Inhabited

namespace Codec

open Record (Fault)

def new (schema : Schema) (supportsGc : Bool) (externals : External.Kinds) : Codec :=
  ⟨.new schema supportsGc,externals⟩

def registry (c : Codec) : Registry := ⟨c.planner.schema,c.externals⟩

def plan (c : Codec) (name : Text) : Except Fault Plan.Class × Codec :=
  match (c.planner.schema.class? name).filter (!·.removed) with
  | none => (.error (.unknownClass name),c)
  | some decl =>
    let (result,planner) := c.planner.layout decl
    (result.mapError .plan,{ c with planner })

def create (c : Codec) (className : Text) : Except Fault Record × Codec :=
  let (plan,c) := c.plan className
  (plan.bind (Record.create c.registry),c)

/-- The bytes of a record, and the record with its lengths set. -/
def encode (c : Codec) (r : Record) : Except Fault Text × Record × Codec :=
  match c.plan r.className with
  | (.error fault,c) => (.error fault,r,c)
  | (.ok plan,c) =>
    let (bytes,r) := Record.encode c.registry plan r
    (bytes,r,c)

def decodeFrom (c : Codec) (className : Text) (input : Text) :
    Except Fault (Record × Text) × Codec :=
  let (plan,c) := c.plan className
  (plan.bind fun plan => Record.decode c.registry plan input,c)

def decode (c : Codec) (className : Text) (input : Text) : Except Fault Record × Codec :=
  let (result,c) := c.decodeFrom className input
  (Record.whole result,c)

end Codec

end WireSchema
