import WireSchema.Plan.Value
set_option autoImplicit false

namespace WireSchema.Plan

structure EnumValue where
  value : Schema.EnumValue
  bits : Option UInt64
  deriving Repr, Inhabited

namespace EnumValue

def name (v : EnumValue) : Text := v.value.name

def isImplicit (v : EnumValue) : Bool := v.value.default.isEmpty

end EnumValue

/-- An enumeration whose removed values are left out. They still take part in the numbering. -/
structure Enum where
  decl : Schema.Enum
  values : List EnumValue
  deriving Repr, Inhabited

def carrierOf (storage : Primitive) : Primitive :=
  (Primitive.ofSize? storage.size storage.unsigned).getD storage

namespace Enum

def name (e : Enum) : Text := e.decl.name

def carrier (e : Enum) : Primitive := carrierOf e.decl.storage

end Enum

def enum (schema : Schema) (e : Schema.Enum) : Eval Enum := do
  let values ← (e.values.filter (!·.removed)).mapM fun v => do
    return { value := v, bits := ← value schema (e.name,v.name) }
  return { decl := e, values }

def enumOnce (schema : Schema) (e : Schema.Enum) : Enum := (enum schema e Memo.empty).1

end WireSchema.Plan
