import WireSchema.Plan.Class
set_option autoImplicit false

namespace WireSchema.Planner

/-- A question to a planner: the layout of a class, or the numbers of an enumeration, of one of its
values or of an expression. -/
inductive Call where
  | layout (className : Text)
  | enum (e : Schema.Enum)
  | value (m : Plan.Member)
  | eval (terms : List Reference)

def call (p : Planner) : Call → Planner
  | .layout className => match p.schema.class? className with
    | none => p
    | some c => (p.layout c).2
  | .enum e => (p.ask fun schema => Plan.enum schema e).2
  | .value m => (p.ask fun schema => Plan.value schema m).2
  | .eval terms => (p.ask fun schema => Plan.eval schema terms).2

/-- The planner that has been asked some questions in order. -/
def after (p : Planner) (calls : List Call) : Planner := calls.foldl call p

theorem after_keeps {keeps : Planner → Prop} (step : ∀ p q, keeps p → keeps (p.call q))
    (calls : List Call) {p : Planner} (h : keeps p) : keeps (p.after calls) := by
  induction calls generalizing p with
  | nil => exact h
  | cons q calls ih => exact ih (step p q h)

end WireSchema.Planner
