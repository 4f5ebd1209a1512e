import WireSchema.Proofs.Record.Wire
set_option autoImplicit false

/-!
Setting the lengths of a record, field by field. Each payload changes the value of its own field and
of the field that holds its length, and neither is looked at again for another payload; so the
lengths do not depend on the order in which they are set.
-/

namespace WireSchema.Record

variable {f : Plan.Field Plan.Class} {fields : List (Plan.Field Plan.Class)} {values : Fields}
    {name : Text}

def settled (shape : Plan.Shape Plan.Class) (value : Value) : Value :=
  match measuredValue shape (some value) with
  | some r => .record (some r)
  | none => value

theorem settled_nested {p : Plan.Class} (h : f.shape = .nested p) (r : Record) :
    settled f.shape (.record (some r)) = .record (some (measured p r)) := by
  rw [settled,h,measuredValue]

theorem settled_plain {shape : Plan.Shape Plan.Class} (h : ∀ p, shape ≠ .nested p) (value : Value) :
    settled shape value = value := by
  unfold settled
  cases shape with
  | nested p => exact absurd rfl (h p)
  | _ => rw [measuredValue]; simp

def measuredField (f : Plan.Field Plan.Class) (values : Fields) : Fields :=
  withLength f.head.lengthField (payloadSize f values)
    (keep f.name values (measuredValue f.shape (values.get? f.name)))

theorem measuredFields_skip (h : f.isFixed = true) (fields : List (Plan.Field Plan.Class))
    (values : Fields) : measuredFields (f :: fields) values = measuredFields fields values := by
  rw [measuredFields_cons,if_pos h]

theorem measuredFields_step (h : f.isFixed = false) (fields : List (Plan.Field Plan.Class))
    (values : Fields) :
    measuredFields (f :: fields) values = measuredFields fields (measuredField f values) := by
  rw [measuredFields_cons,if_neg (by simp [h])]
  rfl

theorem ordered_keep (h : values.Ordered) (name : Text) (r : Option Record) :
    (keep name values r).Ordered := by
  cases r with
  | none => exact h
  | some r => exact h.set _ _

theorem ordered_withLength (h : values.Ordered) (holder : Option Plan.Holder) (size : Nat) :
    (withLength holder size values).Ordered := by
  cases holder with
  | none => exact h
  | some holder => exact h.set _ _

theorem measuredFields_ordered (h : values.Ordered) :
    (measuredFields fields values).Ordered := by
  induction fields generalizing values with
  | nil => rwa [measuredFields]
  | cons f fields ih =>
    cases hfixed : f.isFixed with
    | true =>
      rw [measuredFields_skip hfixed]
      exact ih h
    | false =>
      rw [measuredFields_step hfixed]
      exact ih (ordered_withLength (ordered_keep h _ _) _ _)

theorem get?_withLength {holder : Option Plan.Holder}
    (h : ∀ k, holder = some k → k.name ≠ name) (size : Nat) (values : Fields) :
    (withLength holder size values).get? name = values.get? name := by
  cases holder with
  | none => rfl
  | some k => rw [withLength,Fields.get?_set,if_neg (Ne.symm (h k rfl))]

theorem get?_keep (h : f.name ≠ name) (values : Fields) (r : Option Record) :
    (keep f.name values r).get? name = values.get? name := by
  cases r with
  | none => rfl
  | some r => rw [keep,Fields.get?_set,if_neg (Ne.symm h)]

def Spares (name : Text) (f : Plan.Field Plan.Class) : Prop :=
  f.name ≠ name ∧ ∀ holder, f.head.lengthField = some holder → holder.name ≠ name

theorem get?_measuredField (h : Spares name f) (values : Fields) :
    (measuredField f values).get? name = values.get? name := by
  rw [measuredField,get?_withLength h.2,get?_keep h.1]

theorem get?_measuredField_self (h : ∀ holder, f.head.lengthField = some holder →
      holder.name ≠ f.name) {value : Value} (hget : values.get? f.name = some value) :
    (measuredField f values).get? f.name = some (settled f.shape value) := by
  rw [measuredField,get?_withLength h,hget]
  unfold settled keep
  cases measuredValue f.shape (some value) with
  | none => exact hget
  | some r => rw [Fields.get?_set,if_pos rfl]

theorem get?_measuredField_holder {holder : Plan.Holder} (h : f.head.lengthField = some holder)
    (values : Fields) : (measuredField f values).get? holder.name =
      some (number holder.carrier (payloadSize f values).toUInt64) := by
  rw [measuredField,h,withLength,Fields.get?_set,if_pos rfl]

theorem get?_measuredFields (h : ∀ f ∈ fields, f.isFixed = false → Spares name f)
    (values : Fields) : (measuredFields fields values).get? name = values.get? name := by
  induction fields generalizing values with
  | nil => rw [measuredFields]
  | cons f fields ih =>
    have hrest : ∀ g ∈ fields, g.isFixed = false → Spares name g :=
      fun g hg => h g (by simp [hg])
    cases hfixed : f.isFixed with
    | true => rw [measuredFields_skip hfixed,ih hrest]
    | false => rw [measuredFields_step hfixed,ih hrest,get?_measuredField (h f (by simp) hfixed)]

theorem Arranged.spares (h : Arranged (f :: fields)) {g : Plan.Field Plan.Class} (hg : g ∈ fields)
    (hfixed : g.isFixed = false) : Spares g.name f :=
  ⟨Ne.symm (h.other hg),h.apart g (by simp [hg]) hfixed f (by simp)⟩

theorem spares_of_lengthOf {plan : Plan.Class} (hwf : plan.WellFormed) (hf : f ∈ plan.fields)
    (hfixed : f.isFixed = true) (h : f.head.lengthOf = none) :
    ∀ g ∈ plan.fields, g.isFixed = false → Spares f.name g := by
  intro g hg hg'
  refine ⟨(arranged_of_wellFormed hwf).name_ne hf hfixed hg hg',?_⟩
  intro holder hl heq
  obtain ⟨k,hk,hname,hshape,-⟩ := hwf.holder hg hl
  have hself : k = f := eq_of_name_eq hwf.names hk hf (hname.trans heq)
  subst hself
  have hmeasures : k.Measures g := ⟨holder.carrier,hshape,by rw [hl,← heq]⟩
  rw [(hwf.matched g hg k hf).mp hmeasures] at h
  cases h

theorem get?_measuredFields_self (hfields : Arranged fields) (hf : f ∈ fields)
    (hfixed : f.isFixed = false) {value : Value} (hget : values.get? f.name = some value) :
    (measuredFields fields values).get? f.name = some (settled f.shape value) := by
  induction fields generalizing values with
  | nil => cases hf
  | cons g fields ih =>
    rcases List.mem_cons.mp hf with rfl | hf
    · have hspares : ∀ g ∈ fields, g.isFixed = false → Spares f.name g := fun g hg hg' =>
        ⟨hfields.other hg,hfields.apart f (by simp) hfixed g (by simp [hg])⟩
      rw [measuredFields_step hfixed,get?_measuredFields hspares]
      exact get?_measuredField_self (hfields.apart f (by simp) hfixed f (by simp)) hget
    · cases hg : g.isFixed with
      | true =>
        rw [measuredFields_skip hg]
        exact ih hfields.tail hf hget
      | false =>
        rw [measuredFields_step hg]
        refine ih hfields.tail hf ?_
        rw [get?_measuredField (hfields.spares hf hfixed),hget]

theorem payloadSize_congr {other : Fields} (h : other.get? f.name = values.get? f.name) :
    payloadSize f other = payloadSize f values := by
  rw [payloadSize,payloadSize,h]

theorem get?_measuredFields_holder (hfields : Arranged fields) (hf : f ∈ fields)
    {holder : Plan.Holder} (hl : f.head.lengthField = some holder) :
    (measuredFields fields values).get? holder.name =
      some (number holder.carrier (payloadSize f values).toUInt64) := by
  have hfixed : f.isFixed = false := hfields.not_isFixed hf hl
  induction fields generalizing values with
  | nil => cases hf
  | cons g fields ih =>
    rcases List.mem_cons.mp hf with rfl | hf
    · -- No payload behind this one has its length in the same field.
      have hspares : ∀ g ∈ fields, g.isFixed = false → Spares holder.name g := by
        intro g hg hg'
        refine ⟨Ne.symm (hfields.apart g (by simp [hg]) hg' f (by simp) holder hl),?_⟩
        intro other hother heq
        exact hfields.other hg (hfields.single g (by simp [hg]) f (by simp) other holder hother hl
          heq)
      rw [measuredFields_step hfixed,get?_measuredFields hspares,get?_measuredField_holder hl]
    · cases hg : g.isFixed with
      | true =>
        rw [measuredFields_skip hg]
        exact ih hfields.tail hf
      | false =>
        rw [measuredFields_step hg,ih hfields.tail hf,
          payloadSize_congr (get?_measuredField (hfields.spares hf hfixed) values)]

end WireSchema.Record
