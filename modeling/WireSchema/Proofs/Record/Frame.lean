import WireSchema.Proofs.Record.Measured
import WireSchema.Proofs.Record.Walk
set_option autoImplicit false

/-!
What the writing of a record reads and changes. A payload is told by the value of its own field, and
no value changes but those of records that have been written and of fields that hold lengths. So
records that differ in one number are written as bytes that differ in one place.
-/

namespace WireSchema.Record

variable {reg : Registry} {className name : Text} {f : Plan.Field Plan.Class}
  {fields : List (Plan.Field Plan.Class)} {names : Text → Prop} {a b values : Fields}

def AgreeOn (names : Text → Prop) (a b : Fields) : Prop :=
  ∀ name, names name → a.get? name = b.get? name

theorem AgreeOn.set (h : AgreeOn names a b) (name : Text) (value : Value) :
    AgreeOn names (a.set name value) (b.set name value) := by
  intro other hother
  rw [Fields.get?_set,Fields.get?_set,h other hother]

theorem AgreeOn.settle (h : AgreeOn (· ≠ name) a b) (value : Value) :
    AgreeOn (fun _ => True) (a.set name value) (b.set name value) := by
  intro other _
  rw [Fields.get?_set,Fields.get?_set]
  split
  · rfl
  · rename_i hne
    exact h other hne

theorem agreeOn_set (values : Fields) (name : Text) (value : Value) :
    AgreeOn (· ≠ name) values (values.set name value) := by
  intro other hother
  rw [Fields.get?_set,if_neg hother]

theorem encodePayload_agree (reg : Registry) (h : AgreeOn names a b) (hf : names f.name) :
    (encodePayload reg f a).1 = (encodePayload reg f b).1 ∧
      AgreeOn names (encodePayload reg f a).2 (encodePayload reg f b).2 := by
  refine ⟨encodePayload_congr (h f.name hf),?_⟩
  unfold encodePayload
  rw [h f.name hf]
  cases f.shape with
  | nested plan =>
    simp only
    cases recordIn ((b.get? f.name).getD .nil) with
    | error fault => exact h
    | ok r =>
      simp only
      cases (encodeOr (create reg plan) (encode reg plan) r).2 with
      | none => exact h
      | some written => exact h.set _ _
  | _ => exact h

theorem encodeThen_agree {holder : Option Plan.Holder}
    {next : Fields → Except Fault Text × Fields}
    (hnext : ∀ a b, AgreeOn names a b →
      (next a).1 = (next b).1 ∧ AgreeOn names (next a).2 (next b).2)
    {first second : Except Fault Text × Fields} (hbytes : first.1 = second.1)
    (h : AgreeOn names first.2 second.2) :
    (encodeThen className name holder next first).1 =
        (encodeThen className name holder next second).1 ∧
      AgreeOn names (encodeThen className name holder next first).2
        (encodeThen className name holder next second).2 := by
  obtain ⟨bytes,a⟩ := first
  obtain ⟨_,b⟩ := second
  cases hbytes
  cases bytes with
  | error fault => exact ⟨rfl,h⟩
  | ok bytes =>
    have hstep : ∀ a b, AgreeOn names a b →
        ((next a).1.map (bytes ++ ·)) = (next b).1.map (bytes ++ ·) ∧
          AgreeOn names (next a).2 (next b).2 := by
      intro a b hab
      rw [(hnext a b hab).1]
      exact ⟨rfl,(hnext a b hab).2⟩
    cases holder with
    | none => exact hstep a b h
    | some holder =>
      cases hbits : lengthBits holder.carrier bytes.length with
      | error fault => simpa [encodeThen,setLength,hbits,within,Except.mapError] using h
      | ok bits =>
        simpa [encodeThen,setLength,hbits,within,Except.mapError] using
          hstep _ _ (h.set holder.name (number holder.carrier bits))

theorem encodePayloads_agree (reg : Registry) (className : Text)
    (hpayloads : ∀ f ∈ fields, f.isFixed = false → names f.name)
    (h : AgreeOn names a b) :
    (encodePayloads reg className fields a).1 = (encodePayloads reg className fields b).1 ∧
      AgreeOn names (encodePayloads reg className fields a).2
        (encodePayloads reg className fields b).2 := by
  induction fields generalizing a b with
  | nil => simpa [encodePayloads] using h
  | cons f fields ih =>
    have hrest : ∀ g ∈ fields, g.isFixed = false → names g.name :=
      fun g hg => hpayloads g (by simp [hg])
    rw [encodePayloads_cons,encodePayloads_cons]
    cases hfixed : f.isFixed with
    | true => simpa using ih hrest h
    | false =>
      obtain ⟨hbytes,hafter⟩ := encodePayload_agree reg h (hpayloads f (by simp) hfixed)
      simpa using encodeThen_agree (fun a b hab => ih hrest hab) hbytes hafter

theorem get?_encodePayloads_cases (reg : Registry) (className : Text)
    (hname : ∀ f ∈ fields, f.isFixed = false → f.name ≠ name) (values : Fields) :
    (encodePayloads reg className fields values).2.get? name = values.get? name ∨
      ∃ f ∈ fields, ∃ holder bits, f.head.lengthField = some holder ∧ holder.name = name ∧
        (encodePayloads reg className fields values).2.get? name =
          some (number holder.carrier bits) := by
  induction fields generalizing values with
  | nil => exact .inl (by simp [encodePayloads])
  | cons f fields ih =>
    have hrest : ∀ g ∈ fields, g.isFixed = false → g.name ≠ name :=
      fun g hg => hname g (by simp [hg])
    have hlater : ∀ {values other : Fields}, other.get? name = values.get? name →
        (encodePayloads reg className fields other).2.get? name = values.get? name ∨
          ∃ g ∈ f :: fields, ∃ holder bits, g.head.lengthField = some holder ∧
            holder.name = name ∧ (encodePayloads reg className fields other).2.get? name =
              some (number holder.carrier bits) := by
      intro values other hother
      rcases ih hrest other with hsame | ⟨g,hg,hset⟩
      · exact .inl (hsame.trans hother)
      · exact .inr ⟨g,by simp [hg],hset⟩
    rw [encodePayloads_cons]
    cases hfixed : f.isFixed with
    | true => simpa using hlater rfl
    | false =>
      have hown : (encodePayload reg f values).2.get? name = values.get? name :=
        get?_encodePayload (Ne.symm (hname f (by simp) hfixed))
      simp only [Bool.false_eq_true,if_false]
      cases hpayload : encodePayload reg f values with
      | mk bytes after =>
        rw [hpayload] at hown
        cases bytes with
        | error fault => exact .inl hown
        | ok bytes =>
          cases hset : setLength f.head.lengthField bytes after with
          | error fault =>
            refine .inl ?_
            simpa [encodeThen,hset,within,Except.mapError] using hown
          | ok updated =>
            rw [encodeThen_ok hset]
            cases hl : f.head.lengthField with
            | none =>
              rw [hl] at hset
              cases hset
              exact hlater hown
            | some holder =>
              rw [hl] at hset
              obtain ⟨bits,-,rfl⟩ := setLength_some_eq_ok.mp hset
              by_cases hholder : holder.name = name
              · -- The length is there unless a payload behind this one sets it again.
                refine .inr ?_
                rcases ih hrest (after.set holder.name (number holder.carrier bits)) with
                  hsame | ⟨g,hg,hset⟩
                · refine ⟨f,by simp,holder,bits,hl,hholder,?_⟩
                  rw [hsame,Fields.get?_set,if_pos hholder.symm]
                · exact ⟨g,by simp [hg],hset⟩
              · refine hlater ?_
                rw [Fields.get?_set,if_neg (Ne.symm hholder),hown]

theorem get?_encodePayloads (h : ∀ f ∈ fields, f.isFixed = false → Spares name f)
    (hframed : ∀ f ∈ fields, f.isFixed = true → f.head.lengthField = none) (values : Fields) :
    (encodePayloads reg className fields values).2.get? name = values.get? name := by
  rcases get?_encodePayloads_cases reg className
    (fun f hf hfixed => (h f hf hfixed).1) values with hsame | ⟨f,hf,holder,bits,hl,hname,-⟩
  · exact hsame
  · cases hfixed : f.isFixed with
    | true =>
      rw [hframed f hf hfixed] at hl
      cases hl
    | false => exact absurd hname ((h f hf hfixed).2 holder hl)

theorem setLength_agree {holder : Option Plan.Holder} {payload : Text} (h : AgreeOn names a b)
    {after : Fields} (hset : setLength holder payload a = .ok after) :
    ∃ other, setLength holder payload b = .ok other ∧ AgreeOn names after other := by
  cases holder with
  | none =>
    cases hset
    exact ⟨b,rfl,h⟩
  | some holder =>
    obtain ⟨bits,hbits,rfl⟩ := setLength_some_eq_ok.mp hset
    exact ⟨_,setLength_some_eq_ok.mpr ⟨bits,hbits,rfl⟩,h.set _ _⟩

theorem setLength_settles {holder : Plan.Holder} {payload : Text}
    (h : AgreeOn (· ≠ holder.name) a b) {after : Fields}
    (hset : setLength (some holder) payload a = .ok after) :
    ∃ other, setLength (some holder) payload b = .ok other ∧
      AgreeOn (fun _ => True) after other := by
  obtain ⟨bits,hbits,rfl⟩ := setLength_some_eq_ok.mp hset
  exact ⟨_,setLength_some_eq_ok.mpr ⟨bits,hbits,rfl⟩,h.settle _⟩

theorem encodePayloads_settles {holder : Plan.Holder} (hf : f ∈ fields)
    (hfixed : f.isFixed = false) (hl : f.head.lengthField = some holder)
    (hpayloads : ∀ g ∈ fields, g.isFixed = false → g.name ≠ holder.name)
    (h : AgreeOn (· ≠ holder.name) a b) {bytes : Text}
    (hok : (encodePayloads reg className fields a).1 = .ok bytes) :
    AgreeOn (fun _ => True) (encodePayloads reg className fields a).2
      (encodePayloads reg className fields b).2 := by
  induction fields generalizing a b bytes with
  | nil => cases hf
  | cons g fields ih =>
    have hrest : ∀ k ∈ fields, k.isFixed = false → k.name ≠ holder.name :=
      fun k hk => hpayloads k (by simp [hk])
    cases hg : g.isFixed with
    | true =>
      rw [encodePayloads_of_fixed hg] at hok ⊢
      rw [encodePayloads_of_fixed hg]
      refine ih ?_ hrest h hok
      rcases List.mem_cons.mp hf with rfl | hf
      · rw [hg] at hfixed
        cases hfixed
      · exact hf
    | false =>
      obtain ⟨part,after,more,hpart,hset,hmore,-⟩ := encodePayloads_inv hg hok
      obtain ⟨hsame,hagree⟩ := encodePayload_agree reg h (hpayloads g (by simp) hg)
      have hsecond : (encodePayload reg g b).1 = .ok part := hsame.symm.trans hpart
      rw [encodePayloads_of_part hg hpart hset]
      rcases List.mem_cons.mp hf with rfl | hf
      · rw [hl] at hset
        obtain ⟨other,hother,hsettled⟩ := setLength_settles hagree hset
        rw [encodePayloads_of_part hg hsecond (hl ▸ hother)]
        exact (encodePayloads_agree reg className (fun _ _ _ => trivial) hsettled).2
      · obtain ⟨other,hother,hagree⟩ := setLength_agree hagree hset
        rw [encodePayloads_of_part hg hsecond hother]
        exact ih hf hrest hagree hmore

theorem encodeFixed_agree (hfields : ∀ f ∈ fields, f.isFixed = true → names f.name)
    (h : AgreeOn names a b) : encodeFixed className a fields = encodeFixed className b fields := by
  induction fields with
  | nil => rfl
  | cons f fields ih =>
    rw [encodeFixed,encodeFixed,ih fun g hg => hfields g (by simp [hg])]
    split
    · rename_i hfixed
      rw [h f.name (hfields f (by simp) hfixed)]
    · rfl

theorem encodeFixed_place (hnames : (fields.map Plan.Field.name).Nodup) (hf : f ∈ fields)
    (hfixed : f.isFixed = true) {bytes : Text} (h : encodeFixed className a fields = .ok bytes) :
    ∃ front old back, bytes = front ++ old ++ back ∧
      encodeFixedField f ((a.get? f.name).getD .nil) = .ok old ∧
      ∀ b new, AgreeOn (· ≠ f.name) a b →
        encodeFixedField f ((b.get? f.name).getD .nil) = .ok new →
        encodeFixed className b fields = .ok (front ++ new ++ back) := by
  induction fields generalizing bytes with
  | nil => cases hf
  | cons g fields ih =>
    obtain ⟨hfirst,hrest⟩ := List.nodup_cons.mp hnames
    rw [encodeFixed] at h
    rcases List.mem_cons.mp hf with rfl | hf
    · simp only [hfixed,if_true,Result.bind_eq_ok,Result.pure_eq_ok,Except.ok.injEq] at h
      obtain ⟨old,hold,back,hback,rfl⟩ := h
      refine ⟨[],old,back,rfl,Result.mapError_eq_ok.mp hold,?_⟩
      intro b new hagree hnew
      have hothers : ∀ g ∈ fields, g.isFixed = true → g.name ≠ f.name :=
        fun g hg _ heq => hfirst (heq ▸ List.mem_map_of_mem hg)
      rw [encodeFixed,← encodeFixed_agree hothers hagree,hback,hnew]
      simp [hfixed,within,Except.mapError]
    · have hne : g.name ≠ f.name := fun heq => hfirst (heq ▸ List.mem_map_of_mem hf)
      cases hg : g.isFixed with
      | false =>
        simp only [hg,Bool.false_eq_true,if_false] at h
        obtain ⟨front,old,back,rfl,hold,hnew⟩ := ih hrest hf h
        refine ⟨front,old,back,rfl,hold,?_⟩
        intro b new hagree hb
        rw [encodeFixed,hnew b new hagree hb]
        simp [hg]
      | true =>
        simp only [hg,if_true,Result.bind_eq_ok,Result.pure_eq_ok,Except.ok.injEq] at h
        obtain ⟨part,hpart,more,hmore,rfl⟩ := h
        obtain ⟨front,old,back,rfl,hold,hnew⟩ := ih hrest hf hmore
        refine ⟨part ++ front,old,back,by simp,hold,?_⟩
        intro b new hagree hb
        rw [encodeFixed,hnew b new hagree hb,← hagree g.name hne,hpart]
        simp [hg]

/-- What is written behind the header of a record. -/
def encodeBody (reg : Registry) (plan : Plan.Class) (values : Fields) : Except Fault Text := do
  let payloads ← (encodePayloads reg plan.name plan.fields values).1
  return (← encodeFixed plan.name (encodePayloads reg plan.name plan.fields values).2
    plan.fields) ++ payloads

theorem encode_eq_ok {plan : Plan.Class} {r : Record} {bytes : Text} :
    (encode reg plan r).1 = .ok bytes ↔ ∃ header body,
      (encodeHeader reg plan.parent r.header).1 = .ok header ∧
      encodeBody reg plan r.fields = .ok body ∧ bytes = header ++ body := by
  rw [encode_eq,encodeBody]
  obtain ⟨result,values⟩ := encodePayloads reg plan.name plan.fields r.fields
  cases result with
  | error fault => simp [encodeAround]
  | ok payloads =>
    simp only [encodeAround,Result.bind_eq_ok,Result.pure_eq_ok,Except.ok.injEq,Result.ok_bind]
    constructor
    · rintro ⟨header,hheader,fixed,hfixed,rfl⟩
      exact ⟨header,_,hheader,⟨fixed,hfixed,rfl⟩,by simp⟩
    · rintro ⟨header,_,hheader,⟨fixed,hfixed,rfl⟩,rfl⟩
      exact ⟨header,hheader,fixed,hfixed,by simp⟩

theorem fields_encode (plan : Plan.Class) (r : Record) :
    (encode reg plan r).2.fields = (encodePayloads reg plan.name plan.fields r.fields).2 := by
  rw [encode_eq]
  obtain ⟨result,values⟩ := encodePayloads reg plan.name plan.fields r.fields
  cases result with
  | error fault => rfl
  | ok payloads => rfl

end WireSchema.Record
