import WireSchema.Record.Value
set_option autoImplicit false

namespace WireSchema

namespace Text

theorem before_irrefl (t : Text) : before t t = false := by
  induction t with
  | nil => rfl
  | cons a as ih => simp [before,ih]

theorem before_trans {s t u : Text} (hst : before s t = true) (htu : before t u = true) :
    before s u = true := by
  induction s generalizing t u with
  | nil =>
    cases u with
    | nil => cases t <;> simp [before] at htu
    | cons c cs => rfl
  | cons a as ih =>
    cases t with
    | nil => simp [before] at hst
    | cons b bs =>
      cases u with
      | nil => simp [before] at htu
      | cons c cs =>
        simp only [before,Bool.or_eq_true,Bool.and_eq_true,decide_eq_true_eq,beq_iff_eq]
          at hst htu ⊢
        rcases hst with hab | ⟨rfl,has⟩
        · rcases htu with hbc | ⟨rfl,-⟩
          · exact .inl (UInt8.lt_trans hab hbc)
          · exact .inl hab
        · rcases htu with hbc | ⟨rfl,hbs⟩
          · exact .inl hbc
          · exact .inr ⟨rfl,ih has hbs⟩

theorem before_total {s t : Text} (h : s ≠ t) (hst : before s t = false) : before t s = true := by
  induction s generalizing t with
  | nil =>
    cases t with
    | nil => exact absurd rfl h
    | cons b bs => simp [before] at hst
  | cons a as ih =>
    cases t with
    | nil => rfl
    | cons b bs =>
      simp only [before,Bool.or_eq_false_iff,Bool.and_eq_false_iff,decide_eq_false_iff_not,
        beq_eq_false_iff_ne] at hst
      simp only [before,Bool.or_eq_true,Bool.and_eq_true,decide_eq_true_eq,beq_iff_eq]
      obtain ⟨hlt,hrest⟩ := hst
      by_cases hab : a = b
      · subst hab
        refine .inr ⟨rfl,ih (fun heq => h (by rw [heq])) ?_⟩
        rcases hrest with hne | hrest
        · exact absurd rfl hne
        · exact hrest
      · refine .inl ?_
        rcases UInt8.lt_or_lt_of_ne hab with hlt' | hgt
        · exact absurd hlt' hlt
        · exact hgt

end Text

namespace Fields

def Ordered (fields : Fields) : Prop := fields.Pairwise fun a b => Text.before a.1 b.1 = true

theorem ordered_nil : Ordered [] := List.Pairwise.nil

theorem mem_set {name : Text} {value : Value} {fields : Fields} {entry : Text × Value}
    (h : entry ∈ set name value fields) : entry = (name,value) ∨ entry ∈ fields := by
  induction fields with
  | nil => exact .inl (by simpa [set] using h)
  | cons first rest ih =>
    obtain ⟨other,old⟩ := first
    unfold set at h
    split at h
    · rcases List.mem_cons.mp h with rfl | h
      · exact .inl rfl
      · exact .inr (by simp [h])
    · split at h
      · rcases List.mem_cons.mp h with rfl | h
        · exact .inl rfl
        · exact .inr h
      · rcases List.mem_cons.mp h with rfl | h
        · exact .inr (by simp)
        · rcases ih h with rfl | h
          · exact .inl rfl
          · exact .inr (by simp [h])

theorem Ordered.set {fields : Fields} (h : Ordered fields) (name : Text) (value : Value) :
    Ordered (Fields.set name value fields) := by
  induction fields with
  | nil => exact List.pairwise_singleton _ _
  | cons first rest ih =>
    obtain ⟨other,old⟩ := first
    obtain ⟨hfirst,hrest⟩ := List.pairwise_cons.mp h
    unfold Fields.set
    split
    · rename_i heq
      subst heq
      exact List.pairwise_cons.mpr ⟨hfirst,hrest⟩
    · rename_i hne
      split
      · rename_i hbefore
        refine List.pairwise_cons.mpr ⟨?_,h⟩
        intro entry hentry
        rcases List.mem_cons.mp hentry with rfl | hentry
        · exact hbefore
        · exact Text.before_trans hbefore (hfirst entry hentry)
      · rename_i hbefore
        refine List.pairwise_cons.mpr ⟨?_,ih hrest⟩
        intro entry hentry
        rcases mem_set hentry with rfl | hentry
        · exact Text.before_total hne (by simpa using hbefore)
        · exact hfirst entry hentry

theorem get?_of_before {fields : Fields} {name : Text}
    (h : ∀ entry ∈ fields, Text.before name entry.1 = true) : fields.get? name = none := by
  induction fields with
  | nil => rfl
  | cons first rest ih =>
    obtain ⟨other,old⟩ := first
    have hne : name ≠ other := by
      rintro rfl
      have hself := h (name,old) (by simp)
      rw [Text.before_irrefl] at hself
      cases hself
    rw [get?,if_neg hne]
    exact ih fun entry hentry => h entry (by simp [hentry])

theorem eq_of_get?_eq {a b : Fields} (ha : Ordered a) (hb : Ordered b)
    (h : ∀ name, a.get? name = b.get? name) : a = b := by
  induction a generalizing b with
  | nil =>
    cases b with
    | nil => rfl
    | cons first rest =>
      have hfirst := h first.1
      simp [get?] at hfirst
  | cons first rest ih =>
    obtain ⟨name,value⟩ := first
    obtain ⟨hfirst,hrest⟩ := List.pairwise_cons.mp ha
    cases b with
    | nil =>
      have hname := h name
      simp [get?] at hname
    | cons other others =>
      obtain ⟨otherName,otherValue⟩ := other
      obtain ⟨hother,hothers⟩ := List.pairwise_cons.mp hb
      -- The first names agree, for either would be missing in the other list.
      have hname : name = otherName := by
        refine Decidable.byContradiction fun hne => ?_
        cases hbefore : Text.before name otherName with
        | true =>
          have hlookup := h name
          rw [get?,if_pos rfl,get?,if_neg hne,get?_of_before] at hlookup
          · cases hlookup
          · exact fun entry hentry => Text.before_trans hbefore (hother entry hentry)
        | false =>
          have hlookup := h otherName
          have hback := Text.before_total hne hbefore
          rw [get?,if_neg (Ne.symm hne),get?,if_pos rfl,get?_of_before] at hlookup
          · cases hlookup
          · exact fun entry hentry => Text.before_trans hback (hfirst entry hentry)
      subst hname
      have hvalue := h name
      simp only [get?,if_true,Option.some.injEq] at hvalue
      subst hvalue
      have htail : rest = others := by
        refine ih hrest hothers fun other => ?_
        by_cases hother' : other = name
        · subst hother'
          rw [get?_of_before hfirst,get?_of_before hother]
        · have hlookup := h other
          rwa [get?,if_neg hother',get?,if_neg hother'] at hlookup
      rw [htail]

theorem set_of_get? {fields : Fields} (h : Ordered fields) {name : Text} {value : Value}
    (hget : fields.get? name = some value) : set name value fields = fields := by
  refine eq_of_get?_eq (h.set name value) h fun other => ?_
  rw [get?_set]
  split
  · rename_i heq
    rw [heq,hget]
  · rfl

end Fields

end WireSchema
