import WireSchema.Proofs.Record.Frame
import WireSchema.Proofs.Record.Reference
set_option autoImplicit false

namespace WireSchema

theorem Text.before_asymm {s t : Text} (h : before s t = true) : before t s = false := by
  cases hback : before t s with
  | false => rfl
  | true => simpa [before_irrefl] using before_trans h hback

namespace Fields

variable {name other : Text} {value : Value} {fields : Fields}

theorem set_set (name : Text) (value : Value) (fields : Fields) :
    set name value (set name value fields) = set name value fields := by
  induction fields with
  | nil => simp [set]
  | cons entry rest ih =>
    obtain ⟨key,old⟩ := entry
    by_cases heq : name = key
    · simp [set,heq]
    · cases hbefore : Text.before name key <;> simp [set,heq,hbefore,ih]

theorem set_comm (h : name ≠ other) (value more : Value) (fields : Fields) :
    set name value (set other more fields) = set other more (set name value fields) := by
  induction fields with
  | nil =>
    cases hbefore : Text.before name other with
    | true => simp [set,h,Ne.symm h,hbefore,Text.before_asymm hbefore]
    | false => simp [set,h,Ne.symm h,hbefore,Text.before_total h hbefore]
  | cons entry rest ih =>
    obtain ⟨key,old⟩ := entry
    have hirrefl := Text.before_irrefl
    have htrans := @Text.before_trans
    have htotal := @Text.before_total
    grind [set]

def Has (name : Text) (value : Value) (fields : Fields) : Prop := set name value fields = fields

theorem has_set (name : Text) (value : Value) (fields : Fields) :
    (fields.set name value).Has name value := set_set name value fields

theorem Has.get? (h : fields.Has name value) : fields.get? name = some value := by
  rw [← h,get?_set,if_pos rfl]

theorem Has.set (h : fields.Has name value) (hne : name ≠ other) (more : Value) :
    (fields.set other more).Has name value := by
  rw [Has,set_comm hne,h]

end Fields

namespace Record

variable {reg : Registry} {className name : Text} {f : Plan.Field Plan.Class}
  {fields : List (Plan.Field Plan.Class)} {values after : Fields} {plan : Plan.Class}

def writtenRecord? (reg : Registry) (f : Plan.Field Plan.Class) (values : Fields) :
    Option Record :=
  match f.shape, values.get? f.name with
  | .nested p, some (.record (some r)) => some (encode reg p r).2
  | _, _ => none

theorem writtenRecord?_eq_some {r : Record} (h : writtenRecord? reg f values = some r) :
    ∃ p before, f.shape = .nested p ∧ values.get? f.name = some (.record (some before)) ∧
      r = (encode reg p before).2 := by
  unfold writtenRecord? at h
  split at h
  · rename_i p before hshape hget
    exact ⟨p,before,hshape,hget,(Option.some.inj h).symm⟩
  · cases h

theorem writtenRecord?_congr {other : Fields} (h : other.get? f.name = values.get? f.name) :
    writtenRecord? reg f other = writtenRecord? reg f values := by
  rw [writtenRecord?,writtenRecord?,h]

theorem encodePayload_snd (reg : Registry) (f : Plan.Field Plan.Class) (values : Fields) :
    (encodePayload reg f values).2 = keep f.name values (writtenRecord? reg f values) := by
  unfold encodePayload writtenRecord?
  cases f.shape with
  | nested p =>
    cases hget : values.get? f.name with
    | none => rfl
    | some value =>
      cases value with
      | record r => cases r <;> rfl
      | _ => rfl
  | _ => rfl

/-- What stands at the name in the one map is left alone in the other. -/
structure Leaves (name : Text) (before after : Fields) : Prop where
  get? : after.get? name = before.get? name
  has : ∀ value, before.Has name value → after.Has name value

theorem Leaves.refl (name : Text) (values : Fields) : Leaves name values values :=
  ⟨rfl,fun _ h => h⟩

theorem Leaves.trans {mid : Fields} (h : Leaves name values mid) (h' : Leaves name mid after) :
    Leaves name values after :=
  ⟨h'.get?.trans h.get?,fun value hvalue => h'.has value (h.has value hvalue)⟩

theorem leaves_set {other : Text} (h : name ≠ other) (values : Fields) (value : Value) :
    Leaves name values (values.set other value) :=
  ⟨by rw [Fields.get?_set,if_neg h],fun _ hhas => hhas.set h value⟩

theorem leaves_encodePayload (h : name ≠ f.name) (values : Fields) :
    Leaves name values (encodePayload reg f values).2 := by
  rw [encodePayload_snd]
  cases writtenRecord? reg f values with
  | none => exact .refl name values
  | some r => exact leaves_set h values _

theorem leaves_setLength {holder : Option Plan.Holder} {payload : Text}
    (hset : setLength holder payload values = .ok after)
    (h : ∀ k, holder = some k → k.name ≠ name) : Leaves name values after := by
  cases holder with
  | none =>
    cases hset
    exact .refl name values
  | some k =>
    obtain ⟨bits,-,rfl⟩ := setLength_some_eq_ok.mp hset
    exact leaves_set (Ne.symm (h k rfl)) values _

theorem leaves_encodePayloads (h : ∀ f ∈ fields, f.isFixed = false → Spares name f) {bytes : Text}
    (hok : (encodePayloads reg className fields values).1 = .ok bytes) :
    Leaves name values (encodePayloads reg className fields values).2 := by
  induction fields generalizing values bytes with
  | nil => simpa [encodePayloads] using Leaves.refl name values
  | cons f fields ih =>
    have hrest : ∀ g ∈ fields, g.isFixed = false → Spares name g := fun g hg => h g (by simp [hg])
    cases hfixed : f.isFixed with
    | true =>
      rw [encodePayloads_of_fixed hfixed] at hok ⊢
      exact ih hrest hok
    | false =>
      obtain ⟨part,updated,more,hpart,hset,hmore,-⟩ := encodePayloads_inv hfixed hok
      rw [encodePayloads_of_part hfixed hpart hset]
      have hspares := h f (by simp) hfixed
      exact (leaves_encodePayload (Ne.symm hspares.1) values).trans
        ((leaves_setLength hset hspares.2).trans (ih hrest hmore))

/-- What the writing of a payload leaves in the values once all payloads have been written: the
record in the field as it was written, and the length of the payload. -/
structure Left (reg : Registry) (f : Plan.Field Plan.Class) (before after : Fields)
    (part : Text) : Prop where
  payload : (encodePayload reg f before).1 = .ok part
  written : ∀ r, writtenRecord? reg f before = some r → after.Has f.name (.record (some r))
  kept : writtenRecord? reg f before = none → after.get? f.name = before.get? f.name
  length : setLength f.head.lengthField part after = .ok after

theorem Left.congr {before other : Fields} {part : Text} (h : Left reg f other after part)
    (hget : other.get? f.name = before.get? f.name) : Left reg f before after part where
  payload := (encodePayload_congr hget).symm.trans h.payload
  written := fun r hr => h.written r ((writtenRecord?_congr hget).trans hr)
  kept := fun hr => (h.kept ((writtenRecord?_congr hget).trans hr)).trans hget
  length := h.length

theorem setLength_again {holder : Option Plan.Holder} {payload : Text}
    (hset : setLength holder payload values = .ok after) {last : Fields}
    (h : ∀ k, holder = some k → Leaves k.name after last) :
    setLength holder payload last = .ok last := by
  cases holder with
  | none => rfl
  | some k =>
    obtain ⟨bits,hbits,rfl⟩ := setLength_some_eq_ok.mp hset
    have hhas : last.Has k.name (number k.carrier bits) :=
      (h k rfl).has _ (Fields.has_set k.name _ values)
    exact setLength_some_eq_ok.mpr ⟨bits,hbits,hhas⟩

theorem Arranged.spares_behind (h : Arranged (f :: fields)) (hfixed : f.isFixed = false) :
    (∀ g ∈ fields, g.isFixed = false → Spares f.name g) ∧
    ∀ k, f.head.lengthField = some k → ∀ g ∈ fields, g.isFixed = false → Spares k.name g := by
  refine ⟨fun g hg _ => ⟨h.other hg,h.apart f (by simp) hfixed g (by simp [hg])⟩,?_⟩
  intro k hk g hg hg'
  refine ⟨Ne.symm (h.apart g (by simp [hg]) hg' f (by simp) k hk),?_⟩
  intro other hother heq
  exact h.other hg (h.single g (by simp [hg]) f (by simp) other k hother hk heq)

theorem encodePayloads_left (hfields : Arranged fields) {given : Fields}
    (hgiven : ∀ f ∈ fields, f.isFixed = false → values.get? f.name = given.get? f.name)
    {bytes : Text} (h : (encodePayloads reg className fields values).1 = .ok bytes) :
    ∃ parts, bytes = parts.flatten ∧
      List.Forall₂ (fun f part =>
        Left reg f given (encodePayloads reg className fields values).2 part)
        (fields.filter fun f => !f.isFixed) parts := by
  induction fields generalizing values bytes with
  | nil =>
    simp only [encodePayloads,Except.ok.injEq] at h
    exact ⟨[],h.symm,.nil⟩
  | cons f fields ih =>
    cases hfixed : f.isFixed with
    | true =>
      rw [encodePayloads_of_fixed hfixed] at h ⊢
      simpa [hfixed] using ih hfields.tail (fun g hg => hgiven g (by simp [hg])) h
    | false =>
      obtain ⟨part,updated,more,hpart,hset,hmore,rfl⟩ := encodePayloads_inv hfixed h
      rw [encodePayloads_of_part hfixed hpart hset]
      have hback : ∀ g ∈ fields, g.isFixed = false → updated.get? g.name = given.get? g.name :=
        fun g hg hg' => (hfields.get?_behind hset hg hg').trans (hgiven g (by simp [hg]) hg')
      obtain ⟨parts,rfl,hparts⟩ := ih hfields.tail hback hmore
      obtain ⟨hown,hlength⟩ := hfields.spares_behind hfixed
      have hleaves : Leaves f.name (keep f.name values (writtenRecord? reg f values))
          (encodePayloads reg className fields updated).2 := by
        rw [← encodePayload_snd]
        exact (leaves_setLength hset (hfields.apart f (by simp) hfixed f (by simp))).trans
          (leaves_encodePayloads hown hmore)
      have hfirst : Left reg f values (encodePayloads reg className fields updated).2 part := by
        refine ⟨hpart,?_,?_,?_⟩
        · intro r hr
          rw [hr] at hleaves
          exact hleaves.has _ (Fields.has_set f.name _ values)
        · intro hr
          rw [hr] at hleaves
          exact hleaves.get?
        · exact setLength_again hset fun k hk => leaves_encodePayloads (hlength k hk) hmore
      refine ⟨part :: parts,by simp,?_⟩
      simpa [List.filter_cons,hfixed] using
        ⟨hfirst.congr (hgiven f (by simp) hfixed),hparts⟩

/-- A layout by which whatever has been written is written again as it was. -/
def Steady (reg : Registry) (plan : Plan.Class) : Prop :=
  ∀ r bytes, (encode reg plan r).1 = .ok bytes →
    encode reg plan (encode reg plan r).2 = (.ok bytes,(encode reg plan r).2)

theorem Left.record_cases {before : Fields} {part : Text} (h : Left reg f before after part) :
    (writtenRecord? reg f before = none ∧ after.get? f.name = before.get? f.name) ∨
    ∃ p given, f.shape = .nested p ∧ before.get? f.name = some (.record (some given)) ∧
      (encode reg p given).1 = .ok part ∧
      after.Has f.name (.record (some (encode reg p given).2)) := by
  cases hwritten : writtenRecord? reg f before with
  | none => exact .inl ⟨rfl,h.kept hwritten⟩
  | some r =>
    obtain ⟨p,given,hshape,hgiven,rfl⟩ := writtenRecord?_eq_some hwritten
    have hpart := h.payload
    rw [encodePayload_nested reg hshape hgiven] at hpart
    exact .inr ⟨p,given,hshape,hgiven,hpart,h.written _ hwritten⟩

theorem Left.again {before : Fields} {part : Text} (h : Left reg f before after part)
    (hnested : ∀ p, f.shape = .nested p → Steady reg p) :
    encodePayload reg f after = (.ok part,after) := by
  rcases h.record_cases with ⟨hnone,hget⟩ | ⟨p,given,hshape,-,hpart,hhas⟩
  · refine Prod.ext ((encodePayload_congr hget).trans h.payload) ?_
    rw [encodePayload_snd,writtenRecord?_congr hget,hnone]
    rfl
  · rw [encodePayload_nested reg hshape hhas.get?,hnested p hshape given part hpart]
    exact Prod.ext rfl hhas

theorem encodePayloads_steady {parts : List Text}
    (h : List.Forall₂ (fun f part => encodePayload reg f values = (.ok part,values) ∧
      setLength f.head.lengthField part values = .ok values)
      (fields.filter fun f => !f.isFixed) parts) :
    encodePayloads reg className fields values = (.ok parts.flatten,values) := by
  induction fields generalizing parts with
  | nil =>
    cases h
    rfl
  | cons f fields ih =>
    cases hfixed : f.isFixed with
    | true =>
      rw [encodePayloads_of_fixed hfixed]
      exact ih (by simpa [hfixed] using h)
    | false =>
      simp only [List.filter_cons,hfixed,Bool.not_false,if_true] at h
      cases h with
      | @cons _ part _ _ hfirst hrest =>
        obtain ⟨hpayload,hset⟩ := hfirst
        have hlength : setLength f.head.lengthField part (encodePayload reg f values).2 =
            .ok values := by rw [hpayload,hset]
        rw [encodePayloads_of_part hfixed (congrArg Prod.fst hpayload) hlength,ih hrest]
        rfl

theorem encodeHeader_steady {parent : Option Plan.Class} (hparent : ∀ p, parent = some p →
      Steady reg p) {header : Option Record} {bytes : Text}
    (h : (encodeHeader reg parent header).1 = .ok bytes) :
    encodeHeader reg parent (encodeHeader reg parent header).2 =
      (.ok bytes,(encodeHeader reg parent header).2) := by
  cases parent with
  | none => exact Prod.ext h rfl
  | some p =>
    cases header with
    | none => exact Prod.ext h rfl
    | some r =>
      have hagain := hparent p rfl r bytes h
      simp only [encodeHeader,encodeOr,hagain]

theorem encode_ok {r : Record} {bytes : Text} (h : (encode reg plan r).1 = .ok bytes) :
    ∃ header fixed payloads, (encodeHeader reg plan.parent r.header).1 = .ok header ∧
      (encodePayloads reg plan.name plan.fields r.fields).1 = .ok payloads ∧
      encodeFixed plan.name (encode reg plan r).2.fields plan.fields = .ok fixed ∧
      bytes = header ++ fixed ++ payloads ∧ (encode reg plan r).2 = .mk r.className
        (encodeHeader reg plan.parent r.header).2
        (encodePayloads reg plan.name plan.fields r.fields).2 := by
  rw [encode_eq] at h ⊢
  cases hpayloads : encodePayloads reg plan.name plan.fields r.fields with
  | mk result after =>
    rw [hpayloads] at h
    cases result with
    | error fault => cases h
    | ok payloads =>
      simp only [encodeAround,Result.bind_eq_ok,Result.pure_eq_ok,Except.ok.injEq] at h
      obtain ⟨header,hheader,fixed,hfixed,rfl⟩ := h
      exact ⟨header,fixed,payloads,hheader,rfl,hfixed,rfl,rfl⟩

theorem encode_of_parts {r : Record} {header fixed payloads : Text} {front : Option Record}
    (hheader : encodeHeader reg plan.parent r.header = (.ok header,front))
    (hpayloads : encodePayloads reg plan.name plan.fields r.fields = (.ok payloads,after))
    (hfixed : encodeFixed plan.name after plan.fields = .ok fixed) :
    encode reg plan r = (.ok (header ++ fixed ++ payloads),.mk r.className front after) := by
  rw [encode_eq,hpayloads]
  simp only [encodeAround,hheader,hfixed,Result.ok_bind,Result.pure_eq_ok]

theorem steady_of_wellFormed (hwf : plan.Forall Plan.Class.WellFormed) : Steady reg plan := by
  induction hwf with
  | @mk plan own _ _ hparent hnested =>
    intro r bytes h
    obtain ⟨header,fixed,payloads,hheader,hpayloads,hfixed,rfl,hafter⟩ := encode_ok h
    rw [hafter] at hfixed ⊢
    obtain ⟨parts,rfl,hparts⟩ :=
      encodePayloads_left (arranged_of_wellFormed own) (fun _ _ _ => rfl) hpayloads
    have hsteady : ∀ f ∈ plan.fields.filter fun f => !f.isFixed, ∀ p, f.shape = .nested p →
        Steady reg p := fun f hf => hnested f (List.mem_filter.mp hf).1
    have hagain : encodePayloads reg plan.name plan.fields
        (encodePayloads reg plan.name plan.fields r.fields).2 =
          (.ok parts.flatten,(encodePayloads reg plan.name plan.fields r.fields).2) :=
      encodePayloads_steady (((List.forall₂_and_left _ _).mpr ⟨hsteady,hparts⟩).imp
        fun f part hleft => ⟨hleft.2.again hleft.1,hleft.2.length⟩)
    exact encode_of_parts (encodeHeader_steady hparent hheader) hagain hfixed

def HoldsLength (fields : List (Plan.Field Plan.Class)) (name : Text) : Prop :=
  ∃ f ∈ fields, ∃ k, f.head.lengthField = some k ∧ k.name = name

theorem HoldsLength.cons (h : HoldsLength (f :: fields) name) :
    (∃ k, f.head.lengthField = some k ∧ k.name = name) ∨ HoldsLength fields name := by
  obtain ⟨g,hg,k,hk,hname⟩ := h
  rcases List.mem_cons.mp hg with rfl | hg
  · exact .inl ⟨k,hk,hname⟩
  · exact .inr ⟨g,hg,k,hk,hname⟩

mutual

/-- Two records of a class that differ at most in fields that hold lengths, in those of their own
and in those of the records in them. -/
inductive UpToLengths : Plan.Class → Record → Record → Prop
  | mk {plan : Plan.Class} {r s : Record} (className : s.className = r.className)
      (header : HeaderUpToLengths plan.parent r.header s.header)
      (fields : ∀ f ∈ plan.fields, ¬ HoldsLength plan.fields f.name →
        ValueUpToLengths f.shape (r.fields.get? f.name) (s.fields.get? f.name))
      (others : ∀ name, (∀ f ∈ plan.fields, f.name ≠ name) →
        s.fields.get? name = r.fields.get? name) : UpToLengths plan r s

inductive HeaderUpToLengths : Option Plan.Class → Option Record → Option Record → Prop
  | same {parent : Option Plan.Class} {header : Option Record} :
      HeaderUpToLengths parent header header
  | parent {p : Plan.Class} {r s : Record} (header : UpToLengths p r s) :
      HeaderUpToLengths (some p) (some r) (some s)

inductive ValueUpToLengths : Plan.Shape Plan.Class → Option Value → Option Value → Prop
  | same {shape : Plan.Shape Plan.Class} {value : Option Value} :
      ValueUpToLengths shape value value
  | nested {p : Plan.Class} {r s : Record} (record : UpToLengths p r s) :
      ValueUpToLengths (.nested p) (some (.record (some r))) (some (.record (some s)))

end

/-- A record of a class whose lengths are those of the payloads in it, as numbers of the fields that
hold them, and so on for the records in it. -/
inductive Framed (reg : Registry) : Plan.Class → Record → Prop
  | mk {plan : Plan.Class} {r : Record}
      (lengths : ∀ f ∈ plan.fields, ∀ k, f.head.lengthField = some k → ∃ part bits,
        (encodePayload reg f r.fields).1 = .ok part ∧
        r.fields.get? k.name = some (number k.carrier bits) ∧
        (number k.carrier bits).integer? = some (part.length : Int))
      (parent : ∀ p h, plan.parent = some p → r.header = some h → Framed reg p h)
      (nested : ∀ f ∈ plan.fields, ∀ p s, f.shape = .nested p →
        r.fields.get? f.name = some (.record (some s)) → Framed reg p s) : Framed reg plan r

theorem Arranged.not_holdsLength (h : Arranged fields) (hf : f ∈ fields)
    (hfixed : f.isFixed = false) : ¬ HoldsLength fields f.name := by
  rintro ⟨g,hg,k,hk,heq⟩
  exact h.apart f hf hfixed g hg k hk heq

theorem Arranged.spares_of_fixed (h : Arranged fields) (hf : f ∈ fields)
    (hfixed : f.isFixed = true) (hholds : ¬ HoldsLength fields f.name) :
    ∀ g ∈ fields, g.isFixed = false → Spares f.name g :=
  fun g hg hg' => ⟨h.name_ne hf hfixed hg hg',fun k hk heq => hholds ⟨g,hg,k,hk,heq⟩⟩

theorem left_of_encode (hwf : plan.WellFormed) {r : Record} {bytes : Text}
    (h : (encode reg plan r).1 = .ok bytes) (hf : f ∈ plan.fields) (hfixed : f.isFixed = false) :
    ∃ part, Left reg f r.fields (encode reg plan r).2.fields part := by
  obtain ⟨_,_,payloads,-,hpayloads,-,-,-⟩ := encode_ok h
  obtain ⟨parts,-,hparts⟩ :=
    encodePayloads_left (arranged_of_wellFormed hwf) (fun _ _ _ => rfl) hpayloads
  have hmem : f ∈ plan.fields.filter fun f => !f.isFixed := by simp [hf,hfixed]
  obtain ⟨part,-,hleft⟩ := exists_of_forall₂ hparts.flip hmem
  rw [fields_encode]
  exact ⟨part,hleft⟩

theorem upToLengths_encode (hwf : plan.Forall Plan.Class.WellFormed) {r : Record} {bytes : Text}
    (h : (encode reg plan r).1 = .ok bytes) : UpToLengths plan r (encode reg plan r).2 := by
  induction hwf generalizing r bytes with
  | @mk plan own _ _ hparent hnested =>
    have hfields := arranged_of_wellFormed own
    obtain ⟨header,_,payloads,hheader,hpayloads,-,-,hafter⟩ := encode_ok h
    refine ⟨by rw [hafter]; rfl,?_,?_,?_⟩
    · rw [hafter]
      cases hp : plan.parent with
      | none => exact .same
      | some p =>
        cases hr : r.header with
        | none => exact .same
        | some front =>
          rw [hp,hr] at hheader
          exact .parent (hparent p hp hheader)
    · intro f hf hholds
      cases hfixed : f.isFixed with
      | true =>
        have hleaves := leaves_encodePayloads (hfields.spares_of_fixed hf hfixed hholds) hpayloads
        rw [fields_encode,hleaves.get?]
        exact .same
      | false =>
        obtain ⟨part,hleft⟩ := left_of_encode own h hf hfixed
        rcases hleft.record_cases with ⟨-,hget⟩ | ⟨p,before,hshape,hget,hpart,hhas⟩
        · rw [hget]
          exact .same
        · rw [hhas.get?,hget,hshape]
          exact .nested (hnested f hf p hshape hpart)
    · intro name hname
      have hspares : ∀ f ∈ plan.fields, f.isFixed = false → Spares name f := by
        intro f hf _
        refine ⟨hname f hf,fun k hk heq => ?_⟩
        obtain ⟨g,hg,hgname,-⟩ := own.holder hf hk
        exact hname g hg (hgname.trans heq)
      rw [fields_encode]
      exact (leaves_encodePayloads hspares hpayloads).get?

theorem integer_lengthBits {carrier : Primitive} {n : Nat} {bits : UInt64}
    (h : lengthBits carrier n = .ok bits) : (number carrier bits).integer? = some (n : Int) := by
  rw [lengthBits_eq] at h
  split at h
  · rename_i hsmall
    cases h
    obtain ⟨hn,-⟩ := toNat_of_le_maxSize hsmall.1
    rw [integer_number,denote_of_le (by omega) (by omega),hn]
  · cases h

theorem framed_encode (hwf : plan.Forall Plan.Class.WellFormed) {r : Record} {bytes : Text}
    (h : (encode reg plan r).1 = .ok bytes) : Framed reg plan (encode reg plan r).2 := by
  induction hwf generalizing r bytes with
  | @mk plan own _ hwf hparent hnested =>
    have hfields := arranged_of_wellFormed own
    obtain ⟨header,_,payloads,hheader,hpayloads,-,-,hafter⟩ := encode_ok h
    refine ⟨?_,?_,?_⟩
    · intro f hf k hk
      obtain ⟨part,hleft⟩ := left_of_encode own h hf (hfields.not_isFixed hf hk)
      have hagain := hleft.again fun p hshape => steady_of_wellFormed (hwf f hf p hshape)
      have hlength := hleft.length
      rw [hk] at hlength
      obtain ⟨bits,hbits,hhas⟩ := setLength_some_eq_ok.mp hlength
      exact ⟨part,bits,by rw [hagain],Fields.Has.get? hhas,integer_lengthBits hbits⟩
    · intro p front hp hfront
      rw [hafter,header_mk,hp] at hfront
      cases hr : r.header with
      | none =>
        rw [hr] at hfront
        cases hfront
      | some given =>
        rw [hp,hr] at hheader
        rw [hr] at hfront
        cases hfront
        exact hparent p hp hheader
    · intro f hf p s hshape hget
      have hfixed : f.isFixed = false :=
        Bool.eq_false_iff.mpr fun htrue => (hfields.regular f hf).not_nested htrue p hshape
      obtain ⟨part,hleft⟩ := left_of_encode own h hf hfixed
      rcases hleft.record_cases with ⟨hnone,hkept⟩ | ⟨q,before,hq,-,hpart,hhas⟩
      · rw [hkept] at hget
        simp [writtenRecord?,hshape,hget] at hnone
      · rw [hhas.get?] at hget
        cases hget
        rw [hshape] at hq
        cases hq
        exact hnested f hf p hshape hpart

theorem setLength_alike {names : Text → Prop} {a b : Fields} {holder : Option Plan.Holder}
    {payload : Text} (h : AgreeOn names a b) (hset : setLength holder payload a = .ok after) :
    ∃ other, setLength holder payload b = .ok other ∧
      AgreeOn (fun name => names name ∨ ∃ k, holder = some k ∧ k.name = name) after other := by
  cases holder with
  | none =>
    cases hset
    refine ⟨b,rfl,?_⟩
    rintro name (hname | ⟨k,hk,-⟩)
    · exact h name hname
    · cases hk
  | some k =>
    obtain ⟨bits,hbits,rfl⟩ := setLength_some_eq_ok.mp hset
    refine ⟨b.set k.name (number k.carrier bits),setLength_some_eq_ok.mpr ⟨bits,hbits,rfl⟩,?_⟩
    rintro name (hname | ⟨other,hother,rfl⟩)
    · exact h.set _ _ name hname
    · cases hother
      rw [Fields.get?_set,Fields.get?_set,if_pos rfl,if_pos rfl]

theorem encodePayloads_alike {names : Text → Prop} (hfields : Arranged fields) {a b : Fields}
    (hnames : ∀ f ∈ fields, f.isFixed = false → ¬ names f.name)
    (hpayloads : ∀ f ∈ fields, f.isFixed = false → ∀ part,
      (encodePayload reg f a).1 = .ok part → (encodePayload reg f b).1 = .ok part)
    (h : AgreeOn names a b) {bytes : Text}
    (hok : (encodePayloads reg className fields a).1 = .ok bytes) :
    (encodePayloads reg className fields b).1 = .ok bytes ∧
      AgreeOn (fun name => names name ∨ HoldsLength fields name)
        (encodePayloads reg className fields a).2 (encodePayloads reg className fields b).2 := by
  induction fields generalizing a b names bytes with
  | nil =>
    refine ⟨by simpa [encodePayloads] using hok,?_⟩
    rintro name (hname | ⟨f,hf,-⟩)
    · simpa [encodePayloads] using h name hname
    · cases hf
  | cons f fields ih =>
    cases hfixed : f.isFixed with
    | true =>
      rw [encodePayloads_of_fixed hfixed] at hok ⊢
      rw [encodePayloads_of_fixed hfixed]
      obtain ⟨hbytes,hafter⟩ := ih hfields.tail (fun g hg => hnames g (by simp [hg]))
        (fun g hg => hpayloads g (by simp [hg])) h hok
      refine ⟨hbytes,?_⟩
      rintro name (hname | hname)
      · exact hafter name (.inl hname)
      · rcases hname.cons with ⟨k,hk,-⟩ | hname
        · rw [hfields.unframed f (by simp) hfixed] at hk
          cases hk
        · exact hafter name (.inr hname)
    | false =>
      obtain ⟨part,updated,more,hpart,hset,hmore,rfl⟩ := encodePayloads_inv hfixed hok
      have hother := hpayloads f (by simp) hfixed part hpart
      have hagree : AgreeOn names (encodePayload reg f a).2 (encodePayload reg f b).2 := by
        intro name hname
        have hne : name ≠ f.name := fun heq => hnames f (by simp) hfixed (heq ▸ hname)
        rw [get?_encodePayload hne,get?_encodePayload hne,h name hname]
      obtain ⟨other,hlength,halike⟩ := setLength_alike hagree hset
      rw [encodePayloads_of_part hfixed hpart hset,encodePayloads_of_part hfixed hother hlength]
      -- What is written behind this payload is told by fields that it leaves alone.
      have hrest : ∀ g ∈ fields, g.isFixed = false → ∀ piece,
          (encodePayload reg g updated).1 = .ok piece →
          (encodePayload reg g other).1 = .ok piece := by
        intro g hg hg' piece hpiece
        rw [encodePayload_congr (hfields.get?_behind hset hg hg')] at hpiece
        rw [encodePayload_congr (hfields.get?_behind hlength hg hg')]
        exact hpayloads g (by simp [hg]) hg' piece hpiece
      have hsettled : ∀ g ∈ fields, g.isFixed = false →
          ¬ (names g.name ∨ ∃ k, f.head.lengthField = some k ∧ k.name = g.name) := by
        rintro g hg hg' (hname | ⟨k,hk,hname⟩)
        · exact hnames g (by simp [hg]) hg' hname
        · exact hfields.apart g (by simp [hg]) hg' f (by simp) k hk hname
      obtain ⟨hbytes,hafter⟩ := ih hfields.tail hsettled hrest halike hmore
      refine ⟨by rw [hbytes]; rfl,?_⟩
      rintro name (hname | hname)
      · exact hafter name (.inl (.inl hname))
      · rcases hname.cons with hname | hname
        · exact hafter name (.inl (.inr hname))
        · exact hafter name (.inr hname)

/-- A layout by which records that differ in their lengths alone are written alike. -/
def Alike (reg : Registry) (plan : Plan.Class) : Prop :=
  ∀ r s bytes, UpToLengths plan r s → (encode reg plan r).1 = .ok bytes →
    (encode reg plan s).1 = .ok bytes

theorem encodeHeader_alike {parent : Option Plan.Class} {first second : Option Record}
    (h : HeaderUpToLengths parent first second) (hparent : ∀ p, parent = some p → Alike reg p)
    {bytes : Text} (hok : (encodeHeader reg parent first).1 = .ok bytes) :
    (encodeHeader reg parent second).1 = .ok bytes := by
  cases h with
  | same => exact hok
  | parent hrecord => exact hparent _ rfl _ _ bytes hrecord hok

theorem encodePayload_alike {a b : Fields}
    (h : ValueUpToLengths f.shape (a.get? f.name) (b.get? f.name))
    (hnested : ∀ p, f.shape = .nested p → Alike reg p) {part : Text}
    (hok : (encodePayload reg f a).1 = .ok part) : (encodePayload reg f b).1 = .ok part := by
  generalize ha : a.get? f.name = first at h
  generalize hb : b.get? f.name = second at h
  generalize hshape : f.shape = shape at h
  cases h with
  | same => rwa [encodePayload_congr (hb.trans ha.symm)]
  | nested hrecord =>
    rw [encodePayload_nested reg hshape ha] at hok
    rw [encodePayload_nested reg hshape hb]
    exact hnested _ hshape _ _ part hrecord hok

theorem ValueUpToLengths.eq {shape : Plan.Shape Plan.Class} {first second : Option Value}
    (h : ValueUpToLengths shape first second) (hshape : ∀ p, shape ≠ .nested p) :
    first = second := by
  cases h with
  | same => rfl
  | nested => exact absurd rfl (hshape _)

theorem alike_of_wellFormed (hwf : plan.Forall Plan.Class.WellFormed) : Alike reg plan := by
  induction hwf with
  | @mk plan own _ _ hparent hnested =>
    intro r s bytes h hok
    have hfields := arranged_of_wellFormed own
    obtain ⟨className,header,fields,others⟩ := h
    obtain ⟨front,fixed,payloads,hheader,hpayloads,hfixed,rfl,-⟩ := encode_ok hok
    have hfront := encodeHeader_alike header hparent hheader
    have heach : ∀ f ∈ plan.fields, f.isFixed = false → ∀ part,
        (encodePayload reg f r.fields).1 = .ok part →
        (encodePayload reg f s.fields).1 = .ok part :=
      fun f hf hvariable part => encodePayload_alike
        (fields f hf (hfields.not_holdsLength hf hvariable)) (hnested f hf)
    have hagree : AgreeOn (fun name => ∃ f ∈ plan.fields, f.isFixed = true ∧ f.name = name ∧
        ¬ HoldsLength plan.fields name) r.fields s.fields := by
      rintro name ⟨f,hf,hfixed,rfl,hholds⟩
      exact (fields f hf hholds).eq ((hfields.regular f hf).not_nested hfixed)
    have hapart : ∀ f ∈ plan.fields, f.isFixed = false → ¬ ∃ g ∈ plan.fields,
        g.isFixed = true ∧ g.name = f.name ∧ ¬ HoldsLength plan.fields f.name := by
      rintro f hf hvariable ⟨g,hg,hg',heq,-⟩
      exact hfields.name_ne hg hg' hf hvariable heq.symm
    obtain ⟨hbytes,hafter⟩ := encodePayloads_alike hfields hapart heach hagree hpayloads
    have hsame : encodeFixed plan.name (encodePayloads reg plan.name plan.fields s.fields).2
        plan.fields = .ok fixed := by
      rw [fields_encode] at hfixed
      rw [← hfixed]
      refine (encodeFixed_agree ?_ hafter).symm
      intro f hf hf'
      by_cases hholds : HoldsLength plan.fields f.name
      · exact .inr hholds
      · exact .inl ⟨f,hf,hf',rfl,hholds⟩
    rw [encode_of_parts (Prod.ext hfront rfl) (Prod.ext hbytes rfl) hsame]

end Record

namespace Codec

open Record (UpToLengths Framed)

theorem plan_of_encode {c : Codec} {r : Record} {bytes : Text} (h : (c.encode r).1 = .ok bytes) :
    ∃ plan, (c.plan r.className).1 = .ok plan := by
  unfold Codec.encode at h
  cases hplan : c.plan r.className with
  | mk result next =>
    rw [hplan] at h
    cases result with
    | error fault => cases h
    | ok plan => exact ⟨plan,rfl⟩

/-- Writing a record changes nothing in it but lengths, which are then those of its payloads. To
write it again gives the same bytes and changes nothing; and what stood in the fields of the lengths
before does not matter. -/
theorem encode_settles {path : Text} {doc : Document} {schema : Schema} {ws : List Schema.Warning}
    (h : Schema.compile path doc = .ok (schema,ws)) {supportsGc : Bool}
    {calls : List Planner.Call} {c : Codec}
    (hc : c.planner = (Planner.new schema supportsGc).after calls) {r : Record} {bytes : Text}
    (hok : (c.encode r).1 = .ok bytes) :
    ∃ plan, (c.plan r.className).1 = .ok plan ∧
      UpToLengths plan r (c.encode r).2.1 ∧ Framed c.registry plan (c.encode r).2.1 ∧
      (c.encode r).2.2.encode (c.encode r).2.1 = (.ok bytes,(c.encode r).2.1,(c.encode r).2.2) ∧
      ∀ s, UpToLengths plan r s → (c.encode s).1 = .ok bytes := by
  have hs := Schema.sound_of_compile h
  have hplanner : c.planner.Sound schema supportsGc := hc ▸ Planner.sound_after hs calls
  obtain ⟨plan,hplan⟩ := plan_of_encode hok
  obtain ⟨-,hlaid⟩ := plan_forall hs hplanner hplan
  have hwf : plan.Forall Plan.Class.WellFormed := hlaid.imp fun _ hl => hl.wellFormed hs
  have hencode := encode_of_plan hplan
  rw [hencode] at hok ⊢
  have hchanged := Record.upToLengths_encode hwf hok
  refine ⟨plan,hplan,hchanged,Record.framed_encode hwf hok,?_,?_⟩
  · have hname : (Record.encode c.registry plan r).2.className = r.className := by
      cases hchanged
      assumption
    have hagain := plan_again hplan
    have hfound : ((c.plan r.className).2.plan
        (Record.encode c.registry plan r).2.className).1 = .ok plan := by
      rw [hname,hagain]
    rw [encode_of_plan hfound,registry_plan,hname,hagain,
      Record.steady_of_wellFormed hwf r bytes hok]
  · intro s hsame
    have hname : s.className = r.className := by
      cases hsame
      assumption
    have hfound : (c.plan s.className).1 = .ok plan := by rw [hname,hplan]
    rw [encode_of_plan hfound]
    exact Record.alike_of_wellFormed hwf r s bytes hsame hok

def hello : Record :=
  .mk "MsgHello" (some (.mk "Hdr" none [("msg",.int 7),("seq",.word 1)]))
    [("body",.bytes [0xAA,0xBB]),("bodyLen",.text "many"),("urgent",.bool true)]

theorem hello_settles : ∃ plan, ((new helloSchema true .empty).plan "MsgHello").1 = .ok plan ∧
    UpToLengths plan hello ((new helloSchema true .empty).encode hello).2.1 ∧
    ((new helloSchema true .empty).encode hello).2.1.fields.get? "bodyLen" = some (.word 2) ∧
    ((new helloSchema true .empty).encode hello).1 =
      .ok [7,0,0,0x80,1,0,0,0,1,2,0,0xAA,0xBB] := by
  obtain ⟨ws,hcompile⟩ := compile_hello
  have hplanner : (new helloSchema true .empty).planner =
      (Planner.new helloSchema true).after [] := rfl
  have hbytes : ((new helloSchema true .empty).encode hello).1 =
      .ok [7,0,0,0x80,1,0,0,0,1,2,0,0xAA,0xBB] := by decide +kernel
  obtain ⟨plan,hplan,hchanged,-⟩ := encode_settles hcompile hplanner hbytes
  exact ⟨plan,hplan,hchanged,rfl,hbytes⟩

end Codec

end WireSchema
