import WireSchema.Proofs.Record.Codec
import WireSchema.Proofs.Record.Wire
set_option autoImplicit false

/-!
A layout of a compiled schema never leads a reader to a field of a kind that it does not expect, nor
to a length field without a number. The invariant is that the values read so far hold a number for
each field that holds one on the wire.
-/

namespace WireSchema.Record

def Fault.isWrongType : Fault → Bool
  | .notInteger _ | .notList _ | .unsuited .. | .unexpectedKind _ | .noLength _ => true
  | .inField _ _ cause => cause.isWrongType
  | _ => false

/-- The result is as said, or a fault that is not about types. -/
def Reads {α : Type} (x : Except Fault α) (post : α → Prop) : Prop :=
  match x with
  | .ok a => post a
  | .error fault => fault.isWrongType = false

section Reads

variable {α β : Type}

theorem Reads.bind {x : Except Fault α} {f : α → Except Fault β} {mid : α → Prop}
    {post : β → Prop} (hx : Reads x mid) (hf : ∀ a, mid a → Reads (f a) post) :
    Reads (x >>= f) post := by
  cases x with
  | error fault => exact hx
  | ok a => exact hf a hx

theorem Reads.within {x : Except Fault α} {post : α → Prop} {className field : Text}
    (hx : Reads x post) : Reads (within className field x) post := by
  cases x with
  | error fault => exact hx
  | ok a => exact hx

theorem Reads.imp {x : Except Fault α} {post other : α → Prop} (hx : Reads x post)
    (h : ∀ a, post a → other a) : Reads x other := by
  cases x with
  | error fault => exact hx
  | ok a => exact h a hx

end Reads

def HasNumber (values : Fields) (name : Text) : Prop :=
  (∃ bits, values.get? name = some (.word bits)) ∨ ∃ n, values.get? name = some (.int n)

theorem HasNumber.set {values : Fields} {name other : Text} {value : Value}
    (h : HasNumber values name) (hn : name ≠ other) :
    HasNumber (values.set other value) name := by
  simpa [HasNumber,Fields.get?_set,hn] using h

theorem hasNumber_number {values : Fields} {name : Text} {carrier : Primitive} {bits : UInt64} :
    HasNumber (values.set name (number carrier bits)) name := by
  unfold HasNumber number
  split <;> simp [Fields.get?_set]

theorem readBits_reads (size : Nat) (input : Text) : Reads (readBits size input) fun _ => True := by
  unfold readBits
  split
  · rfl
  · trivial

theorem readMany_reads (size count : Nat) (input : Text) :
    Reads (readMany size count input) fun _ => True := by
  induction count generalizing input with
  | zero => trivial
  | succ count ih =>
    refine (readBits_reads size input).bind ?_
    rintro ⟨bits,rest⟩ _
    exact (ih rest).bind fun _ _ => trivial

theorem decodeFixedField_reads {f : Plan.Field Plan.Class}
    (hf : (∃ carrier, f.shape = .scalar carrier) ∨ ∃ carrier count, f.shape = .array carrier count)
    (input : Text) :
    Reads (decodeFixedField f input) fun result => ∀ carrier, f.shape = .scalar carrier →
      f.head.transform = .none → ∃ bits, result.1 = number carrier bits := by
  unfold decodeFixedField
  rcases hf with ⟨carrier,hshape⟩ | ⟨carrier,count,hshape⟩
  · rw [hshape]
    refine (readBits_reads carrier.size input).bind ?_
    rintro ⟨bits,rest⟩ _
    rintro _ ⟨⟩ htransform
    exact ⟨unmaskBits f.head.transform bits,by rw [htransform]; rfl⟩
  · rw [hshape]
    refine (readMany_reads carrier.size count input).bind ?_
    rintro ⟨bits,rest⟩ _
    rintro _ ⟨⟩

def IsPlain (f : Plan.Field Plan.Class) : Prop :=
  (∃ carrier, f.shape = .scalar carrier) ∧ f.head.transform = .none

theorem decodeFixed_reads {className : Text} {fields : List (Plan.Field Plan.Class)}
    (hfields : Arranged fields) (values : Fields) (input : Text) :
    Reads (decodeFixed className fields values input) fun result =>
      (∀ f ∈ fields, IsPlain f → HasNumber result.1 f.name) ∧
      ∀ name, HasNumber values name → name ∉ fields.map Plan.Field.name →
        HasNumber result.1 name := by
  induction fields generalizing values input with
  | nil => simp [decodeFixed,Reads]
  | cons f fields ih =>
    have hregular := hfields.regular f (by simp)
    rw [decodeFixed]
    split
    · rename_i hfixed
      refine (decodeFixedField_reads (hregular.fixed.mp ((isFixed_iff f).mp hfixed))
        input).within.bind ?_
      rintro ⟨value,rest⟩ hvalue
      refine (ih hfields.tail (values.set f.name value) rest).imp ?_
      rintro result ⟨hplain,hkept⟩
      refine ⟨?_,?_⟩
      · intro g hg hgplain
        rcases List.mem_cons.mp hg with rfl | hg
        · obtain ⟨⟨carrier,hcarrier⟩,htransform⟩ := hgplain
          obtain ⟨bits,hbits⟩ := hvalue carrier hcarrier htransform
          have hset : value = number carrier bits := hbits
          refine hkept g.name ?_ (List.nodup_cons.mp hfields.names).1
          rw [hset]
          exact hasNumber_number
        · exact hplain g hg hgplain
      · intro name hnumber hname
        simp only [List.map_cons,List.mem_cons,not_or] at hname
        exact hkept name (hnumber.set hname.1) hname.2
    · rename_i hvariable
      refine (ih hfields.tail values input).imp ?_
      rintro result ⟨hplain,hkept⟩
      refine ⟨?_,?_⟩
      · intro g hg hgplain
        rcases List.mem_cons.mp hg with rfl | hg
        · obtain ⟨⟨carrier,hshape⟩,-⟩ := hgplain
          exact absurd (hregular.isFixed_scalar hshape) hvariable
        · exact hplain g hg hgplain
      · intro name hnumber hname
        simp only [List.map_cons,List.mem_cons,not_or] at hname
        exact hkept name hnumber hname.2

theorem readPayload_reads {holder : Option Plan.Holder} {values : Fields}
    (h : ∀ holder', holder = some holder' → HasNumber values holder'.name) (input : Text) :
    Reads (readPayload holder values input) fun _ => True := by
  have hread : ∀ n : Int, Reads ((Payload.read n input).mapError .payload) fun _ => True := by
    intro n
    cases Payload.read n input with
    | error fault => rfl
    | ok payload => trivial
  unfold readPayload
  cases holder with
  | none => trivial
  | some holder =>
    rcases h holder rfl with ⟨bits,hget⟩ | ⟨n,hget⟩
    · simp only [hget]
      exact hread _
    · simp only [hget]
      exact hread _

theorem decodePlain_reads (reg : Registry) {shape : Plan.Shape Plan.Class} (payload : Text)
    (h : (∃ type, shape = .external type) ∨ ∃ carrier, shape = .slice carrier) :
    Reads (decodePlain reg shape payload) fun _ => True := by
  rcases h with ⟨type,rfl⟩ | ⟨carrier,rfl⟩
  · simp only [decodePlain]
    cases reg.externals.find? type with
    | none => trivial
    | some kind =>
      cases hm : kind.read payload with
      | none => simp [hm,Reads,Fault.isWrongType]
      | some m => simp [hm,Reads]
  · simp only [decodePlain]
    split
    · rfl
    · exact (readMany_reads carrier.size _ payload).bind (by rintro ⟨_,_⟩ _; trivial)

theorem whole_reads {x : Except Fault (Record × Text)} (h : Reads x fun _ => True) :
    Reads (whole x) fun _ => True := by
  refine h.bind ?_
  rintro ⟨r,rest⟩ _
  cases rest with
  | nil => trivial
  | cons b rest => rfl

theorem decodePayload_reads (reg : Registry) {f : Plan.Field Plan.Class} {values : Fields}
    (hkind : (∃ carrier, f.shape = .slice carrier) ∨ (∃ type, f.shape = .external type) ∨
      ∃ p, f.shape = .nested p)
    (hholder : ∀ holder, f.head.lengthField = some holder → HasNumber values holder.name)
    (hnested : ∀ p, f.shape = .nested p → ∀ input, Reads (decode reg p input) fun _ => True)
    (input : Text) : Reads (decodePayload reg f values input) fun _ => True := by
  have hread := readPayload_reads hholder input
  unfold decodePayload
  rcases hkind with ⟨carrier,hshape⟩ | ⟨type,hshape⟩ | ⟨plan,hshape⟩
  · rw [hshape]
    refine hread.bind ?_
    rintro ⟨payload,rest⟩ _
    exact (decodePlain_reads reg payload (.inr ⟨carrier,rfl⟩)).bind fun _ _ => trivial
  · rw [hshape]
    refine hread.bind ?_
    rintro ⟨payload,rest⟩ _
    exact (decodePlain_reads reg payload (.inl ⟨type,rfl⟩)).bind fun _ _ => trivial
  · rw [hshape]
    cases hl : f.head.lengthField with
    | none =>
      refine (hnested plan hshape input).bind ?_
      rintro ⟨r,rest⟩ _
      trivial
    | some holder =>
      rw [hl] at hread
      refine hread.bind ?_
      rintro ⟨payload,rest⟩ _
      exact (whole_reads (hnested plan hshape payload)).bind fun _ _ => trivial

theorem decodePayloads_reads (reg : Registry) {className : Text}
    {fields : List (Plan.Field Plan.Class)} (hfields : Arranged fields) {values : Fields}
    (hholders : ∀ f ∈ fields, ∀ holder, f.head.lengthField = some holder →
      HasNumber values holder.name)
    (hnested : ∀ f ∈ fields, ∀ p, f.shape = .nested p → ∀ input,
      Reads (decode reg p input) fun _ => True)
    (input : Text) : Reads (decodePayloads reg className fields values input) fun _ => True := by
  induction fields generalizing values input with
  | nil => trivial
  | cons f fields ih =>
    have hbehind : ∀ g ∈ fields, ∀ holder, g.head.lengthField = some holder →
        HasNumber values holder.name := fun g hg => hholders g (by simp [hg])
    have hnested' : ∀ g ∈ fields, ∀ p, g.shape = .nested p → ∀ input,
        Reads (decode reg p input) fun _ => True := fun g hg => hnested g (by simp [hg])
    rw [decodePayloads_cons]
    cases hfixed : f.isFixed with
    | true => exact ih hfields.tail hbehind hnested' input
    | false =>
      refine (decodePayload_reads reg ((hfields.regular f (by simp)).payload hfixed)
        (hholders f (by simp)) (hnested f (by simp)) input).within.bind ?_
      rintro ⟨value,rest⟩ _
      -- The value of a payload takes no number away that a length is read from.
      refine ih hfields.tail ?_ hnested' rest
      intro g hg holder hl
      exact (hbehind g hg holder hl).set (hfields.apart f (by simp) hfixed g
        (by simp [hg]) holder hl)

theorem decode_reads (reg : Registry) {plan : Plan.Class} (h : plan.Forall Plan.Class.WellFormed)
    (input : Text) : Reads (decode reg plan input) fun _ => True := by
  induction h generalizing input with
  | @mk plan hwf _ _ hparent hnested =>
    have hfields := arranged_of_wellFormed hwf
    rw [decode_eq]
    have hheader : Reads (decodeHeader reg plan.parent input) fun _ => True := by
      cases hp : plan.parent with
      | none => trivial
      | some p => exact (hparent p hp input).bind (by rintro ⟨_,_⟩ _; trivial)
    refine hheader.bind ?_
    rintro ⟨header,input⟩ _
    refine (decodeFixed_reads hfields [] input).bind ?_
    rintro ⟨values,input⟩ ⟨hplain,_⟩
    have hholders : ∀ g ∈ plan.fields, ∀ holder, g.head.lengthField = some holder →
        HasNumber values holder.name := by
      intro g hg holder hl
      obtain ⟨f,hf,hname,hshape,htransform⟩ := hwf.holder hg hl
      rw [← hname]
      exact hplain f hf ⟨⟨_,hshape⟩,htransform⟩
    refine (decodePayloads_reads reg hfields hholders hnested input).bind ?_
    rintro ⟨values,input⟩ _
    trivial

end WireSchema.Record

namespace WireSchema.Codec

variable {schema : Schema}

theorem decode_typed (hs : schema.Sound) {supportsGc : Bool} {c : Codec}
    (hc : c.planner.Sound schema supportsGc) (className input : Text) :
    Record.Reads (c.decode className input).1 fun _ => True := by
  rw [decode_fst]
  refine Record.whole_reads ?_
  cases hplan : (c.plan className).1 with
  | error fault =>
    obtain ⟨cause,rfl⟩ | ⟨cause,rfl⟩ := plan_error hplan
    · rfl
    · rfl
  | ok plan =>
    obtain ⟨-,hlaid⟩ := plan_forall hs hc hplan
    exact Record.decode_reads _ (hlaid.imp fun _ h => h.wellFormed hs) input

/-- Every layout of a schema that has passed the checks is well formed in all its parts, whatever
was asked before, and no bytes make a codec complain of a wrong type. -/
theorem wellFormed_and_decode_typed {path : Text} {doc : Document} {ws : List Schema.Warning}
    (h : Schema.compile path doc = .ok (schema,ws)) (supportsGc : Bool)
    (calls : List Planner.Call) :
    (∀ c ∈ schema.classes, ∀ plan,
      (((Planner.new schema supportsGc).after calls).layout c).1 = .ok plan →
        plan.Forall Plan.Class.WellFormed) ∧
    ∀ (externals : External.Kinds) (className input : Text) (fault : Record.Fault),
      (decode ⟨(Planner.new schema supportsGc).after calls,externals⟩ className input).1 =
        .error fault → fault.isWrongType = false := by
  have hs := Schema.sound_of_compile h
  have hplanner : Planner.Sound schema supportsGc ((Planner.new schema supportsGc).after calls) :=
    Planner.sound_after hs calls
  refine ⟨?_,?_⟩
  · intro c hc plan hplan
    exact ((hplanner.layout hs hc).2 plan hplan).2.imp fun _ hlaid => hlaid.wellFormed hs
  · intro externals className input fault hfault
    have hreads : Record.Reads (decode ⟨(Planner.new schema supportsGc).after calls,externals⟩
        className input).1 fun _ => True := decode_typed hs hplanner className input
    rw [hfault] at hreads
    exact hreads

theorem hello_typed : ((new helloSchema true .empty).plan "MsgHello").1.isOk = true ∧
    (∀ c ∈ helloSchema.classes, ∀ plan, ((Planner.new helloSchema true).layout c).1 = .ok plan →
      plan.Forall Plan.Class.WellFormed) ∧
    ∀ input fault, ((new helloSchema true .empty).decode "MsgHello" input).1 = .error fault →
      fault.isWrongType = false := by
  obtain ⟨ws,hcompile⟩ := compile_hello
  obtain ⟨hwf,htyped⟩ := wellFormed_and_decode_typed hcompile true []
  exact ⟨by decide +kernel,hwf,htyped .empty "MsgHello"⟩

end WireSchema.Codec
