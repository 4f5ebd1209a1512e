import WireSchema.Proofs.Plan.Containment
import WireSchema.Proofs.Record.Reencode
import WireSchema.Proofs.Record.RoundTrip
set_option autoImplicit false

/-!
Where a record ends is told by its own bytes, if each of its payloads has a length. A reader of such
a record takes the same bytes whatever stands behind them, and fewer bytes end too early, in
whatever field of whatever class. Readers that are put together keep this.
-/

namespace WireSchema.Record

/-- The input has ended inside a field. -/
def Fault.IsShort (fault : Fault) : Prop := fault.root = .payload .unexpectedEnd

/-- A reader that takes from the front what it needs and no more: whatever stands behind is left,
and any less ends too early. -/
def Exact {α : Type} (read : Text → Except Fault (α × Text)) : Prop :=
  ∀ input a rest, read input = .ok (a,rest) → ∃ bytes, input = bytes ++ rest ∧
    (∀ more, read (bytes ++ more) = .ok (a,more)) ∧
    ∀ front back, bytes = front ++ back → back ≠ [] →
      ∃ fault, read front = .error fault ∧ fault.IsShort

section Exact

variable {α β : Type}

theorem Exact.error (fault : Fault) : Exact fun _ => (.error fault : Except Fault (α × Text)) := by
  intro input a rest h
  cases h

theorem Exact.pure (a : α) : Exact fun input => .ok (a,input) := by
  intro input b rest h
  cases h
  refine ⟨[],rfl,fun _ => rfl,?_⟩
  intro front back hnil hback
  simp_all

theorem Exact.bind {x : Text → Except Fault (α × Text)} {f : α → Text → Except Fault (β × Text)}
    (hx : Exact x) (hf : ∀ a, Exact (f a)) : Exact fun input => x input >>= fun r => f r.1 r.2 := by
  intro input b rest h
  obtain ⟨⟨a,mid⟩,hfirst,hsecond⟩ := Result.bind_eq_ok.mp h
  obtain ⟨first,rfl,hmore,hshort⟩ := hx input a mid hfirst
  obtain ⟨second,rfl,hmore',hshort'⟩ := hf a mid b rest hsecond
  refine ⟨first ++ second,by simp,?_,?_⟩
  · intro more
    simp only [List.append_assoc,hmore,Result.ok_bind,hmore']
  · intro front back heq hback
    rcases List.append_eq_append_iff.mp heq with ⟨extra,rfl,hsplit⟩ | ⟨missing,hsplit,rfl⟩
    · obtain ⟨fault,hfault,his⟩ := hshort' extra back hsplit hback
      exact ⟨fault,by simp only [hmore,Result.ok_bind,hfault],his⟩
    · cases missing with
      | nil =>
        rw [List.append_nil] at hsplit
        obtain ⟨fault,hfault,his⟩ := hshort' [] second rfl hback
        have hread := hmore []
        rw [List.append_nil,hsplit] at hread
        exact ⟨fault,by simp only [hread,Result.ok_bind,hfault],his⟩
      | cons byte missing =>
        obtain ⟨fault,hfault,his⟩ := hshort front (byte :: missing) hsplit (by simp)
        exact ⟨fault,by simp only [hfault,Result.error_bind],his⟩

theorem Exact.map {x : Text → Except Fault (α × Text)} (hx : Exact x) (g : α → β) :
    Exact fun input => x input >>= fun r => .ok (g r.1,r.2) :=
  hx.bind fun a => Exact.pure (g a)

theorem Exact.check {x : Text → Except Fault (α × Text)} (hx : Exact x) (g : α → Except Fault β) :
    Exact fun input => x input >>= fun r => g r.1 >>= fun b => .ok (b,r.2) := by
  refine hx.bind (f := fun a rest => g a >>= fun b => .ok (b,rest)) fun a => ?_
  cases hg : g a with
  | error fault => exact Exact.error fault
  | ok b => exact Exact.pure b

theorem Exact.within {x : Text → Except Fault (α × Text)} (hx : Exact x)
    (className field : Text) : Exact fun input => within className field (x input) := by
  intro input a rest h
  obtain ⟨bytes,hinput,hmore,hshort⟩ := hx input a rest (Result.mapError_eq_ok.mp h)
  refine ⟨bytes,hinput,?_,?_⟩
  · intro more
    exact Result.mapError_eq_ok.mpr (hmore more)
  · intro front back heq hback
    obtain ⟨fault,hfault,his⟩ := hshort front back heq hback
    exact ⟨.inField className field fault,Result.mapError_eq_error.mpr ⟨fault,hfault,rfl⟩,his⟩

theorem exact_take (size : Nat) (g : Text → α) : Exact fun input =>
    if input.length < size then .error (.payload .unexpectedEnd)
    else .ok (g (input.take size),input.drop size) := by
  intro input a rest h
  by_cases hlength : input.length < size
  · simp [hlength] at h
  · simp only [hlength,if_false,Except.ok.injEq,Prod.mk.injEq] at h
    obtain ⟨rfl,rfl⟩ := h
    have htake : (input.take size).length = size := by simp; omega
    refine ⟨input.take size,(List.take_append_drop size input).symm,?_,?_⟩
    · intro more
      have hall : ¬ (input.take size ++ more).length < size := by simp; omega
      simp only [hall,if_false]
      rw [List.take_left' htake,List.drop_left' htake]
    · intro front back heq hback
      have hfront : front.length < size := by
        have hsum := congrArg List.length heq
        have hpos := List.length_pos_iff.mpr hback
        rw [htake,List.length_append] at hsum
        omega
      exact ⟨.payload .unexpectedEnd,by simp [hfront],rfl⟩

end Exact

theorem readBits_exact (size : Nat) : Exact (readBits size) := exact_take size load

theorem readMany_exact (size count : Nat) : Exact (readMany size count) := by
  induction count with
  | zero => exact Exact.pure []
  | succ count ih => exact (readBits_exact size).bind fun bits => ih.map (bits :: ·)

theorem decodeFixedField_exact (f : Plan.Field Plan.Class) : Exact (decodeFixedField f) := by
  unfold decodeFixedField
  cases f.shape with
  | array carrier count => exact (readMany_exact carrier.size count).map (numbers carrier)
  | scalar carrier =>
    exact (readBits_exact carrier.size).map fun bits =>
      scalarValue f.head.transform (some carrier) (unmaskBits f.head.transform bits)
  | _ => exact Exact.error _

theorem decodeFixed_exact (className : Text) (fields : List (Plan.Field Plan.Class))
    (values : Fields) : Exact (decodeFixed className fields values) := by
  induction fields generalizing values with
  | nil => exact Exact.pure values
  | cons f fields ih =>
    cases hfixed : f.isFixed with
    | true =>
      simp only [decodeFixed,hfixed,if_true]
      exact ((decodeFixedField_exact f).within className f.name).bind fun value =>
        ih (values.set f.name value)
    | false =>
      simp only [decodeFixed,hfixed,Bool.false_eq_true,if_false]
      exact ih values

theorem payloadRead_exact (n : Int) :
    Exact fun input => (Payload.read n input).mapError Fault.payload := by
  cases hsize : Payload.checkLength n with
  | error fault =>
    simp only [Payload.read,hsize,Result.error_bind,Except.mapError]
    exact Exact.error _
  | ok size =>
    have hread : (fun input => (Payload.read n input).mapError Fault.payload) = fun input =>
        if input.length < size then .error (.payload .unexpectedEnd)
        else .ok (input.take size,input.drop size) := by
      funext input
      simp only [Payload.read,hsize,Result.ok_bind]
      split <;> rfl
    rw [hread]
    exact exact_take size id

theorem readPayload_exact (holder : Plan.Holder) (values : Fields) :
    Exact (readPayload (some holder) values) := by
  unfold readPayload
  cases hvalue : values.get? holder.name with
  | none =>
    simp only [hvalue]
    exact Exact.error _
  | some value =>
    simp only [hvalue]
    cases value with
    | word bits => exact payloadRead_exact bits.toNat
    | int n => exact payloadRead_exact n.toInt
    | _ => exact Exact.error _

theorem decodePayload_exact (reg : Registry) {f : Plan.Field Plan.Class}
    (hframed : (∀ p, f.shape ≠ .nested p) → f.head.lengthField ≠ none)
    (hnested : ∀ p, f.shape = .nested p → Exact (decode reg p)) (values : Fields) :
    Exact (decodePayload reg f values) := by
  by_cases hrecord : ∃ p, f.shape = .nested p
  · obtain ⟨p,hshape⟩ := hrecord
    cases hl : f.head.lengthField with
    | none =>
      have hread : decodePayload reg f values = fun input =>
          decode reg p input >>= fun r => .ok (.record (some r.1),r.2) := by
        funext input
        simp only [decodePayload,hshape,hl]
        rfl
      rw [hread]
      exact (hnested p hshape).map fun r => Value.record (some r)
    | some holder =>
      have hread : decodePayload reg f values = fun input =>
          readPayload (some holder) values input >>= fun r =>
            ((whole (decode reg p r.1)).map fun q => .record (some q)) >>= fun value =>
              .ok (value,r.2) := by
        funext input
        simp only [decodePayload,hshape,hl]
        cases readPayload (some holder) values input with
        | error fault => rfl
        | ok r =>
          obtain ⟨payload,rest⟩ := r
          simp only [Result.ok_bind]
          cases whole (decode reg p payload) <;> rfl
      rw [hread]
      exact (readPayload_exact holder values).check fun payload =>
        (whole (decode reg p payload)).map fun q => Value.record (some q)
  · have hplain : ∀ p, f.shape ≠ .nested p := fun p hp => hrecord ⟨p,hp⟩
    obtain ⟨holder,hl⟩ := Option.ne_none_iff_exists'.mp (hframed hplain)
    have hread : decodePayload reg f values = fun input =>
        readPayload (some holder) values input >>= fun r =>
          decodePlain reg f.shape r.1 >>= fun value => .ok (value,r.2) := by
      funext input
      rw [decodePayload_plain reg hplain,hl]
      rfl
    rw [hread]
    exact (readPayload_exact holder values).check (decodePlain reg f.shape)

theorem decodePayloads_exact (reg : Registry) (className : Text)
    {fields : List (Plan.Field Plan.Class)}
    (hfields : ∀ f ∈ fields, f.isFixed = false → ∀ values, Exact (decodePayload reg f values))
    (values : Fields) : Exact (decodePayloads reg className fields values) := by
  induction fields generalizing values with
  | nil =>
    have hnil : decodePayloads reg className [] values = fun input => .ok (values,input) := by
      funext input
      rw [decodePayloads]
    rw [hnil]
    exact Exact.pure values
  | cons f fields ih =>
    have hbehind : ∀ g ∈ fields, g.isFixed = false → ∀ values, Exact (decodePayload reg g values) :=
      fun g hg => hfields g (by simp [hg])
    have hcons : decodePayloads reg className (f :: fields) values = fun input =>
        decodePayloads reg className (f :: fields) values input := rfl
    rw [hcons]
    simp only [decodePayloads_cons]
    cases hfixed : f.isFixed with
    | true =>
      simp only [if_true]
      exact ih hbehind values
    | false =>
      simp only [Bool.false_eq_true,if_false]
      exact ((hfields f (by simp) hfixed values).within className f.name).bind fun value =>
        ih hbehind (values.set f.name value)

theorem Delimited.framed {plan : Plan.Class} (hwf : plan.WellFormed) (h : Delimited plan)
    {f : Plan.Field Plan.Class} (hf : f ∈ plan.fields) (hfixed : f.isFixed = false)
    (hplain : ∀ p, f.shape ≠ .nested p) : f.head.lengthField ≠ none := by
  have hregular := (arranged_of_wellFormed hwf).regular f hf
  rcases hregular.payload hfixed with ⟨carrier,hshape⟩ | ⟨type,hshape⟩ | ⟨p,hshape⟩
  · exact hwf.slices f hf carrier hshape
  · exact fun hnone => h f hf ⟨⟨type,hshape⟩,hnone⟩
  · exact absurd hshape (hplain p)

theorem decode_exact (reg : Registry) {plan : Plan.Class}
    (h : plan.Forall fun c => c.WellFormed ∧ Delimited c) : Exact (decode reg plan) := by
  induction h with
  | @mk plan hown _ _ hparent hnested =>
    obtain ⟨hwf,hdelimited⟩ := hown
    have hheader : Exact (decodeHeader reg plan.parent) := by
      cases hp : plan.parent with
      | none => exact Exact.pure none
      | some p => exact (hparent p hp).map some
    have hpayloads : ∀ values, Exact (decodePayloads reg plan.name plan.fields values) :=
      decodePayloads_exact reg plan.name fun f hf hfixed =>
        decodePayload_exact reg (hdelimited.framed hwf hf hfixed) fun p hp => hnested f hf p hp
    have hbody : ∀ header, Exact fun input =>
        decodeFixed plan.name plan.fields [] input >>= fun r =>
          decodePayloads reg plan.name plan.fields r.1 r.2 >>= fun r =>
            .ok (mk plan.name header r.1,r.2) := by
      intro header
      exact (decodeFixed_exact plan.name plan.fields []).bind fun values =>
        (hpayloads values).map (mk plan.name header)
    have hread : decode reg plan = fun input =>
        decodeHeader reg plan.parent input >>= fun r =>
          decodeFixed plan.name plan.fields [] r.2 >>= fun s =>
            decodePayloads reg plan.name plan.fields s.1 s.2 >>= fun t =>
              .ok (mk plan.name r.1 t.1,t.2) := by
      funext input
      rw [decode_eq]
      rfl
    rw [hread]
    exact hheader.bind hbody

end WireSchema.Record

namespace WireSchema.Codec

open Record (Delimited)

variable {path : Text} {doc : Document} {schema : Schema} {ws : List Schema.Warning}
    {supportsGc : Bool} {c d : Codec} {name : Text} {plan : Plan.Class}

theorem plan_of_plan (h : Schema.compile path doc = .ok (schema,ws))
    {calls later : List Planner.Call} (hc : c.planner = (Planner.new schema supportsGc).after calls)
    (hd : d.planner = (Planner.new schema supportsGc).after later)
    (hplan : (c.plan name).1 = .ok plan) : (d.plan name).1 = .ok plan := by
  have hcs := Planner.honest_after h supportsGc calls
  have hds := Planner.honest_after h supportsGc later
  rw [← hc] at hcs
  rw [← hd] at hds
  obtain ⟨decl,hdecl,hlayout⟩ := class_of_plan hplan
  have hfound := (Option.filter_eq_some_iff.mp hdecl).1
  rw [hcs.sound.schema] at hdecl hfound
  rw [← hds.sound.schema] at hdecl
  rw [plan_eq hdecl,
    (hcs.layout_ok h hds (Schema.mem_classes_of_class? hfound) hlayout).2]
  rfl

/-- The bytes of a record of a class whose payloads all have lengths are told from any others: less
of them ends too early, more of them leaves something over, and from a stream exactly they are
taken. It does not matter what was asked before, nor which other formats are known. -/
theorem decode_prefix_free (h : Schema.compile path doc = .ok (schema,ws))
    {calls later : List Planner.Call} (hc : c.planner = (Planner.new schema supportsGc).after calls)
    (hd : d.planner = (Planner.new schema supportsGc).after later)
    (hexternals : d.externals = c.externals) (hplan : (c.plan name).1 = .ok plan)
    (hdelimited : plan.Forall Delimited) {buf : Text} {r : Record}
    (hdecode : (c.decode name buf).1 = .ok r) :
    (∀ front, front <+: buf → front ≠ buf →
      ∃ fault, (d.decode name front).1 = .error fault ∧
        fault.root = .payload .unexpectedEnd) ∧
    (∀ more, more ≠ [] → (d.decode name (buf ++ more)).1 = .error (.trailing more.length)) ∧
    ∀ more, (d.decodeFrom name (buf ++ more)).1 = .ok (r,more) := by
  have hs := Schema.sound_of_compile h
  have hplanner : c.planner.Sound schema supportsGc := hc ▸ Planner.sound_after hs calls
  have hwf := (plan_forall hs hplanner hplan).2.imp fun _ hl => hl.wellFormed hs
  have hregistry : d.registry = c.registry := by
    have hschema : d.planner.schema = c.planner.schema := by
      rw [hd,hc,(Planner.sound_after hs later).schema,(Planner.sound_after hs calls).schema]
    simp [registry,hschema,hexternals]
  have hplan' : (d.plan name).1 = .ok plan := plan_of_plan h hc hd hplan
  rw [decode_of_plan hplan] at hdecode
  obtain ⟨bytes,hbuf,hmore,hshort⟩ := Record.decode_exact c.registry (hwf.and hdelimited) buf r []
    (Record.whole_ok hdecode)
  rw [List.append_nil] at hbuf
  subst hbuf
  refine ⟨?_,?_,?_⟩
  · rintro front ⟨back,rfl⟩ hne
    have hback : back ≠ [] := by
      rintro rfl
      simp at hne
    obtain ⟨fault,hfault,his⟩ := hshort front back rfl hback
    refine ⟨fault,?_,his⟩
    rw [decode_of_plan hplan',hregistry,hfault]
    rfl
  · intro more hne
    rw [decode_of_plan hplan',hregistry,hmore]
    simp [Record.whole,hne]
  · intro more
    unfold decodeFrom
    simp only [hplan',registry_plan,hregistry]
    exact hmore more

theorem hello_prefix_free :
    (∃ fault,
      ((new helloSchema true .empty).decode "MsgHello" (helloBytes.take 12)).1 = .error fault ∧
      fault.root = .payload .unexpectedEnd) ∧
    ((new helloSchema true .empty).decode "MsgHello" (helloBytes ++ [0xCC])).1 =
      .error (.trailing 1) ∧
    ((new helloSchema true .empty).decodeFrom "MsgHello" (helloBytes ++ [0xCC])).1 =
      .ok (helloRecord,[0xCC]) := by
  obtain ⟨ws,hcompile⟩ := compile_hello
  obtain ⟨plan,hplan⟩ := plan_hello
  have hs := Schema.sound_of_compile hcompile
  have hplanner : (new helloSchema true .empty).planner = (Planner.new helloSchema true).after [] :=
    rfl
  have hdelimited : plan.Forall Delimited :=
    (plan_forall hs (Planner.sound_after hs []) hplan).2.imp fun _ hl =>
      delimited_of_laid (by decide +kernel) hl
  obtain ⟨hshort,hlong,hfrom⟩ := decode_prefix_free hcompile hplanner hplanner rfl hplan hdelimited
    decode_hello
  exact ⟨hshort _ (List.take_prefix 12 helloBytes) (by decide),hlong [0xCC] (by decide),
    hfrom [0xCC]⟩

end WireSchema.Codec
