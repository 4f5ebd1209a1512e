import WireSchema.Proofs.Record.Fresh
set_option autoImplicit false

/-!
Records without a header. A header that is missing is written as a fresh record of the parent, in
which nothing is known of the message behind it; so the field for the tag has its default, where a
fresh message has its tag.
-/

namespace WireSchema.Record

variable {reg : Registry} {f : Plan.Field Plan.Class} {plan p : Plan.Class} {r : Record}

theorem encode_withHeader_eq_ok (hp : plan.parent = some p) {header : Record} {bytes : Text} :
    (encode reg plan (r.withHeader (some header))).1 = .ok bytes ↔ ∃ front body,
      (encode reg p header).1 = .ok front ∧ encodeBody reg plan r.fields = .ok body ∧
      bytes = front ++ body := by
  rw [encode_eq_ok,header_withHeader,fields_withHeader,hp]
  rfl

theorem encode_headerless_eq_ok (hp : plan.parent = some p) (hr : r.header = none) {header : Record}
    (hheader : create reg p = .ok header) {bytes : Text} :
    (encode reg plan r).1 = .ok bytes ↔ ∃ front body,
      (encode reg p header).1 = .ok front ∧ encodeBody reg plan r.fields = .ok body ∧
      bytes = front ++ body := by
  rw [encode_eq_ok,hr,hp]
  simp only [encodeHeader,encodeOr,hheader,Result.ok_bind]

/-- The number of a field stands in some bytes, and another number in its place in other bytes. -/
def Replaced (f : Plan.Field Plan.Class) (old new : Value) (bytes other : Text) : Prop :=
  ∃ front before after back, bytes = front ++ before ++ back ∧ other = front ++ after ++ back ∧
    encodeFixedField f old = .ok before ∧ encodeFixedField f new = .ok after

theorem Replaced.append {old new : Value} {bytes other : Text} (h : Replaced f old new bytes other)
    (more : Text) : Replaced f old new (bytes ++ more) (other ++ more) := by
  obtain ⟨front,before,after,back,rfl,rfl,hold,hnew⟩ := h
  exact ⟨front,before,after,back ++ more,by simp,by simp,hold,hnew⟩

theorem Replaced.prepend {old new : Value} {bytes other : Text} (h : Replaced f old new bytes other)
    (front : Text) : Replaced f old new (front ++ bytes) (front ++ other) := by
  obtain ⟨first,before,after,back,rfl,rfl,hold,hnew⟩ := h
  exact ⟨front ++ first,before,after,back,by simp,by simp,hold,hnew⟩

theorem Replaced.eq_iff {old new : Value} {bytes other : Text}
    (h : Replaced f old new bytes other) :
    bytes = other ↔ encodeFixedField f old = encodeFixedField f new := by
  obtain ⟨front,before,after,back,rfl,rfl,hold,hnew⟩ := h
  rw [hold,hnew]
  simp

/-- A number that is put in a record replaces the one that was there, unless it is a length, which
is set again. -/
theorem encodeBody_replaced (hwf : plan.WellFormed) (hf : f ∈ plan.fields) {carrier : Primitive}
    (hshape : f.shape = .scalar carrier) {values : Fields} {value : Value}
    (hvalue : value.isNumber = true) {body : Text} (h : encodeBody reg plan values = .ok body) :
    ∃ other, encodeBody reg plan (values.set f.name value) = .ok other ∧
      if f.head.lengthOf = none then Replaced f ((values.get? f.name).getD .nil) value body other
      else other = body := by
  have hfields := arranged_of_wellFormed hwf
  have hfixed := (hfields.regular f hf).isFixed_scalar hshape
  have hpayloads : ∀ g ∈ plan.fields, g.isFixed = false → g.name ≠ f.name :=
    fun g hg hg' => hfields.name_ne hf hfixed hg hg'
  have hset := agreeOn_set values f.name value
  obtain ⟨hsame,hafter⟩ := encodePayloads_agree reg plan.name hpayloads hset
  simp only [encodeBody,Result.bind_eq_ok,Result.pure_eq_ok,Except.ok.injEq] at h ⊢
  obtain ⟨payloads,hok,fixed,hwritten,rfl⟩ := h
  obtain ⟨front,old,back,rfl,hold,hplace⟩ := encodeFixed_place hwf.names hf hfixed hwritten
  cases hlength : f.head.lengthOf with
  | none =>
    have hspares := spares_of_lengthOf hwf hf hfixed hlength
    obtain ⟨new,hnew⟩ := encodeFixedField_isNumber hshape hvalue
    rw [get?_encodePayloads hspares hfields.unframed] at hold
    have hother := hplace _ new hafter (by
      rw [get?_encodePayloads hspares hfields.unframed,Fields.get?_set,if_pos rfl]
      exact hnew)
    refine ⟨_,⟨payloads,hsame ▸ hok,_,hother,rfl⟩,?_⟩
    rw [if_pos rfl]
    exact Replaced.append ⟨front,old,new,back,rfl,rfl,hold,hnew⟩ payloads
  | some name =>
    -- The writing of the payload sets the length again, whatever was in its field.
    obtain ⟨g,hg,rfl⟩ := hwf.holding f hf name hlength
    obtain ⟨holder,-,hl⟩ := (hwf.matched g hg f hf).mpr hlength
    have hsettled := encodePayloads_settles hg (hfields.not_isFixed hg hl) hl hpayloads hset hok
    have hother := hwritten
    rw [encodeFixed_agree (fun _ _ _ => trivial) hsettled] at hother
    refine ⟨_,⟨payloads,hsame ▸ hok,_,hother,rfl⟩,?_⟩
    rw [if_neg (by simp)]

theorem encode_replaced (hwf : plan.WellFormed) (hf : f ∈ plan.fields) {carrier : Primitive}
    (hshape : f.shape = .scalar carrier) {value : Value} (hvalue : value.isNumber = true)
    {bytes : Text} (h : (encode reg plan r).1 = .ok bytes) :
    ∃ other, (encode reg plan (r.withFields (r.fields.set f.name value))).1 = .ok other ∧
      if f.head.lengthOf = none then Replaced f ((r.fields.get? f.name).getD .nil) value bytes other
      else other = bytes := by
  obtain ⟨header,body,hheader,hbody,rfl⟩ := encode_eq_ok.mp h
  obtain ⟨other,hother,hplace⟩ := encodeBody_replaced hwf hf hshape hvalue hbody
  refine ⟨header ++ other,encode_eq_ok.mpr ⟨header,other,?_,?_,rfl⟩,?_⟩
  · rw [header_withFields]
    exact hheader
  · rw [fields_withFields]
    exact hother
  · split at hplace
    · rename_i hlength
      rw [if_pos hlength]
      exact hplace.prepend header
    · rename_i hlength
      rw [if_neg hlength,hplace]

theorem encode_stamp (hwf : p.WellFormed) (hp : plan.parent = some p) {tag : UInt64}
    (htagged : tagged? reg plan = some (f,tag)) {carrier : Primitive}
    (hshape : f.shape = .scalar carrier) {header : Record} (hheader : create reg p = .ok header)
    {bytes : Text} (h : (encode reg p header).1 = .ok bytes) :
    ∃ other, (encode reg p (stamp reg plan.decl plan.role p header)).1 = .ok other ∧
      if f.head.lengthOf = none then
        ∃ bits, defaultBits reg f.head.property.default = .ok bits ∧
          Replaced f (scalarValue f.head.transform carrier bits)
            (scalarValue f.head.transform carrier tag) bytes other
      else other = bytes := by
  have hf := tagged?_mem hp htagged
  have hnumber := isNumber_scalarValue f.head.transform (some carrier) tag
  have hcarrier : f.carrier? = some carrier := by rw [Plan.Field.carrier?,hshape]
  obtain ⟨bits,hbits,hdefault⟩ := default_of_create hwf.names hheader hf hshape
  obtain ⟨other,hother,hplace⟩ := encode_replaced hwf hf hshape hnumber h
  rw [stamp_eq hp,htagged]
  simp only [hcarrier]
  refine ⟨other,hother,?_⟩
  split
  · rename_i hlength
    rw [if_pos hlength,hdefault] at hplace
    exact ⟨bits,hbits,hplace⟩
  · rename_i hlength
    rwa [if_neg hlength] at hplace

end WireSchema.Record

namespace WireSchema.Codec

open Record (Replaced defaultBits encodeFixedField scalarValue tagged?)

/-- A record without a header is written as if it had a fresh one, in which the tag is missing. With
the header of a fresh record the bytes are the same but for the number of the field that the tag is
put in, and so they are the same only if the tag is written like the default of that field. If the
field is of another kind, a record with that header cannot be written at all. -/
theorem encode_headerless {path : Text} {doc : Document} {schema : Schema}
    {ws : List Schema.Warning} (h : Schema.compile path doc = .ok (schema,ws)) {supportsGc : Bool}
    {calls : List Planner.Call} {c : Codec}
    (hc : c.planner = (Planner.new schema supportsGc).after calls) {fresh r : Record}
    (hfresh : (c.create r.className).1 = .ok fresh) (hr : r.header = none) {plan p : Plan.Class}
    (hplan : (c.plan r.className).1 = .ok plan) (hp : plan.parent = some p) {bytes : Text}
    (hbytes : (c.encode r).1 = .ok bytes) :
    ∃ header, Record.create c.registry p = .ok header ∧
      (c.encode (r.withHeader (some header))).1 = .ok bytes ∧
      (tagged? c.registry plan = none → (c.encode (r.withHeader fresh.header)).1 = .ok bytes) ∧
      ∀ f tag, tagged? c.registry plan = some (f,tag) →
        (∀ carrier, f.shape = .scalar carrier → ∃ other,
          (c.encode (r.withHeader fresh.header)).1 = .ok other ∧
          if f.head.lengthOf = none then
            ∃ bits, defaultBits c.registry f.head.property.default = .ok bits ∧
              Replaced f (scalarValue f.head.transform carrier bits)
                (scalarValue f.head.transform carrier tag) bytes other ∧
              (bytes = other ↔ encodeFixedField f (scalarValue f.head.transform carrier bits) =
                encodeFixedField f (scalarValue f.head.transform carrier tag))
          else other = bytes) ∧
        ((∀ carrier, f.shape ≠ .scalar carrier) → ∀ other,
          (c.encode (r.withHeader fresh.header)).1 ≠ .ok other) := by
  have hs := Schema.sound_of_compile h
  have hplanner : c.planner.Sound schema supportsGc := hc ▸ Planner.sound_after hs calls
  obtain ⟨-,hlaid⟩ := plan_forall hs hplanner hplan
  have hwf : plan.Forall Plan.Class.WellFormed := hlaid.imp fun _ hl => hl.wellFormed hs
  have hencode : ∀ front, (c.encode (r.withHeader front)).1 =
      (Record.encode c.registry plan (r.withHeader front)).1 := by
    intro front
    have hclass : (c.plan (r.withHeader front).className).1 = .ok plan := by
      rw [Record.className_withHeader,hplan]
    rw [encode_of_plan hclass]
  obtain ⟨other,hother,hcreate⟩ := plan_of_create hfresh
  rw [hplan] at hother
  cases hother
  obtain ⟨front,values,hcreated,-,rfl⟩ := Record.create_ok hcreate
  obtain ⟨header,hheader,rfl⟩ := Record.createHeader_some hp hcreated
  rw [encode_of_plan hplan] at hbytes
  obtain ⟨front,body,hfront,hbody,rfl⟩ := (Record.encode_headerless_eq_ok hp hr hheader).mp hbytes
  have hwith : ∀ {header : Record} {front : Text},
      (Record.encode c.registry p header).1 = .ok front →
      (c.encode (r.withHeader (some header))).1 = .ok (front ++ body) := by
    intro header front hfront
    rw [hencode]
    exact (Record.encode_withHeader_eq_ok hp).mpr ⟨front,body,hfront,hbody,rfl⟩
  refine ⟨header,hheader,hwith hfront,?_,?_⟩
  · intro htagged
    rw [Record.header_mk,Record.stamp_eq hp,htagged]
    exact hwith hfront
  · intro f tag htagged
    refine ⟨?_,?_⟩
    · intro carrier hshape
      obtain ⟨other,hother,hplace⟩ :=
        Record.encode_stamp (hwf.parent hp).own hp htagged hshape hheader hfront
      refine ⟨other ++ body,hwith hother,?_⟩
      split
      · rename_i hlength
        rw [if_pos hlength] at hplace
        obtain ⟨bits,hbits,hreplaced⟩ := hplace
        exact ⟨bits,hbits,hreplaced.append body,(hreplaced.append body).eq_iff⟩
      · rename_i hlength
        rw [if_neg hlength] at hplace
        rw [hplace]
    · intro hshape other hother
      rw [hencode] at hother
      obtain ⟨front,-,hfront,-,-⟩ := (Record.encode_withHeader_eq_ok hp).mp hother
      obtain ⟨carrier,hscalar⟩ :=
        Record.shape_of_tagged hp htagged (Record.unmixed_of_encode (hwf.parent hp) hfront)
      exact hshape carrier hscalar

theorem greeting_headerless : ∃ plan p header,
    ((new (greetingSchema tagNumber) false .empty).plan "Hello").1 = .ok plan ∧
    plan.parent = some p ∧
    Record.create (new (greetingSchema tagNumber) false .empty).registry p = .ok header ∧
    ((new (greetingSchema tagNumber) false .empty).encode
      (((greeting (.word 7)).withHeader none).withHeader (some header))).1 =
        .ok [0,0,0,0,3,0,0,0] := by
  obtain ⟨ws,hcompile⟩ := compile_greeting tagNumber (by decide +kernel)
  have hplanner : (new (greetingSchema tagNumber) false .empty).planner =
      (Planner.new (greetingSchema tagNumber) false).after [] := rfl
  obtain ⟨plan,hplan⟩ : ∃ plan, ((new (greetingSchema tagNumber) false .empty).plan "Hello").1 =
      .ok plan := Result.exists_of_isOk (by decide +kernel)
  have hparent : ((((new (greetingSchema tagNumber) false .empty).plan "Hello").1.toOption).bind
      Plan.Class.parent).isSome = true := by decide +kernel
  rw [hplan] at hparent
  obtain ⟨p,hp⟩ := Option.isSome_iff_exists.mp hparent
  have hfresh : ((new (greetingSchema tagNumber) false .empty).create
      ((greeting (.word 7)).withHeader none).className).1 = .ok (greeting (.word 7)) :=
    rfl
  have hbytes : ((new (greetingSchema tagNumber) false .empty).encode
      ((greeting (.word 7)).withHeader none)).1 = .ok [0,0,0,0,3,0,0,0] := rfl
  obtain ⟨header,hheader,hwritten,-⟩ :=
    encode_headerless hcompile hplanner hfresh rfl hplan hp hbytes
  exact ⟨plan,p,header,hplan,hp,hheader,hwritten⟩

theorem greeting_untagged :
    (∃ ws, Schema.compile [] (greetingDocument tagNumber) = .ok (greetingSchema tagNumber,ws)) ∧
    ((new (greetingSchema tagNumber) false .empty).create "Hello").1 = .ok (greeting (.word 7)) ∧
    ((new (greetingSchema tagNumber) false .empty).encode
        ((greeting (.word 7)).withHeader none)).1 =
      .ok [0,0,0,0,3,0,0,0] ∧
    ((new (greetingSchema tagNumber) false .empty).encode
      (((greeting (.word 7)).withHeader none).withHeader (greeting (.word 7)).header)).1 =
        .ok [7,0,0,0,3,0,0,0] :=
  ⟨compile_greeting tagNumber (by decide +kernel),rfl,rfl,rfl⟩

end WireSchema.Codec
