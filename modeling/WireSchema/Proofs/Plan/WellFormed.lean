import WireSchema.Proofs.Plan.Layout
set_option autoImplicit false

/-!
How the fields of a layout fit together. Payloads and the fields that hold their lengths are matched
one to one, and the size of a field is told by its shape. A codec relies on this without checking
it.
-/

namespace WireSchema.Plan

def Shape.fixedSize {ρ : Type} : Shape ρ → Nat
  | .scalar carrier => carrier.size
  | .array carrier count => carrier.size * count
  | .slice _ => 0
  | .external _ => 0
  | .nested _ => 0

/-- The field holds the length of the payload of another one. -/
def Field.Measures (holder f : Field Class) : Prop :=
  ∃ carrier, holder.shape = .scalar carrier ∧ f.head.lengthField = some ⟨holder.name,carrier⟩

structure Class.WellFormed (plan : Class) : Prop where
  names : (plan.fields.map Field.name).Nodup
  framed : ∀ f ∈ plan.fields, f.head.lengthField ≠ none →
    ∃ holder ∈ plan.fields, holder.Measures f ∧ holder.name ≠ f.name
  holding : ∀ holder ∈ plan.fields, ∀ name, holder.head.lengthOf = some name →
    ∃ f ∈ plan.fields, f.name = name
  matched : ∀ f ∈ plan.fields, ∀ holder ∈ plan.fields,
    holder.Measures f ↔ holder.head.lengthOf = some f.name
  holders : ∀ holder ∈ plan.fields, holder.head.lengthOf ≠ none →
    (∃ carrier, holder.shape = .scalar carrier ∧ carrier.integer = true) ∧
      holder.head.transform = .none ∧ holder.head.lengthField = none
  slices : ∀ f ∈ plan.fields, ∀ carrier, f.shape = .slice carrier → f.head.lengthField ≠ none
  sizes : ∀ f ∈ plan.fields, f.size = f.shape.fixedSize
  fixed : ∀ f ∈ plan.fields, 0 < f.size ↔
    (∃ carrier, f.shape = .scalar carrier) ∨ ∃ carrier count, f.shape = .array carrier count
  base : plan.baseSize = (plan.fields.map fun f => f.shape.fixedSize).foldr (· + ·) 0
  payloads : ∀ f ∈ plan.fields, f.head.lengthField ≠ none → f.size = 0
  masks : ∀ f ∈ plan.fields, ∀ carrier, f.shape = .scalar carrier →
    f.head.transform.isMask = true → carrier.size = 4

theorem Class.WellFormed.holder {plan : Class} (h : plan.WellFormed) {f : Field Class}
    (hf : f ∈ plan.fields) {holder : Holder} (hl : f.head.lengthField = some holder) :
    ∃ g ∈ plan.fields, g.name = holder.name ∧ g.shape = .scalar holder.carrier ∧
      g.head.transform = .none := by
  obtain ⟨g,hg,hmeasures,-⟩ := h.framed f hf (by simp [hl])
  have hlengthOf := (h.matched f hf g hg).mp hmeasures
  obtain ⟨-,htransform,-⟩ := h.holders g hg (by simp [hlengthOf])
  obtain ⟨carrier,hshape,hlink⟩ := hmeasures
  rw [hl] at hlink
  cases hlink
  exact ⟨g,hg,rfl,hshape,htransform⟩

theorem Class.WellFormed.holder_ne {plan : Class} (h : plan.WellFormed) {f g : Field Class}
    (hf : f ∈ plan.fields) (hg : g ∈ plan.fields) {holder : Holder}
    (hl : g.head.lengthField = some holder) (hzero : f.size = 0) : holder.name ≠ f.name := by
  obtain ⟨k,hk,hname,hshape,-⟩ := h.holder hg hl
  intro heq
  have hself : k = f := eq_of_name_eq h.names hk hf (hname.trans heq)
  have hpos := (h.fixed k hk).mpr (.inl ⟨_,hshape⟩)
  rw [hself,hzero] at hpos
  cases hpos

theorem carrierOf_congr (storage : Primitive) : storage.size = (carrierOf storage).size ∧
    storage.unsigned = (carrierOf storage).unsigned := by
  cases storage <;> exact ⟨rfl,rfl⟩

theorem eq_of_numbers {p : Schema.Property} {storage carrier : Primitive}
    (h : numbers p storage = .scalar carrier) : storage = carrier := by
  unfold numbers at h
  split at h
  · cases h
  · split at h
    · cases h
    · cases h
      rfl

section Laid

variable {schema : Schema} {supportsGc : Bool} {plan : Class}

structure FieldOf (schema : Schema) (c : Schema.Class) (p : Schema.Property) (f : Field Class) :
    Prop where
  property : p ∈ c.properties
  written : isWritten p = true
  head : f.head = headOf schema c p
  shape : Shaped schema p f.shape

theorem FieldOf.name {c : Schema.Class} {p : Schema.Property} {f : Field Class}
    (h : FieldOf schema c p f) : f.name = p.name := by
  simp [Field.name,h.head,headOf]

theorem Laid.property (h : Laid schema supportsGc plan) {f : Field Class} (hf : f ∈ plan.fields) :
    ∃ p, FieldOf schema plan.decl p f := by
  have hhead : f.head ∈ plan.fields.map Field.head := List.mem_map_of_mem hf
  rw [h.heads] at hhead
  obtain ⟨p,hp,heq⟩ := List.mem_map.mp hhead
  obtain ⟨hmem,hwritten⟩ := List.mem_filter.mp hp
  refine ⟨p,hmem,hwritten,heq.symm,?_⟩
  have hshape := h.shapes f hf
  rw [← heq] at hshape
  exact hshape

theorem Laid.field (h : Laid schema supportsGc plan) {p : Schema.Property}
    (hp : p ∈ plan.decl.properties) (hw : isWritten p = true) :
    ∃ f ∈ plan.fields, FieldOf schema plan.decl p f := by
  have hhead : headOf schema plan.decl p ∈ plan.fields.map Field.head := by
    rw [h.heads]
    exact List.mem_map_of_mem (List.mem_filter.mpr ⟨hp,hw⟩)
  obtain ⟨f,hf,heq⟩ := List.mem_map.mp hhead
  refine ⟨f,hf,hp,hw,heq,?_⟩
  have hshape := h.shapes f hf
  rw [heq] at hshape
  exact hshape

theorem Laid.names (h : Laid schema supportsGc plan) (hc : plan.decl.Sound) :
    (plan.fields.map Field.name).Nodup := by
  have hmap : plan.fields.map Field.name =
      (plan.decl.properties.filter isWritten).map Schema.Property.name := by
    have hcomp : plan.fields.map Field.name =
        (plan.fields.map Field.head).map fun head => head.property.name := by
      simp [Function.comp_def,Field.name]
    rw [hcomp,h.heads]
    simp [Function.comp_def,headOf]
  rw [hmap]
  exact hc.names.sublist (List.filter_sublist.map _)

theorem Shaped.cases {p : Schema.Property} {shape : Shape Class} (h : Shaped schema p shape) :
    (p.flag = some .proto ∧ shape = .external p.type.identifier) ∨
    (p.flag ≠ some .proto ∧ ∃ storage carrier, schema.storage? p.type = some storage ∧
      carrier.size = storage.size ∧ shape = numbers p carrier) ∨
    (p.flag ≠ some .proto ∧ schema.storage? p.type = none ∧ ∃ plan, shape = .nested plan) := by
  unfold Shaped at h
  split at h
  · rename_i hflag
    exact .inl ⟨hflag,h⟩
  · rename_i hflag
    cases htype : p.type with
    | weak name =>
      simp only [htype] at h
      obtain ⟨primitive,hprimitive,h⟩ := h
      exact .inr (.inl ⟨hflag,primitive,primitive,hprimitive,rfl,h⟩)
    | strong decl member =>
      simp only [htype] at h
      cases hdecl : schema.decl? decl with
      | none => simp [hdecl] at h
      | some d =>
        cases d with
        | enum e =>
          simp only [hdecl] at h
          refine .inr (.inl ⟨hflag,e.storage,_,?_,(carrierOf_congr _).1.symm,h⟩)
          simp [Schema.storage?,Schema.enum?,hdecl,Schema.Decl.enum?]
        | «class» c =>
          simp only [hdecl] at h
          obtain ⟨plan,h,-⟩ := h
          refine .inr (.inr ⟨hflag,?_,plan,h⟩)
          simp [Schema.storage?,Schema.enum?,hdecl,Schema.Decl.enum?]

theorem FieldOf.size {c : Schema.Class} {p : Schema.Property} {f : Field Class}
    (h : FieldOf schema c p f) : f.size = f.shape.fixedSize := by
  have hsize : f.size = schema.sizeOf p := by simp [Field.size,h.head,headOf]
  rw [hsize,Schema.sizeOf]
  rcases h.shape.cases with ⟨hflag,hshape⟩ | ⟨hflag,storage,carrier,hstorage,hcarrier,hshape⟩ |
    ⟨hflag,hstorage,plan,hshape⟩
  · simp [hshape,hflag,Shape.fixedSize]
  · simp only [hshape,hflag,if_false,hstorage,numbers]
    split
    · simp [Shape.fixedSize,hcarrier]
    · split <;> simp [Shape.fixedSize,hcarrier]
  · simp [hshape,hflag,hstorage,Shape.fixedSize]

theorem fixedSize_pos {p : Schema.Property} {shape : Shape Class} (h : Shaped schema p shape) :
    0 < shape.fixedSize ↔ (∃ carrier, shape = .scalar carrier) ∨
      ∃ carrier count, shape = .array carrier count := by
  rcases h.cases with ⟨-,rfl⟩ | ⟨-,_,carrier,-,-,rfl⟩ | ⟨-,-,plan,rfl⟩
  · simp [Shape.fixedSize]
  · unfold numbers
    split
    · rename_i hcount
      simp [Shape.fixedSize,carrier.size_pos,hcount]
    · split <;> simp [Shape.fixedSize,carrier.size_pos]
  · simp [Shape.fixedSize]

theorem FieldOf.scalar {c : Schema.Class} {p q : Schema.Property} {f : Field Class}
    (h : FieldOf schema c q f) (hq : q.Measures p) :
    ∃ carrier, schema.storage? q.type = some carrier ∧ f.shape = .scalar carrier ∧
      carrier.integer = true := by
  obtain ⟨name,primitive,htype,hprimitive,hinteger⟩ := hq.type
  have hshape := h.shape
  simp only [Shaped,hq.flag,htype,reduceCtorEq,if_false] at hshape
  obtain ⟨other,hother,hshape⟩ := hshape
  rw [hprimitive] at hother
  cases hother
  refine ⟨primitive,by simp [Schema.storage?,htype,hprimitive],?_,hinteger⟩
  simpa [numbers,hq.single,hq.unframed] using hshape

theorem exists_holder {c : Schema.Class} (hc : c.Sound) {p : Schema.Property}
    (hp : p ∈ c.properties) (hw : isWritten p = true) {name : Text}
    (hl : p.lengthField = some name) :
    p.arrayLength = 0 ∧ ∃ q ∈ c.properties, isWritten q = true ∧ q.name = name ∧ q.Measures p := by
  obtain ⟨hsingle,q,hq,hname,hmeasures⟩ := hc.framed p hp name hl
  refine ⟨hsingle,q,hq,?_,hname,hmeasures⟩
  have hkept : p.removed = false := by
    simp only [isWritten,Bool.and_eq_true,Bool.not_eq_true'] at hw
    exact hw.1
  have hkept' : q.removed = false := by
    cases hr : q.removed with
    | false => rfl
    | true => simp [hmeasures.written hr] at hkept
  simp [isWritten,hkept',hmeasures.flag]

theorem holderOf?_of_lengthField {c : Schema.Class} (hc : c.Sound) {p q : Schema.Property}
    (hl : p.lengthField = some q.name) (hq : q ∈ c.properties) (hw : isWritten q = true)
    {carrier : Primitive} (hs : schema.storage? q.type = some carrier) :
    holderOf? schema c p = some ⟨q.name,carrier⟩ := by
  have hnodup : ((c.properties.filter isWritten).map Schema.Property.name).Nodup :=
    hc.names.sublist (List.filter_sublist.map _)
  have hfind := find?_of_mem hnodup (List.mem_filter.mpr ⟨hq,hw⟩)
  simp only [holderOf?,hl,Option.bind_eq_bind,Option.bind_some,hfind,hs,Option.pure_def]

theorem lengthOf_iff {c : Schema.Class} (hc : c.Sound) {p q : Schema.Property}
    (hp : p ∈ c.properties) (hw : isWritten p = true) :
    (headOf schema c q).lengthOf = some p.name ↔ p.lengthField = some q.name := by
  simp only [headOf,Option.map_eq_some_iff]
  constructor
  · rintro ⟨r,hfind,hname⟩
    have hmem := List.mem_of_find?_eq_some hfind
    have hlink : r.lengthField = some q.name := by simpa using List.find?_some hfind
    have hr : r = p := eq_of_name_eq hc.names (List.mem_filter.mp hmem).1 hp hname
    rw [← hr]
    exact hlink
  · intro hl
    cases hfind : (c.properties.filter isWritten).find? fun r => r.lengthField == some q.name with
    | none =>
      rw [List.find?_eq_none] at hfind
      exact absurd (hfind p (List.mem_filter.mpr ⟨hp,hw⟩)) (by simp [hl])
    | some r =>
      have hmem := List.mem_of_find?_eq_some hfind
      have hlink : r.lengthField = some q.name := by simpa using List.find?_some hfind
      exact ⟨r,rfl,hc.alone r (List.mem_filter.mp hmem).1 p hp q.name hlink hl⟩

theorem measures_iff (hc : plan.decl.Sound) {p q : Schema.Property} {f holder : Field Class}
    (hf : FieldOf schema plan.decl p f) (hh : FieldOf schema plan.decl q holder) :
    holder.Measures f ↔ p.lengthField = some q.name := by
  constructor
  · rintro ⟨carrier,-,hl⟩
    rw [hf.head] at hl
    simp only [headOf,holderOf?,Option.bind_eq_bind,Option.bind_eq_some_iff,Option.pure_def,
      Option.some.injEq,Holder.mk.injEq] at hl
    obtain ⟨name,hname,_,-,_,-,heq,-⟩ := hl
    rw [hname,heq,hh.name]
  · intro hl
    obtain ⟨-,r,hr,hw,hname,hmeasures⟩ := exists_holder hc hf.property hf.written hl
    have heq : r = q := eq_of_name_eq hc.names hr hh.property hname
    rw [heq] at hmeasures
    obtain ⟨carrier,hstorage,hshape,-⟩ := hh.scalar hmeasures
    refine ⟨carrier,hshape,?_⟩
    rw [hf.head,hh.name]
    exact holderOf?_of_lengthField hc hl hh.property hh.written hstorage

theorem FieldOf.payload {p : Schema.Property} {f : Field Class}
    (h : FieldOf schema plan.decl p f) (hl : p.lengthField ≠ none) (hsingle : p.arrayLength = 0) :
    f.size = 0 := by
  obtain ⟨name,hname⟩ := Option.ne_none_iff_exists'.mp hl
  simp only [Field.size,h.head,headOf,Schema.sizeOf,hsingle,hname]
  split
  · rfl
  · split <;> simp

theorem FieldOf.mask {p : Schema.Property} {f : Field Class} (h : FieldOf schema plan.decl p f)
    (hm : ∃ storage, schema.storage? p.type = some storage ∧ storage.size = 4) {carrier : Primitive}
    (hscalar : f.shape = .scalar carrier) : carrier.size = 4 := by
  obtain ⟨storage,hstorage,hfour⟩ := hm
  rcases h.shape.cases with ⟨-,hshape⟩ | ⟨-,other,number,hother,hsize,hshape⟩ | ⟨-,-,plan,hshape⟩
  · rw [hscalar] at hshape
    cases hshape
  · rw [hstorage] at hother
    cases hother
    have heq : carrier = number := by
      rw [hscalar] at hshape
      exact (eq_of_numbers hshape.symm).symm
    rw [heq,hsize,hfour]
  · rw [hscalar] at hshape
    cases hshape

theorem FieldOf.lengthField {p : Schema.Property} {f : Field Class}
    (h : FieldOf schema plan.decl p f) (hl : f.head.lengthField ≠ none) :
    ∃ name, p.lengthField = some name := by
  rw [h.head] at hl
  cases hname : p.lengthField with
  | none => simp [headOf,holderOf?,hname] at hl
  | some name => exact ⟨name,rfl⟩

theorem Laid.framed (h : Laid schema supportsGc plan) (hc : plan.decl.Sound) {f : Field Class}
    {p : Schema.Property} (hp : FieldOf schema plan.decl p f) {name : Text}
    (hl : p.lengthField = some name) :
    ∃ holder ∈ plan.fields, holder.Measures f ∧ holder.name ≠ f.name := by
  obtain ⟨-,q,hq,hw,rfl,hmeasures⟩ := exists_holder hc hp.property hp.written hl
  obtain ⟨holder,hholder,hh⟩ := h.field hq hw
  refine ⟨holder,hholder,(measures_iff hc hp hh).mpr hl,?_⟩
  intro heq
  rw [hh.name,hp.name] at heq
  have hself : q = p := eq_of_name_eq hc.names hq hp.property heq
  rw [← hself,hmeasures.unframed] at hl
  cases hl

theorem Laid.holding (h : Laid schema supportsGc plan) {holder : Field Class}
    (hholder : holder ∈ plan.fields) {name : Text} (hname : holder.head.lengthOf = some name) :
    ∃ f ∈ plan.fields, f.name = name ∧ ∃ p q, FieldOf schema plan.decl p f ∧
      FieldOf schema plan.decl q holder ∧ p.lengthField = some q.name := by
  obtain ⟨q,hh⟩ := h.property hholder
  rw [hh.head] at hname
  simp only [headOf,Option.map_eq_some_iff] at hname
  obtain ⟨p,hfind,hname⟩ := hname
  obtain ⟨hp,hw⟩ := List.mem_filter.mp (List.mem_of_find?_eq_some hfind)
  obtain ⟨f,hf,hfp⟩ := h.field hp hw
  exact ⟨f,hf,hfp.name.trans hname,p,q,hfp,hh,by simpa using List.find?_some hfind⟩

theorem Laid.holders (h : Laid schema supportsGc plan) (hc : plan.decl.Sound) {holder : Field Class}
    (hholder : holder ∈ plan.fields) (hl : holder.head.lengthOf ≠ none) :
    (∃ carrier, holder.shape = .scalar carrier ∧ carrier.integer = true) ∧
      holder.head.transform = .none ∧ holder.head.lengthField = none := by
  obtain ⟨name,hname⟩ := Option.ne_none_iff_exists'.mp hl
  obtain ⟨f,-,-,p,q,hfp,hh,hlink⟩ := h.holding hholder hname
  obtain ⟨-,r,hr,-,hrname,hmeasures⟩ := exists_holder hc hfp.property hfp.written hlink
  have heq : r = q := eq_of_name_eq hc.names hr hh.property hrname
  rw [heq] at hmeasures
  obtain ⟨carrier,-,hshape,hinteger⟩ := hh.scalar hmeasures
  refine ⟨⟨carrier,hshape,hinteger⟩,?_,?_⟩
  · simp [hh.head,headOf,hmeasures.flag,Transform.ofFlag]
  · simp [hh.head,headOf,holderOf?,hmeasures.unframed]

theorem FieldOf.slice {p : Schema.Property} {f : Field Class} (h : FieldOf schema plan.decl p f)
    {carrier : Primitive} (hslice : f.shape = .slice carrier) :
    ∃ name, p.lengthField = some name := by
  rcases h.shape.cases with ⟨-,hshape⟩ | ⟨-,_,_,-,-,hshape⟩ | ⟨-,-,_,hshape⟩
  · rw [hslice] at hshape
    cases hshape
  · rw [hslice] at hshape
    unfold numbers at hshape
    split at hshape
    · cases hshape
    · split at hshape
      · rename_i hsome
        exact Option.isSome_iff_exists.mp hsome
      · cases hshape
  · rw [hslice] at hshape
    cases hshape

theorem flag_of_isMask {flag : Option Flag} (h : (Transform.ofFlag flag).isMask = true) :
    flag = some .protoMask ∨ flag = some .protoMaskGc := by
  cases flag with
  | none => simp [Transform.ofFlag,Transform.isMask] at h
  | some flag => cases flag <;> simp [Transform.ofFlag,Transform.isMask] at h ⊢

theorem Laid.wellFormed (hs : schema.Sound) (h : Laid schema supportsGc plan) :
    plan.WellFormed := by
  have hc := hs.classes _ h.decl
  have hsizes : ∀ f ∈ plan.fields, f.size = f.shape.fixedSize := by
    intro f hf
    obtain ⟨p,hp⟩ := h.property hf
    exact hp.size
  refine ⟨h.names hc,?_,?_,?_,fun _ => h.holders hc,?_,hsizes,?_,?_,?_,?_⟩
  · intro f hf hl
    obtain ⟨p,hp⟩ := h.property hf
    obtain ⟨name,hname⟩ := hp.lengthField hl
    exact h.framed hc hp hname
  · intro holder hholder name hname
    obtain ⟨f,hf,heq,-⟩ := h.holding hholder hname
    exact ⟨f,hf,heq⟩
  · intro f hf holder hholder
    obtain ⟨p,hp⟩ := h.property hf
    obtain ⟨q,hq⟩ := h.property hholder
    rw [measures_iff hc hp hq,hq.head,hp.name,lengthOf_iff hc hp.property hp.written]
  · intro f hf carrier hshape
    obtain ⟨p,hp⟩ := h.property hf
    obtain ⟨name,hname⟩ := hp.slice hshape
    obtain ⟨holder,-,⟨_,-,hl⟩,-⟩ := h.framed hc hp hname
    simp [hl]
  · intro f hf
    obtain ⟨p,hp⟩ := h.property hf
    rw [hsizes f hf]
    exact fixedSize_pos hp.shape
  · rw [Class.baseSize,List.map_congr_left hsizes]
  · intro f hf hl
    obtain ⟨p,hp⟩ := h.property hf
    obtain ⟨name,hname⟩ := hp.lengthField hl
    obtain ⟨hsingle,-⟩ := exists_holder hc hp.property hp.written hname
    exact hp.payload (by simp [hname]) hsingle
  · intro f hf carrier hshape hmask
    obtain ⟨p,hp⟩ := h.property hf
    rw [hp.head] at hmask
    exact hp.mask (hs.masks _ h.decl p hp.property (flag_of_isMask hmask)) hshape

end Laid

end WireSchema.Plan
