import WireSchema.Proofs.Plan.WellFormed
import WireSchema.Proofs.Record.Bits
import WireSchema.Proofs.Record.Fields
import WireSchema.Proofs.Record.Steps
set_option autoImplicit false

namespace WireSchema.Record

/-- Bytes that stand for one number, or for something that is copied as it is. -/
structure Piece where
  transform : Transform
  width : Nat

/-- How a piece is written once it has been read: a flag that is set becomes one, and a tag gets the
highest of its thirty-two bits. -/
def Piece.respell (piece : Piece) (bytes : Text) : Text :=
  match piece.transform with
  | .bool => if bytes.all (· == 0) then bytes else 1 :: List.replicate (bytes.length - 1) 0
  | .protoMask => bytes.modify 3 (· ||| 0x80)
  | .protoMaskGc => bytes.modify 3 (· ||| 0x80)
  | .none => bytes
  | .steamId => bytes
  | .gameId => bytes

def respell : List Piece → Text → Text
  | [], bytes => bytes
  | piece :: rest, bytes =>
    piece.respell (bytes.take piece.width) ++ respell rest (bytes.drop piece.width)

def width (ps : List Piece) : Nat := (ps.map Piece.width).sum

def pieceOf (f : Plan.Field Plan.Class) : Piece :=
  ⟨match f.shape with | .scalar _ => f.head.transform | _ => .none,f.size⟩

def fixedPieces (fields : List (Plan.Field Plan.Class)) : List Piece :=
  (fields.filter Plan.Field.isFixed).map pieceOf

def count : Value → Nat
  | .bytes t => t.length
  | .words bits => bits.length
  | .ints ns => ns.length
  | _ => 0

mutual

/-- The pieces of a record in the order of its bytes. -/
def pieces : Plan.Class → Record → List Piece
  | ⟨_,parent,_,_,fields,_⟩, .mk _ header values =>
    headerPieces parent header ++ fixedPieces fields ++ payloadPieces fields values

def headerPieces : Option Plan.Class → Option Record → List Piece
  | some p, some h => pieces p h
  | _, _ => []

def payloadPieces : List (Plan.Field Plan.Class) → Fields → List Piece
  | [], _ => []
  | ⟨head,shape⟩ :: rest, values =>
    (if 0 < head.size then [] else valuePieces shape (values.get? head.property.name)) ++
      payloadPieces rest values

def valuePieces : Plan.Shape Plan.Class → Option Value → List Piece
  | .nested plan, some (.record (some r)) => pieces plan r
  | .slice carrier, some value => [⟨.none,carrier.size * count value⟩]
  | .external _, some (.bytes t) => [⟨.none,t.length⟩]
  | _, _ => []

end

def payloadSize (f : Plan.Field Plan.Class) (values : Fields) : Nat :=
  width (valuePieces f.shape (values.get? f.name))

def withLength (holder : Option Plan.Holder) (size : Nat) (values : Fields) : Fields :=
  match holder with
  | none => values
  | some h => values.set h.name (number h.carrier size.toUInt64)

mutual

/-- The record with the lengths of all payloads in it set. -/
def measured : Plan.Class → Record → Record
  | ⟨_,parent,_,_,fields,_⟩, .mk className header values =>
    .mk className (measuredHeader parent header) (measuredFields fields values)

def measuredHeader : Option Plan.Class → Option Record → Option Record
  | some p, some h => some (measured p h)
  | _, header => header

def measuredFields : List (Plan.Field Plan.Class) → Fields → Fields
  | [], values => values
  | ⟨head,shape⟩ :: rest, values =>
    if 0 < head.size then measuredFields rest values
    else
      let name := head.property.name
      measuredFields rest
        (withLength head.lengthField (width (valuePieces shape (values.get? name)))
          (keep name values (measuredValue shape (values.get? name))))

def measuredValue : Plan.Shape Plan.Class → Option Value → Option Record
  | .nested plan, some (.record (some r)) => some (measured plan r)
  | _, _ => none

end

/-- Some payload of announced length is longer than the format allows, or than its length field can
say. -/
inductive Overflows : Plan.Class → Record → Prop
  | here {plan : Plan.Class} {r : Record} {f : Plan.Field Plan.Class} {holder : Plan.Holder}
      (field : f ∈ plan.fields) (framed : f.head.lengthField = some holder)
      (long : Payload.maxSize < payloadSize f r.fields ∨
        holder.carrier.greatest < payloadSize f r.fields) : Overflows plan r
  | inHeader {plan p : Plan.Class} {r h : Record} (parent : plan.parent = some p)
      (header : r.header = some h) (long : Overflows p h) : Overflows plan r
  | inField {plan p : Plan.Class} {r q : Record} {f : Plan.Field Plan.Class}
      (field : f ∈ plan.fields) (shape : f.shape = .nested p)
      (value : r.fields.get? f.name = some (.record (some q)))
      (long : Overflows p q) : Overflows plan r

/-- The value of a field that nests no record, as a reader would leave it. -/
def Suits (externals : External.Kinds) (f : Plan.Field Plan.Class) (value : Value) : Prop :=
  match f.shape with
  | .scalar carrier => ∃ bits, carrier.Fits bits ∧
      (f.head.transform.isMask = true → bits.toNat < 2 ^ 31) ∧
      value = scalarValue f.head.transform (some carrier) bits
  | .array carrier n => ∃ bits, bits.length = n ∧ (∀ b ∈ bits, carrier.Fits b) ∧
      value = numbers carrier bits
  | .slice carrier => ∃ bits, (∀ b ∈ bits, carrier.Fits b) ∧ value = numbers carrier bits
  | .external type => externals.find? type = none ∧ ∃ t, value = .bytes t
  | .nested _ => False

/-- A record of a class as a reader would leave it, but for the lengths in it, which may be anything
or missing. -/
inductive Canonical (externals : External.Kinds) : Plan.Class → Record → Prop
  | mk {plan : Plan.Class} {header : Option Record} {values : Fields} (ordered : values.Ordered)
      (known : ∀ name value, values.get? name = some value → ∃ f ∈ plan.fields, f.name = name)
      (headed : header.isSome = plan.parent.isSome)
      (parent : ∀ p h, plan.parent = some p → header = some h → Canonical externals p h)
      (plain : ∀ f ∈ plan.fields, f.head.lengthOf = none → (∀ p, f.shape ≠ .nested p) →
        ∃ value, values.get? f.name = some value ∧ Suits externals f value)
      (records : ∀ f ∈ plan.fields, ∀ p, f.shape = .nested p →
        ∃ r, values.get? f.name = some (.record (some r)))
      (nested : ∀ f ∈ plan.fields, ∀ p r, f.shape = .nested p →
        values.get? f.name = some (.record (some r)) → Canonical externals p r) :
      Canonical externals plan (.mk plan.name header values)

theorem Canonical.className {externals : External.Kinds} {plan : Plan.Class} {r : Record}
    (h : Canonical externals plan r) : r.className = plan.name := by
  cases h
  rfl

def PayloadSuits (externals : External.Kinds) (f : Plan.Field Plan.Class)
    (value : Value) : Prop :=
  (∃ p r, f.shape = .nested p ∧ value = .record (some r) ∧ Canonical externals p r) ∨
    (∀ p, f.shape ≠ .nested p) ∧ Suits externals f value

def Unframed (f : Plan.Field Plan.Class) : Prop :=
  (∃ type, f.shape = .external type) ∧ f.head.lengthField = none

/-- Every payload of the class itself can be told from what follows it. -/
def Delimited (plan : Plan.Class) : Prop := ∀ f ∈ plan.fields, ¬ Unframed f

/-- At most the last payload of the class itself takes all the bytes that are left. -/
structure OpenEnded (plan : Plan.Class) : Prop where
  parent : ∀ p, plan.parent = some p → p.Forall Delimited
  nested : ∀ f ∈ plan.fields, ∀ p, f.shape = .nested p → p.Forall Delimited
  last : ∀ front f back, plan.fields = front ++ f :: back → Unframed f →
    ∀ g ∈ back, g.isFixed = true

/-- No message of another format in the class is of a type that is known. -/
def Unregistered (externals : External.Kinds) (plan : Plan.Class) : Prop :=
  ∀ f ∈ plan.fields, ∀ type, f.shape = .external type → externals.find? type = none

def Untransformed (plan : Plan.Class) : Prop :=
  ∀ f ∈ plan.fields, f.head.transform ≠ .bool ∧ f.head.transform.isMask = false

section Pieces

theorem pieces_eq (plan : Plan.Class) (r : Record) :
    pieces plan r = headerPieces plan.parent r.header ++ fixedPieces plan.fields ++
      payloadPieces plan.fields r.fields := by
  obtain ⟨_,parent,_,_,fields,_⟩ := plan
  obtain ⟨_,header,values⟩ := r
  rw [pieces]
  rfl

theorem payloadPieces_cons (f : Plan.Field Plan.Class) (rest : List (Plan.Field Plan.Class))
    (values : Fields) : payloadPieces (f :: rest) values =
      (if f.isFixed then [] else valuePieces f.shape (values.get? f.name)) ++
        payloadPieces rest values := by
  obtain ⟨head,shape⟩ := f
  rw [payloadPieces]
  simp [Plan.Field.isFixed,Plan.Field.name]

theorem fixedPieces_cons (f : Plan.Field Plan.Class) (rest : List (Plan.Field Plan.Class)) :
    fixedPieces (f :: rest) = if f.isFixed then pieceOf f :: fixedPieces rest
      else fixedPieces rest := by
  cases hf : f.isFixed <;> simp [fixedPieces,hf]

theorem measured_eq (plan : Plan.Class) (r : Record) :
    measured plan r = .mk r.className (measuredHeader plan.parent r.header)
      (measuredFields plan.fields r.fields) := by
  obtain ⟨_,parent,_,_,fields,_⟩ := plan
  obtain ⟨_,header,values⟩ := r
  rw [measured]
  rfl

theorem measuredFields_cons (f : Plan.Field Plan.Class) (rest : List (Plan.Field Plan.Class))
    (values : Fields) :
    measuredFields (f :: rest) values = if f.isFixed then measuredFields rest values
      else measuredFields rest (withLength f.head.lengthField (payloadSize f values)
        (keep f.name values (measuredValue f.shape (values.get? f.name)))) := by
  obtain ⟨head,shape⟩ := f
  rw [measuredFields]
  simp [Plan.Field.isFixed,Plan.Field.name,payloadSize]

theorem count_numbers (p : Primitive) (bits : List UInt64) :
    count (numbers p bits) = bits.length := by
  unfold numbers
  split
  · simp [count]
  · split <;> simp [count]

theorem width_append (first second : List Piece) :
    width (first ++ second) = width first + width second := by
  simp [width]

theorem respell_append {first second : List Piece} {bytes more : Text}
    (h : bytes.length = width first) :
    respell (first ++ second) (bytes ++ more) = respell first bytes ++ respell second more := by
  induction first generalizing bytes with
  | nil =>
    have hnil : bytes = [] := List.eq_nil_of_length_eq_zero h
    simp [hnil,respell]
  | cons p rest ih =>
    have hwidth : bytes.length = p.width + width rest := h
    have htake : (bytes ++ more).take p.width = bytes.take p.width :=
      List.take_append_of_le_length (by omega)
    have hdrop : (bytes ++ more).drop p.width = bytes.drop p.width ++ more :=
      List.drop_append_of_le_length (by omega)
    rw [List.cons_append,respell,htake,hdrop,ih (by simp; omega),respell,List.append_assoc]

theorem respell_cons {piece : Piece} {ps : List Piece} {bytes more : Text}
    (h : bytes.length = piece.width) :
    respell (piece :: ps) (bytes ++ more) = piece.respell bytes ++ respell ps more := by
  simp [respell,← h]

theorem length_respell_piece (piece : Piece) (bytes : Text) :
    (piece.respell bytes).length = bytes.length := by
  obtain ⟨transform,width⟩ := piece
  cases transform with
  | bool =>
    simp only [Piece.respell]
    split
    · rfl
    · rename_i hset
      cases bytes with
      | nil => simp at hset
      | cons b rest => simp
  | _ => simp [Piece.respell]

theorem length_respell (ps : List Piece) (bytes : Text) :
    (respell ps bytes).length = bytes.length := by
  induction ps generalizing bytes with
  | nil => rfl
  | cons piece ps ih =>
    rw [respell,List.length_append,length_respell_piece,ih,← List.length_append,
      List.take_append_drop]

end Pieces

section Arranged

variable {f : Plan.Field Plan.Class} {fields : List (Plan.Field Plan.Class)}

theorem isFixed_iff (f : Plan.Field Plan.Class) : f.isFixed = true ↔ 0 < f.size := by
  simp [Plan.Field.isFixed,Plan.Field.size]

theorem size_of_not_isFixed (h : f.isFixed = false) : f.size = 0 := by
  simpa [Plan.Field.isFixed,Plan.Field.size] using h

/-- The size of a field is told by its shape. -/
structure Regular (f : Plan.Field Plan.Class) : Prop where
  size : f.size = f.shape.fixedSize
  fixed : 0 < f.size ↔
    (∃ carrier, f.shape = .scalar carrier) ∨ ∃ carrier count, f.shape = .array carrier count
  mask : ∀ carrier, f.shape = .scalar carrier → f.head.transform.isMask = true → carrier.size = 4

theorem Regular.isFixed_scalar (h : Regular f) {carrier : Primitive}
    (hshape : f.shape = .scalar carrier) : f.isFixed = true :=
  (isFixed_iff f).mpr (h.fixed.mpr (.inl ⟨carrier,hshape⟩))

theorem Regular.not_nested (h : Regular f) (hf : f.isFixed = true) (p : Plan.Class) :
    f.shape ≠ .nested p := by
  intro hshape
  rcases h.fixed.mp ((isFixed_iff f).mp hf) with ⟨_,heq⟩ | ⟨_,_,heq⟩
  · rw [hshape] at heq
    cases heq
  · rw [hshape] at heq
    cases heq

theorem Regular.payload (h : Regular f) (hf : f.isFixed = false) :
    (∃ carrier, f.shape = .slice carrier) ∨ (∃ type, f.shape = .external type) ∨
      ∃ p, f.shape = .nested p := by
  have hzero := size_of_not_isFixed hf
  have hnone : ¬ ((∃ carrier, f.shape = .scalar carrier) ∨
      ∃ carrier count, f.shape = .array carrier count) := fun hs => by
    have hpos := h.fixed.mpr hs
    omega
  cases hshape : f.shape with
  | scalar carrier => exact absurd (.inl ⟨carrier,hshape⟩) hnone
  | array carrier count => exact absurd (.inr ⟨carrier,count,hshape⟩) hnone
  | slice carrier => exact .inl ⟨carrier,rfl⟩
  | external type => exact .inr (.inl ⟨type,rfl⟩)
  | nested p => exact .inr (.inr ⟨p,rfl⟩)

/-- How the fields of a layout fit together, or those from one of them on. -/
structure Arranged (fields : List (Plan.Field Plan.Class)) : Prop where
  names : (fields.map Plan.Field.name).Nodup
  regular : ∀ f ∈ fields, Regular f
  unframed : ∀ f ∈ fields, f.isFixed = true → f.head.lengthField = none
  slices : ∀ f ∈ fields, ∀ carrier, f.shape = .slice carrier → f.head.lengthField ≠ none
  apart : ∀ f ∈ fields, f.isFixed = false → ∀ g ∈ fields, ∀ holder,
    g.head.lengthField = some holder → holder.name ≠ f.name
  single : ∀ f ∈ fields, ∀ g ∈ fields, ∀ h k, f.head.lengthField = some h →
    g.head.lengthField = some k → h.name = k.name → f.name = g.name

theorem Arranged.tail (h : Arranged (f :: fields)) : Arranged fields where
  names := (List.nodup_cons.mp h.names).2
  regular := fun g hg => h.regular g (by simp [hg])
  unframed := fun g hg => h.unframed g (by simp [hg])
  slices := fun g hg => h.slices g (by simp [hg])
  apart := fun g hg hfixed k hk => h.apart g (by simp [hg]) hfixed k (by simp [hk])
  single := fun g hg k hk => h.single g (by simp [hg]) k (by simp [hk])

theorem Arranged.other (h : Arranged (f :: fields)) {g : Plan.Field Plan.Class} (hg : g ∈ fields) :
    g.name ≠ f.name := by
  intro heq
  exact (List.nodup_cons.mp h.names).1 (heq ▸ List.mem_map_of_mem hg)

theorem Arranged.not_isFixed (h : Arranged fields) (hf : f ∈ fields) {holder : Plan.Holder}
    (hl : f.head.lengthField = some holder) : f.isFixed = false := by
  by_contra hne
  rw [h.unframed f hf (by simpa using hne)] at hl
  cases hl

theorem Arranged.name_ne (h : Arranged fields) (hf : f ∈ fields) (hfixed : f.isFixed = true)
    {g : Plan.Field Plan.Class} (hg : g ∈ fields) (hvariable : g.isFixed = false) :
    g.name ≠ f.name := by
  intro heq
  rw [eq_of_name_eq h.names hg hf heq,hfixed] at hvariable
  cases hvariable

theorem arranged_of_wellFormed {plan : Plan.Class}
    (h : plan.WellFormed) : Arranged plan.fields where
  names := h.names
  regular := fun f hf => ⟨h.sizes f hf,h.fixed f hf,h.masks f hf⟩
  unframed := by
    intro f hf hfixed
    by_contra hne
    have hzero := h.payloads f hf hne
    have hpos := (isFixed_iff f).mp hfixed
    omega
  slices := h.slices
  apart := fun f hf hfixed g hg holder hl => h.holder_ne hf hg hl (size_of_not_isFixed hfixed)
  single := by
    intro f hf g hg hold other hl hl' heq
    obtain ⟨first,hfirst,⟨c,hc,hfl⟩,-⟩ := h.framed f hf (by simp [hl])
    obtain ⟨second,hsecond,⟨d,hd,hgl⟩,-⟩ := h.framed g hg (by simp [hl'])
    rw [hl] at hfl
    rw [hl'] at hgl
    cases hfl
    cases hgl
    have hsame : first = second := eq_of_name_eq h.names hfirst hsecond heq
    subst hsame
    have hlengthOf := (h.matched f hf first hfirst).mp ⟨c,hc,hl⟩
    have hlengthOf' := (h.matched g hg first hfirst).mp ⟨d,hd,hl'⟩
    rw [hlengthOf] at hlengthOf'
    exact Option.some.inj hlengthOf'

end Arranged

/-- Values that the fields of fixed size, or the others, have been read into: these fields have
values that suit them, and no other has changed. -/
structure ReadInto (fixed : Bool) (suits : Plan.Field Plan.Class → Value → Prop)
    (fields : List (Plan.Field Plan.Class)) (start last : Fields) : Prop where
  suits : ∀ f ∈ fields, f.isFixed = fixed → ∃ value, last.get? f.name = some value ∧ suits f value
  frame : ∀ name, (∀ f ∈ fields, f.isFixed = fixed → f.name ≠ name) →
    last.get? name = start.get? name
  ordered : start.Ordered → last.Ordered

section ReadInto

variable {fixed : Bool} {suits : Plan.Field Plan.Class → Value → Prop}
    {f : Plan.Field Plan.Class} {fields : List (Plan.Field Plan.Class)} {start last : Fields}
    {value : Value}

theorem readInto_nil : ReadInto fixed suits [] start start :=
  ⟨by simp,fun _ _ => rfl,id⟩

theorem ReadInto.skip (h : ReadInto fixed suits fields start last) (hf : f.isFixed ≠ fixed) :
    ReadInto fixed suits (f :: fields) start last := by
  refine ⟨?_,fun name hname => h.frame name fun g hg => hname g (by simp [hg]),h.ordered⟩
  intro g hg hfixed
  rcases List.mem_cons.mp hg with rfl | hg
  · exact absurd hfixed hf
  · exact h.suits g hg hfixed

theorem ReadInto.get? (h : ReadInto fixed suits fields (start.set f.name value) last)
    (hfields : Arranged (f :: fields)) : last.get? f.name = some value := by
  rw [h.frame f.name fun g hg _ => hfields.other hg,Fields.get?_set,if_pos rfl]

theorem ReadInto.cons (h : ReadInto fixed suits fields (start.set f.name value) last)
    (hfields : Arranged (f :: fields)) (hf : f.isFixed = fixed) (hvalue : suits f value) :
    ReadInto fixed suits (f :: fields) start last := by
  refine ⟨?_,?_,fun hstart => h.ordered (hstart.set _ _)⟩
  · intro g hg hfixed
    rcases List.mem_cons.mp hg with rfl | hg
    · exact ⟨value,h.get? hfields,hvalue⟩
    · exact h.suits g hg hfixed
  · intro name hname
    rw [h.frame name fun g hg => hname g (by simp [hg]),Fields.get?_set,
      if_neg (Ne.symm (hname f (by simp) hf))]

theorem ReadInto.kept (h : ReadInto false suits fields start last) (hfields : Arranged fields)
    (hf : f ∈ fields) (hfixed : f.isFixed = true) : last.get? f.name = start.get? f.name :=
  h.frame f.name fun _ hg hvariable => hfields.name_ne hf hfixed hg hvariable

end ReadInto

end WireSchema.Record
