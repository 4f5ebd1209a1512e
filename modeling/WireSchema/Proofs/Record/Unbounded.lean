import WireSchema.Proofs.Record.RoundTrip
set_option autoImplicit false

/-!
Payloads without a length. A schema without a warning about them has at most one in each class, and
no other payload of the class behind it. So a record comes back from its bytes as long as the class
of no other record in it ends in such a payload, or nothing stands behind that record. The warning
does not look at what stands behind a record: two records of such a class, one after the other, are
told apart neither by the bytes nor by a warning.
-/

namespace WireSchema.Schema

open Result

def Property.RunsOn (p : Property) : Prop := p.flag = some .proto ∧ p.lengthField = none

theorem unboundedPair?_none {xs : List (Document.Property × Property)}
    (h : unboundedPair? xs = none) : xs.Pairwise fun x _ => ¬ x.2.RunsOn := by
  induction xs with
  | nil => exact .nil
  | cons x xs ih =>
    obtain ⟨node,p⟩ := x
    unfold unboundedPair? at h
    split at h
    · have hnone : xs = [] := by simpa using h
      rw [hnone]
      exact List.pairwise_singleton _ _
    · rename_i hbounded
      refine .cons (fun _ _ hruns => hbounded ⟨hruns.1,?_⟩) (ih h)
      simpa using hruns.2

theorem collect_warnings {α β : Type} {check : α → Except Fault (Warned β)} {xs : List α}
    {ys : List β} {ws : List Warning} (h : collect check xs = .ok (ys,ws)) {y : β} (hy : y ∈ ys) :
    ∃ x ∈ xs, ∃ w, check x = .ok (y,w) ∧ w ⊆ ws := by
  induction xs generalizing ys ws with
  | nil =>
    simp only [collect,Except.ok.injEq,Prod.mk.injEq] at h
    rw [← h.1] at hy
    cases hy
  | cons x xs ih =>
    simp only [collect,bind_eq_ok,pure_eq_ok,Except.ok.injEq,Prod.mk.injEq] at h
    obtain ⟨⟨z,w⟩,hx,⟨zs,vs⟩,hxs,rfl,rfl⟩ := h
    rcases List.mem_cons.mp hy with rfl | hy
    · exact ⟨x,by simp,w,hx,List.subset_append_left _ _⟩
    · obtain ⟨x',hx',w',hcheck,hsubset⟩ := ih hxs hy
      exact ⟨x',by simp [hx'],w',hcheck,List.Subset.trans hsubset (List.subset_append_right _ _)⟩

theorem warnings_of_compile {path : Text} {doc : Document} {schema : Schema} {ws : List Warning}
    (h : compile path doc = .ok (schema,ws)) {c : Class} (hc : c ∈ schema.classes) :
    ∃ node w, compileClass doc node = .ok (c,w) ∧ w ⊆ ws := by
  simp only [compile,bind_eq_ok,pure_eq_ok,Except.ok.injEq,Prod.mk.injEq] at h
  obtain ⟨_,-,⟨enums,_⟩,-,⟨classes,vs⟩,hclasses,⟨⟩,-,rfl,rfl⟩ := h
  obtain ⟨d,hd,hdc⟩ := List.mem_filterMap.mp hc
  obtain ⟨decl,-,harrange⟩ := List.mem_filterMap.mp hd
  have hmem : c ∈ classes := by
    cases decl with
    | enum e =>
      obtain ⟨_,-,rfl⟩ := Option.map_eq_some_iff.mp harrange
      cases hdc
    | «class» node =>
      obtain ⟨found,hfound,rfl⟩ := Option.map_eq_some_iff.mp harrange
      cases hdc
      exact List.mem_of_find?_eq_some hfound
  obtain ⟨node,-,w,hnode,hsubset⟩ := collect_warnings hclasses hmem
  exact ⟨node,w,hnode,List.Subset.trans hsubset (List.subset_append_right _ _)⟩

theorem pairwise_of_unboundedWarnings {doc : Document} (decl : Text)
    {all : List (Document.Property × Property)} (h : unboundedWarnings doc decl all = []) :
    ((all.map Prod.snd).filter Plan.isWritten).Pairwise fun p q =>
      isVariable doc p = true → isVariable doc q = true → ¬ p.RunsOn := by
  unfold unboundedWarnings at h
  dsimp only at h
  split at h
  · rename_i hnone
    rw [List.pairwise_filter,List.pairwise_map]
    refine (List.pairwise_filter.mp (unboundedPair?_none hnone)).imp ?_
    intro x y hxy hx hy hxv hyv
    refine hxy ?_ ?_
    · simpa [hxv,Plan.isWritten,and_comm] using hx
    · simpa [hyv,Plan.isWritten,and_comm] using hy
  · cases h

theorem code_of_unboundedWarnings {doc : Document} {decl : Text}
    {all : List (Document.Property × Property)} {v : Warning}
    (h : v ∈ unboundedWarnings doc decl all) : v.code = 4001 := by
  unfold unboundedWarnings at h
  dsimp only at h
  split at h
  · cases h
  · obtain rfl := List.mem_singleton.mp h
    rfl

theorem pairwise_of_compileClass {doc : Document} {node : Document.Class} {c : Class}
    {w : List Warning} (h : compileClass doc node = .ok (c,w)) (hw : ∀ v ∈ w, v.code ≠ 4001) :
    (c.properties.filter Plan.isWritten).Pairwise fun p q =>
      isVariable doc p = true → isVariable doc q = true → ¬ p.RunsOn := by
  simp only [compileClass,bind_eq_ok,pure_eq_ok,Except.ok.injEq,Prod.mk.injEq] at h
  obtain ⟨_,-,_,-,⟨properties,_⟩,-,links,-,rfl,rfl⟩ := h
  refine pairwise_of_unboundedWarnings node.name.text ?_
  refine List.eq_nil_iff_forall_not_mem.mpr fun v hv => ?_
  exact hw v (List.mem_append_right _ hv) (code_of_unboundedWarnings hv)

theorem typeShape_of_class {doc : Document} {schema : Schema}
    (h : List.Forall₂ (Decl.Compiled doc) doc.decls schema.decls) {name : Text} {c : Class}
    (hc : schema.decl? name = some (.class c)) (member : Option Text) :
    typeShape doc (.strong name member) = .class name := by
  cases hdoc : doc.decl? name with
  | none => simp [typeShape,hdoc]
  | some d =>
    cases d with
    | «class» _ => simp [typeShape,hdoc]
    | enum e =>
      obtain ⟨compiled,hfind,hcompiled⟩ := Decl.Compiled.find h hdoc
      cases hcompiled with
      | enum _ =>
        have hfound := hc.symm.trans hfind
        cases hfound

end WireSchema.Schema

namespace WireSchema.Plan

open Record (Lone Unframed)

variable {schema : Schema} {supportsGc : Bool} {plan : Class} {p : Schema.Property}
  {f : Field Class}

theorem FieldOf.runsOn (hlaid : Laid schema supportsGc plan) (hs : schema.Sound)
    (h : FieldOf schema plan.decl p f) (hunframed : Unframed f) : p.RunsOn := by
  obtain ⟨⟨type,hshape⟩,hnone⟩ := hunframed
  refine ⟨?_,?_⟩
  · rcases h.shape.cases with ⟨hflag,-⟩ | ⟨-,_,carrier,-,-,hnumbers⟩ | ⟨-,-,_,hnested⟩
    · exact hflag
    · rw [hshape] at hnumbers
      unfold numbers at hnumbers
      split at hnumbers
      · cases hnumbers
      · split at hnumbers <;> cases hnumbers
    · rw [hshape] at hnested
      cases hnested
  · cases hl : p.lengthField with
    | none => rfl
    | some name =>
      obtain ⟨holder,-,⟨carrier,-,hlink⟩,-⟩ := hlaid.framed (hs.classes _ hlaid.decl) h hl
      rw [hnone] at hlink
      cases hlink

theorem FieldOf.isVariable {doc : Document}
    (hdecls : List.Forall₂ (Schema.Decl.Compiled doc) doc.decls schema.decls)
    (h : FieldOf schema plan.decl p f) (hfixed : f.isFixed = false) :
    Schema.isVariable doc p = true := by
  have hsize : ¬ 0 < f.shape.fixedSize := by
    rw [← h.size]
    simpa [Field.isFixed,Field.size] using hfixed
  have hslice : ∀ carrier, f.shape = numbers p carrier → Schema.isVariable doc p = true := by
    intro carrier hnumbers
    rw [hnumbers] at hsize
    unfold numbers at hsize
    split at hsize
    · rename_i hcount
      simp [Shape.fixedSize,carrier.size_pos,hcount] at hsize
    · split at hsize
      · rename_i hframed
        simp [Schema.isVariable,hframed]
      · simp [Shape.fixedSize,carrier.size_pos] at hsize
  have hshape := h.shape
  unfold Shaped at hshape
  split at hshape
  · rename_i hflag
    simp [Schema.isVariable,hflag]
  cases htype : p.type with
  | weak name =>
    simp only [htype] at hshape
    obtain ⟨primitive,-,hnumbers⟩ := hshape
    exact hslice primitive hnumbers
  | strong decl member =>
    simp only [htype] at hshape
    cases hdecl : schema.decl? decl with
    | none => simp [hdecl] at hshape
    | some d =>
      cases d with
      | enum e =>
        simp only [hdecl] at hshape
        exact hslice _ hshape
      | «class» c =>
        simp [Schema.isVariable,htype,Schema.typeShape_of_class hdecls hdecl]

theorem Laid.lone {path : Text} {doc : Document} {ws : List Schema.Warning}
    (h : Schema.compile path doc = .ok (schema,ws)) (hws : ∀ w ∈ ws, w.code ≠ 4001)
    (hlaid : Laid schema supportsGc plan) : Lone plan := by
  have hs := Schema.sound_of_compile h
  obtain ⟨-,-,hdecls⟩ := Schema.compile_ok h
  obtain ⟨node,w,hnode,hsubset⟩ := Schema.warnings_of_compile h hlaid.decl
  have hpairs := Schema.pairwise_of_compileClass hnode fun v hv => hws v (hsubset hv)
  have hheads : (plan.fields.map Field.head).Pairwise fun f g =>
      Schema.isVariable doc f.property = true → Schema.isVariable doc g.property = true →
        ¬ f.property.RunsOn := by
    rw [hlaid.heads,List.pairwise_map]
    exact hpairs
  rw [List.pairwise_map] at hheads
  intro front f back heq hunframed g hg
  have hf : f ∈ plan.fields := by rw [heq]; simp
  have hg' : g ∈ plan.fields := by rw [heq]; simp [hg]
  rw [heq] at hheads
  have hpair := (List.pairwise_cons.mp (List.pairwise_append.mp hheads).2.1).1 g hg
  obtain ⟨p,hp⟩ := hlaid.property hf
  obtain ⟨q,hq⟩ := hlaid.property hg'
  have hruns := hp.runsOn hlaid hs hunframed
  by_contra hfixed
  rw [hp.head,hq.head] at hpair
  refine hpair ?_ (hq.isVariable hdecls (by simpa using hfixed)) hruns
  simp [headOf,Schema.isVariable,hruns.1]

end WireSchema.Plan

namespace WireSchema.Record

theorem get?_of_entries {externals : External.Kinds} {fields : List (Plan.Field Plan.Class)}
    {values : Fields} (hordered : values.Ordered)
    (h : List.Forall₂ (fun f entry => f.name = entry.1 ∧ PayloadSuits externals f entry.2) fields
      values) :
    (∀ f ∈ fields, ∃ value, values.get? f.name = some value ∧ PayloadSuits externals f value) ∧
      ∀ name value, values.get? name = some value → ∃ f ∈ fields, f.name = name := by
  induction h with
  | nil => simp [Fields.get?]
  | @cons f entry fields values hentry _ ih =>
    obtain ⟨other,value⟩ := entry
    obtain ⟨rfl,hsuits⟩ := hentry
    obtain ⟨hfirst,hrest⟩ := List.pairwise_cons.mp hordered
    obtain ⟨hget,hknown⟩ := ih hrest
    refine ⟨?_,?_⟩
    · intro g hg
      rcases List.mem_cons.mp hg with rfl | hg
      · exact ⟨value,by simp [Fields.get?],hsuits⟩
      · obtain ⟨found,hfound,hfits⟩ := hget g hg
        have hne : g.name ≠ f.name := by
          intro heq
          rw [heq,Fields.get?_of_before hfirst] at hfound
          cases hfound
        exact ⟨found,by simpa [Fields.get?,hne] using hfound,hfits⟩
    · intro name found hfound
      by_cases hname : name = f.name
      · exact ⟨f,by simp,hname.symm⟩
      · obtain ⟨g,hg,heq⟩ := hknown name found (by simpa [Fields.get?,hname] using hfound)
        exact ⟨g,by simp [hg],heq⟩

theorem canonical_of_entries {externals : External.Kinds} (plan : Plan.Class) {values : Fields}
    (hparent : plan.parent = none) (hordered : values.Ordered)
    (h : List.Forall₂ (fun f entry => f.name = entry.1 ∧ PayloadSuits externals f entry.2)
      plan.fields values) : Canonical externals plan (.mk plan.name none values) := by
  obtain ⟨hget,hknown⟩ := get?_of_entries hordered h
  refine .mk hordered hknown (by simp [hparent]) (by simp) ?_ ?_ ?_
  · intro f hf _ hplain
    obtain ⟨value,hvalue,⟨p,_,hshape,-,-⟩ | ⟨-,hsuits⟩⟩ := hget f hf
    · exact absurd hshape (hplain p)
    · exact ⟨value,hvalue,hsuits⟩
  · intro f hf p hshape
    obtain ⟨value,hvalue,⟨_,r,-,rfl,-⟩ | ⟨hplain,-⟩⟩ := hget f hf
    · exact ⟨r,hvalue⟩
    · exact absurd hshape (hplain p)
  · intro f hf p r hshape hr
    obtain ⟨value,hvalue,⟨q,s,hshape',rfl,hs⟩ | ⟨hplain,-⟩⟩ := hget f hf
    · rw [hvalue] at hr
      rw [hshape] at hshape'
      cases hr
      cases hshape'
      exact hs
    · exact absurd hshape (hplain p)

end WireSchema.Record

namespace WireSchema.Codec

open Record (Canonical Guarded Lone measured)

variable {c : Codec} {plan : Plan.Class} {r : Record}

theorem decode_of_encode (hplan : (c.plan r.className).1 = .ok plan)
    (hwf : plan.Forall Plan.Class.WellFormed) (hlone : plan.Forall Lone)
    (hguarded : Guarded true plan) (hr : Canonical c.externals plan r) {bytes : Text}
    (hbytes : (c.encode r).1 = .ok bytes) : (c.encode r).2.1 = measured plan r ∧
      ((c.encode r).2.2.decode r.className bytes).1 = .ok (measured plan r) := by
  rw [encode_of_plan hplan] at hbytes ⊢
  rcases Record.roundTrips c.registry hwf hr with ⟨-,fault,size,herror,-⟩ | ⟨-,more,hmore⟩
  · rw [herror] at hbytes
    cases hbytes
  · rw [hmore.written] at hbytes ⊢
    obtain rfl : more = bytes := Except.ok.inj hbytes
    have hagain : ((c.plan r.className).2.plan r.className).1 = .ok plan := by
      rw [plan_again hplan]
    have hread := hmore.reads true [] (fun _ => rfl) hguarded hlone
    rw [List.append_nil] at hread
    rw [decode_of_plan hagain,registry_plan,hread]
    exact ⟨rfl,rfl⟩

/-- Notes are nothing but a payload without a length. A letter has a note as its last payload, and a
pair has one note behind the other. -/
def notes : Document where
  span := ⟨0,0⟩
  directives := []
  decls := [
    .class ⟨⟨0,0⟩,⟨"Note",0⟩,none,none,none,[property (some .proto) none "Text" "body"]⟩,
    .class ⟨⟨0,0⟩,⟨"Letter",0⟩,none,none,none,[
      property none none "Note" "note",
      property none none "ushort" "year"]⟩,
    .class ⟨⟨0,0⟩,⟨"Pair",0⟩,none,none,none,[
      property none none "Note" "first",
      property none none "Note" "second"]⟩]

def notesSchema : Schema := ((Schema.compile [] notes).toOption.map Prod.fst).getD default

theorem compile_notes : Schema.compile [] notes = .ok (notesSchema,[]) := rfl

def plainProperty (type : Reference) (name : Text) : Schema.Property :=
  ⟨name,type,none,0,none,none,[],none,false⟩

def plainField (shape : Plan.Shape Plan.Class) (size : Nat) (p : Schema.Property) :
    Plan.Field Plan.Class :=
  ⟨⟨p,size,.none,none,none,none⟩,shape⟩

def plainPlan (name : Text) (fields : List (Plan.Field Plan.Class)) : Plan.Class :=
  ⟨⟨name,none,none,fields.map fun f => f.head.property,false⟩,none,.plain,.primary,fields,[]⟩

def noteBody : Plan.Field Plan.Class :=
  plainField (.external "Text") 0 { plainProperty (.weak "Text") "body" with flag := some .proto }

def notePlan : Plan.Class := plainPlan "Note" [noteBody]

def noteField (name : Text) : Plan.Field Plan.Class :=
  plainField (.nested notePlan) 0 (plainProperty (.strong "Note" none) name)

def yearField : Plan.Field Plan.Class :=
  plainField (.scalar .ushort) 2 (plainProperty (.weak "ushort") "year")

def letterPlan : Plan.Class := plainPlan "Letter" [noteField "note",yearField]

def pairPlan : Plan.Class := plainPlan "Pair" [noteField "first",noteField "second"]

theorem plan_letter : ((new notesSchema false .empty).plan "Letter").1 = .ok letterPlan := rfl

theorem plan_pair : ((new notesSchema false .empty).plan "Pair").1 = .ok pairPlan := rfl

def note (body : Text) : Record := .mk "Note" none [("body",.bytes body)]

def letter (body : Text) (year : UInt64) : Record :=
  .mk "Letter" none [("note",.record (some (note body))),("year",.word year)]

def pair (first second : Text) : Record :=
  .mk "Pair" none [("first",.record (some (note first))),("second",.record (some (note second)))]

theorem canonical_note (body : Text) : Canonical .empty notePlan (note body) :=
  Record.canonical_of_entries notePlan rfl (by simp [Fields.Ordered])
    (.cons ⟨rfl,.inr ⟨by rintro _ ⟨⟩,rfl,body,rfl⟩⟩ .nil)

theorem noteField_suits (name body : Text) :
    Record.PayloadSuits .empty (noteField name) (.record (some (note body))) :=
  .inl ⟨notePlan,_,rfl,rfl,canonical_note body⟩

theorem canonical_letter (body : Text) {year : UInt64} (hyear : Primitive.ushort.Fits year) :
    Canonical .empty letterPlan (letter body year) :=
  Record.canonical_of_entries letterPlan rfl (List.pairwise_pair.mpr rfl)
    (.cons ⟨rfl,noteField_suits _ _⟩
      (.cons ⟨rfl,.inr ⟨by rintro _ ⟨⟩,year,hyear,by rintro ⟨⟩,
        congrArg Value.word (Primitive.mask_of_fits hyear).symm⟩⟩ .nil))

theorem canonical_pair (first second : Text) : Canonical .empty pairPlan (pair first second) :=
  Record.canonical_of_entries pairPlan rfl (List.pairwise_pair.mpr rfl)
    (.cons ⟨rfl,noteField_suits _ _⟩ (.cons ⟨rfl,noteField_suits _ _⟩ .nil))

theorem guarded_note (tail : Bool) (h : tail = true) : Guarded tail notePlan := by
  refine .mk (by simp [h]) (by rintro _ ⟨⟩) fun front f back heq p hp => ?_
  have hf : f ∈ notePlan.fields := by rw [heq]; simp
  obtain rfl := List.mem_singleton.mp hf
  cases hp

theorem guarded_letter : Guarded true letterPlan := by
  refine .mk (by simp) (by rintro _ ⟨⟩) fun front f back heq p hp => ?_
  cases front with
  | nil =>
    obtain ⟨rfl,rfl⟩ := List.cons.inj heq
    cases hp
    exact guarded_note _ rfl
  | cons first front =>
    have hrest : [yearField] = front ++ f :: back := (List.cons.inj heq).2
    have hf : f ∈ [yearField] := by rw [hrest]; simp
    obtain rfl := List.mem_singleton.mp hf
    cases hp

/-- In a schema without a warning about payloads, a record that is written comes back from its bytes
as the writing has left it, if nothing stands behind what ends in a payload without a length. -/
theorem decode_encode_of_unwarned {path : Text} {doc : Document} {schema : Schema}
    {ws : List Schema.Warning} (h : Schema.compile path doc = .ok (schema,ws))
    (hws : ∀ w ∈ ws, w.code ≠ 4001) {supportsGc : Bool} {calls : List Planner.Call}
    (hc : c.planner = (Planner.new schema supportsGc).after calls)
    (hplan : (c.plan r.className).1 = .ok plan) (hguarded : Guarded true plan)
    (hr : Canonical c.externals plan r) {bytes : Text} (hbytes : (c.encode r).1 = .ok bytes) :
    (c.encode r).2.1 = measured plan r ∧
      ((c.encode r).2.2.decode r.className bytes).1 = .ok (measured plan r) := by
  have hs := Schema.sound_of_compile h
  have hplanner : c.planner.Sound schema supportsGc := hc ▸ Planner.sound_after hs calls
  obtain ⟨-,hlaid⟩ := plan_forall hs hplanner hplan
  exact decode_of_encode hplan (hlaid.imp fun _ hl => hl.wellFormed hs)
    (hlaid.imp fun _ hl => hl.lone h hws) hguarded hr hbytes

theorem letter_decode_encode :
    Guarded true letterPlan ∧ Canonical .empty letterPlan (letter [1,2] 1980) ∧
    ((new notesSchema false .empty).encode (letter [1,2] 1980)).1 = .ok [0xBC,7,1,2] ∧
    (((new notesSchema false .empty).encode (letter [1,2] 1980)).2.2.decode "Letter"
      [0xBC,7,1,2]).1 = .ok (measured letterPlan (letter [1,2] 1980)) := by
  have hcanonical : Canonical .empty letterPlan (letter [1,2] 1980) :=
    canonical_letter [1,2] (show (1980 : UInt64).toNat < 256 ^ 2 by decide)
  have hbytes : ((new notesSchema false .empty).encode (letter [1,2] 1980)).1 =
      .ok [0xBC,7,1,2] := rfl
  have hplanner : (new notesSchema false .empty).planner =
      (Planner.new notesSchema false).after [] := rfl
  have hread := decode_encode_of_unwarned (r := letter [1,2] 1980) compile_notes (by simp) hplanner
    plan_letter guarded_letter hcanonical hbytes
  exact ⟨guarded_letter,hcanonical,hbytes,hread.2⟩

/-- A pair is written without a complaint, and what is read back is another one. -/
theorem pair_runs_together :
    Schema.compile [] notes = .ok (notesSchema,[]) ∧
    ((new notesSchema false .empty).plan "Pair").1 = .ok pairPlan ∧
    Canonical .empty pairPlan (pair [1] [2]) ∧
    ((new notesSchema false .empty).encode (pair [1] [2])).1 = .ok [1,2] ∧
    ((new notesSchema false .empty).encode (pair [1] [2])).2.1 = pair [1] [2] ∧
    (((new notesSchema false .empty).encode (pair [1] [2])).2.2.decode "Pair" [1,2]).1 =
      .ok (pair [1,2] []) ∧
    pair [1,2] [] ≠ pair [1] [2] :=
  ⟨compile_notes,plan_pair,canonical_pair _ _,rfl,rfl,rfl,by simp [pair,note]⟩

end WireSchema.Codec
