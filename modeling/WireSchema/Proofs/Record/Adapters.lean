import WireSchema.Proofs.Record.RoundTrip
set_option autoImplicit false

/-!
What the values of adapters are written as. A flag is checked against the name of a type, and the
number is that of the declaration which the name has; the two agree unless a declaration has taken
the name of a built-in type.
-/

namespace WireSchema

def Flag.carrier? : Flag → Option Primitive
  | .steamId => some .ulong
  | .gameId => some .ulong
  | .bool => some .byte
  | _ => none

namespace Schema

section Checks

variable {doc : Document} {decl : Text} {node : Document.Property} {p : Property} {flag : Flag}
  {primitive : Primitive}

theorem name_of_checkType {type : Reference} (h : checkType doc decl node type = .ok ())
    (hf : node.flag = some flag) (hc : flag.carrier? = some primitive) :
    node.type.text = primitive.name := by
  cases flag <;> cases hc
  all_goals
    simp only [checkType,hf,fail,reduceCtorEq,if_false,Option.some.injEq] at h
    split at h
    · cases h
    · cases h
    · by_contra hname
      simp only [Primitive.name] at hname
      simp [hname] at h

theorem resolve_name {name : Ident} (primitive : Primitive) (hname : name.text = primitive.name) :
    resolve doc false name =
      .ok (if (doc.decl? primitive.name).isSome then .strong primitive.name none
        else .weak primitive.name) := by
  have hformed : Symbol.wellFormed primitive.name = true := by cases primitive <;> decide
  have hcut : Text.cut? Symbol.scopeMark primitive.name = none := by cases primitive <;> decide
  unfold resolve Symbol.resolve
  simp only [hname,hformed,hcut,Bool.not_true,Bool.false_eq_true,if_false]
  cases hdecl : doc.decl? primitive.name with
  | none => rfl
  | some d => simp [Symbol.reference,nodeName_of_decl? hdecl]

theorem Checked.adapter (h : Checked doc decl node p) (hf : p.flag = some flag)
    (hc : flag.carrier? = some primitive) :
    p.type = if (doc.decl? primitive.name).isSome then .strong primitive.name none
      else .weak primitive.name := by
  have hname := name_of_checkType h.suited (h.flag ▸ hf) hc
  have htype := h.type
  rw [resolve_name primitive hname] at htype
  exact (Except.ok.inj htype).symm

theorem Checked.no_option (h : Checked doc decl node p) (hf : p.flag ≠ none)
    (hproto : p.flag ≠ some .proto) : node.option = none := by
  have hoption := h.option
  rw [h.flag] at hf hproto
  unfold checkOption at hoption
  split at hoption
  · assumption
  · rename_i hnone
    exact absurd hnone hf
  · rename_i hsome
    exact absurd hsome hproto
  · simp [fail] at hoption

theorem Checked.single (h : Checked doc decl node p) (hoption : node.option = none) :
    p.arrayLength = 0 := by
  have hlength := h.length
  rw [arrayLength,hoption] at hlength
  exact (Except.ok.inj hlength).symm

end Checks

theorem lone_of_flag {doc : Document} {c : Document.Class} {compiled : Class} {w : List Warning}
    (h : compileClass doc c = .ok (compiled,w)) (hnames : (c.properties.map (·.name.text)).Nodup)
    {p : Property} (hp : p ∈ compiled.properties) (hf : p.flag ≠ none)
    (hproto : p.flag ≠ some .proto) : p.arrayLength = 0 ∧ p.lengthField = none := by
  obtain ⟨-,-,-,-,properties,links,hchecked,hlinks,heq⟩ := compileClass_ok h
  rw [heq] at hp
  obtain ⟨p₀,hp₀,rfl⟩ := List.mem_map.mp hp
  obtain ⟨node,-,hnode⟩ := exists_of_forall₂ hchecked hp₀
  refine ⟨hnode.single (hnode.no_option hf hproto),?_⟩
  rw [lengthField_withLinks]
  cases hlink : links.lookup p₀.name with
  | none => rfl
  | some holder =>
    -- The link comes from the option of the node, and a node with such a flag has none.
    obtain ⟨-,node',q,_,_,hq,-,hname,-,hsome,-⟩ := Linked.of_lookup (linksOf_ok hlinks).1 hlink
    have hnodup : (properties.map Property.name).Nodup := Checked.names hchecked ▸ hnames
    have hsame : q = p₀ := eq_of_name_eq hnodup (List.of_mem_zip hq).2 hp₀ hname
    have hnone := ((List.forall₂_iff_zip.mp hchecked).2 hq).no_option (hsame ▸ hf) (hsame ▸ hproto)
    simp [hnone] at hsome

end Schema

namespace Plan

section Shapes

variable {schema : Schema} {p : Schema.Property} {primitive : Primitive} {shape : Shape Class}

/-- The shape of one value of a type that is written by its name: the built-in type has that name,
but a declaration of the schema may have it, too. -/
def Named (schema : Schema) (primitive : Primitive) (shape : Shape Class) : Prop :=
  match schema.decl? primitive.name with
  | none => shape = .scalar primitive
  | some (.enum e) => shape = .scalar (carrierOf e.storage)
  | some (.class c) => ∃ plan, shape = .nested plan ∧ plan.decl = c

theorem numbers_lone (hsingle : p.arrayLength = 0) (hunframed : p.lengthField = none)
    (carrier : Primitive) : numbers p carrier = .scalar carrier := by
  simp [numbers,hsingle,hunframed]

theorem Shaped.named (h : Shaped schema p shape) (hproto : p.flag ≠ some .proto)
    (hsingle : p.arrayLength = 0) (hunframed : p.lengthField = none)
    (htype : p.type = if (schema.decl? primitive.name).isSome then .strong primitive.name none
      else .weak primitive.name) : Named schema primitive shape := by
  have hnumbers := numbers_lone hsingle hunframed
  unfold Shaped at h
  rw [if_neg hproto,htype] at h
  unfold Named
  cases hdecl : schema.decl? primitive.name with
  | none =>
    simp only [hdecl,Option.isSome_none,Bool.false_eq_true,if_false,Primitive.ofName?_name] at h
    obtain ⟨_,⟨⟩,rfl⟩ := h
    exact hnumbers primitive
  | some d =>
    simp only [hdecl,Option.isSome_some,if_true] at h
    cases d with
    | enum e => exact h.trans (hnumbers _)
    | «class» c => exact h

theorem Shaped.masked (h : Shaped schema p shape) (hproto : p.flag ≠ some .proto)
    (hsingle : p.arrayLength = 0) (hunframed : p.lengthField = none)
    (hfour : ∃ storage, schema.storage? p.type = some storage ∧ storage.size = 4) :
    ∃ carrier, shape = .scalar carrier ∧ carrier.size = 4 ∧ carrier.integer = true := by
  obtain ⟨storage,hstorage,hsize⟩ := hfour
  rcases h.cases with ⟨hflag,-⟩ | ⟨-,other,carrier,hother,hcarrier,hshape⟩ | ⟨-,hnone,-⟩
  · exact absurd hflag hproto
  · rw [hstorage] at hother
    cases hother
    have hwidth : carrier.size = 4 := hcarrier.trans hsize
    refine ⟨carrier,hshape.trans (numbers_lone hsingle hunframed carrier),hwidth,?_⟩
    -- The only built-in type that does not count has one byte.
    cases carrier <;> first | rfl | cases hwidth
  · rw [hstorage] at hnone
    cases hnone

end Shapes

end Plan

namespace Record

variable {f : Plan.Field Plan.Class} {carrier : Primitive}

/-- A field keeps a value if its bytes are read as the same value, whatever stands behind them. -/
def Kept (f : Plan.Field Plan.Class) (value : Value) : Prop := ∃ bytes, FieldWritten f value bytes

theorem fits_of_size (h : carrier.size = 8) (bits : UInt64) : carrier.Fits bits := by
  rw [Primitive.Fits,h]
  exact bits.toNat_lt

theorem kept_steamId (hf : Regular f) (hshape : f.shape = .scalar carrier)
    (htransform : f.head.transform = .steamId) (h : carrier.size = 8) (id : SteamId) :
    Kept f (.steamId id) := by
  have hwritten := scalar_written hf hshape (fits_of_size h id.bits)
    (by simp [htransform,Transform.isMask])
  simpa [Kept,htransform,scalarValue] using hwritten

theorem kept_gameId (hf : Regular f) (hshape : f.shape = .scalar carrier)
    (htransform : f.head.transform = .gameId) (h : carrier.size = 8) (id : GameId) :
    Kept f (.gameId id) := by
  have hwritten := scalar_written hf hshape (fits_of_size h id.bits)
    (by simp [htransform,Transform.isMask])
  simpa [Kept,htransform,scalarValue] using hwritten

theorem kept_bool (hf : Regular f) (hshape : f.shape = .scalar carrier)
    (htransform : f.head.transform = .bool) (b : Bool) : Kept f (.bool b) := by
  have hfits : carrier.Fits (if b then 1 else 0) := by
    unfold Primitive.Fits
    cases b <;> cases carrier <;> decide
  have hwritten := scalar_written hf hshape hfits (by simp [htransform,Transform.isMask])
  have hbool : scalarValue .bool (some carrier) (if b then 1 else 0) = .bool b := by
    rw [scalarValue,Primitive.mask_of_fits hfits]
    cases b <;> rfl
  simpa [Kept,htransform,hbool] using hwritten

/-- What the flag of a field promises. -/
structure Adapted (schema : Schema) (f : Plan.Field Plan.Class) : Prop where
  mask : f.head.transform.isMask = true →
    ∃ carrier, f.shape = .scalar carrier ∧ carrier.size = 4 ∧ carrier.integer = true
  named : ∀ flag primitive, f.head.property.flag = some flag → flag.carrier? = some primitive →
    Plan.Named schema primitive f.shape
  ids : ∀ carrier, f.shape = .scalar carrier → carrier.size = 8 →
    (f.head.property.flag = some .steamId → ∀ id, Kept f (.steamId id)) ∧
      (f.head.property.flag = some .gameId → ∀ id, Kept f (.gameId id))
  bool : ∀ carrier, f.shape = .scalar carrier → f.head.property.flag = some .bool →
    ∀ b, Kept f (.bool b)

end Record

namespace Schema

variable {path : Text} {doc : Document} {schema : Schema} {ws : List Warning}

theorem isSome_decl? (h : compile path doc = .ok (schema,ws)) (name : Text) :
    (schema.decl? name).isSome = (doc.decl? name).isSome := by
  obtain ⟨-,-,hdecls⟩ := compile_ok h
  have hnames := Decl.Compiled.names hdecls
  have hmem : (∃ d ∈ schema.decls, d.name = name) ↔ ∃ d ∈ doc.decls, d.name.text = name := by
    simpa using congrArg (name ∈ ·) hnames
  rw [Bool.eq_iff_iff,decl?,Document.decl?,List.find?_isSome,List.find?_isSome]
  simpa using hmem

theorem flagged_of_compile (h : compile path doc = .ok (schema,ws)) {c : Class}
    (hc : c ∈ schema.classes) {p : Property} (hp : p ∈ c.properties) (hf : p.flag ≠ none)
    (hproto : p.flag ≠ some .proto) :
    (p.arrayLength = 0 ∧ p.lengthField = none) ∧
      ∀ flag primitive, p.flag = some flag → flag.carrier? = some primitive →
        p.type = if (schema.decl? primitive.name).isSome then .strong primitive.name none
          else .weak primitive.name := by
  obtain ⟨node,w,hnode,hcompiled⟩ := class_of_compile h hc
  obtain ⟨-,hmembers,-⟩ := compile_ok h
  have hnames := hmembers _ hnode
  simp only [memberNames,List.map_map] at hnames
  refine ⟨lone_of_flag hcompiled hnames hp hf hproto,?_⟩
  intro flag primitive hflag hcarrier
  obtain ⟨_,hprop⟩ := checked_of_compile h hc hp
  rw [isSome_decl? h]
  exact hprop.adapter hflag hcarrier

end Schema

namespace Codec

variable {schema : Schema}

theorem adapted_of_laid {path : Text} {doc : Document} {ws : List Schema.Warning}
    (h : Schema.compile path doc = .ok (schema,ws)) {supportsGc : Bool} {plan : Plan.Class}
    (hlaid : Plan.Laid schema supportsGc plan) {f : Plan.Field Plan.Class} (hf : f ∈ plan.fields) :
    Record.Adapted schema f := by
  have hs := Schema.sound_of_compile h
  have hregular := (Record.arranged_of_wellFormed (hlaid.wellFormed hs)).regular f hf
  obtain ⟨p,hp⟩ := hlaid.property hf
  have hproperty : f.head.property = p := by rw [hp.head]; rfl
  have htransform : f.head.transform = .ofFlag p.flag := by rw [hp.head]; rfl
  have hflagged := Schema.flagged_of_compile h hlaid.decl hp.property
  refine ⟨?_,?_,?_,?_⟩
  · intro hmask
    rw [htransform] at hmask
    have hflag := Plan.flag_of_isMask hmask
    have hsome : p.flag ≠ none := by rcases hflag with hflag | hflag <;> simp [hflag]
    have hproto : p.flag ≠ some .proto := by rcases hflag with hflag | hflag <;> simp [hflag]
    obtain ⟨hsingle,hunframed⟩ := (hflagged hsome hproto).1
    exact hp.shape.masked hproto hsingle hunframed (hs.masks _ hlaid.decl p hp.property hflag)
  · intro flag primitive hflag hcarrier
    rw [hproperty] at hflag
    have hproto : p.flag ≠ some .proto := by
      rw [hflag]
      rintro ⟨⟩
      cases hcarrier
    obtain ⟨⟨hsingle,hunframed⟩,htype⟩ := hflagged (by simp [hflag]) hproto
    exact hp.shape.named hproto hsingle hunframed (htype flag primitive hflag hcarrier)
  · intro carrier hshape hsize
    rw [hproperty]
    refine ⟨fun hflag => ?_,fun hflag => ?_⟩
    · exact Record.kept_steamId hregular hshape (by rw [htransform,hflag]; rfl) hsize
    · exact Record.kept_gameId hregular hshape (by rw [htransform,hflag]; rfl) hsize
  · intro carrier hshape hflag
    rw [hproperty] at hflag
    exact Record.kept_bool hregular hshape (by rw [htransform,hflag]; rfl)

/-- Masked tags stand in integers of four bytes. The values of adapters stand in the type that has
the documented name; where no declaration has taken this name, that is the built-in one, and
accounts, games and flags come back from their bytes as they were. -/
theorem adapters_kept {path : Text} {doc : Document} {ws : List Schema.Warning}
    (h : Schema.compile path doc = .ok (schema,ws)) (supportsGc : Bool)
    (calls : List Planner.Call) {c : Schema.Class} (hc : c ∈ schema.classes) {plan : Plan.Class}
    (hplan : (((Planner.new schema supportsGc).after calls).layout c).1 = .ok plan) :
    plan.Forall fun part => ∀ f ∈ part.fields, Record.Adapted schema f ∧
      (schema.decl? "ulong" = none →
        (f.head.property.flag = some .steamId →
          f.shape = .scalar .ulong ∧ ∀ id, Record.Kept f (.steamId id)) ∧
        (f.head.property.flag = some .gameId →
          f.shape = .scalar .ulong ∧ ∀ id, Record.Kept f (.gameId id))) ∧
      (schema.decl? "byte" = none → f.head.property.flag = some .bool →
        f.shape = .scalar .byte ∧ ∀ b, Record.Kept f (.bool b)) := by
  have hs := Schema.sound_of_compile h
  have hplanner : Planner.Sound schema supportsGc ((Planner.new schema supportsGc).after calls) :=
    Planner.sound_after hs calls
  refine ((hplanner.layout hs hc).2 plan hplan).2.imp fun part hlaid f hf => ?_
  have hadapted := adapted_of_laid h hlaid hf
  have hbuiltin {flag : Flag} {primitive : Primitive} (hflag : f.head.property.flag = some flag)
      (hcarrier : flag.carrier? = some primitive) (hnone : schema.decl? primitive.name = none) :
      f.shape = .scalar primitive := by
    have hnamed := hadapted.named flag primitive hflag hcarrier
    rw [Plan.Named,hnone] at hnamed
    exact hnamed
  refine ⟨hadapted,fun hnone => ⟨fun hflag => ?_,fun hflag => ?_⟩,fun hnone hflag => ?_⟩
  · have hshape := hbuiltin hflag rfl hnone
    exact ⟨hshape,(hadapted.ids _ hshape rfl).1 hflag⟩
  · have hshape := hbuiltin hflag rfl hnone
    exact ⟨hshape,(hadapted.ids _ hshape rfl).2 hflag⟩
  · have hshape := hbuiltin hflag rfl hnone
    exact ⟨hshape,hadapted.bool _ hshape hflag⟩

def accounts (others : List Document.Decl) : Document where
  span := ⟨0,0⟩
  directives := []
  decls := others ++ [
    .class ⟨⟨0,0⟩,⟨"Account",0⟩,none,none,none,[
      property (some .steamId) none "ulong" "id",
      property (some .bool) none "byte" "online"]⟩]

def accountsSchema (others : List Document.Decl) : Schema :=
  ((Schema.compile [] (accounts others)).toOption.map Prod.fst).getD default

def accountClass : Schema.Class := ((accountsSchema []).class? "Account").getD default

theorem accounts_kept : ∃ plan, accountClass ∈ (accountsSchema []).classes ∧
    ((Planner.new (accountsSchema []) false).layout accountClass).1 = .ok plan ∧
    (∃ f ∈ plan.fields, f.head.property.flag = some .steamId) ∧
    (accountsSchema []).decl? "ulong" = none ∧
    ∀ f ∈ plan.fields, f.head.property.flag = some .steamId →
      f.shape = .scalar .ulong ∧ ∀ id, Record.Kept f (.steamId id) := by
  have hcompile : Schema.compile [] (accounts []) = .ok (accountsSchema [],[]) := rfl
  have hclass : accountClass ∈ (accountsSchema []).classes := by decide +kernel
  have hfree : (accountsSchema []).decl? "ulong" = none := rfl
  obtain ⟨plan,hplan⟩ : ∃ plan,
      ((Planner.new (accountsSchema []) false).layout accountClass).1 = .ok plan ∧
        ∃ f ∈ plan.fields, f.head.property.flag = some .steamId := by
    refine ⟨_,rfl,_,List.mem_cons_self,rfl⟩
  have hkept := adapters_kept hcompile false [] hclass hplan.1
  exact ⟨plan,hclass,hplan.1,hplan.2,hfree,fun f hf => ((hkept.own f hf).2.1 hfree).1⟩

/-- An enumeration that takes the name of a built-in type is no more than suspicious. -/
def narrow : List Document.Decl :=
  [.enum ⟨⟨0,0⟩,⟨"ulong",0⟩,none,false,[⟨⟨0,0⟩,⟨"A",0⟩,[],none,none⟩]⟩]

def account (bits : UInt64) : Record :=
  .mk "Account" none [("id",.steamId ⟨bits⟩),("online",.bool true)]

/-- Then the number of an identifier has four bytes, and its upper half is lost on the wire. -/
theorem narrow_truncates :
    (∃ ws, Schema.compile [] (accounts narrow) = .ok (accountsSchema narrow,ws)) ∧
    (∃ plan, ((new (accountsSchema narrow) false .empty).plan "Account").1 = .ok plan ∧
      ∃ f ∈ plan.fields, f.head.property.flag = some .steamId ∧ f.shape = .scalar .int) ∧
    ((new (accountsSchema narrow) false .empty).encode (account 76561198000000001)).1 =
      .ok [1,0x4C,0x5E,2,1] ∧
    ((new (accountsSchema narrow) false .empty).decode "Account" [1,0x4C,0x5E,2,1]).1 =
      .ok (account 39734273) :=
  ⟨⟨_,rfl⟩,⟨_,rfl,_,List.mem_cons_self,rfl,rfl⟩,rfl,rfl⟩

end Codec

end WireSchema
