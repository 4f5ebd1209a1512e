import WireSchema.Artifact.Casing
import WireSchema.Artifact.Class
import WireSchema.Proofs.Artifact.Numeral
import WireSchema.Proofs.Artifact.Render
import WireSchema.Proofs.Plan.Known
import WireSchema.Proofs.Plan.WellFormed
set_option autoImplicit false

/-!
What constant expressions mean in the artifacts: a numeral what it spells, and a name what the
artifacts themselves declare it as. A constant that stands in for others by their names comes to the
same number as one whose number has been worked out.
-/

namespace WireSchema.Artifact

inductive Batch.Stores (b : Batch) : Text → Primitive → Prop
  | number (p : Primitive) : b.Stores (numberType p) p
  | enum {name : Text} {e : Schema.Enum} (decl : b.schema.decl? name = some (.enum e)) :
      b.Stores (b.enumTypeName name) e.storage

def Batch.ofEnums (b : Batch) : Batch := { b with internal := false }

/-- The number of a constant expression where something of a type is expected. Values are declared
in the file of the enumerations, and constants of classes in the internal file. -/
inductive Means : Batch → Text → Expr → Int → Prop
  | numeral {b : Batch} {type text : Text} {storage : Primitive} {n : Int}
      (reads : constant? text = some n) (stored : b.Stores type storage)
      (held : storage.Holds n) : Means b type (.operands [.numeral text] "|") n
  | value {b : Batch} {type qualifier name value : Text} {e : Schema.Enum} {v : Plan.EnumValue}
      {expr : Expr} {n : Int} (decl : b.schema.decl? name = some (.enum e))
      (found : (Plan.enumOnce b.schema e).values.find? (fun v => v.name == value) = some v)
      (typed : type = b.enumTypeName name) (qualified : qualifier = b.enumQualifier)
      (declared : Renders (enumValueExpr b.ofEnums (Plan.enumOnce b.schema e) v) expr)
      (meaning : Means b.ofEnums name expr n) :
      Means b type (.operands [.enumValue qualifier name value] "|") n
  | const {b : Batch} {type className name : Text} {c : Schema.Class} {p : Schema.Property}
      {k : ClassConstant} {n : Int} (inside : b.internal = true)
      (decl : b.schema.decl? className = some (.class c)) (found : c.property? name = some p)
      (flag : p.flag = some .const) (kept : c.removed = false ∧ p.removed = false)
      (declared : Renders (classConstant b p) k) (typed : type = k.type)
      (meaning : Means b k.type k.expr n) :
      Means b type (.operands [.classConst className name] "|") n
  | union {b : Batch} {type : Text} {first second : Operand} {rest : List Operand} {n m : Int}
      (head : Means b type (.operands [first] "|") n)
      (tail : Means b type (.operands (second :: rest) "|") m) :
      Means b type (.operands (first :: second :: rest) "|") (Int.lor n m)
  | next {b : Batch} {type value : Text} {e : Schema.Enum} {n : Int}
      (decl : b.schema.decl? type = some (.enum e))
      (before : Means b type (.operands [.enumValue [] type value] "|") n)
      (held : e.storage.Holds (n + 1)) : Means b type (.next type value) (n + 1)
  | conversion {b : Batch} {type other : Text} {operand : Operand} {storage : Primitive} {n : Int}
      (meaning : Means b other (.operands [operand] "|") n) (stored : b.Stores type storage)
      (held : storage.Holds n) : Means b type (.conversion type operand) n

theorem Means.eq {b : Batch} {type other : Text} {expr : Expr} {n m : Int}
    (h : Means b type expr n) (h' : Means b other expr m) : n = m := by
  induction h generalizing other m with
  | numeral reads stored held =>
    cases h' with
    | numeral reads' _ _ =>
      rw [reads] at reads'
      exact Option.some.inj reads'
  | value decl found _ _ declared _ ih =>
    cases h' with
    | value decl' found' _ _ declared' meaning' =>
      rw [decl] at decl'
      cases decl'
      rw [found] at found'
      cases found'
      cases declared.eq declared'
      exact ih meaning'
  | const _ decl found _ _ declared _ _ ih =>
    cases h' with
    | const _ decl' found' _ _ declared' _ meaning' =>
      rw [decl] at decl'
      cases decl'
      rw [found] at found'
      cases found'
      cases declared.eq declared'
      exact ih meaning'
  | union _ _ ihhead ihtail =>
    cases h' with
    | union head tail => rw [ihhead head,ihtail tail]
  | next _ _ _ ih =>
    cases h' with
    | next _ before _ => rw [ih before]
  | conversion _ _ _ ih =>
    cases h' with
    | conversion meaning _ _ => exact ih meaning

section Types

variable {b : Batch}

theorem numberType_congr {p q : Primitive} (h : numberType p = numberType q) :
    p.size = q.size ∧ p.unsigned = q.unsigned := by
  cases p <;> cases q <;> first | exact ⟨rfl,rfl⟩ | exact absurd h (by decide)

theorem numberType_plain (p : Primitive) : Text.byte '.' ∉ numberType p := by
  cases p <;> decide

theorem enumTypeName_ne {name : Text} (h : ∀ p, name ≠ numberType p) (p : Primitive) :
    b.enumTypeName name ≠ numberType p := by
  unfold Batch.enumTypeName Batch.enumQualifier
  split
  · exact h p
  · -- The name of the package ends in a dot.
    intro heq
    have hdot : Text.ofString "." = [Text.byte '.'] := by decide
    refine numberType_plain p ?_
    rw [← heq,hdot]
    simp

theorem enumTypeName_injective : Function.Injective b.enumTypeName :=
  fun _ _ h => List.append_cancel_left h

theorem Batch.Stores.congr (happart : ∀ name e, b.schema.decl? name = some (.enum e) →
    ∀ p, name ≠ numberType p) {type : Text} {p q : Primitive} (hp : b.Stores type p)
    (hq : b.Stores type q) : p.size = q.size ∧ p.unsigned = q.unsigned := by
  generalize htype : type = other at hq
  cases hp with
  | number p =>
    cases hq with
    | number q => exact numberType_congr htype
    | enum decl => exact absurd htype.symm (enumTypeName_ne (happart _ _ decl) p)
  | @enum name e decl =>
    cases hq with
    | number q => exact absurd htype (enumTypeName_ne (happart _ _ decl) q)
    | @enum name' e' decl' =>
      cases enumTypeName_injective htype
      rw [decl] at decl'
      cases decl'
      exact ⟨rfl,rfl⟩

theorem renders_useEnums : Renders b.useEnums () := by
  intro imports
  unfold Batch.useEnums
  split <;> rfl

theorem renders_enumRef (name : Text) : Renders (b.enumRef name) (b.enumTypeName name) :=
  renders_bind renders_useEnums (renders_pure _)

theorem renders_typeName {symbol : Reference} {storage : Primitive}
    (hplain : ∀ decl member, symbol ≠ .strong decl (some member))
    (h : b.schema.storage? symbol = some storage) :
    Renders (b.typeName symbol) (b.knownTypeName symbol) ∧
      b.Stores (b.knownTypeName symbol) storage := by
  cases symbol with
  | weak name =>
    have hname : Primitive.ofName? name = some storage := h
    simp only [Batch.typeName,Batch.knownTypeName,hname]
    exact ⟨renders_pure _,.number storage⟩
  | strong decl member =>
    cases member with
    | some member => exact absurd rfl (hplain decl member)
    | none =>
      obtain ⟨e,he,rfl⟩ := Option.map_eq_some_iff.mp h
      have hdecl := Schema.enum?_eq_some.mp he
      have hname : e.name = decl := (Schema.name_of_decl? hdecl).2
      simp only [Batch.typeName,Batch.knownTypeName,hdecl,he,hname]
      exact ⟨renders_enumRef decl,.enum hdecl⟩

end Types

section Names

variable {b : Batch}

theorem means_value {name value : Text} {e : Schema.Enum} {v : Schema.EnumValue} {bits : UInt64}
    (hdecl : b.schema.decl? name = some (.enum e)) (hv : e.value? value = some v)
    (hkept : v.removed = false) (hbits : Plan.number b.schema (name,value) = some bits) :
    Means b (b.enumTypeName name) (.operands [.enumValue b.enumQualifier name value] "|")
      (e.storage.denote bits) := by
  have hname : e.name = name := (Schema.name_of_decl? hdecl).2
  have hvalue : v.name = value := by simpa using List.find?_some hv
  have hplan : Plan.enumOnce b.schema e = ⟨e,(e.values.filter (!·.removed)).map fun v =>
      ⟨v,Plan.number b.schema (e.name,v.name)⟩⟩ :=
    (Plan.enum_eq_number Plan.Memo.sound_empty e).2
  have hfound : (Plan.enumOnce b.schema e).values.find? (fun v => v.name == value) =
      some ⟨v,some bits⟩ := by
    have hfilter : (e.values.filter (!·.removed)).find? (fun v => v.name == value) = some v :=
      find?_of_filter hv (by simp [hkept])
    rw [hplan,List.find?_map]
    simp only [Function.comp_def,Plan.EnumValue.name]
    rw [hfilter,Option.map_some,hname,hvalue,hbits]
  have hstored : b.ofEnums.Stores name e.storage := .enum hdecl
  have hmeaning : Means b.ofEnums name
      (.one (.numeral (numeral e.storage e.flags bits))) (e.storage.denote bits) :=
    .numeral (constant?_numeral _ _ _) hstored (e.storage.holds_denote bits)
  refine .value hdecl hfound rfl rfl ?_ hmeaning
  rw [hplan]
  exact renders_pure _

theorem isNamed_cases {type : Text} {term : Reference} (h : isNamed b type term = true) :
    ∃ name member, term = .strong name (some member) ∧
      ((∃ e, b.schema.decl? name = some (.enum e) ∧ b.enumTypeName name = type ∧
        ∀ v, e.value? member = some v → v.removed = false) ∨
      ∃ c p, b.schema.decl? name = some (.class c) ∧ c.property? member = some p ∧
        (c.removed = false ∧ p.removed = false) ∧ p.flag = some .const ∧
          b.knownTypeName p.type = type) := by
  cases term with
  | weak name => cases h
  | strong name member =>
    cases member with
    | none => cases h
    | some member =>
      refine ⟨name,member,rfl,?_⟩
      cases hdecl : b.schema.decl? name with
      | none => simp [isNamed,hdecl] at h
      | some d =>
        have hname := (Schema.name_of_decl? hdecl).2
        cases d with
        | enum e =>
          simp only [isNamed,isRemoved,hdecl,Bool.and_eq_true,Bool.not_eq_true',beq_iff_eq] at h
          obtain ⟨hkept,htype⟩ := h
          refine .inl ⟨e,rfl,?_,?_⟩
          · rw [← htype]
            exact congrArg b.enumTypeName hname.symm
          · intro v hv
            simpa [hv] using hkept
        | «class» c =>
          cases hp : c.property? member with
          | none => simp [isNamed,hdecl,hp] at h
          | some p =>
            simp only [isNamed,isRemoved,hdecl,hp,Option.any_some,Bool.and_eq_true,
              Bool.not_eq_true',Bool.or_eq_false_iff,beq_iff_eq] at h
            obtain ⟨hkept,hflag,htype⟩ := h
            exact .inr ⟨c,p,rfl,hp,hkept,hflag,htype⟩

/-- The constants of classes that a numbering knows are declared as their numbers. -/
def Declares (b : Batch) (σ : Plan.Numbering) : Prop :=
  ∀ {name member : Text} {c : Schema.Class} {p : Schema.Property} {bits : UInt64},
    b.schema.decl? name = some (.class c) → c.property? member = some p →
    p.flag = some .const → σ (name,member) = some bits →
    ∃ storage k, b.schema.storage? p.type = some storage ∧ Renders (classConstant b p) k ∧
      k.type = b.knownTypeName p.type ∧ b.Stores k.type storage ∧
        Means b k.type k.expr (storage.denote bits)

/-- What the names in a class file rest on. -/
structure Batch.Sound (b : Batch) : Prop where
  inside : b.internal = true
  apart : ∀ name e, b.schema.decl? name = some (.enum e) → ∀ p, name ≠ numberType p
  numbers : ∀ name c, b.schema.decl? name = some (.class c) → ∀ p ∈ c.properties,
    p.flag = some .const → (∃ storage, b.schema.storage? p.type = some storage) ∧
      ∀ decl member, p.type ≠ .strong decl (some member)

variable {σ : Plan.Numbering} {type : Text} {storage : Primitive}

theorem unionNumber_split {first : Reference} {rest : List Reference} {bits : UInt64}
    (h : Plan.unionNumber σ (first :: rest) 0 = some bits) : ∃ one more,
    Plan.termNumber σ first = some one ∧ Plan.unionNumber σ rest 0 = some more ∧
      bits = one ||| more := by
  rw [Plan.unionNumber_cons,Option.bind_eq_some_iff] at h
  obtain ⟨one,hone,hrest⟩ := h
  obtain ⟨numbers,hnumbers,rfl⟩ := Option.map_eq_some_iff.mp hrest
  refine ⟨one,numbers.foldl (· ||| ·) 0,hone,by simp [Plan.unionNumber,hnumbers],?_⟩
  rw [UInt64.zero_or]
  have hfold : numbers.foldl (· ||| ·) (one ||| 0) = one ||| numbers.foldl (· ||| ·) 0 :=
    List.foldl_assoc
  rw [UInt64.or_zero] at hfold
  exact hfold

theorem renders_during {α : Type} {wrap : Fault → Fault} {x : Render α} {a : α}
    (h : Renders x a) : Renders (during wrap x) a := by
  intro imports
  have hresult := h imports
  unfold during
  rw [Result.run_tryCatch]
  cases hx : x imports with
  | mk result next =>
    rw [hx] at hresult
    cases hresult
    rfl

section Kept

variable (hb : b.Sound) (hσ : Declares b σ) (hbelow : σ.Below (Plan.number b.schema))
include hb hσ hbelow

theorem named_means (hstored : b.Stores type storage) {term : Reference}
    (h : isNamed b type term = true) {bits : UInt64} (hbits : Plan.termNumber σ term = some bits) :
    ∃ op, Renders (operand b term) op ∧
      Means b type (.operands [op] "|") (storage.denote bits) := by
  obtain ⟨name,member,rfl,⟨e,hdecl,htype,hkept⟩ | ⟨c,p,hdecl,hp,hkept,hflag,htype⟩⟩ :=
    isNamed_cases h
  · -- A value is always declared by its own number, whatever it was declared as in the schema.
    have hname : e.name = name := (Schema.name_of_decl? hdecl).2
    have hnumber := hbelow _ _ hbits
    have hvalue : ∃ v, e.value? member = some v := by
      cases hv : e.value? member with
      | some v => exact ⟨v,rfl⟩
      | none =>
        have hsolved := Plan.number_solves b.schema (name,member)
        rw [hnumber] at hsolved
        simp [Plan.memberNumber,hdecl,Plan.findIdx?_of_value?_none hv] at hsolved
    obtain ⟨v,hv⟩ := hvalue
    subst htype
    have hmeans := means_value hdecl hv (hkept v hv) hnumber
    obtain ⟨hsize,hsign⟩ := hstored.congr hb.apart (.enum hdecl)
    rw [Primitive.denote_congr hsize hsign]
    refine ⟨_,?_,hmeans⟩
    simp only [operand,hdecl,hname]
    exact renders_bind renders_useEnums (renders_pure _)
  · have hname : c.name = name := (Schema.name_of_decl? hdecl).2
    obtain ⟨other,k,-,hk,hktype,hkstored,hmeans⟩ := hσ hdecl hp hflag hbits
    have hkname : type = k.type := htype.symm.trans hktype.symm
    subst hkname
    obtain ⟨hsize,hsign⟩ := hstored.congr hb.apart hkstored
    rw [Primitive.denote_congr hsize hsign]
    refine ⟨.classConst name member,?_,.const hb.inside hdecl hp hflag hkept hk rfl hmeans⟩
    simp only [operand,hdecl,hname]
    exact renders_pure _

theorem union_means (hstored : b.Stores type storage) (first : Reference) (rest : List Reference)
    (h : ∀ term ∈ first :: rest, isNamed b type term = true) {bits : UInt64}
    (hbits : Plan.unionNumber σ (first :: rest) 0 = some bits) :
    ∃ ops, List.Forall₂ (fun term op => Renders (operand b term) op) (first :: rest) ops ∧
      Means b type (.operands ops "|") (storage.denote bits) := by
  induction rest generalizing first bits with
  | nil =>
    obtain ⟨one,more,hone,hmore,rfl⟩ := unionNumber_split hbits
    obtain ⟨op,hop,hmeans⟩ := named_means hb hσ hbelow hstored (h first List.mem_cons_self) hone
    rw [Plan.unionNumber_nil] at hmore
    cases hmore
    rw [UInt64.or_zero]
    exact ⟨[op],.cons hop .nil,hmeans⟩
  | cons second rest ih =>
    obtain ⟨one,more,hone,hmore,rfl⟩ := unionNumber_split hbits
    obtain ⟨op,hop,hmeans⟩ := named_means hb hσ hbelow hstored (h first List.mem_cons_self) hone
    obtain ⟨ops,hops,hunion⟩ := ih second (fun term ht => h term (List.mem_cons_of_mem _ ht)) hmore
    rw [Primitive.denote_or]
    cases hops with
    | cons hsecond hrest => exact ⟨_,.cons hop (.cons hsecond hrest),.union hmeans hunion⟩

theorem valueExpr_means (hstored : b.Stores type storage) {terms : List Reference} {bits : UInt64}
    (hbits : Plan.expressionNumber σ terms = some bits) :
    ∃ expr, Renders (valueExpr b terms type storage) expr ∧
      Means b type expr (storage.denote bits) := by
  cases hnamed : (!terms.isEmpty && terms.all (isNamed b type)) with
  | true =>
    simp only [valueExpr,hnamed,if_true]
    cases terms with
    | nil => cases hbits
    | cons first rest =>
      have hall : ∀ term ∈ first :: rest, isNamed b type term = true := by simpa using hnamed
      rw [Plan.expressionNumber,if_neg (by simp)] at hbits
      obtain ⟨ops,hops,hmeans⟩ := union_means hb hσ hbelow hstored first rest hall hbits
      exact ⟨_,renders_bind (renders_mapM hops) (renders_pure _),hmeans⟩
  | false =>
    have heval : Plan.evalOnce b.schema terms = some bits :=
      (Plan.eval_eq_number Plan.Memo.sound_empty terms).2.trans
        (Plan.expressionNumber_mono hbelow hbits)
    simp only [valueExpr,hnamed,heval,Bool.false_eq_true,if_false]
    exact ⟨_,renders_pure _,
      .numeral (constant?_numeral _ _ _) hstored (storage.holds_denote bits)⟩

theorem declares_of_expression {name : Text} {c : Schema.Class}
    (hdecl : b.schema.decl? name = some (.class c)) {p : Schema.Property} (hp : p ∈ c.properties)
    (hflag : p.flag = some .const) {bits : UInt64}
    (hbits : Plan.expressionNumber σ p.default = some bits) :
    ∃ storage k, b.schema.storage? p.type = some storage ∧ Renders (classConstant b p) k ∧
      k.type = b.knownTypeName p.type ∧ b.Stores k.type storage ∧
        Means b k.type k.expr (storage.denote bits) := by
  obtain ⟨⟨storage,hstorage⟩,hplain⟩ := hb.numbers name c hdecl p hp hflag
  obtain ⟨htype,hstored⟩ := renders_typeName hplain hstorage
  obtain ⟨expr,hexpr,hmeans⟩ := valueExpr_means hb hσ hbelow hstored hbits
  refine ⟨storage,⟨p.obsolete.map deprecation,p.name,_,expr⟩,hstorage,?_,rfl,hstored,hmeans⟩
  refine renders_during (renders_bind htype (renders_bind ?_ (renders_pure _)))
  simpa [hstorage] using hexpr

end Kept

theorem declares_approx (hb : b.Sound) (stage : Nat) :
    Declares b (Plan.approx b.schema stage) := by
  induction stage with
  | zero =>
    intro name member c p bits _ _ _ hbits
    cases hbits
  | succ stage ih =>
    -- What a constant refers to is known one stage earlier, so it is declared already.
    intro name member c p bits hdecl hp hflag hbits
    have hexpression :
        Plan.expressionNumber (Plan.approx b.schema stage) p.default = some bits := by
      simpa [Plan.approx,Plan.memberNumber,hdecl,hp,hflag] using hbits
    exact declares_of_expression hb ih (Plan.approx_below_number stage) hdecl
      (List.mem_of_find?_eq_some hp) hflag hexpression

theorem declares_number (hb : b.Sound) : Declares b (Plan.number b.schema) := by
  obtain ⟨stage,hstage⟩ := Plan.exists_stage b.schema
  rw [← hstage]
  exact declares_approx hb stage

end Names

section Fields

variable {b : Batch}

/-- The type of a field of one number has the size and the sign of what is written, and so has the
type of its property. -/
theorem scalar_stores {c : Schema.Class} {p : Schema.Property} {f : PlanField}
    (hf : Plan.FieldOf b.schema c p f) {carrier : Primitive} (hshape : f.shape = .scalar carrier) :
    ∃ storage own type, b.schema.storage? p.type = some storage ∧ Renders (fieldType b f) type ∧
      b.Stores type own ∧ (own.size = carrier.size ∧ own.unsigned = carrier.unsigned) ∧
        storage.size = carrier.size ∧ storage.unsigned = carrier.unsigned := by
  have hshaped := hf.shape
  rw [hshape] at hshaped
  unfold Plan.Shaped at hshaped
  split at hshaped
  · cases hshaped
  rename_i hflag
  have henum : f.head.enum = Plan.enumOf? b.schema p.type := by
    simp [hf.head,Plan.headOf,hflag]
  have hplain : f.head.enum = none ∨ f.head.transform.isAdapter = true →
      Renders (fieldType b f) (numberType carrier) := by
    intro h
    simp only [fieldType,hshape,elementType]
    split
    · exact renders_pure _
    · rename_i hadapter
      rcases h with h | h
      · rw [h]
        exact renders_pure _
      · exact absurd h hadapter
  cases htype : p.type with
  | weak name =>
    simp only [htype] at hshaped henum
    obtain ⟨primitive,hprimitive,hnumbers⟩ := hshaped
    cases Plan.eq_of_numbers hnumbers.symm
    exact ⟨carrier,carrier,_,hprimitive,hplain (.inl henum),.number carrier,⟨rfl,rfl⟩,rfl,rfl⟩
  | strong decl member =>
    simp only [htype] at hshaped henum
    cases hdecl : b.schema.decl? decl with
    | none => simp [hdecl] at hshaped
    | some d =>
      cases d with
      | «class» inner => simp [hdecl] at hshaped
      | enum e =>
        simp only [hdecl] at hshaped
        cases Plan.eq_of_numbers hshaped.symm
        have hname : e.name = decl := (Schema.name_of_decl? hdecl).2
        have hfound := Schema.enum?_eq_some.mpr hdecl
        have hstorage : b.schema.storage? (.strong decl member) = some e.storage := by
          simp [Schema.storage?,hfound]
        have hsame := Plan.carrierOf_congr e.storage
        cases hadapter : f.head.transform.isAdapter with
        | true =>
          exact ⟨_,_,_,hstorage,hplain (.inr hadapter),.number _,⟨rfl,rfl⟩,hsame⟩
        | false =>
          have hrenders : Renders (fieldType b f) (b.enumTypeName decl) := by
            simp only [fieldType,hshape,hadapter,elementType,henum,Plan.enumOf?,hfound,hname]
            exact renders_enumRef decl
          exact ⟨_,_,_,hstorage,hrenders,.enum hdecl,hsame,hsame⟩

theorem valueExpr_congr {p q : Primitive} (hsize : p.size = q.size)
    (hsign : p.unsigned = q.unsigned) (terms : List Reference) (type : Text) :
    valueExpr b terms type p = valueExpr b terms type q := by
  simp only [valueExpr,numeral_congr hsize hsign]

theorem renders_fieldSetup [Casing] {f : PlanField} {carrier : Primitive}
    (hshape : f.shape = .scalar carrier)
    (hterms : f.head.property.default ≠ []) {type : Text} (htype : Renders (fieldType b f) type)
    {expr : Expr} (hexpr : Renders (valueExpr b f.head.property.default type carrier) expr) :
    Renders (fieldSetup b f) [.value (slotOf f) expr] := by
  have hempty : f.head.property.default.isEmpty = false := by simpa using hterms
  simp only [fieldSetup,hshape,hempty]
  exact renders_bind (renders_pure [])
    (renders_bind htype (renders_bind (renders_during hexpr) (renders_pure _)))

end Fields

/-- An expression, where a type is expected, denotes a pattern in a storage: that number and no
other one. -/
def Denotes (b : Batch) (type : Text) (expr : Expr) (storage : Primitive) (bits : UInt64) : Prop :=
  ∀ n, Means b type expr n ↔ n = storage.denote bits

theorem Means.denotes {b : Batch} {type : Text} {expr : Expr} {storage : Primitive} {bits : UInt64}
    (h : Means b type expr (storage.denote bits)) : Denotes b type expr storage bits :=
  fun _ => ⟨fun hn => hn.eq h,fun hn => hn ▸ h⟩

theorem Batch.sound_of_compile {path : Text} {doc : Document} {schema : Schema}
    {ws : List Schema.Warning} (h : Schema.compile path doc = .ok (schema,ws))
    (hapart : ∀ e ∈ schema.enums, ∀ p, e.name ≠ numberType p) {b : Batch} (hb : b.schema = schema)
    (hinside : b.internal = true) : b.Sound := by
  subst hb
  refine ⟨hinside,?_,?_⟩
  · intro name e hdecl
    obtain ⟨hmem,hname⟩ := Schema.name_of_decl? hdecl
    rw [← hname]
    exact hapart e (List.mem_filterMap.mpr ⟨_,hmem,rfl⟩)
  · intro name c hdecl p hp hflag
    have hc : c ∈ b.schema.classes :=
      List.mem_filterMap.mpr ⟨_,(Schema.name_of_decl? hdecl).1,rfl⟩
    exact ⟨Schema.storage_of_const h hc hp hflag,Schema.type_of_compile h hc hp⟩

/-- Constants and defaults denote their numbers in the artifacts, by whatever names of others they
are written. -/
theorem constants_denote [Casing] {path : Text} {doc : Document} {schema : Schema}
    {ws : List Schema.Warning} (h : Schema.compile path doc = .ok (schema,ws))
    (hapart : ∀ e ∈ schema.enums, ∀ p, e.name ≠ numberType p) (supportsGc : Bool)
    (calls : List Planner.Call) {b : Batch} (hb : b.schema = schema) (hinside : b.internal = true)
    {c : Schema.Class} (hc : c ∈ schema.classes) :
    (∀ p ∈ c.properties, p.flag = some .const → ∀ bits,
      (((Planner.new schema supportsGc).after calls).ask fun s => Plan.eval s p.default).1 =
        some bits →
      ∃ storage k, schema.storage? p.type = some storage ∧ Renders (classConstant b p) k ∧
        Denotes b k.type k.expr storage bits) ∧
    ∀ plan, (((Planner.new schema supportsGc).after calls).layout c).1 = .ok plan →
      ∀ f ∈ plan.fields, ∀ carrier, f.shape = .scalar carrier → ∀ bits,
      (((Planner.new schema supportsGc).after calls).ask fun s =>
        Plan.eval s f.head.property.default).1 = some bits →
      ∃ storage type expr, schema.storage? f.head.property.type = some storage ∧
        Renders (fieldType b f) type ∧ Renders (fieldSetup b f) [.value (slotOf f) expr] ∧
        Denotes b type expr storage bits := by
  have hs := Schema.sound_of_compile h
  have hsound := Batch.sound_of_compile h hapart hb hinside
  subst hb
  have hdeclares : Declares b (Plan.number b.schema) := declares_number hsound
  have hbelow : (Plan.number b.schema).Below (Plan.number b.schema) := fun _ _ hm => hm
  refine ⟨?_,?_⟩
  · intro p hp hflag bits hbits
    rw [Planner.eval_after] at hbits
    have hdecl := Schema.decl?_of_mem_classes hs hc
    obtain ⟨storage,k,hstorage,hk,-,-,hmeans⟩ :=
      declares_of_expression hsound hdeclares hbelow hdecl hp hflag hbits
    exact ⟨storage,k,hstorage,hk,hmeans.denotes⟩
  · intro plan hplan f hf carrier hshape bits hbits
    rw [Planner.eval_after] at hbits
    have hplanner : Planner.Sound b.schema supportsGc
        ((Planner.new b.schema supportsGc).after calls) := Planner.sound_after hs calls
    obtain ⟨p,hp⟩ := ((hplanner.layout hs hc).2 plan hplan).2.own.property hf
    have hproperty : f.head.property = p := by rw [hp.head]; rfl
    obtain ⟨storage,own,type,hstorage,htype,hstored,⟨hownsize,hownsign⟩,hsize,hsign⟩ :=
      scalar_stores hp hshape
    rw [← hproperty] at hstorage
    obtain ⟨expr,hexpr,hmeans⟩ := valueExpr_means hsound hdeclares hbelow hstored hbits
    rw [valueExpr_congr hownsize hownsign] at hexpr
    rw [Primitive.denote_congr (hownsize.trans hsize.symm) (hownsign.trans hsign.symm)] at hmeans
    have hterms : f.head.property.default ≠ [] := by
      intro hempty
      rw [hempty] at hbits
      cases hbits
    exact ⟨storage,type,expr,hstorage,htype,renders_fieldSetup hshape hterms htype hexpr,
      hmeans.denotes⟩

def limitsDocument : Document where
  span := ⟨0,0⟩
  directives := []
  decls := [
    .enum ⟨⟨0,0⟩,⟨"Level",0⟩,some ⟨"sbyte",0⟩,false,[
      ⟨⟨0,0⟩,⟨"Low",0⟩,[⟨"-16",0⟩],none,none⟩,
      ⟨⟨0,0⟩,⟨"Next",0⟩,[],none,none⟩,
      ⟨⟨0,0⟩,⟨"High",0⟩,[⟨"0x04",0⟩],none,none⟩]⟩,
    .class ⟨⟨0,0⟩,⟨"Limits",0⟩,none,none,none,[
      limit (some .const) "Level" "both" ["Level::Low","Level::High"],
      limit (some .const) "Level" "again" ["Limits::both"],
      limit (some .const) "ushort" "wide" ["Limits::again","Level::Next"],
      limit none "Level" "level" ["Limits::again","Level::Next"]]⟩]
where
  limit (flag : Option Flag) (type name : Text) (terms : List Text) : Document.Property :=
    ⟨⟨0,0⟩,⟨name,0⟩,⟨type,0⟩,flag,none,terms.map fun term => ⟨term,0⟩,none,none⟩

def limitsSchema : Schema :=
  ((Schema.compile [] limitsDocument).toOption.map Prod.fst).getD default

def limitsBatch : Batch := ⟨limitsSchema,"limits",false,true,"limits",[]⟩

def limitsClass : Schema.Class := (limitsSchema.class? "Limits").getD default

def limitNamed (name : Text) : Schema.Property := (limitsClass.property? name).getD default

def limitsPlan : Plan.Class :=
  ((Planner.new limitsSchema false).layout limitsClass).1.toOption.getD default

theorem layout_limits : ((Planner.new limitsSchema false).layout limitsClass).1 =
    .ok limitsPlan := by
  obtain ⟨plan,h⟩ : ∃ plan, ((Planner.new limitsSchema false).layout limitsClass).1 = .ok plan :=
    Result.exists_of_isOk (by decide +kernel)
  simp [limitsPlan,h,Except.toOption]

theorem limits_denote : limitsClass ∈ limitsSchema.classes ∧
    (∀ e ∈ limitsSchema.enums, ∀ p, e.name ≠ numberType p) ∧
    (∃ k, Renders (classConstant limitsBatch (limitNamed "again")) k ∧
      k.expr = .operands [.classConst "Limits" "both"] "|" ∧
      ∀ n, Means limitsBatch k.type k.expr n ↔ n = -12) ∧
    (∃ k, Renders (classConstant limitsBatch (limitNamed "wide")) k ∧
      k.expr = .operands [.numeral "245"] "|" ∧
      ∀ n, Means limitsBatch k.type k.expr n ↔ n = 245) ∧
    ∃ f ∈ limitsPlan.fields, ∃ type expr, Renders (fieldType limitsBatch f) type ∧
      Renders (fieldSetup limitsBatch f) [.value (slotOf f) expr] ∧
      ∀ n, Means limitsBatch type expr n ↔ n = -11 := by
  obtain ⟨ws,hcompile⟩ : ∃ ws, Schema.compile [] limitsDocument = .ok (limitsSchema,ws) := by
    obtain ⟨result,h⟩ : ∃ result, Schema.compile [] limitsDocument = .ok result :=
      Result.exists_of_isOk (by decide +kernel)
    exact ⟨result.2,by simp [limitsSchema,h,Except.toOption]⟩
  have hclass : limitsClass ∈ limitsSchema.classes := by decide +kernel
  have hnames : ∀ e ∈ limitsSchema.enums, e.name = "Level" := by decide +kernel
  have hapart : ∀ e ∈ limitsSchema.enums, ∀ p, e.name ≠ numberType p := by
    intro e he p
    rw [hnames e he]
    cases p <;> decide
  obtain ⟨hconsts,hfields⟩ :=
    constants_denote hcompile hapart false [] (b := limitsBatch) rfl rfl hclass
  refine ⟨hclass,hapart,?_,?_,?_⟩
  · obtain ⟨storage,k,hstorage,hk,hdenotes⟩ :=
      hconsts (limitNamed "again") (by decide +kernel) (by decide +kernel) 0xF4 (by decide +kernel)
    have hexpr : (classConstant limitsBatch (limitNamed "again") []).1.toOption.map (·.expr) =
        some (.operands [.classConst "Limits" "both"] "|") := by decide +kernel
    have hsbyte : limitsSchema.storage? (limitNamed "again").type = some .sbyte := by decide +kernel
    rw [hk []] at hexpr
    rw [hsbyte] at hstorage
    cases hstorage
    exact ⟨k,hk,Option.some.inj hexpr,hdenotes⟩
  · obtain ⟨storage,k,hstorage,hk,hdenotes⟩ :=
      hconsts (limitNamed "wide") (by decide +kernel) (by decide +kernel) 0xF5 (by decide +kernel)
    have hexpr : (classConstant limitsBatch (limitNamed "wide") []).1.toOption.map (·.expr) =
        some (.operands [.numeral "245"] "|") := by decide +kernel
    have hushort : limitsSchema.storage? (limitNamed "wide").type = some .ushort := by
      decide +kernel
    rw [hk []] at hexpr
    rw [hushort] at hstorage
    cases hstorage
    exact ⟨k,hk,Option.some.inj hexpr,hdenotes⟩
  · obtain ⟨f,hf⟩ : ∃ f, limitsPlan.fields = [f] :=
      List.length_eq_one_iff.mp (by decide +kernel)
    have hall : ∀ g ∈ limitsPlan.fields, g.carrier? = some .sbyte ∧ g.shape.kind = "scalar" ∧
        limitsSchema.storage? g.head.property.type = some .sbyte ∧
        (((Planner.new limitsSchema false).after []).ask fun s =>
          Plan.eval s g.head.property.default).1 = some 0xF5 := by decide +kernel
    have hmem : f ∈ limitsPlan.fields := by simp [hf]
    obtain ⟨hcarrier,hkind,hsbyte,hbits⟩ := hall f hmem
    have hshape : f.shape = .scalar .sbyte := by
      cases hs : f.shape with
      | scalar carrier =>
        simp only [Plan.Field.carrier?,hs,Option.some.injEq] at hcarrier
        rw [hcarrier]
      | _ =>
        simp only [hs,Plan.Shape.kind] at hkind
        exact absurd hkind (by decide)
    obtain ⟨storage,type,expr,hstorage,htype,hsetup,hdenotes⟩ :=
      hfields limitsPlan layout_limits f hmem .sbyte hshape 0xF5 hbits
    rw [hsbyte] at hstorage
    cases hstorage
    exact ⟨f,hmem,type,expr,htype,hsetup,hdenotes⟩

end WireSchema.Artifact
