import WireSchema.Proofs.Artifact.Meaning
import WireSchema.Proofs.Plan.Declared
import WireSchema.Proofs.Record.Residue
set_option autoImplicit false

/-!
What the method for the tag of a message tells. The tag is read in a type of its own, as an unsigned
number or as what it refers to is declared, and not in the type of tags; so it is the tag that a
codec writes only where both types read the same number.
-/

namespace WireSchema

theorem Primitive.holds_congr {p q : Primitive} (hsize : p.size = q.size)
    (hsign : p.unsigned = q.unsigned) (n : Int) : p.Holds n ↔ q.Holds n := by
  simp only [Holds,least,greatest,hsize,hsign]

namespace Artifact

/-- The type that a tag is read in when it is written out. -/
def tagSource? (schema : Schema) : Reference → Option Primitive
  | .weak _ => some .uint
  | .strong _ none => none
  | .strong decl (some member) =>
    if isRemoved schema (.strong decl (some member)) && (schema.enum? decl).isNone then some .uint
    else schema.memberType? (decl,member)

variable {b : Batch} {type : Text} {T : Primitive} {n : Int}

theorem numeral_means_iff (hb : b.Sound) (hstored : b.Stores type T) (own : Primitive) (hex : Bool)
    (bits : UInt64) : Means b type (.one (.numeral (numeral own hex bits))) n ↔
      n = own.denote bits ∧ T.Holds n := by
  constructor
  · intro h
    cases h with
    | numeral reads stored held =>
      rw [constant?_numeral] at reads
      obtain ⟨hsize,hsign⟩ := stored.congr hb.apart hstored
      exact ⟨(Option.some.inj reads).symm,(Primitive.holds_congr hsize hsign n).mp held⟩
  · rintro ⟨rfl,hheld⟩
    exact .numeral (constant?_numeral own hex bits) hstored hheld

theorem conversion_means_iff (hb : b.Sound) (hstored : b.Stores type T) {other : Text}
    {op : Operand} {m : Int} (h : Means b other (.one op) m) :
    Means b type (.conversion type op) n ↔ n = m ∧ T.Holds n := by
  constructor
  · intro hn
    cases hn with
    | conversion meaning stored held =>
      obtain ⟨hsize,hsign⟩ := stored.congr hb.apart hstored
      exact ⟨meaning.eq h,(Primitive.holds_congr hsize hsign n).mp held⟩
  · rintro ⟨rfl,hheld⟩
    exact .conversion h hstored hheld

theorem named_of_known (hb : b.Sound) {decl member : Text} {bits : UInt64}
    (hkept : isRemoved b.schema (.strong decl (some member)) = false)
    (hbits : Plan.number b.schema (decl,member) = some bits) :
    ∃ other own, b.schema.memberType? (decl,member) = some own ∧ b.Stores other own ∧
      isNamed b other (.strong decl (some member)) = true ∧
      ∀ e, b.schema.enum? decl = some e → other = b.enumTypeName e.name := by
  have hsolved := Plan.number_solves b.schema (decl,member)
  rw [hbits] at hsolved
  cases hdecl : b.schema.decl? decl with
  | none => simp [Plan.memberNumber,hdecl] at hsolved
  | some d =>
    have hname := (Schema.name_of_decl? hdecl).2
    cases d with
    | enum e =>
      obtain ⟨v,hv⟩ := Plan.value?_of_known hdecl hbits
      have hename : e.name = decl := hname
      refine ⟨b.enumTypeName decl,e.storage,by simp [Schema.memberType?,hdecl,hv],.enum hdecl,
        ?_,?_⟩
      · simp [isNamed,hkept,hdecl,hename]
      · intro other hother
        rw [Schema.enum?_eq_some.mpr hdecl] at hother
        cases hother
        rw [hename]
    | «class» c =>
      cases hp : c.property? member with
      | none => simp [Plan.memberNumber,hdecl,hp] at hsolved
      | some p =>
        by_cases hflag : p.flag = some .const
        · obtain ⟨⟨own,hown⟩,hplain⟩ :=
            hb.numbers decl c hdecl p (List.mem_of_find?_eq_some hp) hflag
          refine ⟨b.knownTypeName p.type,own,?_,(renders_typeName hplain hown).2,?_,?_⟩
          · simp [Schema.memberType?,hdecl,hp,hflag,hown]
          · simp [isNamed,hkept,hdecl,hp,hflag]
          · intro e he
            rw [Schema.enum?_eq_some,hdecl] at he
            cases he
        · simp [Plan.memberNumber,hdecl,hp,hflag] at hsolved

theorem tagExpr_means (hb : b.Sound) (hstored : b.Stores type T) {symbol : Reference}
    {bits : UInt64}
    (hbits : Plan.evalOnce b.schema [symbol] = some bits) {imports : Imports} {expr : Expr}
    (h : (tagExpr b (some symbol) type imports).1 = .ok expr) :
    ∃ own, tagSource? b.schema symbol = some own ∧
      ∀ n, Means b type expr n ↔ n = own.denote bits ∧ T.Holds n := by
  obtain ⟨name,value,hsymbol,hparse,rfl⟩ | ⟨decl,member,hsymbol,hcases⟩ := tagExpr_cases h
  · cases hsymbol
    rw [Plan.evalOnce_singleton] at hbits
    simp only [Plan.termNumber,hparse,Option.map_some,Option.some.injEq] at hbits
    subst hbits
    exact ⟨.uint,rfl,fun n => numeral_means_iff hb hstored _ _ _⟩
  cases hsymbol
  cases member with
  | none =>
    rw [Plan.evalOnce_singleton] at hbits
    cases hbits
  | some member =>
    have hnumber : Plan.number b.schema (decl,member) = some bits :=
      (Plan.evalOnce_singleton _ _).symm.trans hbits
    obtain ⟨hremoved,_,heval,rfl⟩ | ⟨hkept,ref,_,href,hexpr⟩ := hcases
    · cases heval.symm.trans hbits
      cases henum : b.schema.enum? decl with
      | none =>
        refine ⟨.uint,by simp [tagSource?,hremoved,henum],fun n => ?_⟩
        exact conversion_means_iff hb hstored
          ((numeral_means_iff hb (.number .uint) .uint false bits).mpr
            ⟨rfl,Primitive.uint.holds_denote bits⟩)
      | some e =>
        have hdecl := Schema.enum?_eq_some.mp henum
        obtain ⟨v,hv⟩ := Plan.value?_of_known hdecl hnumber
        refine ⟨e.storage,by simp [tagSource?,hremoved,henum,Schema.memberType?,hdecl,hv],
          fun n => ?_⟩
        exact conversion_means_iff hb hstored
          ((numeral_means_iff hb (.enum hdecl) e.storage false bits).mpr
            ⟨rfl,e.storage.holds_denote bits⟩)
    · obtain ⟨other,own,hown,hother,hnamed,henums⟩ := named_of_known hb hkept hnumber
      obtain ⟨op,hop,hmeans⟩ := named_means hb (declares_number hb) (fun _ _ hm => hm) hother
        hnamed hnumber
      obtain rfl : op = ref := Except.ok.inj ((hop _).symm.trans href)
      refine ⟨own,by simp [tagSource?,hkept,hown],fun n => ?_⟩
      obtain rfl | ⟨rfl,e,henum,rfl⟩ := hexpr
      · exact conversion_means_iff hb hstored hmeans
      · -- What is of the type of tags itself stands as it is.
        obtain rfl := henums e henum
        obtain ⟨hsize,hsign⟩ := hstored.congr hb.apart hother
        constructor
        · intro hn
          have heq := hn.eq hmeans
          refine ⟨heq,?_⟩
          rw [heq,Primitive.holds_congr hsize hsign]
          exact own.holds_denote bits
        · rintro ⟨rfl,-⟩
          exact hmeans

theorem renders_tagType (b : Batch) (family : Family) :
    ∃ type T, Renders (b.tagType family) type ∧ b.Stores type T := by
  have hnumber : b.Stores "uint32" .uint := .number .uint
  cases family with
  | gc => exact ⟨_,_,renders_pure _,hnumber⟩
  | primary =>
    cases he : b.schema.enum? (b.option tagTypeOption "EMsg") with
    | none =>
      refine ⟨"uint32",.uint,?_,hnumber⟩
      simpa [Batch.tagType,he] using renders_pure _
    | some e =>
      refine ⟨_,e.storage,?_,.enum (Schema.enum?_eq_some.mp he)⟩
      simpa [Batch.tagType,he] using renders_enumRef _

theorem tag_of_classCode [Casing] {plan : Plan.Class} (hrole : plan.role = .message)
    {imports : Imports} {code : ClassCode} (h : (classCode b plan imports).1 = .ok code)
    (htype : Renders (b.tagType plan.family) type) : ∃ expr next,
      code.tag = some (.tell type expr) ∧
      (tagExpr b plan.decl.identity type next).1 = .ok expr := by
  obtain ⟨_,htag⟩ := (classCode_from h).tag
  unfold tagMethod at htag
  obtain ⟨other,_,hother,htag⟩ := bind_rendered htag
  obtain rfl : type = other := by
    rw [htype _] at hother
    exact Except.ok.inj hother
  simp only [hrole] at htag
  obtain ⟨expr,_,hexpr,htag⟩ := bind_rendered htag
  exact ⟨expr,_,(Except.ok.inj htag).symm,hexpr⟩

/-- The method for the tag of a message tells what the type of the tag itself reads, if the type of
tags has that number, and else nothing at all. So it tells the tag that a codec writes exactly if
both types read the same number; they do if the type of tags has the number and is no wider. -/
theorem tag_denotes [Casing] {path : Text} {doc : Document} {schema : Schema}
    {ws : List Schema.Warning} (h : Schema.compile path doc = .ok (schema,ws))
    (hapart : ∀ e ∈ schema.enums, ∀ p, e.name ≠ numberType p) (supportsGc : Bool)
    (calls : List Planner.Call) {b : Batch} (hb : b.schema = schema) (hinside : b.internal = true)
    {c : Schema.Class} (hc : c ∈ schema.classes) {plan : Plan.Class}
    (hplan : (((Planner.new schema supportsGc).after calls).layout c).1 = .ok plan)
    {imports : Imports} {code : ClassCode} (hcode : (classCode b plan imports).1 = .ok code)
    {externals : External.Kinds} {bits : UInt64}
    (hbits : Record.identity? ⟨schema,externals⟩ c = some bits) :
    ∃ symbol type expr T own, c.identity = some symbol ∧ code.tag = some (.tell type expr) ∧
      Renders (b.tagType plan.family) type ∧ b.Stores type T ∧
      tagSource? schema symbol = some own ∧
      (∀ n, Means b type expr n ↔ n = own.denote bits ∧ T.Holds n) ∧
      (Denotes b type expr T bits ↔ own.denote bits = T.denote bits) ∧
      (T.Holds (own.denote bits) → T.size ≤ own.size → Denotes b type expr T bits) := by
  have hs := Schema.sound_of_compile h
  have hsound := Batch.sound_of_compile h hapart hb hinside
  subst hb
  have hplanner : Planner.Sound b.schema supportsGc
      ((Planner.new b.schema supportsGc).after calls) := Planner.sound_after hs calls
  obtain ⟨hdecl,hlaid⟩ := (hplanner.layout hs hc).2 plan hplan
  obtain ⟨symbol,hsymbol,heval⟩ := Option.bind_eq_some_iff.mp hbits
  have hrole : plan.role = .message := by
    rw [hlaid.own.role,hdecl,Plan.roleOf,hsymbol]
    rfl
  obtain ⟨type,T,htype,hstored⟩ := renders_tagType b plan.family
  obtain ⟨expr,next,htag,hexpr⟩ := tag_of_classCode hrole hcode htype
  rw [hdecl,hsymbol] at hexpr
  obtain ⟨own,hown,hmeans⟩ := tagExpr_means hsound hstored heval hexpr
  have hdenotes : Denotes b type expr T bits ↔ own.denote bits = T.denote bits := by
    constructor
    · intro hd
      exact (((hmeans _).mp ((hd _).mpr rfl)).1).symm
    · intro heq n
      rw [hmeans,heq]
      exact and_iff_left_of_imp fun hn => hn ▸ T.holds_denote bits
  exact ⟨symbol,type,expr,T,own,hsymbol,htag,htype,hstored,hown,hmeans,hdenotes,
    fun hholds hsize => hdenotes.mpr (Primitive.denote_of_size_le hsize hholds).symm⟩

def orderDocument : Document where
  span := ⟨0,0⟩
  directives := []
  decls := [
    .enum ⟨⟨0,0⟩,⟨"EMsg",0⟩,none,false,[⟨⟨0,0⟩,⟨"Order",0⟩,[⟨"1",0⟩],none,none⟩]⟩,
    .class ⟨⟨0,0⟩,⟨"MsgOrder",0⟩,some ⟨"EMsg::Order",0⟩,none,none,[]⟩,
    .class ⟨⟨0,0⟩,⟨"MsgLast",0⟩,some ⟨"uint.MaxValue",0⟩,none,none,[]⟩]

def orderSchema : Schema :=
  ((Schema.compile [] orderDocument).toOption.map Prod.fst).getD default

theorem compile_order : ∃ ws, Schema.compile [] orderDocument = .ok (orderSchema,ws) := by
  obtain ⟨result,h⟩ : ∃ result, Schema.compile [] orderDocument = .ok result :=
    Result.exists_of_isOk (by decide +kernel)
  exact ⟨result.2,by simp [orderSchema,h,Except.toOption]⟩

def orderBatch : Batch := ⟨orderSchema,"order",false,true,"order",[]⟩

theorem apart_order : ∀ e ∈ orderSchema.enums, ∀ p, e.name ≠ numberType p := by
  have hnames : ∀ e ∈ orderSchema.enums, e.name = "EMsg" := by decide +kernel
  intro e he p
  rw [hnames e he]
  cases p <;> decide

theorem stores_order : orderBatch.Stores "EMsg" .int := by
  have hdecl : orderBatch.schema.decl? "EMsg" =
      some (.enum ((orderSchema.enum? "EMsg").getD default)) := rfl
  exact .enum hdecl

def orderClass (name : Text) : Schema.Class := (orderSchema.class? name).getD default

def orderPlan (name : Text) : Plan.Class :=
  ((Planner.new orderSchema false).layout (orderClass name)).1.toOption.getD default

theorem order_told : ∃ code, (classCode orderBatch (orderPlan "MsgOrder") []).1 = .ok code ∧
    ∃ expr, code.tag = some (.tell "EMsg" expr) ∧ expr.text = "EMsg_Order" ∧
      Denotes orderBatch "EMsg" expr .int 1 := by
  obtain ⟨ws,hcompile⟩ := compile_order
  have hclass : orderClass "MsgOrder" ∈ orderSchema.classes := by decide +kernel
  have hplan : (((Planner.new orderSchema false).after []).layout (orderClass "MsgOrder")).1 =
      .ok (orderPlan "MsgOrder") := rfl
  have hbits : Record.identity? ⟨orderSchema,.empty⟩ (orderClass "MsgOrder") = some 1 := rfl
  obtain ⟨code,hcode⟩ : ∃ code, (classCode orderBatch (orderPlan "MsgOrder") []).1 = .ok code :=
    ⟨_,rfl⟩
  have htag : code.tag = some (.tell "EMsg" (.one (.enumValue [] "EMsg" "Order"))) := by
    cases hcode
    rfl
  obtain ⟨symbol,type,expr,T,own,hsymbol,htell,-,hstored,hown,-,hdenotes,-⟩ :=
    tag_denotes hcompile apart_order false [] (b := orderBatch) rfl rfl hclass hplan hcode hbits
  rw [htag] at htell
  cases htell
  cases hsymbol
  obtain rfl : .int = own := Option.some.inj hown
  have hsound := Batch.sound_of_compile hcompile apart_order (b := orderBatch) rfl rfl
  obtain ⟨hsize,hsign⟩ := hstored.congr hsound.apart stores_order
  refine ⟨code,hcode,_,htag,rfl,?_⟩
  have hsame := Primitive.denote_congr hsize hsign
  simpa only [Denotes,hsame] using hdenotes.mpr (hsame 1).symm

/-- The largest tag is told as a number that the type of tags does not have. -/
theorem last_untold :
    (∃ ws, Schema.compile [] orderDocument = .ok (orderSchema,ws)) ∧
    orderClass "MsgLast" ∈ orderSchema.classes ∧
    Record.identity? ⟨orderSchema,.empty⟩ (orderClass "MsgLast") = some 0xFFFFFFFF ∧
    Primitive.int.denote 0xFFFFFFFF = -1 ∧
    ∃ code, (classCode orderBatch (orderPlan "MsgLast") []).1 = .ok code ∧
      code.tag = some (.tell "EMsg" (.one (.numeral "4294967295"))) ∧
      ∀ n, ¬ Means orderBatch "EMsg" (.one (.numeral "4294967295")) n := by
  obtain ⟨ws,hcompile⟩ := compile_order
  have hsound := Batch.sound_of_compile hcompile apart_order (b := orderBatch) rfl rfl
  refine ⟨⟨ws,hcompile⟩,by decide +kernel,rfl,by decide,_,rfl,rfl,fun n hn => ?_⟩
  have hnumeral : numeral .uint false 0xFFFFFFFF = "4294967295" := by decide +kernel
  rw [← hnumeral,numeral_means_iff hsound stores_order] at hn
  obtain ⟨rfl,hheld⟩ := hn
  exact absurd hheld (by decide)

end Artifact

end WireSchema
