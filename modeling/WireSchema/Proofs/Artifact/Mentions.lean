import WireSchema.Proofs.Artifact.Meaning
import WireSchema.Proofs.Artifact.Parts
import WireSchema.Proofs.Plan.Declared
import WireSchema.Proofs.Schema.Bound
set_option autoImplicit false

/-!
The constants that the artifacts declare, and those that their expressions name: as members of the
schema, or by chance, where a name that the schema does not explain is that of a constant. What
stands in a class is checked before it is named. A value of an enumeration without a number is
written as it was declared, without a look at what has been removed or at cycles.
-/

namespace WireSchema

/-- Whether a member is written out as a constant. -/
def Schema.writes (s : Schema) (m : Plan.Member) : Bool :=
  match s.decl? m.1 with
  | none => false
  | some (.enum e) => (e.value? m.2).any (!·.removed)
  | some (.class c) =>
    !c.removed && (c.property? m.2).any fun p => !p.removed && p.flag == some .const

def Schema.IsField (s : Schema) (m : Plan.Member) : Prop :=
  ∃ c p, s.decl? m.1 = some (.class c) ∧ c.property? m.2 = some p ∧ p.flag ≠ some .const

namespace Schema

variable {s : Schema}

theorem decl?_of_mem_enums (hs : s.Sound) {e : Enum} (he : e ∈ s.enums) :
    s.decl? e.name = some (.enum e) := by
  obtain ⟨d,hd,henum⟩ := List.mem_filterMap.mp he
  cases d with
  | «class» c => cases henum
  | enum other =>
    cases henum
    exact find?_of_mem hs.names hd

theorem writes_value {name value : Text} {e : Enum} {v : EnumValue}
    (hdecl : s.decl? name = some (.enum e)) (hv : e.value? value = some v)
    (hkept : v.removed = false) : s.writes (name,value) = true := by
  simp [writes,hdecl,hv,hkept]

theorem writes_const {name member : Text} {c : Class} {p : Property}
    (hdecl : s.decl? name = some (.class c)) (hp : c.property? member = some p)
    (hclass : c.removed = false) (hkept : p.removed = false) (hflag : p.flag = some .const) :
    s.writes (name,member) = true := by
  simp [writes,hdecl,hp,hclass,hkept,hflag]

theorem mem_members_of_writes {m : Plan.Member} (h : s.writes m = true) :
    ∃ d ∈ s.decls, d.name = m.1 ∧ m.2 ∈ d.members := by
  unfold writes at h
  cases hdecl : s.decl? m.1 with
  | none => simp [hdecl] at h
  | some d =>
    obtain ⟨hmem,hname⟩ := name_of_decl? hdecl
    refine ⟨d,hmem,hname,?_⟩
    cases d with
    | enum e =>
      simp only [hdecl,Option.any_eq_true] at h
      obtain ⟨v,hv,-⟩ := h
      exact List.mem_map.mpr ⟨v,List.mem_of_find?_eq_some hv,by simpa using List.find?_some hv⟩
    | «class» c =>
      simp only [hdecl,Bool.and_eq_true,Option.any_eq_true] at h
      obtain ⟨-,p,hp,-⟩ := h
      exact List.mem_map.mpr ⟨p,List.mem_of_find?_eq_some hp,by simpa using List.find?_some hp⟩

theorem Binds.cases {m : Plan.Member} (h : s.Binds (.strong m.1 (some m.2))) :
    s.writes m = true ∨ Artifact.isRemoved s (.strong m.1 (some m.2)) = true ∨ s.IsField m := by
  obtain ⟨name,member⟩ := m
  obtain ⟨d,hdecl,hmember⟩ := h
  cases d with
  | enum e =>
    obtain ⟨v,hv⟩ : ∃ v, e.value? member = some v := by
      rw [← Option.isSome_iff_exists]
      simpa [Enum.value?,Decl.members] using hmember
    cases hkept : v.removed with
    | false => exact .inl (writes_value hdecl hv hkept)
    | true => exact .inr (.inl (by simp [Artifact.isRemoved,hdecl,hv,hkept]))
  | «class» c =>
    obtain ⟨p,hp⟩ : ∃ p, c.property? member = some p := by
      rw [← Option.isSome_iff_exists]
      simpa [Class.property?,Decl.members] using hmember
    cases hremoved : Artifact.isRemoved s (.strong name (some member)) with
    | true => exact .inr (.inl rfl)
    | false =>
      simp only [Artifact.isRemoved,hdecl,hp,Option.any_some,Bool.or_eq_false_iff] at hremoved
      by_cases hflag : p.flag = some .const
      · exact .inl (writes_const hdecl hp hremoved.1 hremoved.2 hflag)
      · exact .inr (.inr ⟨c,p,hdecl,hp,hflag⟩)

end Schema

namespace Artifact

def constantName (m : Plan.Member) : Text := Text.cat [m.1,"_",m.2]

inductive Operand.Names : Operand → Plan.Member → Prop
  | value (qualifier enum value : Text) : Names (.enumValue qualifier enum value) (enum,value)
  | const (className const : Text) : Names (.classConst className const) (className,const)
  | unknown (m : Plan.Member) : Names (.unknown (constantName m)) m

def Expr.Names (e : Expr) (m : Plan.Member) : Prop := ∃ op ∈ e.operandList, op.Names m

def EnumCode.declared (e : EnumCode) : List (Plan.Member × Expr) :=
  e.constants.map fun k => ((e.name,k.value),k.expr)

def ClassCode.declared (c : ClassCode) : List (Plan.Member × Expr) :=
  c.constants.map fun k => ((c.name,k.name),k.expr)

namespace Parts

def declared (a : Parts) : List (Plan.Member × Expr) :=
  a.enums.flatMap EnumCode.declared ++ a.classes.flatMap ClassCode.declared

def Declares (a : Parts) (m : Plan.Member) : Prop := m ∈ a.declared.map Prod.fst

/-- The declaration of one constant mentions another one. -/
def Mentions (a : Parts) (m n : Plan.Member) : Prop :=
  ∃ expr, (m,expr) ∈ a.declared ∧ expr.Names n

end Parts

section Expressions

variable {b : Batch} {imports : Imports}

theorem operand_strong {decl member : Text} {op : Operand}
    (h : (operand b (.strong decl (some member)) imports).1 = .ok op) :
    (∃ qualifier, op = .enumValue qualifier decl member) ∨ op = .classConst decl member := by
  unfold operand at h
  cases hdecl : b.schema.decl? decl with
  | none =>
    simp only [hdecl] at h
    cases h
  | some d =>
    have hname := (Schema.name_of_decl? hdecl).2
    cases d with
    | enum e =>
      obtain rfl : e.name = decl := hname
      simp only [hdecl] at h
      obtain ⟨_,_,-,h⟩ := bind_rendered h
      cases h
      exact .inl ⟨_,rfl⟩
    | «class» c =>
      obtain rfl : c.name = decl := hname
      simp only [hdecl] at h
      cases h
      exact .inr rfl

theorem operand_names {symbol : Reference} {op : Operand}
    (h : (operand b symbol imports).1 = .ok op) {m : Plan.Member} (hm : op.Names m) :
    symbol = .strong m.1 (some m.2) ∨
      symbol = .weak (constantName m) ∧ op = .unknown (constantName m) := by
  cases symbol with
  | weak name =>
    unfold operand at h
    cases hparse : Literal.parse? name with
    | none =>
      simp only [hparse] at h
      cases h
      cases hm
      exact .inr ⟨rfl,rfl⟩
    | some l =>
      simp only [hparse] at h
      cases h
      cases hm
  | strong decl member =>
    cases member with
    | none => cases h
    | some member =>
      obtain ⟨qualifier,rfl⟩ | rfl := operand_strong h
      · cases hm
        exact .inl rfl
      · cases hm
        exact .inl rfl

theorem names_operand {m : Plan.Member} {op : Operand}
    (h : (operand b (.strong m.1 (some m.2)) imports).1 = .ok op) : op.Names m := by
  obtain ⟨qualifier,rfl⟩ | rfl := operand_strong h
  · exact .value qualifier m.1 m.2
  · exact .const m.1 m.2

section Symbols

variable {terms : List Reference} {operator : Text} {expr : Expr}
  (h : (symbols b terms operator imports).1 = .ok expr)
include h

theorem symbols_operands : List.Forall₂ (fun term op => ∃ before,
    (operand b term before).1 = .ok op) terms expr.operandList := by
  unfold symbols at h
  obtain ⟨ops,_,hops,h⟩ := bind_rendered h
  cases h
  exact mapM_rendered hops

theorem symbols_names {m : Plan.Member} (hm : expr.Names m) :
    .strong m.1 (some m.2) ∈ terms ∨
      .weak (constantName m) ∈ terms ∧ .unknown (constantName m) ∈ expr.operandList := by
  obtain ⟨op,hop,hnames⟩ := hm
  obtain ⟨term,hterm,_,hrun⟩ := exists_of_forall₂ (symbols_operands h) hop
  rcases operand_names hrun hnames with rfl | ⟨rfl,rfl⟩
  · exact .inl hterm
  · exact .inr ⟨hterm,hop⟩

theorem names_symbols {m : Plan.Member} (hm : .strong m.1 (some m.2) ∈ terms) : expr.Names m := by
  obtain ⟨op,hop,_,hrun⟩ := exists_of_forall₂ (symbols_operands h).flip hm
  exact ⟨op,hop,names_operand hrun⟩

end Symbols

theorem not_names_numeral {expr : Expr} {text : Text} (h : expr.operandList = [.numeral text])
    {m : Plan.Member} : ¬ expr.Names m := by
  rintro ⟨op,hop,hnames⟩
  rw [h,List.mem_singleton] at hop
  subst hop
  cases hnames

theorem valueExpr_names {terms : List Reference} {type : Text} {storage : Primitive} {expr : Expr}
    (h : (valueExpr b terms type storage imports).1 = .ok expr) {m : Plan.Member}
    (hm : expr.Names m) : .strong m.1 (some m.2) ∈ terms ∧
      isNamed b type (.strong m.1 (some m.2)) = true := by
  unfold valueExpr at h
  split at h
  · rename_i hnamed
    simp only [Bool.and_eq_true,List.all_eq_true] at hnamed
    rcases symbols_names h hm with hterm | ⟨hterm,-⟩
    · exact ⟨hterm,hnamed.2 _ hterm⟩
    · cases hnamed.2 _ hterm
  · -- A number stands in the place of the terms.
    cases heval : Plan.evalOnce b.schema terms with
    | none =>
      rw [heval] at h
      cases h
    | some bits =>
      rw [heval] at h
      cases h
      exact absurd hm (not_names_numeral rfl)

theorem classConstant_names {p : Schema.Property} {k : ClassConstant}
    (h : (classConstant b p imports).1 = .ok k) : k.name = p.name ∧ ∀ m, k.expr.Names m →
      .strong m.1 (some m.2) ∈ p.default ∧
        isNamed b k.type (.strong m.1 (some m.2)) = true := by
  obtain ⟨type,_,-,h⟩ := bind_rendered (during_rendered h)
  obtain ⟨expr,_,hexpr,h⟩ := bind_rendered h
  cases h
  exact ⟨rfl,fun m hm => valueExpr_names hexpr hm⟩

theorem fieldSetup_value [Casing] {f : PlanField} {steps : List Setup}
    (h : (fieldSetup b f imports).1 = .ok steps) {slot : Slot} {expr : Expr}
    (hstep : .value slot expr ∈ steps) : ∃ type carrier before,
      (valueExpr b f.head.property.default type carrier before).1 = .ok expr := by
  obtain ⟨_,heq⟩ | ⟨_,heq⟩ | ⟨_,type,carrier,before,heq,hexpr⟩ := fieldSetup_cases h hstep
  · cases heq
  · cases heq
  · cases heq
    exact ⟨type,carrier,before,hexpr⟩

theorem headerSetup_value {plan : Plan.Class} {steps : List Setup}
    (h : (headerSetup b plan imports).1 = .ok steps) (slot : Slot) (expr : Expr) :
    .value slot expr ∉ steps := by
  intro hstep
  obtain ⟨_,heq⟩ | ⟨_,heq⟩ := headerSetup_cases h hstep
  · cases heq
  · cases heq

theorem tagMethod_tell [Casing] {plan : Plan.Class} {type : Text} {expr : Expr}
    (h : (tagMethod b plan imports).1 = .ok (some (.tell type expr))) :
    ∃ before, (tagExpr b plan.decl.identity type before).1 = .ok expr := by
  obtain ⟨-,heq⟩ | ⟨-,_,_,before,heq,hexpr⟩ | ⟨-,_,_,heq,-⟩ := tagMethod_cases h
  · cases heq
  · cases heq
    exact ⟨before,hexpr⟩
  · cases heq

theorem tagExpr_names {identity : Option Reference} {type : Text} {expr : Expr}
    (h : (tagExpr b identity type imports).1 = .ok expr) {m : Plan.Member}
    (hm : expr.Names m) : identity = some (.strong m.1 (some m.2)) ∧
      isRemoved b.schema (.strong m.1 (some m.2)) = false := by
  obtain ⟨_,_,-,-,rfl⟩ | ⟨decl,member,rfl,⟨-,_,-,rfl⟩ | ⟨hkept,ref,_,href,hexpr⟩⟩ := tagExpr_cases h
  · exact absurd hm (not_names_numeral rfl)
  · exact absurd hm (not_names_numeral rfl)
  · have hoperands : expr.operandList = [ref] := by
      obtain rfl | ⟨rfl,-⟩ := hexpr <;> rfl
    obtain ⟨op,hop,hnames⟩ := hm
    rw [hoperands,List.mem_singleton] at hop
    subst hop
    rcases operand_names href hnames with hsymbol | ⟨hsymbol,-⟩
    · rw [hsymbol] at hkept ⊢
      exact ⟨rfl,hkept⟩
    · cases hsymbol

theorem enumValueExpr_terms {plan : Plan.Enum} {v : Plan.EnumValue} {expr : Expr}
    (h : (enumValueExpr b plan v imports).1 = .ok expr) (hbits : v.bits = none)
    (hterms : v.value.default ≠ []) : (symbols b v.value.default "|" imports).1 = .ok expr := by
  have hempty : v.value.default.isEmpty = false := by simpa using hterms
  simpa only [enumValueExpr,hbits,hempty,Bool.not_false,if_true] using h

theorem enumValueExpr_names {plan : Plan.Enum} {v : Plan.EnumValue} {expr : Expr}
    (h : (enumValueExpr b plan v imports).1 = .ok expr) {m : Plan.Member}
    (hm : expr.Names m) : v.bits = none ∧
      (.strong m.1 (some m.2) ∈ v.value.default ∨ .unknown (constantName m) ∈ expr.operandList ∨
        ∃ before, Plan.predecessor? v.name plan.decl.values = some before ∧
          before.removed = false ∧ m = (plan.name,before.name)) := by
  cases hbits : v.bits with
  | some bits =>
    simp only [enumValueExpr,hbits] at h
    cases h
    exact absurd hm (not_names_numeral rfl)
  | none =>
    refine ⟨rfl,?_⟩
    by_cases hterms : v.value.default = []
    · simp only [enumValueExpr,hbits,hterms,List.isEmpty_nil,Bool.not_true,Bool.false_eq_true,
        if_false] at h
      cases hbefore : Plan.predecessor? v.name plan.decl.values with
      | none =>
        simp only [hbefore] at h
        cases h
      | some before =>
        simp only [hbefore] at h
        split at h
        · cases h
        · rename_i hkept
          cases h
          obtain ⟨op,hop,hnames⟩ := hm
          obtain rfl := List.mem_singleton.mp hop
          cases hnames
          exact .inr (.inr ⟨before,rfl,by simpa using hkept,rfl⟩)
    · rcases symbols_names (enumValueExpr_terms h hbits hterms) hm with hterm | ⟨-,hunknown⟩
      · exact .inl hterm
      · exact .inr (.inl hunknown)

theorem writes_of_isNamed {type : Text} {m : Plan.Member}
    (hbinds : b.schema.Binds (.strong m.1 (some m.2)))
    (h : isNamed b type (.strong m.1 (some m.2)) = true) : b.schema.writes m = true := by
  rcases hbinds.cases with hwrites | hremoved | ⟨c,p,hdecl,hp,hflag⟩
  · exact hwrites
  · simp [isNamed,hremoved] at h
  · simp [isNamed,hdecl,hp,hflag] at h

end Expressions

end Artifact

end WireSchema
