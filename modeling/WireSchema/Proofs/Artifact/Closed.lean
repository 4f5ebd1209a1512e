import WireSchema.Artifact.Casing
import WireSchema.Proofs.Artifact.Mentions
set_option autoImplicit false

/-!
Which of the constants that are named are declared. A class names nothing that is not written out,
except that its tag may name a property that is no constant. A value of an enumeration names
something only if it has no number, and then it may name what has been removed; and cycles lead
through constants without a number only.
-/

namespace WireSchema.Artifact

section Generated

variable [Casing]

namespace Parts

variable {a : Parts} {r : Request} {schema : Schema}

omit [Casing] in
theorem declared_cases {m : Plan.Member} {expr : Expr} (h : (m,expr) ∈ a.declared) :
    (∃ code ∈ a.enums, ∃ k ∈ code.constants, ((code.name,k.value),k.expr) = (m,expr)) ∨
      ∃ code ∈ a.classes, ∃ k ∈ code.constants, ((code.name,k.name),k.expr) = (m,expr) := by
  simpa only [declared,EnumCode.declared,ClassCode.declared,List.mem_append,List.mem_flatMap,
    List.mem_map] using h

omit [Casing] in
theorem declares_of_enum {code : EnumCode} (hcode : code ∈ a.enums) {k : EnumConstant}
    (hk : k ∈ code.constants) : a.Declares (code.name,k.value) :=
  List.mem_map.mpr ⟨_,List.mem_append_left _
    (List.mem_flatMap.mpr ⟨code,hcode,List.mem_map.mpr ⟨k,hk,rfl⟩⟩),rfl⟩

omit [Casing] in
theorem declares_of_class {code : ClassCode} (hcode : code ∈ a.classes) {k : ClassConstant}
    (hk : k ∈ code.constants) : a.Declares (code.name,k.name) :=
  List.mem_map.mpr ⟨_,List.mem_append_right _
    (List.mem_flatMap.mpr ⟨code,hcode,List.mem_map.mpr ⟨k,hk,rfl⟩⟩),rfl⟩

theorem Rendered.values (h : a.Rendered r schema) :
    List.Forall₂ (fun e code => code.name = e.name ∧
      List.Forall₂ (fun v k => k.value = v.name ∧ ∃ before,
        (enumValueExpr (r.batch schema false) (Plan.enumOnce schema e)
          ⟨v,Plan.number schema (e.name,v.name)⟩ before).1 = .ok k.expr)
        (e.values.filter (!·.removed)) code.constants) schema.enums a.enums := by
  refine h.enums.imp fun e code hrun => ?_
  obtain ⟨imports,hrun⟩ := hrun
  obtain ⟨hname,hvalues⟩ := enumCode_constants hrun
  have hplan : Plan.enumOnce schema e = ⟨e,(e.values.filter (!·.removed)).map fun v =>
      ⟨v,Plan.number schema (e.name,v.name)⟩⟩ :=
    (Plan.enum_eq_number Plan.Memo.sound_empty e).2
  rw [congrArg Plan.Enum.values hplan,List.forall₂_map_left_iff] at hvalues
  exact ⟨hname.trans (congrArg Plan.Enum.name hplan),hvalues⟩

theorem Rendered.layouts (h : a.Rendered r schema) (hs : schema.Sound) :
    List.Forall₂ (fun c code => code.name = c.name ∧ ∃ plan : Plan.Class, plan.decl = c ∧
      Plan.Laid schema r.supportsGc plan ∧ code.From (r.batch schema true) plan)
      (schema.classes.filter (!·.removed)) a.classes := by
  have hmem : ∀ c ∈ schema.classes.filter (!·.removed), c ∈ schema.classes :=
    fun c hc => (List.mem_filter.mp hc).1
  refine ((List.forall₂_and_left _ _).mpr ⟨hmem,h.classes⟩).imp fun c code hrun => ?_
  obtain ⟨hc,plan,imports,hplan,hrun⟩ := hrun
  obtain ⟨hdecl,hlaid⟩ := (Planner.sound_new.layout hs hc).2 plan hplan
  have hfrom := classCode_from hrun
  refine ⟨?_,plan,hdecl,hlaid.own,hfrom⟩
  rw [hfrom.name,Plan.Class.name,hdecl]

section Written

variable (h : a.Rendered r schema) (hs : schema.Sound) (hbound : schema.Bound)
include h hs hbound

theorem Rendered.value {code : EnumCode} (hcode : code ∈ a.enums) {k : EnumConstant}
    (hk : k ∈ code.constants) : ∃ e v, schema.decl? code.name = some (.enum e) ∧
      e.value? k.value = some v ∧ v.removed = false ∧ ∃ before,
        (enumValueExpr (r.batch schema false) (Plan.enumOnce schema e)
          ⟨v,Plan.number schema (code.name,k.value)⟩ before).1 = .ok k.expr := by
  obtain ⟨e,he,hname,hvalues⟩ := exists_of_forall₂ h.values hcode
  obtain ⟨v,hv,hvalue,before,hrun⟩ := exists_of_forall₂ hvalues hk
  obtain ⟨hmem,hkept⟩ := List.mem_filter.mp hv
  have hdecl := Schema.decl?_of_mem_enums hs he
  have hnodup : (e.values.map Schema.EnumValue.name).Nodup :=
    hbound.members _ (Schema.name_of_decl? hdecl).1
  rw [hname,hvalue]
  exact ⟨e,v,hdecl,find?_of_mem hnodup hmem,by simpa using hkept,before,hrun⟩

theorem Rendered.const {code : ClassCode} (hcode : code ∈ a.classes) {k : ClassConstant}
    (hk : k ∈ code.constants) : ∃ c p, schema.decl? code.name = some (.class c) ∧
      c.property? k.name = some p ∧ c.removed = false ∧ p.removed = false ∧
        p.flag = some .const ∧ ∃ before,
          (classConstant (r.batch schema true) p before).1 = .ok k := by
  obtain ⟨c,hc,hname,plan,rfl,hlaid,hfrom⟩ := exists_of_forall₂ (h.layouts hs) hcode
  obtain ⟨hc,hremoved⟩ := List.mem_filter.mp hc
  obtain ⟨p,hp,before,hrun⟩ := exists_of_forall₂ hfrom.constants hk
  rw [hlaid.consts] at hp
  obtain ⟨hmem,hkept⟩ := List.mem_filter.mp hp
  simp only [Bool.and_eq_true,Bool.not_eq_true',beq_iff_eq] at hkept
  have hdecl := Schema.decl?_of_mem_classes hs hc
  have hnodup : (plan.decl.properties.map Schema.Property.name).Nodup :=
    hbound.members _ (Schema.name_of_decl? hdecl).1
  rw [hname,(classConstant_names hrun).1]
  exact ⟨plan.decl,p,hdecl,find?_of_mem hnodup hmem,by simpa using hremoved,hkept.1,hkept.2,before,
    hrun⟩

theorem Rendered.writes_of_declares {m : Plan.Member} (hm : a.Declares m) :
    schema.writes m = true := by
  obtain ⟨⟨_,expr⟩,hmem,rfl⟩ := List.mem_map.mp hm
  rcases declared_cases hmem with ⟨code,hcode,k,hk,heq⟩ | ⟨code,hcode,k,hk,heq⟩
  · cases heq
    obtain ⟨e,v,hdecl,hv,hkept,-⟩ := h.value hs hbound hcode hk
    exact Schema.writes_value hdecl hv hkept
  · cases heq
    obtain ⟨c,p,hdecl,hp,hremoved,hkept,hflag,-⟩ := h.const hs hbound hcode hk
    exact Schema.writes_const hdecl hp hremoved hkept hflag

omit hs hbound in
theorem Rendered.constant_of_value {name value : Text} {e : Schema.Enum} {v : Schema.EnumValue}
    (hdecl : schema.decl? name = some (.enum e)) (hv : e.value? value = some v)
    (hkept : v.removed = false) : ∃ code ∈ a.enums, ∃ k ∈ code.constants, code.name = name ∧
      k.value = value ∧ ∃ before, (enumValueExpr (r.batch schema false) (Plan.enumOnce schema e)
        ⟨v,Plan.number schema (name,value)⟩ before).1 = .ok k.expr := by
  obtain ⟨hmem,hname⟩ := Schema.name_of_decl? hdecl
  have hename : e.name = name := hname
  have hvname : v.name = value := by simpa using List.find?_some hv
  have he : e ∈ schema.enums := List.mem_filterMap.mpr ⟨_,hmem,rfl⟩
  have hvalue : v ∈ e.values.filter (!·.removed) :=
    List.mem_filter.mpr ⟨List.mem_of_find?_eq_some hv,by simp [hkept]⟩
  obtain ⟨code,hcode,hcodeName,hvalues⟩ := exists_of_forall₂ h.values.flip he
  obtain ⟨k,hk,hkvalue,before,hrun⟩ := exists_of_forall₂ hvalues.flip hvalue
  rw [hename,hvname] at hrun
  exact ⟨code,hcode,k,hk,hcodeName.trans hename,hkvalue.trans hvname,before,hrun⟩

omit hs hbound in
theorem Rendered.declares_value {name value : Text} {e : Schema.Enum} {v : Schema.EnumValue}
    (hdecl : schema.decl? name = some (.enum e)) (hv : e.value? value = some v)
    (hkept : v.removed = false) : a.Declares (name,value) := by
  obtain ⟨code,hcode,k,hk,rfl,rfl,-⟩ := h.constant_of_value hdecl hv hkept
  exact declares_of_enum hcode hk

omit hbound in
theorem Rendered.declares_const {name member : Text} {c : Schema.Class} {p : Schema.Property}
    (hdecl : schema.decl? name = some (.class c)) (hp : c.property? member = some p)
    (hremoved : c.removed = false) (hkept : p.removed = false) (hflag : p.flag = some .const) :
    a.Declares (name,member) := by
  obtain ⟨hmem,hname⟩ := Schema.name_of_decl? hdecl
  have hc : c ∈ schema.classes.filter (!·.removed) :=
    List.mem_filter.mpr ⟨List.mem_filterMap.mpr ⟨_,hmem,rfl⟩,by simp [hremoved]⟩
  obtain ⟨code,hcode,hcodeName,plan,rfl,hlaid,hfrom⟩ := exists_of_forall₂ (h.layouts hs).flip hc
  have hconst : p ∈ plan.consts := by
    rw [hlaid.consts]
    exact List.mem_filter.mpr ⟨List.mem_of_find?_eq_some hp,by simp [hkept,hflag]⟩
  obtain ⟨k,hk,before,hrun⟩ := exists_of_forall₂ hfrom.constants.flip hconst
  have hpname : p.name = member := by simpa using List.find?_some hp
  obtain rfl : code.name = name := hcodeName.trans hname
  obtain rfl : k.name = member := (classConstant_names hrun).1.trans hpname
  exact declares_of_class hcode hk

theorem Rendered.declares_iff {m : Plan.Member} : a.Declares m ↔ schema.writes m = true := by
  refine ⟨h.writes_of_declares hs hbound,fun hm => ?_⟩
  obtain ⟨name,member⟩ := m
  unfold Schema.writes at hm
  cases hdecl : schema.decl? name with
  | none => simp [hdecl] at hm
  | some d =>
    cases d with
    | enum e =>
      simp only [hdecl,Option.any_eq_true,Bool.not_eq_true'] at hm
      obtain ⟨v,hv,hkept⟩ := hm
      exact h.declares_value hdecl hv hkept
    | «class» c =>
      simp only [hdecl,Bool.and_eq_true,Bool.not_eq_true',Option.any_eq_true,beq_iff_eq] at hm
      obtain ⟨hremoved,p,hp,hkept,hflag⟩ := hm
      exact h.declares_const hs hdecl hp hremoved hkept hflag

/-- A value of an enumeration names something only if it has no number. What stands in front of it
has not been removed, so it is declared. -/
theorem Rendered.value_names {code : EnumCode} (hcode : code ∈ a.enums) {k : EnumConstant}
    (hk : k ∈ code.constants) {m : Plan.Member} (hm : k.expr.Names m) :
    Plan.number schema (code.name,k.value) = none ∧
      (a.Declares m ∨ isRemoved schema (.strong m.1 (some m.2)) = true ∨ schema.IsField m ∨
        .unknown (constantName m) ∈ k.expr.operandList) := by
  obtain ⟨e,v,hdecl,hv,hkept,before,hrun⟩ := h.value hs hbound hcode hk
  obtain ⟨hmem,hname⟩ := Schema.name_of_decl? hdecl
  have hplan : (Plan.enumOnce schema e).decl = e :=
    congrArg Plan.Enum.decl (Plan.enum_eq_number Plan.Memo.sound_empty e).2
  obtain ⟨hnumber,hterm | hunknown | ⟨previous,hprevious,hpreviousKept,rfl⟩⟩ :=
    enumValueExpr_names hrun hm
  · have he : e ∈ schema.enums := List.mem_filterMap.mpr ⟨_,hmem,rfl⟩
    refine ⟨hnumber,?_⟩
    rw [h.declares_iff hs hbound]
    rcases (hbound.values e he v (List.mem_of_find?_eq_some hv) _ hterm).cases with
      hwrites | hremoved | hfield
    · exact .inl hwrites
    · exact .inr (.inl hremoved)
    · exact .inr (.inr (.inl hfield))
  · exact ⟨hnumber,.inr (.inr (.inr hunknown))⟩
  · rw [Plan.Enum.name,hplan,show e.name = code.name from hname]
    rw [hplan] at hprevious
    have hnodup : (e.values.map Schema.EnumValue.name).Nodup := hbound.members _ hmem
    have hfound : e.value? previous.name = some previous :=
      find?_of_mem hnodup (Plan.mem_of_predecessor? hprevious)
    exact ⟨hnumber,.inl (h.declares_value hdecl hfound hpreviousKept)⟩

omit hs hbound in
theorem Rendered.mentions_terms {name value : Text} {e : Schema.Enum} {v : Schema.EnumValue}
    (hdecl : schema.decl? name = some (.enum e)) (hv : e.value? value = some v)
    (hkept : v.removed = false) (hnumber : Plan.number schema (name,value) = none)
    {m : Plan.Member} (hterm : .strong m.1 (some m.2) ∈ v.default) :
    a.Mentions (name,value) m := by
  obtain ⟨code,hcode,k,hk,rfl,rfl,before,hrun⟩ := h.constant_of_value hdecl hv hkept
  refine ⟨k.expr,?_,?_⟩
  · exact List.mem_append_left _ (List.mem_flatMap.mpr ⟨code,hcode,List.mem_map.mpr ⟨k,hk,rfl⟩⟩)
  · exact names_symbols (enumValueExpr_terms hrun hnumber (List.ne_nil_of_mem hterm)) hterm

theorem Rendered.const_names {code : ClassCode} (hcode : code ∈ a.classes) {k : ClassConstant}
    (hk : k ∈ code.constants) {m : Plan.Member} (hm : k.expr.Names m) :
    Plan.Refers schema (code.name,k.name) m ∧ a.Declares m := by
  obtain ⟨c,p,hdecl,hp,hremoved,hkept,hflag,before,hrun⟩ := h.const hs hbound hcode hk
  obtain ⟨hterm,hnamed⟩ := (classConstant_names hrun).2 m hm
  have hc : c ∈ schema.classes := List.mem_filterMap.mpr ⟨_,(Schema.name_of_decl? hdecl).1,rfl⟩
  have hbinds := hbound.properties c hc p (List.mem_of_find?_eq_some hp) _ hterm
  exact ⟨.const hdecl hp hflag hterm,
    (h.declares_iff hs hbound).mpr (writes_of_isNamed hbinds hnamed)⟩

theorem Rendered.refers_of_known {m n : Plan.Member} {bits : UInt64}
    (hm : Plan.number schema m = some bits) (hmn : a.Mentions m n) : Plan.Refers schema m n := by
  obtain ⟨expr,hmem,hn⟩ := hmn
  rcases declared_cases hmem with ⟨code,hcode,k,hk,heq⟩ | ⟨code,hcode,k,hk,heq⟩
  · cases heq
    rw [(h.value_names hs hbound hcode hk hn).1] at hm
    cases hm
  · cases heq
    exact (h.const_names hs hbound hcode hk hn).1

theorem Rendered.reaches_of_known {m n : Plan.Member} {bits : UInt64}
    (hm : Plan.number schema m = some bits) (hmn : Relation.TransGen a.Mentions m n) :
    Relation.TransGen (Plan.Refers schema) m n ∧ ∃ more, Plan.number schema n = some more := by
  have hknown : ∀ {k l : Plan.Member} {bits : UInt64}, Plan.number schema k = some bits →
      Plan.Refers schema k l → ∃ more, Plan.number schema l = some more :=
    fun hk hkl => Plan.known_of_refers ((Plan.number_solves schema _).symm.trans hk) hkl
  induction hmn with
  | single hstep =>
    have hrefers := h.refers_of_known hs hbound hm hstep
    exact ⟨.single hrefers,hknown hm hrefers⟩
  | tail _ hstep ih =>
    obtain ⟨hreaches,more,hmore⟩ := ih
    have hrefers := h.refers_of_known hs hbound hmore hstep
    exact ⟨hreaches.tail hrefers,hknown hmore hrefers⟩

theorem Rendered.unknown_of_cycle {m : Plan.Member} (hm : Relation.TransGen a.Mentions m m) :
    Plan.number schema m = none := by
  cases hnumber : Plan.number schema m with
  | none => rfl
  | some bits =>
    have hcycle := (h.reaches_of_known hs hbound hnumber hm).1
    obtain ⟨stage,hstage⟩ := Plan.exists_stage schema
    rw [← hstage,Plan.unknown_of_cycle hcycle stage] at hnumber
    cases hnumber

theorem Rendered.default_names {code : ClassCode} (hcode : code ∈ a.classes) {slot : Slot}
    {expr : Expr} (hstep : .value slot expr ∈ code.setup) {m : Plan.Member}
    (hm : expr.Names m) : a.Declares m := by
  obtain ⟨c,hc,-,plan,rfl,hlaid,hfrom⟩ := exists_of_forall₂ (h.layouts hs) hcode
  obtain ⟨header,fields,⟨_,hheader⟩,hfields,hsetup⟩ := hfrom.setup
  rw [hsetup] at hstep
  rcases List.mem_append.mp hstep with hstep | hstep
  · exact absurd hstep (headerSetup_value hheader slot expr)
  · obtain ⟨steps,hsteps,hstep⟩ := List.mem_flatten.mp hstep
    obtain ⟨f,hf,_,hrun⟩ := exists_of_forall₂ hfields hsteps
    obtain ⟨type,carrier,_,hexpr⟩ := fieldSetup_value hrun hstep
    obtain ⟨hterm,hnamed⟩ := valueExpr_names hexpr hm
    obtain ⟨p,hp⟩ := hlaid.property hf
    have hproperty : f.head.property = p := by rw [hp.head]; rfl
    rw [hproperty] at hterm
    have hbinds := hbound.properties _ hlaid.decl p hp.property _ hterm
    exact (h.declares_iff hs hbound).mpr (writes_of_isNamed hbinds hnamed)

theorem Rendered.tag_names {code : ClassCode} (hcode : code ∈ a.classes) {type : Text}
    {expr : Expr} (htag : code.tag = some (.tell type expr)) {m : Plan.Member}
    (hm : expr.Names m) : a.Declares m ∨ schema.IsField m := by
  obtain ⟨c,hc,-,plan,rfl,hlaid,hfrom⟩ := exists_of_forall₂ (h.layouts hs) hcode
  obtain ⟨_,hrun⟩ := hfrom.tag
  rw [htag] at hrun
  obtain ⟨_,hexpr⟩ := tagMethod_tell hrun
  obtain ⟨hidentity,hkept⟩ := tagExpr_names hexpr hm
  rcases (hbound.identities _ hlaid.decl _ hidentity).cases with hwrites | hremoved | hfield
  · exact .inl ((h.declares_iff hs hbound).mpr hwrites)
  · cases hkept.symm.trans hremoved
  · exact .inr hfield

end Written

/-- What the parts of a schema declare and mention. -/
structure Mentioned (a : Parts) (schema : Schema) : Prop where
  declared : ∀ m, a.Declares m ↔ schema.writes m = true
  constants : ∀ code ∈ a.classes, ∀ k ∈ code.constants, ∀ m, k.expr.Names m → a.Declares m
  defaults : ∀ code ∈ a.classes, ∀ slot expr, .value slot expr ∈ code.setup →
    ∀ m, expr.Names m → a.Declares m
  tags : ∀ code ∈ a.classes, ∀ type expr, code.tag = some (.tell type expr) →
    ∀ m, expr.Names m → a.Declares m ∨ schema.IsField m
  values : ∀ code ∈ a.enums, ∀ k ∈ code.constants, ∀ m, k.expr.Names m →
    Plan.number schema (code.name,k.value) = none ∧
      (a.Declares m ∨ isRemoved schema (.strong m.1 (some m.2)) = true ∨ schema.IsField m ∨
        .unknown (constantName m) ∈ k.expr.operandList)
  terms : ∀ name e, schema.decl? name = some (.enum e) → ∀ value v, e.value? value = some v →
    v.removed = false → Plan.number schema (name,value) = none →
    ∀ m, .strong m.1 (some m.2) ∈ v.default → a.Mentions (name,value) m
  cycles : ∀ m, Relation.TransGen a.Mentions m m → Plan.number schema m = none

omit [Casing] in
/-- If every constant has a number, what the declaration of one mentions is declared, and there are
no cycles. -/
theorem Mentioned.closed (h : a.Mentioned schema)
    (hknown : ∀ m, a.Declares m → Plan.number schema m ≠ none) :
    (∀ m n, a.Mentions m n → a.Declares n) ∧ ∀ m, ¬ Relation.TransGen a.Mentions m m := by
  have hmentions : ∀ m n, a.Mentions m n → a.Declares m ∧ a.Declares n := by
    intro m n hmn
    obtain ⟨expr,hmem,hn⟩ := hmn
    rcases declared_cases hmem with ⟨code,hcode,k,hk,heq⟩ | ⟨code,hcode,k,hk,heq⟩
    · cases heq
      exact absurd (h.values code hcode k hk n hn).1 (hknown _ (declares_of_enum hcode hk))
    · cases heq
      exact ⟨declares_of_class hcode hk,h.constants code hcode k hk n hn⟩
  refine ⟨fun m n hmn => (hmentions m n hmn).2,fun m hm => ?_⟩
  obtain ⟨n,hmn,-⟩ := Relation.TransGen.head'_iff.mp hm
  exact hknown m (hmentions m n hmn).1 (h.cycles m hm)

end Parts

/-- Whatever a request is answered with, the classes name constants that are declared, up to tags
that are no constants; the values of enumerations name something only if they have no number, and
only those may name what has been removed; and there are cycles only among constants without a
number. -/
theorem mentions_declared {r : Request} {files : List OutputFile}
    (h : generate r false = .ok files) : ∃ schema a, compileSources r.sourceSet = .ok schema ∧
      Parts.Rendered a r schema ∧ a.Fill r schema files ∧ a.Mentioned schema := by
  obtain ⟨schema,a,hschema,ha,hfill⟩ := parts_of_generate h
  obtain ⟨path,doc,ws,hcompile⟩ := compile_of_compileSources hschema
  have hs := Schema.sound_of_compile hcompile
  have hbound := Schema.bound_of_compile hcompile
  refine ⟨schema,a,hschema,ha,hfill,?_⟩
  exact {
    declared := fun m => ha.declares_iff hs hbound
    constants := fun code hcode k hk m hm => (ha.const_names hs hbound hcode hk hm).2
    defaults := fun code hcode slot expr hstep m hm => ha.default_names hs hbound hcode hstep hm
    tags := fun code hcode type expr htag m hm => ha.tag_names hs hbound hcode htag hm
    values := fun code hcode k hk m hm => ha.value_names hs hbound hcode hk hm
    terms := fun name e hdecl value v hv hkept hnumber m hterm =>
      ha.mentions_terms hdecl hv hkept hnumber hterm
    cycles := fun m hm => ha.unknown_of_cycle hs hbound hm }

end Generated

/-- A request whose constants all have numbers, and are mentioned in all places of a class. -/
def levelRequest : Request where
  sources := some [⟨"level.steamd","enum EMsg \x7b Hello = 1; Again = EMsg::Hello; \x7d;
    class Level \x7b const uint low = 3; const uint high = Level::low; \x7d;
    class MsgHello<EMsg::Hello> \x7b uint level = Level::high; \x7d;"⟩]
  file := "level"
  scope := "level"
  supportsGc := false
  options := []

theorem level_mentioned : ∃ files schema a, generate levelRequest false = .ok files ∧
    compileSources levelRequest.sourceSet = .ok schema ∧ Parts.Rendered a levelRequest schema ∧
    a.Fill levelRequest schema files ∧ a.Mentioned schema ∧
    (∀ m n, a.Mentions m n → a.Declares n) ∧ ∀ m, ¬ Relation.TransGen a.Mentions m m := by
  obtain ⟨files,hfiles⟩ : ∃ files, generate levelRequest false = .ok files :=
    Result.exists_of_isOk (by decide +kernel)
  obtain ⟨schema,a,hschema,ha,hfill,hmentioned⟩ := mentions_declared hfiles
  have hnumbers : ∀ s ∈ (compileSources levelRequest.sourceSet).toOption, ∀ d ∈ s.decls,
      ∀ member ∈ d.members, s.writes (d.name,member) = true →
        (Plan.number s (d.name,member)).isSome = true := by
    decide +kernel
  refine ⟨files,schema,a,hfiles,hschema,ha,hfill,hmentioned,hmentioned.closed ?_⟩
  rintro ⟨name,member⟩ hm hnone
  have hwrites := (hmentioned.declared _).mp hm
  obtain ⟨d,hd,rfl,hmember⟩ := Schema.mem_members_of_writes hwrites
  have hnumber := hnumbers schema (by rw [hschema]; rfl) d hd member hmember hwrites
  rw [hnone] at hnumber
  cases hnumber

/-- A request whose values have no numbers: one of them refers to a removed one, and two refer to
each other. -/
def flagRequest : Request where
  sources := some [⟨"flag.steamd",
    "enum Flag \x7b Old = Other.Old; removed \"gone\" All = Old; Left = Right; Right = Left; \x7d;"
  ⟩]
  file := "flag"
  scope := "flag"
  supportsGc := false
  options := []

def flagSchema : Schema := ((compileSources flagRequest.sourceSet).toOption).getD default

def flagEnum : Schema.Enum := (flagSchema.enum? "Flag").getD default

/-- A constant mentions one that is not declared, and another one mentions itself on a detour. -/
theorem old_undeclared : ∃ files a, generate flagRequest false = .ok files ∧
    compileSources flagRequest.sourceSet = .ok flagSchema ∧
    Parts.Rendered a flagRequest flagSchema ∧ a.Fill flagRequest flagSchema files ∧
    a.Declares ("Flag","All") ∧ a.Mentions ("Flag","All") ("Flag","Old") ∧
    ¬ a.Declares ("Flag","Old") ∧ Relation.TransGen a.Mentions ("Flag","Left") ("Flag","Left") := by
  obtain ⟨files,hfiles⟩ : ∃ files, generate flagRequest false = .ok files :=
    Result.exists_of_isOk (by decide +kernel)
  obtain ⟨schema,a,hschema,ha,hfill⟩ := parts_of_generate hfiles
  obtain rfl : schema = flagSchema := by simp [flagSchema,hschema,Except.toOption]
  have hdecl : flagSchema.decl? "Flag" = some (.enum flagEnum) := by decide +kernel
  have hterms : ∀ pair ∈ ([("All","Old"),("Left","Right"),("Right","Left")] : List (Text × Text)),
      ((flagEnum.value? pair.1).any fun v =>
        !v.removed && v.default.contains (.strong "Flag" (some pair.2))) = true ∧
        Plan.number flagSchema ("Flag",pair.1) = none := by
    decide +kernel
  have hwrites : flagSchema.writes ("Flag","All") = true ∧
      flagSchema.writes ("Flag","Old") = false := by
    decide +kernel
  have hmentions : ∀ pair ∈ ([("All","Old"),("Left","Right"),("Right","Left")] :
      List (Text × Text)), a.Mentions ("Flag",pair.1) ("Flag",pair.2) := by
    intro pair hpair
    obtain ⟨hvalue,hnumber⟩ := hterms pair hpair
    simp only [Option.any_eq_true,Bool.and_eq_true,Bool.not_eq_true',List.contains_iff_mem]
      at hvalue
    obtain ⟨v,hv,hkept,hterm⟩ := hvalue
    exact ha.mentions_terms hdecl hv hkept hnumber hterm
  obtain ⟨path,doc,ws,hcompile⟩ := compile_of_compileSources hschema
  have hdeclares : ∀ m, a.Declares m ↔ flagSchema.writes m = true := fun m =>
    ha.declares_iff (Schema.sound_of_compile hcompile) (Schema.bound_of_compile hcompile)
  have hleft := hmentions ("Left","Right") (by simp)
  have hright := hmentions ("Right","Left") (by simp)
  refine ⟨files,a,hfiles,hschema,ha,hfill,?_,hmentions ("All","Old") (by simp),?_,
    .tail (.single hleft) hright⟩
  · rw [hdeclares]
    exact hwrites.1
  · rw [hdeclares,hwrites.2]
    decide

end WireSchema.Artifact
