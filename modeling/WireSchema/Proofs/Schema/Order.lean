import WireSchema.Proofs.Schema.Compile
set_option autoImplicit false

/-!
The order of declarations does not matter. Every check reads a document by the names in it, and
under each name stands the same declaration in whatever order they are written; so what one
declaration becomes does not change, and only the order of the results follows that of the
declarations.
-/

namespace WireSchema.Schema

open Result

theorem collect_perm {α β : Type} {check : α → Except Fault (Warned β)} {xs xs' : List α}
    (h : xs.Perm xs') {ys : List β} {ws : List Warning} (hc : collect check xs = .ok (ys,ws)) :
    ∃ ys' ws', collect check xs' = .ok (ys',ws') ∧ ys.Perm ys' ∧ ws.Perm ws' := by
  induction h generalizing ys ws with
  | nil => exact ⟨ys,ws,hc,.refl _,.refl _⟩
  | cons x _ ih =>
    simp only [collect,bind_eq_ok,pure_eq_ok,Except.ok.injEq,Prod.mk.injEq] at hc
    obtain ⟨⟨y,v⟩,hx,⟨zs,vs⟩,hxs,rfl,rfl⟩ := hc
    obtain ⟨zs',vs',hxs',hzs,hvs⟩ := ih hxs
    refine ⟨y :: zs',v ++ vs',?_,hzs.cons y,hvs.append_left v⟩
    simp only [collect,hx,hxs',ok_bind,pure_eq_ok]
  | swap x z xs =>
    simp only [collect,bind_eq_ok,pure_eq_ok,Except.ok.injEq,Prod.mk.injEq] at hc
    obtain ⟨⟨b,u⟩,hz,⟨_,_⟩,⟨⟨a,v⟩,hx,⟨zs,vs⟩,hxs,rfl,rfl⟩,rfl,rfl⟩ := hc
    refine ⟨a :: b :: zs,v ++ (u ++ vs),?_,.swap a b zs,?_⟩
    · simp only [collect,hx,hz,hxs,ok_bind,pure_eq_ok]
    · rw [← List.append_assoc,← List.append_assoc]
      exact List.perm_append_comm.append_right vs
  | trans _ _ ih ih' =>
    obtain ⟨ys₁,ws₁,hc₁,hys₁,hws₁⟩ := ih hc
    obtain ⟨ys₂,ws₂,hc₂,hys₂,hws₂⟩ := ih' hc₁
    exact ⟨ys₂,ws₂,hc₂,hys₁.trans hys₂,hws₁.trans hws₂⟩

theorem duplicate?_eq_none {seen : List Text} {names : List Ident}
    (hn : (names.map Ident.text).Nodup) (hseen : ∀ n ∈ names, n.text ∉ seen) :
    duplicate? seen names = none := by
  induction names generalizing seen with
  | nil => rfl
  | cons n ns ih =>
    simp only [List.map_cons,List.nodup_cons] at hn
    have hfresh : n.text ∉ seen := hseen n (by simp)
    simp only [duplicate?,List.contains_eq_mem,hfresh,decide_false,Bool.false_eq_true,if_false]
    refine ih hn.2 fun m hm => ?_
    simp only [List.mem_cons,not_or]
    exact ⟨fun he => hn.1 (he ▸ List.mem_map_of_mem hm),hseen m (by simp [hm])⟩

def nameWarnings (d : Document.Decl) : List Warning :=
  match Primitive.ofName? d.name.text with
  | some _ => [⟨.shadowsPrimitive d.name.text,d.name.span⟩]
  | none => []

theorem checkNames_eq {seen : List Text} {decls : List Document.Decl}
    (hn : (decls.map (·.name.text)).Nodup) (hseen : ∀ d ∈ decls, d.name.text ∉ seen)
    (hm : ∀ d ∈ decls, ((memberNames d).map Ident.text).Nodup) :
    checkNames seen decls = .ok ((),decls.flatMap nameWarnings) := by
  induction decls generalizing seen with
  | nil => rfl
  | cons d ds ih =>
    simp only [List.map_cons,List.nodup_cons] at hn
    have hfresh : d.name.text ∉ seen := hseen d (by simp)
    have hmembers : duplicate? [] (memberNames d) = none :=
      duplicate?_eq_none (hm d (by simp)) (by simp)
    have hrest : checkNames (d.name.text :: seen) ds = .ok ((),ds.flatMap nameWarnings) := by
      refine ih hn.2 (fun e he => ?_) fun e he => hm e (by simp [he])
      simp only [List.mem_cons,not_or]
      exact ⟨fun heq => hn.1 (heq ▸ List.mem_map_of_mem he),hseen e (by simp [he])⟩
    simp only [checkNames,List.contains_eq_mem,hfresh,hmembers,hrest,decide_false,
      Bool.false_eq_true,if_false,ok_bind,pure_eq_ok,List.flatMap_cons]
    rfl

/-- Two documents have the same declaration under every name. -/
def Agree (doc other : Document) : Prop := ∀ name, doc.decl? name = other.decl? name

theorem agree_of_perm {doc other : Document} (h : doc.decls.Perm other.decls)
    (hn : (doc.decls.map (·.name.text)).Nodup) : Agree doc other :=
  fun name => find?_perm hn h name

section Agree

variable {doc other : Document}

theorem Agree.resolve (h : Agree doc other) : resolve doc = resolve other := by
  funext strongOnly name
  simp only [Schema.resolve,Symbol.resolve,h _]

theorem Agree.obsoleteMarker? (h : Agree doc other) :
    obsoleteMarker? doc = obsoleteMarker? other := by
  funext symbol
  simp only [Schema.obsoleteMarker?.eq_def,h _]

theorem Agree.resolveValue (h : Agree doc other) : resolveValue doc = resolveValue other := by
  funext decl term
  simp only [Schema.resolveValue,h.resolve,h.obsoleteMarker?]

theorem Agree.compileEnum (h : Agree doc other) : compileEnum doc = compileEnum other := by
  funext e
  have hterm : resolveEnumTerm doc e = resolveEnumTerm other e := by
    funext term
    simp only [resolveEnumTerm,h.resolveValue]
  have hvalue : compileEnumValue doc e = compileEnumValue other e := by
    funext v
    simp only [compileEnumValue,hterm]
  simp only [Schema.compileEnum,checkStorage,h _,hvalue]

theorem Agree.typeShape (h : Agree doc other) : typeShape doc = typeShape other := by
  funext symbol
  cases symbol with
  | weak name => rfl
  | strong decl member => simp only [Schema.typeShape,h _]

theorem Agree.compileProperty (h : Agree doc other) :
    compileProperty doc = compileProperty other := by
  funext decl p
  simp only [Schema.compileProperty,checkType,h.resolve,h.typeShape,h.resolveValue]

theorem Agree.unboundedWarnings (h : Agree doc other) :
    unboundedWarnings doc = unboundedWarnings other := by
  funext decl all
  simp only [Schema.unboundedWarnings,isVariable,h.typeShape]

theorem Agree.compileClass (h : Agree doc other) : compileClass doc = compileClass other := by
  funext c
  simp only [Schema.compileClass,compileIdentity,compileParent,h.resolve,h.obsoleteMarker?,h _,
    h.compileProperty,h.unboundedWarnings]

end Agree

theorem climbs_congr {classes classes' : List Class}
    (h : ∀ name, classes.find? (fun c => c.name == name) = classes'.find? (fun c => c.name == name))
    (fuel : Nat) (seen : List Text) (parent : Option Text) :
    climbs classes fuel seen parent = climbs classes' fuel seen parent := by
  induction fuel generalizing seen parent with
  | zero => cases parent <;> rfl
  | succ fuel ih =>
    cases parent with
    | none => rfl
    | some parent => simp only [climbs,h,ih]

theorem checkParents_perm {doc other : Document} (h : doc.classes.Perm other.classes)
    {classes classes' : List Class} (hclasses : classes.Perm classes')
    (hn : (classes.map Class.name).Nodup) (hc : checkParents doc classes = .ok ()) :
    checkParents other classes' = .ok () := by
  refine forM_eq_ok.mpr fun c hmem => ?_
  have hclimbs := climbs_congr fun name => find?_perm hn hclasses name
  have hpassed := forM_eq_ok.mp hc c (h.symm.subset hmem)
  simpa only [hclimbs,hclasses.length_eq] using hpassed

theorem arrange_perm {enums enums' : List Enum} (henums : enums.Perm enums')
    (he : (enums.map Enum.name).Nodup) {classes classes' : List Class}
    (hclasses : classes.Perm classes') (hc : (classes.map Class.name).Nodup) :
    arrange enums classes = arrange enums' classes' := by
  funext d
  cases d with
  | «class» c => simp only [arrange,find?_perm hc hclasses]
  | enum e => simp only [arrange,find?_perm he henums]

theorem nodup_of_collect {α β : Type} {check : α → Except Fault (Warned β)} {name : α → Text}
    {other : β → Text} (hname : ∀ x y w, check x = .ok (y,w) → other y = name x) {xs : List α}
    {ys : List β} {ws : List Warning} (h : collect check xs = .ok (ys,ws))
    (hn : (xs.map name).Nodup) : (ys.map other).Nodup := by
  have hnames : ys.map other = xs.map name :=
    map_eq_of_forall₂ (fun _ _ ⟨_,hy⟩ => hname _ _ _ hy) (collect_ok h)
  exact hnames ▸ hn

theorem compile_of_perm {path : Text} {doc other : Document} (h : doc.decls.Perm other.decls)
    {schema : Schema} {ws : List Warning} (hc : compile path doc = .ok (schema,ws)) :
    ∃ decls ws', compile path other = .ok (⟨path,decls⟩,ws') ∧ schema.sourcePath = path ∧
      schema.decls.Perm decls ∧ ws.Perm ws' := by
  obtain ⟨hnames,hmembers,-⟩ := compile_ok hc
  have hagree := agree_of_perm h hnames
  simp only [compile,bind_eq_ok,pure_eq_ok,Except.ok.injEq,Prod.mk.injEq] at hc
  obtain ⟨⟨⟨⟩,_⟩,hcheck,⟨enums,enumWs⟩,henums,⟨classes,classWs⟩,hclasses,⟨⟩,hparents,rfl,rfl⟩ := hc
  have hcheck' : checkNames [] other.decls = .ok ((),other.decls.flatMap nameWarnings) :=
    checkNames_eq ((h.map _).nodup_iff.mp hnames) (by simp) fun d hd =>
      hmembers d (h.symm.subset hd)
  rw [checkNames_eq hnames (by simp) hmembers] at hcheck
  cases hcheck
  obtain ⟨enums',enumWs',henums',hpe,hwe⟩ :=
    collect_perm (h.filterMap Document.Decl.enum?) henums
  obtain ⟨classes',classWs',hclasses',hpc,hwc⟩ :=
    collect_perm (h.filterMap Document.Decl.class?) hclasses
  have he : (enums.map Enum.name).Nodup :=
    nodup_of_collect (fun _ _ _ hy => (compileEnum_ok hy).1) henums
      (nodup_filterMap_name (by intro d a ha; cases d <;> cases ha; rfl) hnames)
  have hcl : (classes.map Class.name).Nodup :=
    nodup_of_collect (fun _ _ _ hy => (compileClass_ok hy).1) hclasses
      (nodup_filterMap_name (by intro d a ha; cases d <;> cases ha; rfl) hnames)
  have hparents' : checkParents other classes' = .ok () :=
    checkParents_perm (h.filterMap Document.Decl.class?) hpc hcl hparents
  rw [hagree.compileEnum] at henums'
  rw [hagree.compileClass] at hclasses'
  refine ⟨other.decls.filterMap (arrange enums' classes'),
    other.decls.flatMap nameWarnings ++ enumWs' ++ classWs',?_,rfl,?_,?_⟩
  · simp only [compile,hcheck',Document.enums,Document.classes,henums',hclasses',hparents',ok_bind,
      pure_eq_ok]
  · rw [← arrange_perm hpe he hpc hcl]
    exact h.filterMap _
  · exact ((h.flatMap_right _).append hwe).append hwc

/-- Declarations in another order make a schema if and only if they make one in this order. Each of
them becomes the same then, and the same is suspicious in them. -/
theorem compile_perm {doc other : Document} (h : doc.decls.Perm other.decls) (path : Text) :
    ((∃ result, compile path doc = .ok result) ↔ ∃ result, compile path other = .ok result) ∧
    ∀ schema ws schema' ws', compile path doc = .ok (schema,ws) →
      compile path other = .ok (schema',ws') →
      (∀ d ∈ doc.decls, ∃ compiled, schema.decl? d.name.text = some compiled ∧
        schema'.decl? d.name.text = some compiled) ∧
      schema.decls.Perm schema'.decls ∧ schema.sourcePath = schema'.sourcePath ∧ ws.Perm ws' := by
  refine ⟨⟨?_,?_⟩,?_⟩
  · rintro ⟨⟨schema,ws⟩,hc⟩
    obtain ⟨decls,ws',hc',-⟩ := compile_of_perm h hc
    exact ⟨_,hc'⟩
  · rintro ⟨⟨schema,ws⟩,hc⟩
    obtain ⟨decls,ws',hc',-⟩ := compile_of_perm h.symm hc
    exact ⟨_,hc'⟩
  · intro schema ws schema' ws' hc hc'
    obtain ⟨decls,ws₂,hother,hpath,hdecls,hws⟩ := compile_of_perm h hc
    rw [hc'] at hother
    cases hother
    refine ⟨?_,hdecls,hpath,hws⟩
    intro d hd
    obtain ⟨hnames,-,hcompiled⟩ := compile_ok hc
    obtain ⟨compiled,hfind,-⟩ := Decl.Compiled.find hcompiled (find?_of_mem hnames hd)
    exact ⟨compiled,hfind,(find?_perm (sound_of_compile hc).names hdecls _).symm.trans hfind⟩

/-- A class that refers forward to its header and to an old value of an enumeration. -/
def forward : Document where
  span := ⟨0,0⟩
  directives := []
  decls := [
    .class ⟨⟨0,0⟩,⟨"Ping",0⟩,some ⟨"Kind::Old",0⟩,some ⟨"Base",0⟩,none,[
      ⟨⟨0,0⟩,⟨"kind",0⟩,⟨"Kind",0⟩,some .protoMask,none,[⟨"Kind::New",0⟩],none,none⟩]⟩,
    .class ⟨⟨0,0⟩,⟨"Base",0⟩,none,none,none,[]⟩,
    .enum ⟨⟨0,0⟩,⟨"Kind",0⟩,some ⟨"uint",0⟩,false,[
      ⟨⟨0,0⟩,⟨"Old",0⟩,[],some ⟨⟨0,0⟩,[]⟩,none⟩,
      ⟨⟨0,0⟩,⟨"New",0⟩,[⟨"Old",0⟩],none,none⟩]⟩]

def backward : Document := { forward with decls := forward.decls.reverse }

theorem forward_perm : forward.decls.Perm backward.decls ∧
    (∃ result, compile [] forward = .ok result) ∧ ∃ result, compile [] backward = .ok result := by
  have hperm : forward.decls.Perm backward.decls := (List.reverse_perm _).symm
  have hcompile : ∃ result, compile [] forward = .ok result :=
    exists_of_isOk (by decide +kernel)
  exact ⟨hperm,hcompile,(compile_perm hperm []).1.mp hcompile⟩

end WireSchema.Schema
