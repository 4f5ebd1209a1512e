import WireSchema.Artifact.Casing
import WireSchema.Proofs.Artifact.Covered
import WireSchema.Proofs.Artifact.Parts
set_option autoImplicit false

/-!
The packages that a file imports. The path of whatever its body refers to is imported, but a path is
imported under one name: if the packages of enumerations and of messages share it, one of their
names is lost. As long as the settings keep the packages apart, all names stand for what they
should.
-/

namespace WireSchema.Artifact

def Batch.families (b : Batch) : List Family := if b.supportsGc then [.primary,.gc] else [.primary]

/-- The packages that the interfaces refer to: the runtime, and those of the types of tags. -/
def Batch.markerPackages (b : Batch) : List Package :=
  ⟨runtimePath,"steamd"⟩ :: b.families.flatMap fun family => (b.tagRef family).packages b

/-- Whether a declaration has a method that names values, and tells the number of the others. -/
def isNaming : Schema.Decl → Bool
  | .enum e => !e.flags
  | .class _ => false

def EnumCode.form (format : Bool) (e : EnumCode) : EnumCode := if format then e.usual else e

def ClassCode.form (format : Bool) (c : ClassCode) : ClassCode := if format then c.usual else c

/-- The lines of a declaration are those of its source code, which refers to known packages only. -/
def Batch.Covers [Casing] (b : Batch) (format : Bool)
    (known : Package → Prop) : Schema.Decl → Lines → Prop
  | .enum e, lines => ∃ code before,
    (enumCode b (Plan.enumOnce b.schema e) before).1 = .ok code ∧
      lines = (code.form format).lines ∧ (code.form format).Covered b known
  | .class c, lines => ∃ plan code before,
    ((Planner.new b.schema b.supportsGc).layout c).1 = .ok plan ∧
      (classCode b plan before).1 = .ok code ∧
      lines = (code.form format).lines ∧ (code.form format).Covered b known plan

/-- A body refers to known packages only: in the interfaces that its classes implement, and in each
of its declarations. -/
def Batch.BodyCovered [Casing] (b : Batch) (format : Bool) (decls : List Schema.Decl) (body : Lines)
    (known : Package → Prop) : Prop :=
  ∃ markers bodies, body = markers ++ bodies.flatten ∧
    (b.internal = false → markers = []) ∧
    (b.internal = true → (∃ before, (markerLines b before).1 = .ok markers) ∧
      ∀ p ∈ b.markerPackages, known p) ∧
    List.Forall₂ (b.Covers format known) (decls.filter isKept) bodies

section Mono

variable {b : Batch} {known known' : Package → Prop} (hmono : ∀ p, known p → known' p)

include hmono

theorem Expr.Covered.mono {e : Expr} (h : e.Covered b known) : e.Covered b known' := by
  intro o ho
  have hcovered := h o ho
  cases o with
  | enumValue qualifier enum value =>
    exact hcovered.imp_right fun ⟨hfront,hknown⟩ => ⟨hfront,fun p hp => hmono p (hknown p hp)⟩
  | _ => trivial

theorem EnumCode.Covered.mono {e : EnumCode} (h : e.Covered b known) : e.Covered b known' :=
  ⟨h.types,fun k hk => (h.values k hk).mono hmono,fun p hp => hmono p (h.calls p hp)⟩

theorem ClassCode.Covered.mono {plan : Plan.Class} {c : ClassCode} (h : c.Covered b known plan) :
    c.Covered b known' plan :=
  ⟨fun r hr p hp => hmono p (h.refs r hr p hp),h.types,fun e he => (h.values e he).mono hmono,
    fun p hp => hmono p (h.calls p hp)⟩

theorem Batch.BodyCovered.mono [Casing] {format : Bool} {decls : List Schema.Decl} {body : Lines}
    (h : b.BodyCovered format decls body known) : b.BodyCovered format decls body known' := by
  obtain ⟨markers,bodies,hbody,hnone,hmarkers,hall⟩ := h
  refine ⟨markers,bodies,hbody,hnone,fun hinside => ?_,hall.imp fun d lines hd => ?_⟩
  · exact ⟨(hmarkers hinside).1,fun p hp => hmono p ((hmarkers hinside).2 p hp)⟩
  · cases d with
    | enum e =>
      obtain ⟨code,before,hrun,hlines,hcovered⟩ := hd
      exact ⟨code,before,hrun,hlines,hcovered.mono hmono⟩
    | «class» c =>
      obtain ⟨plan,code,before,hplan,hrun,hlines,hcovered⟩ := hd
      exact ⟨plan,code,before,hplan,hrun,hlines,hcovered.mono hmono⟩

end Mono

section Usual

variable {b : Batch} {known : Package → Prop}

theorem Operand.Covered.usual {o : Operand} (h : o.Covered b known) : o.usual.Covered b known := by
  cases o with
  | unknown name => trivial
  | _ => exact h

theorem Expr.Covered.usual {e : Expr} (h : e.Covered b known) : e.usual.Covered b known := by
  intro o ho
  cases e with
  | operands list operator =>
    obtain ⟨o,hmem,rfl⟩ := List.mem_map.mp ho
    exact (h o hmem).usual
  | next enum value => exact h o ho
  | conversion type operand =>
    obtain rfl := List.mem_singleton.mp ho
    exact (h operand (List.mem_singleton_self _)).usual

theorem types_usual (e : Expr) : e.usual.types = e.types := by cases e <;> rfl

theorem EnumCode.Covered.form {e : EnumCode} (h : e.Covered b known) (format : Bool) :
    (e.form format).Covered b known := by
  cases format with
  | false => exact h
  | true =>
    have hbare : e.usual.bare = e.bare := by
      simp only [EnumCode.bare,EnumCode.usual,List.map_map,Function.comp_def]
    refine ⟨fun k hk => ?_,fun k hk => ?_,hbare ▸ h.calls⟩
    · obtain ⟨k,hmem,rfl⟩ := List.mem_map.mp hk
      exact (types_usual k.expr).trans (h.types k hmem)
    · obtain ⟨k,hmem,rfl⟩ := List.mem_map.mp hk
      exact (h.values k hmem).usual

theorem exprs_usual (c : ClassCode) : c.usual.exprs =
    c.constants.map (fun k => k.expr.usual) ++ c.setup.flatMap Setup.exprs ++
      c.tag.toList.flatMap TagMethod.exprs := by
  simp only [ClassCode.exprs,ClassCode.usual,List.map_map,Function.comp_def]

theorem mem_exprs_usual {c : ClassCode} {e : Expr} (h : e ∈ c.usual.exprs) :
    ∃ own ∈ c.exprs, e = own ∨ e = own.usual := by
  rw [exprs_usual,List.append_assoc,List.mem_append,List.mem_map] at h
  rcases h with ⟨k,hk,rfl⟩ | h
  · refine ⟨k.expr,?_,.inr rfl⟩
    rw [ClassCode.exprs,List.append_assoc]
    exact List.mem_append_left _ (List.mem_map_of_mem hk)
  · refine ⟨e,?_,.inl rfl⟩
    rw [ClassCode.exprs,List.append_assoc]
    exact List.mem_append_right _ h

theorem ClassCode.types_usual (c : ClassCode) : c.usual.types = c.types := by
  have hexprs : c.usual.exprs.flatMap Expr.types = c.exprs.flatMap Expr.types := by
    rw [exprs_usual]
    simp only [ClassCode.exprs,List.flatMap_append,List.flatMap_map,Artifact.types_usual]
  have hconstants : c.usual.constants.map ClassConstant.type =
      c.constants.map ClassConstant.type := by
    simp only [ClassCode.usual,List.map_map,Function.comp_def]
  simp only [ClassCode.types,hexprs,hconstants]
  rfl

theorem ClassCode.Covered.form {plan : Plan.Class} {c : ClassCode} (h : c.Covered b known plan)
    (format : Bool) : (c.form format).Covered b known plan := by
  cases format with
  | false => exact h
  | true =>
    have hbare : c.usual.bare = c.bare := by
      simp only [ClassCode.bare,ClassCode.usual,List.map_map,Function.comp_def,Option.map_map]
    refine ⟨h.refs,(c.types_usual).symm ▸ h.types,fun e he => ?_,hbare ▸ h.calls⟩
    obtain ⟨own,hown,rfl | rfl⟩ := mem_exprs_usual he
    · exact h.values e hown
    · exact (h.values own hown).usual

end Usual

section Bodies

variable {b : Batch} {named : Bool}

theorem notes_markerLines : Notes (b.importable named) (markerLines b) fun _ paths =>
    ∀ p ∈ b.markerPackages, b.Knows named paths p := by
  unfold markerLines
  refine notes_runtime.bind fun _ => ?_
  refine (Notes.mapM (R := fun family _ paths => ∀ p ∈ (b.tagRef family).packages b,
    b.Knows named paths p) fun family _ => ?_).bind fun interfaces => ?_
  · unfold familyLines
    exact (notes_tagType family).bind fun _ => .pure fun _ htag => htag.2
  · refine .pure fun paths hall hruntime p hp => ?_
    rcases List.mem_cons.mp hp with rfl | hp
    · exact hruntime
    · obtain ⟨family,hfamily,hp⟩ := List.mem_flatMap.mp hp
      obtain ⟨lines,-,hknown⟩ := exists_of_forall₂ hall.flip hfamily
      exact hknown p hp

theorem notes_declLines [Casing] (format : Bool) {d : Schema.Decl}
    (hnamed : isNaming d = true → named = true) :
    Notes (b.importable named) (declLines b format d) fun body paths =>
      b.Covers format (b.Knows named paths) d body.1 := by
  cases d with
  | enum e =>
    refine Notes.during ?_
    refine (notes_enumCode (Plan.enumOnce b.schema e) ?_).result.bind fun code => ?_
    · intro hflags
      have hdecl : (Plan.enumOnce b.schema e).decl = e := rfl
      rw [hdecl] at hflags
      exact hnamed (by simpa [isNaming] using hflags)
    · refine .pure fun paths hcode => ?_
      obtain ⟨⟨before,hrun⟩,hcovered⟩ := hcode
      exact ⟨code,before,hrun,rfl,hcovered.form format⟩
  | «class» c =>
    refine Notes.during ?_
    split
    · exact .throw
    · rename_i plan planner hlayout
      refine (notes_classCode plan).result.bind fun code => .pure fun paths hcode => ?_
      obtain ⟨⟨before,hrun⟩,hcovered⟩ := hcode
      exact ⟨plan,code,before,by rw [hlayout],hrun,rfl,hcovered.form format⟩

theorem notes_bodyLines [Casing] (format : Bool) {decls : List Schema.Decl}
    (hnamed : ∀ d ∈ decls, isNaming d = true → named = true) :
    Notes (b.importable named) (bodyLines b format decls) fun body paths =>
      b.BodyCovered format decls body.1 (b.Knows named paths) := by
  have hbodies : ∀ markers, Notes (b.importable named) (do
      let bodies ← (decls.filter isKept).mapM (declLines b format)
      return (markers ++ (bodies.map Prod.fst).flatten,bodies.all Prod.snd))
      fun body paths => ∃ bodies, body.1 = markers ++ bodies.flatten ∧
        List.Forall₂ (b.Covers format (b.Knows named paths)) (decls.filter isKept) bodies := by
    intro markers
    refine (Notes.mapM fun d hd => notes_declLines format fun h =>
      hnamed d (List.mem_of_mem_filter hd) h).bind fun bodies => ?_
    exact .pure fun paths hall =>
      ⟨bodies.map Prod.fst,rfl,List.forall₂_map_right_iff.mpr hall⟩
  unfold bodyLines
  split
  · rename_i hinside
    refine notes_markerLines.result.bind fun markers => (hbodies markers).imp ?_
    intro body paths ⟨bodies,hbody,hall⟩ hmarkers
    exact ⟨markers,bodies,hbody,by simp [hinside],fun _ => hmarkers,hall⟩
  · rename_i hinside
    rw [pure_bind]
    refine (hbodies []).imp fun body paths ⟨bodies,hbody,hall⟩ => ?_
    exact ⟨[],bodies,hbody,fun _ => rfl,fun h => absurd h hinside,hall⟩

end Bodies

/-- The settings keep the packages that a file may need apart: no two have the same path, and the
package of enumerations has a name that can be used and is not taken. All other names are given. -/
structure Batch.Separate (b : Batch) (decls : List Schema.Decl) : Prop where
  paths : (b.importable (decls.any isNaming)).paths.Nodup
  usable : b.enumImport ≠ [] → importAlias b.enumImport ≠ "_"
  free : b.enumImport ≠ [] → decls.any isNaming = true → importAlias b.enumImport ≠ "fmt"

/-- A package is imported under a name that stands for it. -/
def Imports.Resolves (imports : Imports) (p : Package) : Prop :=
  p ∈ imports.packages ∧ p.2 ≠ "_"

theorem not_reserved (path : Text) : importAlias path ∉ reservedAliases := by
  unfold importAlias
  dsimp only
  split
  · decide
  · rename_i h
    simpa using h

section Names

variable {b : Batch} {named : Bool}

theorem packages_importable : (b.importable named).packages = ownPackages ++
    (if named then [namingPackage] else []) ++ b.enumPackages ++ b.messagePackages := by
  have hown : (ownPackages.map fun p => (p.1,([] : Text))).map Imports.package = ownPackages := by
    decide
  have hnaming : (if named then [(namingPackage.1,([] : Text))] else []).map Imports.package =
      if named then [namingPackage] else [] := by
    cases named <;> decide
  have henums : b.enumImports.map Imports.package = b.enumPackages := by
    unfold Batch.enumImports Batch.enumPackages
    split
    · rfl
    · rw [List.map_singleton,b.package_enumImport]
  have hmessages : b.messageImports.map Imports.package = b.messagePackages := by
    unfold Batch.messageImports Batch.messagePackages
    split <;> rfl
  simp only [Imports.packages,Batch.importable,List.map_append,hown,hnaming,henums,hmessages]

variable {decls : List Schema.Decl}

theorem ne_nil_of_mem_enumPackages {p : Package} (hp : p ∈ b.enumPackages) :
    b.enumImport ≠ [] ∧ p.2 = importAlias b.enumImport := by
  unfold Batch.enumPackages at hp
  split at hp
  · cases hp
  · rename_i hgiven
    obtain rfl := List.mem_singleton.mp hp
    exact ⟨by simpa using hgiven,rfl⟩

theorem eq_of_mem_messagePackages {p : Package} (hp : p ∈ b.messagePackages) : p.2 = "pb" := by
  unfold Batch.messagePackages at hp
  split at hp
  · cases hp
  · obtain rfl := List.mem_singleton.mp hp
    rfl

theorem given_names {p : Package} (hp : p ∈ ownPackages ++ if named then [namingPackage] else []) :
    p.2 ≠ "_" ∧ p.2 ≠ "pb" ∧ (p.2 ∈ reservedAliases ∨ named = true ∧ p.2 = "fmt") := by
  have hall : ∀ named : Bool, ∀ p ∈ ownPackages ++ if named then [namingPackage] else [],
      p.2 ≠ "_" ∧ p.2 ≠ "pb" ∧ (p.2 ∈ reservedAliases ∨ named = true ∧ p.2 = "fmt") := by decide
  exact hall named p hp

theorem Batch.Separate.names (h : b.Separate decls) :
    ((b.importable (decls.any isNaming)).packages.map Prod.snd).Nodup := by
  have hreserved := not_reserved b.enumImport
  have hgiven : ∀ named : Bool,
      ((ownPackages ++ if named then [namingPackage] else []).map Prod.snd).Nodup := by decide
  have hone : ∀ {c : Bool} {p : Package}, ((if c then [] else [p]).map Prod.snd).Nodup := by
    intro c p
    cases c <;> simp
  rw [packages_importable,List.map_append,List.map_append,List.nodup_append,List.nodup_append]
  refine ⟨⟨hgiven _,hone,?_⟩,hone,?_⟩
  · intro n hn m hm heq
    obtain ⟨p,hp,rfl⟩ := List.mem_map.mp hn
    obtain ⟨q,hq,rfl⟩ := List.mem_map.mp hm
    obtain ⟨hset,hq⟩ := ne_nil_of_mem_enumPackages hq
    rw [hq] at heq
    rcases (given_names hp).2.2 with hp | ⟨hnaming,hfmt⟩
    · exact hreserved (heq ▸ hp)
    · exact h.free hset hnaming (heq.symm.trans hfmt)
  · intro n hn m hm heq
    obtain ⟨p,hp,rfl⟩ := List.mem_map.mp hm
    rw [eq_of_mem_messagePackages hp] at heq
    rcases List.mem_append.mp hn with hn | hn
    · obtain ⟨q,hq,rfl⟩ := List.mem_map.mp hn
      exact (given_names hq).2.1 heq
    · obtain ⟨q,hq,rfl⟩ := List.mem_map.mp hn
      rw [(ne_nil_of_mem_enumPackages hq).2] at heq
      exact hreserved (heq ▸ by decide)

theorem Batch.Separate.ne_blank (h : b.Separate decls) {p : Package}
    (hp : p ∈ (b.importable (decls.any isNaming)).packages) : p.2 ≠ "_" := by
  rw [packages_importable,List.mem_append,List.mem_append] at hp
  rcases hp with (hp | hp) | hp
  · exact (given_names hp).1
  · obtain ⟨hset,hname⟩ := ne_nil_of_mem_enumPackages hp
    exact hname ▸ h.usable hset
  · rw [eq_of_mem_messagePackages hp]
    decide

/-- A package that has been noted is imported under its own name, if no other name can have been
noted for its path. -/
theorem Batch.Separate.resolves (h : b.Separate decls) {imports : Imports}
    (hin : imports.Within (b.importable (decls.any isNaming))) {p : Package}
    (hp : b.Knows (decls.any isNaming) imports.paths p) : imports.Resolves p := by
  refine ⟨?_,h.ne_blank hp.1⟩
  obtain ⟨x,hx,rfl⟩ := List.mem_map.mp hp.1
  obtain ⟨y,hy,hpath⟩ := List.mem_map.mp hp.2
  obtain rfl : y = x := List.inj_on_of_nodup_map h.paths (hin.allowed hy) hx hpath
  exact List.mem_map_of_mem hy

end Names

/-- The path of every package that a body refers to is imported, and each path once. If the settings
keep the packages apart, each is imported under the name that it has in the body, and no two imports
have the same name. -/
theorem body_imported [Casing] {b : Batch} {format : Bool} {decls : List Schema.Decl}
    {body : Lines × Bool}
    {imports : Imports} (h : bodyLines b format decls [] = (.ok body,imports)) :
    b.BodyCovered format decls body.1 (fun p => p.1 ∈ imports.paths) ∧ imports.paths.Nodup ∧
    (b.Separate decls → b.BodyCovered format decls body.1 imports.Resolves ∧
      (imports.packages.map Prod.snd).Nodup) := by
  have hnaming : ∀ d ∈ decls, isNaming d = true → decls.any isNaming = true :=
    fun d hd h => List.any_eq_true.mpr ⟨d,hd,h⟩
  have hnotes := notes_bodyLines (b := b) format hnaming
  obtain ⟨hin,-,hresult⟩ := hnotes [] ⟨.nil,List.nil_subset _⟩
  rw [h] at hin hresult
  have hcovered := hresult body rfl imports.paths (List.Subset.refl _)
  refine ⟨hcovered.mono fun p hp => hp.2,hin.nodup,fun hseparate => ?_⟩
  refine ⟨hcovered.mono fun p hp => hseparate.resolves hin hp,?_⟩
  rw [Imports.packages,List.map_map]
  have hnames := hseparate.names
  rw [Imports.packages,List.map_map] at hnames
  refine (hin.nodup.of_map _).map_on fun x hx y hy heq => ?_
  exact List.inj_on_of_nodup_map hnames (hin.allowed hx) (hin.allowed hy) heq

def answerSchema : Schema :=
  (compileSources [⟨"answer.steamd","enum EResult \x7b OK = 1; \x7d;
    class Answer \x7b EResult result = EResult::OK; proto Text body; \x7d;"⟩]).toOption.getD default

def answerDecls : List Schema.Decl := answerSchema.classes.map .class

def answerBatch (messages : Text) : Batch where
  schema := answerSchema
  scope := "steam"
  supportsGc := false
  internal := true
  base := "answer"
  options := [⟨enumImportOption,"example.com/gen"⟩,⟨protoImportOption,messages⟩]

def answerImports (messages : Imports) : Imports :=
  ⟨"encoding/binary",[]⟩ :: messages ++ [⟨runtimePath,[]⟩,⟨protobufPath,[]⟩,⟨"io",[]⟩]

theorem answer_imported :
    ∃ body imports, imports = answerImports [⟨"example.com/gen",[]⟩,⟨"example.com/messages","pb"⟩] ∧
    bodyLines (answerBatch "example.com/messages") false answerDecls [] = (.ok body,imports) ∧
    (answerBatch "example.com/messages").Separate answerDecls ∧
    (answerBatch "example.com/messages").BodyCovered false answerDecls body.1 imports.Resolves ∧
    (imports.packages.map Prod.snd).Nodup := by
  obtain ⟨body,hbody⟩ : ∃ body,
      (bodyLines (answerBatch "example.com/messages") false answerDecls []).1 = .ok body :=
    Result.exists_of_isOk (by decide +kernel)
  have himports : (bodyLines (answerBatch "example.com/messages") false answerDecls []).2 =
      answerImports [⟨"example.com/gen",[]⟩,⟨"example.com/messages","pb"⟩] := by decide +kernel
  have hrun : bodyLines (answerBatch "example.com/messages") false answerDecls [] =
      (.ok body,answerImports [⟨"example.com/gen",[]⟩,⟨"example.com/messages","pb"⟩]) :=
    Prod.ext hbody himports
  have hseparate : (answerBatch "example.com/messages").Separate answerDecls :=
    ⟨by decide +kernel,fun _ => by decide +kernel,fun _ _ => by decide +kernel⟩
  exact ⟨body,_,rfl,hrun,hseparate,(body_imported hrun).2.2 hseparate⟩

/-- With both packages at one path, the name of the enumeration's is lost. -/
theorem answer_unresolved :
    ∃ body imports, imports = answerImports [⟨"example.com/gen","pb"⟩] ∧
    bodyLines (answerBatch "example.com/gen") false answerDecls [] = (.ok body,imports) ∧
    Text.ofString "\tResult gen.EResult" ∈ body.1 ∧
    ¬ (answerBatch "example.com/gen").BodyCovered false answerDecls body.1 imports.Resolves := by
  obtain ⟨body,hbody⟩ : ∃ body,
      (bodyLines (answerBatch "example.com/gen") false answerDecls []).1 = .ok body :=
    Result.exists_of_isOk (by decide +kernel)
  have himports : (bodyLines (answerBatch "example.com/gen") false answerDecls []).2 =
      answerImports [⟨"example.com/gen","pb"⟩] := by decide +kernel
  have hline : ∀ body ∈ (bodyLines (answerBatch "example.com/gen") false answerDecls []).1.toOption,
      Text.ofString "\tResult gen.EResult" ∈ body.1 := by decide +kernel
  have hrefs : ∀ c ∈ answerSchema.classes, isKept (.class c) = true ∧
      ∀ plan ∈ ((Planner.new answerSchema false).layout c).1.toOption,
        ∃ r ∈ (answerBatch "example.com/gen").refs plan,
          (⟨"example.com/gen","gen"⟩ : Package) ∈ r.packages (answerBatch "example.com/gen") := by
    decide +kernel
  obtain ⟨c,hc⟩ : ∃ c, c ∈ answerSchema.classes :=
    List.exists_mem_of_ne_nil _ (by decide +kernel)
  refine ⟨body,_,rfl,Prod.ext hbody himports,hline body (by rw [hbody]; rfl),?_⟩
  rintro ⟨markers,bodies,-,-,-,hall⟩
  obtain ⟨hkept,hplans⟩ := hrefs c hc
  have hmem : Schema.Decl.class c ∈ answerDecls.filter isKept :=
    List.mem_filter.mpr ⟨List.mem_map_of_mem hc,hkept⟩
  obtain ⟨lines,-,plan,code,before,hplan,-,-,hcovered⟩ := exists_of_forall₂ hall.flip hmem
  have hlaid : ((Planner.new answerSchema false).layout c).1 = .ok plan := hplan
  obtain ⟨r,hr,hgen⟩ := hplans plan (by rw [hlaid]; rfl)
  exact absurd (hcovered.refs r hr _ hgen).1 (by decide +kernel)

end WireSchema.Artifact
