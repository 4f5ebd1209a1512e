import WireSchema.Artifact.Generate
import WireSchema.Proofs.Artifact.Render
set_option autoImplicit false

namespace WireSchema.Artifact

open Result

def Request.batch (r : Request) (schema : Schema) (internal : Bool) : Batch :=
  ⟨schema,r.scope,r.supportsGc,internal,r.base,r.options⟩

structure Parts where
  enums : List EnumCode
  classes : List ClassCode

/-- The parts of a schema: one for each declaration that has not been removed. -/
structure Parts.Rendered [Casing] (a : Parts) (r : Request) (schema : Schema) : Prop where
  enums : List.Forall₂ (fun e code => ∃ imports,
    (enumCode (r.batch schema false) (Plan.enumOnce schema e) imports).1 = .ok code)
    schema.enums a.enums
  classes : List.Forall₂ (fun c code => ∃ plan imports,
    ((Planner.new schema r.supportsGc).layout c).1 = .ok plan ∧
      (classCode (r.batch schema true) plan imports).1 = .ok code)
    (schema.classes.filter (!·.removed)) a.classes

def Batch.file (b : Batch) (imports : Imports) (body : Lines) : OutputFile :=
  ⟨some (filePath b),some (openingLines b imports ++ body).text⟩

/-- Files that hold the parts of a schema: the enumerations, and the classes behind the interfaces
that they implement. -/
def Parts.Fill (a : Parts) (r : Request) (schema : Schema) (files : List OutputFile) : Prop :=
  ∃ imports others markers before,
    (markerLines (r.batch schema true) before).1 = .ok markers ∧
    files = [(r.batch schema false).file imports (a.enums.map EnumCode.lines).flatten,
      (r.batch schema true).file others (markers ++ (a.classes.map ClassCode.lines).flatten)]

section Bodies

variable {b : Batch}

theorem enumLines_rendered [Casing] {e : Schema.Enum} {imports : Imports} {body : Lines × Bool}
    (h : (declLines b false (.enum e) imports).1 = .ok body) : ∃ code, body.1 = code.lines ∧
      (enumCode b (Plan.enumOnce b.schema e) imports).1 = .ok code := by
  obtain ⟨code,next,hcode,hbody⟩ := bind_rendered (during_rendered h)
  cases hbody
  exact ⟨code,rfl,hcode⟩

theorem classLines_rendered [Casing] {c : Schema.Class} {imports : Imports} {body : Lines × Bool}
    (h : (declLines b false (.class c) imports).1 = .ok body) : ∃ code, body.1 = code.lines ∧
      ∃ plan, ((Planner.new b.schema b.supportsGc).layout c).1 = .ok plan ∧
        (classCode b plan imports).1 = .ok code := by
  have hlaid := during_rendered h
  cases hlayout : (Planner.new b.schema b.supportsGc).layout c with
  | mk result planner =>
    rw [hlayout] at hlaid
    cases result with
    | error fault => cases hlaid
    | ok plan =>
      obtain ⟨code,next,hcode,hbody⟩ := bind_rendered hlaid
      cases hbody
      exact ⟨code,rfl,plan,rfl,hcode⟩

theorem gather {α β γ δ : Type} {R : α → γ → Prop} {f : β → δ} {g : γ → δ} {xs : List α}
    {ys : List β} (h : List.Forall₂ (fun x y => ∃ z, f y = g z ∧ R x z) xs ys) :
    ∃ zs, ys.map f = zs.map g ∧ List.Forall₂ R xs zs := by
  induction h with
  | nil => exact ⟨[],rfl,.nil⟩
  | cons hxy _ ih =>
    obtain ⟨z,heq,hz⟩ := hxy
    obtain ⟨zs,hmap,hzs⟩ := ih
    exact ⟨z :: zs,by simp [heq,hmap],.cons hz hzs⟩

/-- Enumerations are written out even if all of their values have been removed. -/
def isKept : Schema.Decl → Bool
  | .class c => !c.removed
  | .enum _ => true

/-- The body of a file holds the parts of its declarations, behind the interfaces if it is that of
the classes. -/
theorem bodyLines_rendered [Casing] {decls : List Schema.Decl} {imports : Imports}
    {body : Lines × Bool} (h : (bodyLines b false decls imports).1 = .ok body) : ∃ markers bodies,
      body.1 = markers ++ (bodies.map Prod.fst).flatten ∧
      (b.internal = false → markers = []) ∧
      (b.internal = true → ∃ before, (markerLines b before).1 = .ok markers) ∧
      List.Forall₂ (fun d body => ∃ before, (declLines b false d before).1 = .ok body)
        (decls.filter isKept) bodies := by
  have hrest : ∀ {markers : Lines} {next : Imports},
      ((do
        let bodies ← (decls.filter isKept).mapM (declLines b false)
        return (markers ++ (bodies.map Prod.fst).flatten,bodies.all Prod.snd) :
        Render (Lines × Bool)) next).1 = .ok body →
      ∃ bodies, body.1 = markers ++ (bodies.map Prod.fst).flatten ∧
        List.Forall₂ (fun d body => ∃ before, (declLines b false d before).1 = .ok body)
          (decls.filter isKept) bodies := by
    intro markers next h
    obtain ⟨bodies,last,hbodies,h⟩ := bind_rendered h
    cases h
    exact ⟨bodies,rfl,mapM_rendered hbodies⟩
  unfold bodyLines at h
  split at h
  · rename_i hinside
    obtain ⟨markers,next,hmarkers,h⟩ := bind_rendered h
    obtain ⟨bodies,hbody,hbodies⟩ := hrest h
    exact ⟨markers,bodies,hbody,by simp [hinside],fun _ => ⟨_,hmarkers⟩,hbodies⟩
  · rename_i hinside
    obtain ⟨markers,next,hmarkers,h⟩ := bind_rendered h
    cases hmarkers
    obtain ⟨bodies,hbody,hbodies⟩ := hrest h
    exact ⟨[],bodies,hbody,fun _ => rfl,fun hin => absurd hin hinside,hbodies⟩

theorem fileText_ok [Casing] {decls : List Schema.Decl} {text : Text}
    (h : fileText b false decls = .ok text) : ∃ imports body before,
      (bodyLines b false decls before).1 = .ok body ∧
        text = (openingLines b imports ++ body.1).text := by
  unfold fileText at h
  cases hbody : bodyLines b false decls [] with
  | mk result imports =>
    rw [hbody] at h
    cases result with
    | error fault => cases h
    | ok body =>
      cases h
      exact ⟨imports,body,[],by rw [hbody],rfl⟩

end Bodies

theorem compile_of_compileSources {sources : SourceSet} {schema : Schema}
    (h : compileSources sources = .ok schema) :
    ∃ path doc ws, Schema.compile path doc = .ok (schema,ws) := by
  unfold compileSources at h
  split at h
  · cases h
  · rename_i last _
    split at h
    · cases h
    · rename_i ws hcompile
      cases h
      unfold SourceSet.compile at hcompile
      split at hcompile
      · cases hcompile
      · rename_i doc _
        split at hcompile
        · cases hcompile
        · rename_i ws hschema
          cases hcompile
          exact ⟨last.path,doc,ws,hschema⟩

theorem parts_of_generate [Casing] {r : Request} {files : List OutputFile}
    (h : generate r false = .ok files) : ∃ schema a, compileSources r.sourceSet = .ok schema ∧
      Parts.Rendered a r schema ∧ a.Fill r schema files := by
  unfold generate at h
  split at h
  · cases h
  · simp only [generateFrom,outputFile,bind_eq_ok,pure_eq_ok,Except.ok.injEq] at h
    obtain ⟨schema,hschema,_,⟨enumText,henums,rfl⟩,_,⟨classText,hclasses,rfl⟩,rfl⟩ := h
    obtain ⟨imports,enumBody,_,hrun,rfl⟩ := fileText_ok henums
    obtain ⟨markers,enumBodies,henumBody,hnone,-,henumRuns⟩ := bodyLines_rendered hrun
    obtain ⟨others,classBody,_,hrun,rfl⟩ := fileText_ok hclasses
    obtain ⟨interfaces,classBodies,hclassBody,-,hmarkers,hclassRuns⟩ := bodyLines_rendered hrun
    obtain ⟨before,hmarkers⟩ := hmarkers rfl
    obtain rfl := hnone rfl
    simp only [List.filter_map,Function.comp_def,isKept,List.filter_true,
      List.forall₂_map_left_iff] at henumRuns hclassRuns
    have henumParts : List.Forall₂ (fun e body => ∃ code : EnumCode, body.1 = code.lines ∧
        ∃ imports, (enumCode (r.batch schema false) (Plan.enumOnce schema e) imports).1 = .ok code)
        schema.enums enumBodies := by
      refine henumRuns.imp fun e body hbody => ?_
      obtain ⟨next,hbody⟩ := hbody
      obtain ⟨code,hlines,hcode⟩ := enumLines_rendered hbody
      exact ⟨code,hlines,next,hcode⟩
    have hclassParts : List.Forall₂ (fun c body => ∃ code : ClassCode, body.1 = code.lines ∧
        ∃ plan imports, ((Planner.new schema r.supportsGc).layout c).1 = .ok plan ∧
          (classCode (r.batch schema true) plan imports).1 = .ok code)
        (schema.classes.filter (!·.removed)) classBodies := by
      refine hclassRuns.imp fun c body hbody => ?_
      obtain ⟨next,hbody⟩ := hbody
      obtain ⟨code,hlines,plan,hplan,hcode⟩ := classLines_rendered hbody
      exact ⟨code,hlines,plan,next,hplan,hcode⟩
    obtain ⟨enums,henumLines,henums⟩ := gather henumParts
    obtain ⟨classes,hclassLines,hclasses⟩ := gather hclassParts
    refine ⟨schema,⟨enums,classes⟩,hschema,⟨henums,hclasses⟩,?_⟩
    rw [henumBody,hclassBody,henumLines,hclassLines]
    exact ⟨imports,others,interfaces,before,hmarkers,rfl⟩

end WireSchema.Artifact
