import WireSchema.Artifact.Generate
import WireSchema.Proofs.Artifact.Noted
set_option autoImplicit false

namespace WireSchema.Artifact

def ownPackages : List Package := [⟨"bytes","bytes"⟩,⟨"encoding/binary","binary"⟩,
  ⟨runtimePath,"steamd"⟩,⟨protobufPath,"proto"⟩,⟨"io","io"⟩]

def namingPackage : Package := ⟨"fmt","fmt"⟩

/-- The packages whose names stand in front of a dot somewhere in some lines. -/
def calls (lines : Lines) : List Package :=
  (namingPackage :: ownPackages).filter fun p => lines.any (Text.occurs (p.2 ++ Text.ofString "."))

def Expr.bare : Expr := .operands [] []

def Slot.bare : Slot := ⟨[],[]⟩

def Setup.bare : Setup → Setup
  | .header _ => .header []
  | .tag conversion => .tag (conversion.map fun _ => [])
  | .message _ _ => .message .bare []
  | .record _ _ => .record .bare []
  | .value _ _ => .value .bare .bare

def TagMethod.bare : TagMethod → TagMethod
  | .tell _ _ => .tell [] .bare
  | .take _ field => .take [] (field.map fun (_,own) => (.bare,own.map fun _ => []))

def Accessor.bare (a : Accessor) : Accessor := { a with ident := [], slot := .bare }

def WriteStep.bare : WriteStep → WriteStep
  | .render _ shape => .render .bare shape
  | .setLength _ _ _ => .setLength .bare [] .bare
  | .header => .header
  | .fixed _ transform => .fixed .bare transform
  | .payload _ => .payload .bare

def ReadStep.bare : ReadStep → ReadStep
  | .header => .header
  | .fixed _ => .fixed .bare
  | .masked _ _ transform => .masked .bare [] transform
  | .record _ => .record .bare
  | .message _ length _ => .message .bare (length.map fun _ => .bare) []
  | .framedRecord _ length => .framedRecord .bare (length.map fun _ => .bare)
  | .numbers _ length _ => .numbers .bare (length.map fun _ => .bare) []

def ClassCode.bare (c : ClassCode) : ClassCode where
  name := []
  parent := c.parent.map fun _ => []
  marker := []
  fields := c.fields.map fun f => ⟨f.deprecated.map fun _ => [],[],[]⟩
  constants := c.constants.map fun k => ⟨k.deprecated.map fun _ => [],[],[],.bare⟩
  setup := c.setup.map Setup.bare
  tag := c.tag.map TagMethod.bare
  accessors := c.accessors.map Accessor.bare
  writes := c.writes.map WriteStep.bare
  reads := c.reads.map ReadStep.bare

def EnumCode.bare (e : EnumCode) : EnumCode where
  name := []
  table := []
  storage := e.storage
  flags := e.flags
  constants := e.constants.map fun k => ⟨k.deprecated.map fun _ => [],[],.bare⟩
  named := e.named.map fun _ => []

theorem not_mem_calls {p : Package} {lines : Lines} (h : calls lines = []) : p ∉ calls lines :=
  h ▸ List.not_mem_nil

theorem mem_calls_append {p : Package} {front back : Lines} :
    p ∈ calls (front ++ back) ↔ p ∈ calls front ∨ p ∈ calls back := by
  simp only [calls,List.mem_filter,List.any_append,Bool.or_eq_true]
  exact and_or_left

theorem mem_calls_flatMap {p : Package} {α : Type} {xs : List α} {lines : α → Lines} :
    p ∈ calls (xs.flatMap lines) ↔ ∃ x ∈ xs, p ∈ calls (lines x) := by
  induction xs with
  | nil => simp [calls]
  | cons x xs ih => rw [List.flatMap_cons,mem_calls_append,ih,List.exists_mem_cons_iff]

theorem calls_append_nil {front back : Lines} (hfront : calls front = [])
    (hback : calls back = []) : calls (front ++ back) = [] := by
  rw [List.eq_nil_iff_forall_not_mem]
  intro p hp
  rw [mem_calls_append,hfront,hback] at hp
  exact hp.elim List.not_mem_nil List.not_mem_nil

theorem calls_flatMap_nil {α : Type} {xs : List α} {lines : α → Lines}
    (h : ∀ x, calls (lines x) = []) : calls (xs.flatMap lines) = [] := by
  rw [List.eq_nil_iff_forall_not_mem]
  intro p hp
  obtain ⟨x,-,hx⟩ := mem_calls_flatMap.mp hp
  exact List.not_mem_nil (h x ▸ hx)

theorem calls_accessor (a : Accessor) : calls (a.bare.lines []) =
    if a.transform = .bool then [] else [⟨runtimePath,"steamd"⟩] := by
  obtain ⟨ident,slot,transform⟩ := a
  cases transform <;> rfl

def renderStep [Casing] (f : PlanField) : WriteStep := .render (slotOf f) (outline f.shape)

theorem calls_renderStep [Casing] (f : PlanField) : calls (renderStep f).bare.lines =
    match f.shape with
    | .external _ => [⟨protobufPath,"proto"⟩]
    | _ => [⟨runtimePath,"steamd"⟩] := by
  unfold renderStep
  cases f.shape <;> rfl

def payloadCalls (length : Option Slot) : List Package :=
  if length.isSome then [⟨runtimePath,"steamd"⟩] else [⟨"io","io"⟩]

def ReadStep.calls : ReadStep → List Package
  | .header => []
  | .fixed _ => [⟨"encoding/binary","binary"⟩,⟨runtimePath,"steamd"⟩]
  | .masked _ _ _ => [⟨"encoding/binary","binary"⟩,⟨runtimePath,"steamd"⟩]
  | .record _ => []
  | .message _ length _ => ⟨protobufPath,"proto"⟩ :: payloadCalls length
  | .framedRecord _ length => ⟨"bytes","bytes"⟩ :: payloadCalls length
  | .numbers _ length _ => ⟨runtimePath,"steamd"⟩ :: payloadCalls length

theorem calls_readStep (step : ReadStep) : calls step.bare.lines ⊆ step.calls := by
  cases step with
  | header => decide
  | fixed slot => exact List.Subset.refl _
  | masked slot type transform => cases transform <;> exact List.Subset.refl _
  | record slot => exact List.Subset.refl _
  | message slot length type => cases length <;> exact of_decide_eq_true rfl
  | framedRecord slot length => cases length <;> exact of_decide_eq_true rfl
  | numbers slot length element => cases length <;> exact of_decide_eq_true rfl

theorem calls_structLines (c : ClassCode) : calls c.bare.structLines = [] := by
  have hfields : calls (c.bare.fields.flatMap fun f => Lines.cat [
      deprecatedLine "\t" f.deprecated,
      [Text.cat ["\t",f.ident," ",f.type]]]) = [] := by
    simp only [ClassCode.bare,List.flatMap_map]
    refine calls_flatMap_nil fun f => ?_
    cases f.deprecated <;> rfl
  refine calls_append_nil rfl (calls_append_nil ?_ (calls_append_nil hfields rfl))
  cases hp : c.parent with
  | none => simp only [ClassCode.bare,hp]; rfl
  | some parent =>
    simp only [ClassCode.bare,hp,Option.map_some]
    cases c.fields <;> rfl

theorem calls_constantLines (c : ClassCode) : calls c.bare.constantLines = [] := by
  simp only [ClassCode.constantLines,ClassCode.bare,List.flatMap_map]
  refine calls_flatMap_nil fun k => ?_
  cases k.deprecated <;> rfl

theorem calls_constructorLines (c : ClassCode) : calls c.bare.constructorLines = [] := by
  have hsetup : calls (c.bare.setup.flatMap Setup.lines) = [] := by
    simp only [ClassCode.bare,List.flatMap_map]
    refine calls_flatMap_nil fun step => ?_
    cases step with
    | tag conversion => cases conversion <;> rfl
    | _ => rfl
  exact calls_append_nil rfl (calls_append_nil hsetup rfl)

theorem calls_tagLines (m : TagMethod) : calls (m.bare.lines []) = [] := by
  cases m with
  | tell type expr => rfl
  | take type field =>
    cases field with
    | none => rfl
    | some x =>
      obtain ⟨slot,own⟩ := x
      cases own <;> rfl

theorem calls_methodLines {c : ClassCode} {p : Package} {signature : Text} {steps : Lines}
    (hsignature : calls [Text.cat ["func (m *",c.bare.name,") ",signature," error \x7b"]] =
      [⟨"io","io"⟩])
    (h : p ∈ calls (c.bare.methodLines signature steps)) : p = ⟨"io","io"⟩ ∨ p ∈ calls steps := by
  rcases mem_calls_append.mp h with h | h
  · exact .inl (List.mem_singleton.mp (hsignature ▸ h))
  · exact (mem_calls_append.mp h).elim .inr fun h => absurd h (not_mem_calls rfl)

theorem calls_class {c : ClassCode} {p : Package} (h : p ∈ calls c.bare.lines) :
    p = ⟨"io","io"⟩ ∨ (∃ a ∈ c.accessors, p ∈ calls (a.bare.lines [])) ∨
      (∃ w ∈ c.writes, p ∈ calls w.bare.lines) ∨ ∃ r ∈ c.reads, p ∈ r.calls := by
  simp only [ClassCode.lines,Lines.cat,List.flatten_cons,List.flatten_nil,List.append_nil,
    mem_calls_append,calls_structLines,calls_constantLines,calls_constructorLines,
    List.not_mem_nil,false_or] at h
  rcases h with htag | ha | hw | hr
  · have htold : c.bare.tag = c.tag.map TagMethod.bare := rfl
    rw [htold] at htag
    cases hm : c.tag with
    | none =>
      rw [hm] at htag
      exact absurd htag (not_mem_calls rfl)
    | some m =>
      rw [hm] at htag
      exact absurd (calls_tagLines m ▸ htag) List.not_mem_nil
  · refine .inr (.inl ?_)
    simpa only [ClassCode.bare,List.flatMap_map,mem_calls_flatMap] using ha
  · refine (calls_methodLines rfl hw).imp_right fun hw => .inr (.inl ?_)
    simpa only [ClassCode.bare,List.flatMap_map,mem_calls_flatMap] using hw
  · refine (calls_methodLines rfl hr).imp_right fun hr => .inr (.inr ?_)
    simp only [ClassCode.bare,List.flatMap_map,mem_calls_flatMap] at hr
    obtain ⟨r,hmem,hcall⟩ := hr
    exact ⟨r,hmem,calls_readStep r hcall⟩

theorem calls_enum {e : EnumCode} {p : Package} (h : p ∈ calls e.bare.lines) :
    e.flags = false ∧ p = namingPackage := by
  have hconstants : calls e.bare.constantLines = [] := by
    unfold EnumCode.constantLines
    split
    · rfl
    · refine calls_append_nil rfl (calls_append_nil ?_ rfl)
      simp only [EnumCode.bare,List.flatMap_map]
      refine calls_flatMap_nil fun k => ?_
      cases k.deprecated <;> rfl
  have hnamed : calls (e.bare.named.map fun value =>
      Text.cat ["\t",e.bare.name,"_",value,": ",Text.Quoted.quote value,","]) = [] := by
    change calls ((e.named.map fun _ => []).map _) = []
    have hentry : calls [Text.cat ["\t",[],"_",[],": ",Text.Quoted.quote [],","]] = [] := by
      decide +kernel
    rw [List.map_map,List.map_eq_flatMap]
    exact calls_flatMap_nil fun _ => hentry
  have htype : calls [Text.cat ["type ",e.bare.name," ",numberType e.bare.storage],""] = [] := by
    change calls [Text.cat ["type ",[]," ",numberType e.storage],""] = []
    cases e.storage <;> rfl
  have hnames : ∀ p ∈ calls e.bare.nameLines, p = namingPackage := by
    intro p hp
    simp only [EnumCode.nameLines,Lines.cat,List.flatten_cons,List.flatten_nil,List.append_nil,
      mem_calls_append,hnamed,List.not_mem_nil,false_or] at hp
    rcases hp with hp | hp
    · exact absurd hp (not_mem_calls rfl)
    · change p ∈ calls ["\x7d","",_,_,_,_,Text.cat ["\treturn fmt.Sprintf(\"",[],"(%d)\", ",
        if e.storage.unsigned then "uint64" else "int64","(v))"],_,_] at hp
      cases hu : e.storage.unsigned <;> rw [hu] at hp <;> exact List.mem_singleton.mp hp
  simp only [EnumCode.lines,Lines.cat,List.flatten_cons,List.flatten_nil,List.append_nil,
    mem_calls_append,hconstants,htype,List.not_mem_nil,false_or] at h
  have hflags : e.bare.flags = e.flags := rfl
  rw [hflags] at h
  cases hkind : e.flags with
  | true =>
    rw [hkind] at h
    exact h.elim (fun h => absurd h (not_mem_calls rfl)) fun h => absurd h (not_mem_calls rfl)
  | false =>
    rw [hkind] at h
    exact ⟨rfl,h.elim (fun h => absurd h (not_mem_calls rfl)) (hnames p)⟩

end WireSchema.Artifact
