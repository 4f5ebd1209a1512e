import WireSchema.Proofs.Plan.Layout
import WireSchema.Record.Codec
set_option autoImplicit false

namespace WireSchema.Codec

variable {c : Codec} {name : Text} {plan : Plan.Class}

theorem decode_fst (c : Codec) (className input : Text) :
    (c.decode className input).1 = Record.whole ((c.plan className).1.bind fun plan =>
      Record.decode (c.plan className).2.registry plan input) := rfl

theorem plan_eq {decl : Schema.Class}
    (h : (c.planner.schema.class? name).filter (!·.removed) = some decl) :
    c.plan name = ((c.planner.layout decl).1.mapError .plan,
      { c with planner := (c.planner.layout decl).2 }) := by
  simp [plan,h]

theorem class_of_plan (h : (c.plan name).1 = .ok plan) :
    ∃ decl, (c.planner.schema.class? name).filter (!·.removed) = some decl ∧
      (c.planner.layout decl).1 = .ok plan := by
  cases hdecl : (c.planner.schema.class? name).filter (!·.removed) with
  | none => simp [Codec.plan,hdecl] at h
  | some decl =>
    rw [plan_eq hdecl] at h
    exact ⟨decl,rfl,by simpa using h⟩

theorem plan_error {fault : Record.Fault} (h : (c.plan name).1 = .error fault) :
    fault = .unknownClass name ∨ ∃ cause, fault = .plan cause := by
  cases hdecl : (c.planner.schema.class? name).filter (!·.removed) with
  | none =>
    simp only [Codec.plan,hdecl,Except.error.injEq] at h
    exact .inl h.symm
  | some decl =>
    rw [plan_eq hdecl] at h
    obtain ⟨cause,-,rfl⟩ := Result.mapError_eq_error.mp h
    exact .inr ⟨cause,rfl⟩

@[simp] theorem registry_plan (c : Codec) (name : Text) :
    (c.plan name).2.registry = c.registry := by
  unfold Codec.plan
  split <;> rfl

theorem encode_of_plan {r : Record} (h : (c.plan r.className).1 = .ok plan) :
    c.encode r = ((Record.encode c.registry plan r).1,(Record.encode c.registry plan r).2,
      (c.plan r.className).2) := by
  unfold Codec.encode
  cases hp : c.plan r.className with
  | mk result next =>
    have hreg := registry_plan c r.className
    rw [hp] at h hreg
    simp only at h hreg
    rw [h]
    simp only [hreg]

theorem decode_of_plan (h : (c.plan name).1 = .ok plan) (input : Text) :
    c.decode name input = (Record.whole (Record.decode c.registry plan input),(c.plan name).2) := by
  have hfst := decode_fst c name input
  rw [h,registry_plan] at hfst
  exact Prod.ext hfst rfl

theorem plan_forall {schema : Schema} (hs : schema.Sound) {supportsGc : Bool}
    (hc : c.planner.Sound schema supportsGc) (h : (c.plan name).1 = .ok plan) :
    plan.name = name ∧ plan.Forall (Plan.Laid schema supportsGc) := by
  obtain ⟨decl,hdecl,hlayout⟩ := class_of_plan h
  obtain ⟨hdecl,-⟩ := Option.filter_eq_some_iff.mp hdecl
  rw [hc.schema] at hdecl
  obtain ⟨-,hplan⟩ := hc.layout hs (Schema.mem_classes_of_class? hdecl)
  obtain ⟨heq,hforall⟩ := hplan plan hlayout
  refine ⟨?_,hforall⟩
  obtain ⟨d,hfind,hd⟩ := Option.bind_eq_some_iff.mp hdecl
  have hname := List.find?_some hfind
  cases d with
  | enum e => cases hd
  | «class» _ =>
    cases hd
    rw [Plan.Class.name,heq]
    simpa [Schema.Decl.name] using hname

theorem plan_again (h : (c.plan name).1 = .ok plan) :
    (c.plan name).2.plan name = (.ok plan,(c.plan name).2) := by
  obtain ⟨decl,hdecl,hlayout⟩ := class_of_plan h
  rw [plan_eq hdecl]
  refine (plan_eq (c := { c with planner := (c.planner.layout decl).2 }) hdecl).trans ?_
  rw [Planner.layout_layout hlayout]
  rfl

def property (flag : Option Flag) (option : Option Text) (type name : Text) : Document.Property :=
  ⟨⟨0,0⟩,⟨name,0⟩,⟨type,0⟩,flag,option.map fun text => ⟨text,0⟩,[],none,none⟩

/-- A message with a header, a masked tag, a flag, and a payload whose length stands behind it. -/
def helloDocument : Document where
  span := ⟨0,0⟩
  directives := []
  decls := [
    .class ⟨⟨0,0⟩,⟨"Hdr",0⟩,none,none,none,[
      property (some .protoMask) none "int" "msg",
      property none none "uint" "seq"]⟩,
    .class ⟨⟨0,0⟩,⟨"MsgHello",0⟩,none,some ⟨"Hdr",0⟩,none,[
      property (some .bool) none "byte" "urgent",
      property (some .proto) (some "bodyLen") "Body" "body",
      property none none "ushort" "bodyLen"]⟩]

def helloSchema : Schema :=
  ((Schema.compile [] helloDocument).toOption.map Prod.fst).getD default

theorem compile_hello : ∃ ws, Schema.compile [] helloDocument = .ok (helloSchema,ws) := by
  obtain ⟨result,h⟩ : ∃ result, Schema.compile [] helloDocument = .ok result :=
    Result.exists_of_isOk (by decide +kernel)
  exact ⟨result.2,by simp [helloSchema,h,Except.toOption]⟩

theorem plan_hello : ∃ plan, ((new helloSchema true .empty).plan "MsgHello").1 = .ok plan :=
  Result.exists_of_isOk (by decide +kernel)

def helloBytes : Text := [7,0,0,0,1,0,0,0,5,2,0,0xAA,0xBB]

def helloRecord : Record :=
  ((new helloSchema true .empty).decode "MsgHello" helloBytes).1.toOption.getD default

theorem decode_hello : ((new helloSchema true .empty).decode "MsgHello" helloBytes).1 =
    .ok helloRecord := by
  obtain ⟨r,h⟩ : ∃ r, ((new helloSchema true .empty).decode "MsgHello" helloBytes).1 = .ok r :=
    Result.exists_of_isOk (by decide +kernel)
  simp [helloRecord,h,Except.toOption]

end WireSchema.Codec
