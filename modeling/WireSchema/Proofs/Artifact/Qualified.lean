import WireSchema.Proofs.Artifact.Calls
import WireSchema.Proofs.Text.Path
set_option autoImplicit false

namespace WireSchema

namespace Text.Utf8

theorem points_ne_nil {t : Text} (h : t ≠ []) : points t ≠ [] := by
  cases t with
  | nil => exact absurd rfl h
  | cons c rest =>
    simp only [points,pieces,ne_eq,List.map_eq_nil_iff]
    split <;> simp

theorem encode_ne_nil (point : Nat) : encode point ≠ [] := by
  unfold encode
  split
  · simp
  · split
    · simp
    · split <;> simp

end Text.Utf8

namespace Artifact

inductive TypeRef where
  | number (p : Primitive)
  | enum (name : Text)
  | message (type : Text)
  | class (name : Text)

namespace Batch

def messageImport (b : Batch) : Text := b.option protoImportOption []

/-- The package that a qualified name of an enumeration or of one of its values stands for. -/
def enumPackages (b : Batch) : List Package :=
  if b.enumImport.isEmpty then [] else [(b.enumImport,importAlias b.enumImport)]

def messagePackages (b : Batch) : List Package :=
  if b.messageImport.isEmpty then [] else [(b.messageImport,"pb")]

end Batch

def qualifier (packages : List Package) : Text := packages.flatMap fun p => Text.cat [p.2,"."]

namespace TypeRef

def name : TypeRef → Text
  | .number p => numberType p
  | .enum name => name
  | .message type => (type.reverse.takeWhile (· != Text.byte '.')).reverse
  | .class name => name

def packages (b : Batch) : TypeRef → List Package
  | .enum _ => b.enumPackages
  | .message _ => b.messagePackages
  | _ => []

def text (b : Batch) (r : TypeRef) : Text := qualifier (r.packages b) ++ r.name

inductive Written (b : Batch) (r : TypeRef) : Text → Prop
  | plain : Written b r (r.text b)
  | pointer : Written b r (Text.cat ["*",r.text b])
  | slice : Written b r (Text.cat ["[]",r.text b])
  | array (count : Nat) : Written b r (Text.cat ["[",Text.ofNat count,"]",r.text b])

end TypeRef

/-- A value of an enumeration stands without a qualifier, or its qualifier stands for a package. -/
def Operand.Covered (b : Batch) (known : Package → Prop) : Operand → Prop
  | .enumValue front _ _ =>
    front = [] ∨ front = qualifier b.enumPackages ∧ ∀ p ∈ b.enumPackages, known p
  | _ => True

def Expr.Covered (b : Batch) (known : Package → Prop) (e : Expr) : Prop :=
  ∀ o ∈ e.operandList, o.Covered b known

def Expr.types : Expr → List Text
  | .conversion type _ => [type]
  | _ => []

def elementRef (f : PlanField) (carrier : Primitive) : TypeRef :=
  match f.head.enum with
  | some e => .enum e.name
  | none => .number carrier

def fieldRef (f : PlanField) : TypeRef :=
  match f.shape with
  | .scalar carrier => if f.head.transform.isAdapter then .number carrier else elementRef f carrier
  | .array carrier _ => elementRef f carrier
  | .slice carrier => elementRef f carrier
  | .external type => .message type
  | .nested plan => .class plan.name

/-- What the reading method refers to for a field of variable size. Numbers are read as they are
declared, also where the structure keeps them as plain numbers. -/
def readRef (f : PlanField) : TypeRef :=
  match f.shape with
  | .scalar carrier => elementRef f carrier
  | _ => fieldRef f

namespace Batch

def symbolRef? (b : Batch) : Reference → Option TypeRef
  | .weak name => (Primitive.ofName? name).map .number
  | .strong _ (some _) => none
  | .strong decl none => (b.schema.decl? decl).map fun
    | .enum e => .enum e.name
    | .class c => .class c.name

def tagRef (b : Batch) : Family → TypeRef
  | .gc => .number .uint
  | .primary =>
    let name := b.option tagTypeOption "EMsg"
    if (b.schema.enum? name).isSome then .enum name else .number .uint

def headerRefs (b : Batch) (plan : Plan.Class) : List TypeRef :=
  match plan.parent with
  | some parent =>
    if plan.role = .message ∧ parent.role = .header then [b.tagRef parent.family] else []
  | none => []

/-- All types that the source code of a class refers to. -/
def refs (b : Batch) (plan : Plan.Class) : List TypeRef := List.flatten [
  plan.fields.map fieldRef,
  plan.consts.filterMap fun p => b.symbolRef? p.type,
  b.headerRefs plan,
  [b.tagRef plan.family],
  plan.variableSized.filterMap fun f => f.head.lengthField.map fun holder => .number holder.carrier,
  plan.variableSized.map readRef]

def Tells (b : Batch) (plan : Plan.Class) (t : Text) : Prop := ∃ r ∈ b.refs plan, r.Written b t

end Batch

theorem importAlias_ne_nil (path : Text) : importAlias path ≠ [] := by
  unfold importAlias
  dsimp only
  split
  · decide
  · rw [ne_eq,List.flatMap_eq_nil_iff]
    intro hnone
    obtain ⟨point,hpoint⟩ :=
      List.exists_mem_of_ne_nil _ (Text.Utf8.points_ne_nil (Path.base_ne_nil path))
    exact Text.Utf8.encode_ne_nil _ (hnone point hpoint)

namespace Batch

def enumNickname (b : Batch) : Text :=
  if importAlias b.enumImport == Path.base b.enumImport then [] else importAlias b.enumImport

def enumImports (b : Batch) : Imports :=
  if b.enumImport.isEmpty then [] else [(b.enumImport,b.enumNickname)]

def messageImports (b : Batch) : Imports :=
  if b.messageImport.isEmpty then [] else [(b.messageImport,"pb")]

/-- The imports that a file may need. Only what names values needs one for that. -/
def importable (b : Batch) (named : Bool) : Imports :=
  ownPackages.map (fun p => (p.1,[])) ++ (if named then [(namingPackage.1,[])] else []) ++
    b.enumImports ++ b.messageImports

def Knows (b : Batch) (named : Bool) (paths : List Text) (p : Package) : Prop :=
  p ∈ (b.importable named).packages ∧ p.1 ∈ paths

theorem package_enumImport (b : Batch) :
    Imports.package (b.enumImport,b.enumNickname) = (b.enumImport,importAlias b.enumImport) := by
  simp only [Imports.package,enumNickname,beq_iff_eq]
  split
  · rename_i heq
    simp [heq]
  · simp [importAlias_ne_nil]

end Batch

section References

variable {b : Batch} {named : Bool}

theorem notes_import {x : Text × Text} (h : x ∈ b.importable named) :
    Notes (b.importable named) (useImport x.1 x.2) fun _ paths =>
      b.Knows named paths (Imports.package x) :=
  (Notes.useImport h).imp fun _ _ hpath => ⟨List.mem_map_of_mem h,hpath⟩

theorem notes_own {p : Package} (h : p ∈ ownPackages) :
    Notes (b.importable named) (useImport p.1 []) fun _ paths => b.Knows named paths p := by
  have hbase : ∀ p ∈ ownPackages, Imports.package (p.1,[]) = p := by decide
  refine (notes_import (x := (p.1,[])) ?_).imp fun _ _ hknown => hbase p h ▸ hknown
  simp only [Batch.importable,List.mem_append,List.mem_map]
  exact .inl (.inl (.inl ⟨p,h,rfl⟩))

theorem notes_runtime : Notes (b.importable named) useRuntime fun _ paths =>
    b.Knows named paths ⟨runtimePath,"steamd"⟩ :=
  notes_own (p := ⟨runtimePath,"steamd"⟩) (by decide)

theorem notes_naming (h : named = true) :
    Notes (b.importable named) (useImport "fmt" []) fun _ paths =>
      b.Knows named paths namingPackage :=
  notes_import (x := (namingPackage.1,[])) (by simp [Batch.importable,h])

theorem notes_useEnums : Notes (b.importable named) b.useEnums fun _ paths =>
    ∀ p ∈ b.enumPackages, b.Knows named paths p := by
  have heq : b.useEnums =
      if b.enumImport.isEmpty then pure () else useImport b.enumImport b.enumNickname := rfl
  rw [heq]
  unfold Batch.enumPackages
  cases hempty : b.enumImport.isEmpty with
  | true =>
    rw [if_pos rfl]
    exact .pure fun _ _ hp => nomatch hp
  | false =>
    rw [if_neg (by decide)]
    have hmem : (b.enumImport,b.enumNickname) ∈ b.importable named := by
      simp [Batch.importable,Batch.enumImports,hempty]
    refine (notes_import hmem).imp fun _ paths hknown => ?_
    rw [b.package_enumImport] at hknown
    simpa using hknown

def TypeRef.Told (b : Batch) (named : Bool) (r : TypeRef) (t : Text) (paths : List Text) : Prop :=
  t = r.text b ∧ ∀ p ∈ r.packages b, b.Knows named paths p

theorem enumQualifier_eq : b.enumQualifier = qualifier b.enumPackages := by
  unfold Batch.enumQualifier Batch.enumPackages
  split
  · rfl
  · simp [qualifier]

theorem notes_enumRef (name : Text) : Notes (b.importable named) (b.enumRef name)
    ((TypeRef.enum name).Told b named) :=
  notes_useEnums.bind fun _ => .pure fun _ hknown =>
    ⟨congrArg (· ++ name) enumQualifier_eq,hknown⟩

theorem told_number (p : Primitive) (paths : List Text) :
    (TypeRef.number p).Told b named (numberType p) paths :=
  ⟨rfl,by simp [TypeRef.packages]⟩

theorem notes_protoRef (type : Text) : Notes (b.importable named) (b.protoRef type)
    ((TypeRef.message type).Told b named) := by
  unfold Batch.protoRef
  dsimp only
  split
  · rename_i hempty
    have hnone : (TypeRef.message type).packages b = [] := by
      simp [TypeRef.packages,Batch.messagePackages,Batch.messageImport,hempty]
    refine .pure fun _ => ⟨?_,fun p hp => ?_⟩
    · rw [TypeRef.text,hnone]
      rfl
    · rw [hnone] at hp
      cases hp
  · rename_i hgiven
    have hmem : (b.messageImport,Text.ofString "pb") ∈ b.importable named := by
      simp [Batch.importable,Batch.messageImports,Batch.messageImport,hgiven]
    have hone : (TypeRef.message type).packages b = [(b.messageImport,Text.ofString "pb")] := by
      simp [TypeRef.packages,Batch.messagePackages,Batch.messageImport,hgiven]
    refine (notes_import hmem).bind fun _ => .pure fun paths hknown => ⟨?_,fun p hp => ?_⟩
    · have hmark : qualifier [(b.messageImport,Text.ofString "pb")] = "pb." := rfl
      rw [TypeRef.text,hone,hmark]
      simp [TypeRef.name]
    · rw [hone,List.mem_singleton] at hp
      exact hp ▸ hknown

theorem notes_tagType (family : Family) : Notes (b.importable named) (b.tagType family)
    ((b.tagRef family).Told b named) := by
  cases family with
  | gc => exact .pure fun paths => told_number .uint paths
  | primary =>
    simp only [Batch.tagType,Batch.tagRef]
    split
    · exact notes_enumRef _
    · exact .pure fun paths => told_number .uint paths

theorem notes_typeName (symbol : Reference) : Notes (b.importable named) (b.typeName symbol)
    fun t paths => ∃ r, b.symbolRef? symbol = some r ∧ r.Told b named t paths := by
  unfold Batch.typeName
  split
  · rename_i name
    split
    · rename_i p hp
      exact .pure fun paths => ⟨.number p,by simp [Batch.symbolRef?,hp],told_number p paths⟩
    · exact .throw
  · exact .throw
  · rename_i decl
    split
    · rename_i e hdecl
      exact (notes_enumRef e.name).imp fun t paths htold =>
        ⟨.enum e.name,by simp [Batch.symbolRef?,hdecl],htold⟩
    · rename_i c hdecl
      exact .pure fun paths => ⟨.class c.name,by simp [Batch.symbolRef?,hdecl],rfl,
        by simp [TypeRef.packages]⟩
    · exact .throw

end References

section Expressions

variable {b : Batch} {named : Bool}

theorem notes_operand (symbol : Reference) : Notes (b.importable named) (operand b symbol)
    fun o paths => o.Covered b (b.Knows named paths) := by
  unfold operand
  split
  · split
    · exact .pure fun _ => trivial
    · exact .pure fun _ => trivial
  · exact .throw
  · split
    · exact notes_useEnums.bind fun _ => .pure fun _ hknown => .inr ⟨enumQualifier_eq,hknown⟩
    · exact .pure fun _ => trivial
    · exact .throw

theorem notes_symbols (terms : List Reference) (operator : Text) :
    Notes (b.importable named) (symbols b terms operator)
      fun e paths => e.types = [] ∧ e.Covered b (b.Knows named paths) := by
  unfold symbols
  refine (Notes.mapM fun symbol _ => notes_operand symbol).bind fun operands => ?_
  exact .pure fun paths hall => ⟨rfl,fun o ho => (exists_of_forall₂ hall ho).elim fun _ h => h.2⟩

theorem covered_numeral (text : Text) (known : Package → Prop) :
    (Expr.one (.numeral text)).types = [] ∧ (Expr.one (.numeral text)).Covered b known := by
  refine ⟨rfl,fun o ho => ?_⟩
  obtain rfl : o = .numeral text := by simpa [Expr.one,Expr.operandList] using ho
  trivial

theorem notes_valueExpr (terms : List Reference) (type : Text) (storage : Primitive) :
    Notes (b.importable named) (valueExpr b terms type storage)
      fun e paths => e.types = [] ∧ e.Covered b (b.Knows named paths) := by
  unfold valueExpr
  split
  · exact notes_symbols terms "|"
  · split
    · exact .pure fun _ => covered_numeral _ _
    · exact .throw

theorem notes_enumValueExpr (plan : Plan.Enum) (v : Plan.EnumValue) :
    Notes (b.importable named) (enumValueExpr b plan v)
      fun e paths => e.types = [] ∧ e.Covered b (b.Knows named paths) := by
  unfold enumValueExpr
  split
  · exact .pure fun _ => covered_numeral _ _
  · split
    · exact notes_symbols _ "|"
    · split
      · split
        · exact .throw
        · refine .pure fun _ => ⟨rfl,fun o ho => ?_⟩
          obtain rfl := List.mem_singleton.mp ho
          exact .inl rfl
      · exact .throw

theorem notes_tagExpr (identity : Option Reference) (type : Text) :
    Notes (b.importable named) (tagExpr b identity type)
      fun e paths => (∀ t ∈ e.types, t = type) ∧ e.Covered b (b.Knows named paths) := by
  unfold tagExpr
  split
  · exact .throw
  · split
    · exact .pure fun _ => ⟨by simp [Expr.one,Expr.types],(covered_numeral _ _).2⟩
    · exact .throw
  · rename_i decl member
    split
    · split
      · exact .throw
      · refine .pure fun _ => ⟨by simp [Expr.types],fun o ho => ?_⟩
        obtain rfl := List.mem_singleton.mp ho
        trivial
    · refine (notes_operand _).bind fun ref => ?_
      have hconversion : ∀ known, ref.Covered b known →
          (∀ t ∈ (Expr.conversion type ref).types, t = type) ∧
            (Expr.conversion type ref).Covered b known := by
        intro known href
        refine ⟨by simp [Expr.types],fun o ho => ?_⟩
        obtain rfl := List.mem_singleton.mp ho
        exact href
      split
      · split
        · refine .pure fun paths href => ⟨by simp [Expr.one,Expr.types],fun o ho => ?_⟩
          obtain rfl := List.mem_singleton.mp ho
          exact href
        · exact .pure fun paths href => hconversion _ href
      · exact .pure fun paths href => hconversion _ href

end Expressions

end Artifact

end WireSchema
