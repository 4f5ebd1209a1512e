import WireSchema.Proofs.Artifact.Reading
import WireSchema.Proofs.Artifact.Walk
set_option autoImplicit false

/-!
The lines of a class, part by part. As long as the names of its fields are made of the bytes of
words, each part declares what it says: the structure its fields, each method itself, and a step of
writing or reading the variable of its payload.
-/

namespace WireSchema

open Token (isName isNameByte)

namespace Text

theorem mem_of_mem_splitOn {sep c : UInt8} {t piece : Text} (h : piece ∈ splitOn sep t)
    (hc : c ∈ piece) : c ∈ t := by
  induction t generalizing piece with
  | nil =>
    obtain rfl : piece = [] := by simpa [splitOn] using h
    cases hc
  | cons first rest ih =>
    simp only [splitOn] at h
    split at h
    · rcases List.mem_cons.mp h with rfl | h
      · cases hc
      · exact List.mem_cons_of_mem _ (ih h hc)
    · split at h
      · obtain rfl : piece = [first] := by simpa using h
        exact List.mem_cons.mpr (.inl (List.mem_singleton.mp hc))
      · rename_i head pieces hpieces
        rcases List.mem_cons.mp h with rfl | h
        · rcases List.mem_cons.mp hc with rfl | hc
          · exact List.mem_cons_self
          · exact List.mem_cons_of_mem _ (ih (hpieces ▸ List.mem_cons_self) hc)
        · exact List.mem_cons_of_mem _ (ih (hpieces ▸ List.mem_cons_of_mem _ h) hc)

theorem isUpper_sub {c : UInt8} (h : isLower c = true) : isUpper (c - 32) = true := by
  have hbounds : 97 ≤ c.toNat ∧ c.toNat ≤ 122 := by
    simpa [isLower,UInt8.le_iff_toNat_le,byte] using h
  have hsub : (c - 32).toNat = c.toNat - 32 :=
    UInt8.toNat_sub_of_le c 32 (UInt8.le_iff_toNat_le.mpr (by simp; omega))
  simp [isUpper,UInt8.le_iff_toNat_le,byte,hsub]
  omega

theorem isLower_add {c : UInt8} (h : isUpper c = true) : isLower (c + 32) = true := by
  have hbounds : 65 ≤ c.toNat ∧ c.toNat ≤ 90 := by
    simpa [isUpper,UInt8.le_iff_toNat_le,byte] using h
  simp [isLower,UInt8.le_iff_toNat_le,byte,UInt8.toNat_add]
  omega

theorem isNameByte_upper {c : UInt8} (h : isNameByte c = true) : isNameByte (upper c) = true := by
  unfold upper
  split
  · rename_i hlower
    exact Token.isNameByte_of_start (by simp [Token.isWordStart,isLetter,isUpper_sub hlower])
  · exact h

theorem isNameByte_lower {c : UInt8} (h : isNameByte c = true) : isNameByte (lower c) = true := by
  unfold lower
  split
  · rename_i hupper
    exact Token.isNameByte_of_start (by simp [Token.isWordStart,isLetter,isLower_add hupper])
  · exact h

end Text

namespace Artifact

theorem Casing.isName_word {w : Text} (h : isName w = true) : isName (word w) = true := by
  have hcapitals : isName (w.map Text.upper) = true := by
    rw [isName,List.all_map]
    exact List.all_eq_true.mpr fun c hc => Text.isNameByte_upper (List.all_eq_true.mp h c hc)
  unfold word
  split
  · decide
  dsimp only
  split
  · exact hcapitals
  · cases w with
    | nil => rfl
    | cons first rest =>
      rw [isName,List.all_cons,Bool.and_eq_true] at h ⊢
      exact ⟨Text.isNameByte_upper h.1,h.2⟩

/-- Exported names are made of the bytes of words if the names are that they stand for. -/
def Casing.KeepsWords [Casing] : Prop := ∀ name, isName name = true → isName (camel name) = true

theorem Casing.standard_keepsWords : Casing.standard.KeepsWords := by
  intro name h
  refine List.all_eq_true.mpr fun c hc => ?_
  obtain ⟨w,hw,hcw⟩ := List.mem_flatten.mp hc
  obtain ⟨piece,hpiece,rfl⟩ := List.mem_map.mp hw
  have hname : isName piece = true := List.all_eq_true.mpr fun d hd =>
    List.all_eq_true.mp h d (Text.mem_of_mem_splitOn hpiece hd)
  exact List.all_eq_true.mp (isName_word hname) c hcw

section Names

variable [Casing] (hcasing : Casing.KeepsWords)
include hcasing

theorem isName_exported {name : Text} (h : isName name = true) : isName (exported name) = true :=
  hcasing name h

theorem isName_unexported {name : Text} (h : isName name = true) :
    isName (unexported name) = true := by
  have hexported := isName_exported hcasing h
  unfold unexported
  cases he : exported name with
  | nil => rfl
  | cons first rest =>
    rw [he,isName,List.all_cons,Bool.and_eq_true] at hexported
    rw [isName,List.all_cons,Bool.and_eq_true]
    exact ⟨Text.isNameByte_lower hexported.1,hexported.2⟩

theorem isName_fieldIdent {f : PlanField} (h : isName f.name = true) :
    isName (fieldIdent f) = true := by
  unfold fieldIdent
  split
  · exact isName_unexported hcasing h
  · exact isName_exported hcasing h

end Names

theorem isName_append {a b : Text} (ha : isName a = true) (hb : isName b = true) :
    isName (a ++ b) = true := by
  rw [isName,List.all_append,Bool.and_eq_true]
  exact ⟨ha,hb⟩

structure Slot.Worded (s : Slot) : Prop where
  ref : isName s.ref = true
  payload : isName s.payload = true

theorem slotOf_worded [Casing] (hcasing : Casing.KeepsWords) {f : PlanField}
    (h : isName f.name = true) : (slotOf f).Worded where
  ref := isName_append (by decide) (isName_append (isName_fieldIdent hcasing h) rfl)
  payload := isName_append (by decide) (isName_append (isName_exported hcasing h) rfl)

def WriteStep.payload? : WriteStep → Option Text
  | .render slot _ => some slot.payload
  | _ => none

def ReadStep.payload? : ReadStep → Option Text
  | .message slot _ _ => some slot.payload
  | .framedRecord slot _ => some slot.payload
  | .numbers slot _ _ => some slot.payload
  | _ => none

def Setup.slot? : Setup → Option Slot
  | .header _ => none
  | .tag _ => none
  | .message slot _ => some slot
  | .record slot _ => some slot
  | .value slot _ => some slot

def TagMethod.slot? : TagMethod → Option Slot
  | .tell _ _ => none
  | .take _ field => field.map Prod.fst

def TagMethod.ident : TagMethod → Text
  | .tell _ _ => "GetEMsg"
  | .take _ _ => "SetEMsg"

def Accessor.idents (a : Accessor) : List Text := [a.ident,Text.cat ["Set",a.ident]]

section Parts

variable {name : Text}

theorem Setup.statements {s : Setup} (h : ∀ slot, s.slot? = some slot → slot.Worded) :
    Statements s.lines [] := by
  cases s with
  | header parent => exact .quiet .nil rfl rfl
  | tag conversion =>
    cases conversion with
    | none => exact .quiet .nil rfl rfl
    | some type => exact .quiet .nil rfl rfl
  | message slot type => exact .quiet .nil rfl (quiet_named (h slot rfl).ref rfl rfl)
  | record slot className => exact .quiet .nil rfl (quiet_named (h slot rfl).ref rfl rfl)
  | value slot expr => exact .quiet .nil rfl (quiet_named (h slot rfl).ref rfl rfl)

theorem WriteStep.statements {s : WriteStep} (h : ∀ v, s.payload? = some v → isName v = true) :
    Statements s.lines s.payload?.toList := by
  cases s with
  | render slot shape => exact statements_filling (h _ rfl) _
  | setLength holder type slot => exact statements_failing _
  | header => exact statements_failing _
  | fixed slot transform => exact statements_failing _
  | payload slot => exact statements_failing _

theorem ReadStep.statements {s : ReadStep}
    (h : ∀ slot, s.segment = .field slot → slot.Worded) :
    Statements s.lines s.payload?.toList := by
  cases s with
  | header => exact statements_failing _
  | fixed slot => exact statements_failing _
  | masked slot type transform =>
    exact .quiet (.quiet (.quiet (.quiet (.quiet (.quiet (.quiet .nil rfl rfl) rfl rfl) rfl rfl)
      rfl rfl) rfl rfl) rfl rfl) rfl rfl
  | record slot => exact statements_failing _
  | message slot length type =>
    have hslot := h slot rfl
    exact (statements_filling hslot.payload _).append
      (.quiet (statements_failing _) rfl (quiet_named hslot.ref rfl rfl))
  | framedRecord slot length =>
    exact (statements_filling (h slot rfl).payload _).append (statements_failing _)
  | numbers slot length element =>
    exact (statements_filling (h slot rfl).payload _).append (statements_failing _)

theorem TagMethod.readsAs {tag : TagMethod} (h : ∀ slot, tag.slot? = some slot → slot.Worded) :
    ReadsAs name (tag.lines name) [tag.ident] [[]] := by
  cases tag with
  | tell type expr =>
    have hmethod : methodAt? name (Text.cat ["func (m *",name,") GetEMsg() ",type," \x7b"]) =
        some (Text.ofString "GetEMsg") := methodAt?_named (by decide) rfl rfl
    have hbody : Statements [Text.cat ["\treturn ",expr.text]] [] := .quiet .nil rfl rfl
    exact hbody.function rfl hmethod
  | take type field =>
    have hmethod : methodAt? name (Text.cat ["func (m *",name,") SetEMsg(msg ",type,") \x7b"]) =
        some (Text.ofString "SetEMsg") := methodAt?_named (by decide) rfl rfl
    cases field with
    | none => exact Statements.nil.function rfl hmethod
    | some pair =>
      obtain ⟨slot,own⟩ := pair
      have hslot := h slot rfl
      cases own with
      | none =>
        have hbody : Statements [Text.cat ["\t",slot.ref," = msg"]] [] :=
          .quiet .nil rfl (quiet_named hslot.ref rfl rfl)
        exact hbody.function rfl hmethod
      | some own =>
        have hbody : Statements [Text.cat ["\t",slot.ref," = ",own,"(msg)"]] [] :=
          .quiet .nil rfl (quiet_named hslot.ref rfl rfl)
        exact hbody.function rfl hmethod

theorem Accessor.readsAs {a : Accessor} (hident : isName a.ident = true) (hslot : a.slot.Worded) :
    ReadsAs name (a.lines name) a.idents [[],[]] := by
  have hset : isName (Text.ofString "Set" ++ a.ident) = true := isName_append (by decide) hident
  have hgetter : ∀ type, methodAt? name (Text.cat ["func (m *",name,") ",a.ident,"() ",type,
      " \x7b"]) = some a.ident := fun _ => methodAt?_named hident rfl rfl
  have hsetter : ∀ type, methodAt? name (Text.cat ["func (m *",name,") Set",a.ident,"(v ",type,
      ") \x7b"]) = some (Text.ofString "Set" ++ a.ident) := fun _ => methodAt?_named hset rfl rfl
  have hidents : a.idents = [a.ident,Text.ofString "Set" ++ a.ident] := by simp [idents]
  rw [hidents]
  unfold Accessor.lines
  dsimp only
  split
  · have hget : Statements [Text.cat ["\treturn ",a.slot.ref," != 0"]] [] := .quiet .nil rfl rfl
    have hput : Statements ["\tif v \x7b",Text.cat ["\t\t",a.slot.ref," = 1"],"\t\x7d else \x7b",
        Text.cat ["\t\t",a.slot.ref," = 0"],"\t\x7d"] [] :=
      .quiet (.quiet (.quiet (.quiet (.quiet .nil rfl rfl) rfl rfl) rfl rfl) rfl rfl) rfl rfl
    exact (hget.function rfl (hgetter _)).append (hput.function rfl (hsetter _))
  · have hget : ∀ type, Statements [Text.cat ["\treturn ",type,"(",a.slot.ref,")"]] [] :=
      fun _ => .quiet .nil rfl rfl
    have hput : Statements [Text.cat ["\t",a.slot.ref," = v.ToUint64()"]] [] :=
      .quiet .nil rfl (quiet_named hslot.ref rfl rfl)
    exact ((hget _).function rfl (hgetter _)).append (hput.function rfl (hsetter _))

end Parts

theorem mem_deprecatedLine {indent l : Text} {deprecated : Option Text}
    (hl : l ∈ deprecatedLine indent deprecated) :
    ∃ reason, l = Text.cat [indent,"// Deprecated: ",reason] := by
  cases deprecated with
  | none => cases hl
  | some reason => exact ⟨reason,List.mem_singleton.mp hl⟩

/-- Whether the names of fields in the code of a class are made of the bytes of words. -/
structure ClassCode.Worded (c : ClassCode) : Prop where
  fields : ∀ f ∈ c.fields, isName f.ident = true
  setup : ∀ s ∈ c.setup, ∀ slot, s.slot? = some slot → slot.Worded
  tag : ∀ tag ∈ c.tag, ∀ slot, tag.slot? = some slot → slot.Worded
  accessors : ∀ a ∈ c.accessors, isName a.ident = true ∧ a.slot.Worded
  writes : ∀ s ∈ c.writes, ∀ v, s.payload? = some v → isName v = true
  reads : ∀ s ∈ c.reads, ∀ slot, s.segment = .field slot → slot.Worded

namespace ClassCode

variable (c : ClassCode)

def structIdents : List Text :=
  (if c.parent.isSome then [Text.ofString "Header"] else []) ++ c.fields.map StructField.ident

def methods : List Text :=
  c.tag.toList.map TagMethod.ident ++ (c.accessors.flatMap Accessor.idents ++ methodIdents)

/-- The variables of payloads, function after function: only the last two of them have some. -/
def locals : List (List Text) :=
  [] :: (c.tag.toList.map (fun _ => []) ++ (c.accessors.flatMap (fun _ => [[],[]]) ++
    [c.writes.filterMap WriteStep.payload?,c.reads.filterMap ReadStep.payload?]))

def structBody : Lines :=
  (match c.parent with
    | none => []
    | some parent =>
      Text.cat ["\tHeader ",parent] :: if c.fields.isEmpty then [] else [Text.ofString ""]) ++
    c.fields.flatMap fun f =>
      deprecatedLine "\t" f.deprecated ++ [Text.cat ["\t",f.ident," ",f.type]]

def markerLines : Lines := ["",Text.cat ["var _ ",c.marker," = (*",c.name,")(nil)"],""]

variable {c}

theorem structLines_eq : c.structLines = Text.cat ["type ",c.name," struct \x7b"] ::
    (c.structBody ++ Text.ofString "\x7d" :: c.markerLines) := by
  unfold structLines structBody markerLines
  cases c.parent <;> simp [Lines.cat]

theorem structBody_indented {l : Text} (hl : l ∈ c.structBody) : Indented l ∨ l = [] := by
  rcases List.mem_append.mp hl with hl | hl
  · cases hparent : c.parent with
    | none =>
      rw [hparent] at hl
      cases hl
    | some parent =>
      rw [hparent] at hl
      rcases List.mem_cons.mp hl with rfl | hl
      · exact .inl rfl
      · split at hl
        · cases hl
        · exact .inr (List.mem_singleton.mp hl)
  · obtain ⟨f,-,hl⟩ := List.mem_flatMap.mp hl
    rcases List.mem_append.mp hl with hl | hl
    · obtain ⟨reason,rfl⟩ := mem_deprecatedLine hl
      exact .inl rfl
    · rw [List.mem_singleton.mp hl]
      exact .inl rfl

theorem readsAs_struct : ReadsAs c.name c.structLines [] [] := by
  have hend : ∀ l ∈ Text.ofString "\x7d" :: c.markerLines, isSignature l = false := by
    simp only [markerLines,List.forall_mem_cons]
    exact ⟨rfl,rfl,rfl,rfl,by simp⟩
  rw [structLines_eq]
  refine .plain (List.forall_mem_cons.mpr ⟨rfl,fun l hl => ?_⟩)
  rcases List.mem_append.mp hl with hl | hl
  · rcases structBody_indented hl with hl | rfl
    · exact hl.plain
    · rfl
  · exact hend l hl

theorem readsAs_constants : ReadsAs c.name c.constantLines [] [] := by
  refine .plain fun l hl => ?_
  obtain ⟨k,-,hl⟩ := List.mem_flatMap.mp hl
  rcases List.mem_append.mp hl with hl | hl
  · obtain ⟨reason,rfl⟩ := mem_deprecatedLine hl
    rfl
  · rcases List.mem_cons.mp hl with rfl | hl
    · rfl
    · rw [List.mem_singleton.mp hl]
      rfl

theorem Worded.constructor (h : c.Worded) : ReadsAs c.name c.constructorLines [] [[]] := by
  have hset : Statements (c.setup.flatMap Setup.lines) [] := by
    have hsteps : Statements (c.setup.flatMap Setup.lines) (c.setup.filterMap fun _ => none) :=
      .flatMap fun s hs => Setup.statements (h.setup s hs)
    simpa using hsteps
  have hreturn : Statements ["\treturn m"] [] := .quiet .nil rfl rfl
  have hbody : Statements (Text.cat ["\tm := &",c.name,"\x7b\x7d"] ::
      (c.setup.flatMap Setup.lines ++ [Text.ofString "\treturn m"])) [] :=
    .quiet (hset.append hreturn) rfl rfl
  have hnote : ReadsAs c.name [Text.cat ["// New",c.name," returns a ",c.name,
      " with every declared default applied."]] [] [] :=
    .plain fun l hl => by rw [List.mem_singleton.mp hl]; rfl
  have hmethod : methodAt? c.name (Text.cat ["func New",c.name,"() *",c.name," \x7b"]) = none := rfl
  have hlines := hnote.append (hbody.function rfl hmethod)
  simpa [constructorLines,block,blockEnd,Lines.cat] using hlines

theorem readsAs_method {signature ident : Text} {steps : Lines} {vars : List Text}
    (hsteps : Statements steps vars) (hmethod : methodAt? c.name
      (Text.cat ["func (m *",c.name,") ",signature," error \x7b"]) = some ident) :
    ReadsAs c.name (c.methodLines signature steps) [ident] [vars] := by
  have hreturn : Statements [Text.ofString "\treturn nil"] [] := .quiet .nil rfl rfl
  have hfunction := (hsteps.append hreturn).function rfl hmethod
  simpa [methodLines,block,blockEnd,Lines.cat] using hfunction

theorem Worded.readsAs (h : c.Worded) : ReadsAs c.name c.lines c.methods c.locals := by
  have hwrites : Statements (c.writes.flatMap WriteStep.lines)
      (c.writes.filterMap WriteStep.payload?) :=
    .flatMap fun s hs => WriteStep.statements (h.writes s hs)
  have hreads : Statements (c.reads.flatMap ReadStep.lines)
      (c.reads.filterMap ReadStep.payload?) :=
    .flatMap fun s hs => ReadStep.statements (h.reads s hs)
  have hwrite : ReadsAs c.name (c.methodLines "Serialize(w io.Writer)" _)
      [Text.ofString "Serialize"] _ :=
    readsAs_method hwrites (methodAt?_named (by decide) rfl rfl)
  have hread : ReadsAs c.name (c.methodLines "Deserialize(r io.Reader)" _)
      [Text.ofString "Deserialize"] _ :=
    readsAs_method hreads (methodAt?_named (by decide) rfl rfl)
  have haccessors : ReadsAs c.name (c.accessors.flatMap (Accessor.lines c.name)) _ _ :=
    .flatMap fun a ha => Accessor.readsAs (h.accessors a ha).1 (h.accessors a ha).2
  have htag : ReadsAs c.name (c.tag.toList.flatMap (TagMethod.lines c.name)) _ _ :=
    .flatMap fun tag htag => TagMethod.readsAs (h.tag tag (by simpa using htag))
  have hlines := readsAs_struct.append (readsAs_constants.append (h.constructor.append
    (htag.append (haccessors.append (hwrite.append hread)))))
  have htext : c.lines = c.structLines ++ (c.constantLines ++ (c.constructorLines ++
      (c.tag.toList.flatMap (TagMethod.lines c.name) ++
        (c.accessors.flatMap (Accessor.lines c.name) ++
          (c.methodLines "Serialize(w io.Writer)" (c.writes.flatMap WriteStep.lines) ++
            c.methodLines "Deserialize(r io.Reader)" (c.reads.flatMap ReadStep.lines)))))) := by
    unfold lines
    cases c.tag <;> simp [Lines.cat]
  rw [htext]
  simpa [methods,methodIdents,locals,← List.map_eq_flatMap] using hlines

theorem Worded.fieldAt?_structBody (h : c.Worded) :
    c.structBody.filterMap fieldAt? = c.structIdents := by
  have hfield : ∀ f ∈ c.fields, (deprecatedLine "\t" f.deprecated ++
      [Text.cat ["\t",f.ident," ",f.type]]).filterMap fieldAt? = [f.ident] := by
    intro f hf
    have hline : fieldAt? (Text.cat ["\t",f.ident," ",f.type]) = some f.ident :=
      fieldAt?_named (h.fields f hf) rfl
    have hdeprecated : (deprecatedLine "\t" f.deprecated).filterMap fieldAt? = [] := by
      cases f.deprecated <;> rfl
    rw [List.filterMap_append,hdeprecated]
    exact List.filterMap_cons_some hline
  have hfields : (c.fields.flatMap fun f => deprecatedLine "\t" f.deprecated ++
      [Text.cat ["\t",f.ident," ",f.type]]).filterMap fieldAt? =
        c.fields.map StructField.ident := by
    rw [List.filterMap_flatMap,List.flatMap_congr hfield,← List.map_eq_flatMap]
  rw [structBody,structIdents,List.filterMap_append,hfields]
  congr 1
  cases c.parent with
  | none => rfl
  | some parent => cases c.fields <;> rfl

theorem Worded.fields_read (h : c.Worded) : fieldsIn c.name c.lines = c.structIdents := by
  have hend : ∀ l ∈ c.structBody, (l != Text.ofString "\x7d") = true := by
    intro l hl
    rcases structBody_indented hl with hl | rfl
    · exact hl.notEnd
    · rfl
  obtain ⟨rest,hlines⟩ : ∃ rest, c.lines = c.structLines ++ rest := ⟨_,List.flatten_cons⟩
  have hfront : (c.lines.dropWhile (· != Text.cat ["type ",c.name," struct \x7b"])).drop 1 =
      c.structBody ++ Text.ofString "\x7d" :: (c.markerLines ++ rest) := by
    rw [hlines,structLines_eq,List.cons_append,List.dropWhile_cons_of_neg (by simp)]
    simp
  have hbody : ((c.structBody ++ Text.ofString "\x7d" :: (c.markerLines ++ rest)).takeWhile
      (· != Text.ofString "\x7d")) = c.structBody := by
    rw [List.takeWhile_append_of_pos hend]
    exact List.append_nil _
  rw [fieldsIn,hfront,hbody,h.fieldAt?_structBody]

end ClassCode

end Artifact

end WireSchema
