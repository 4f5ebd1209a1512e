import WireSchema.Artifact.ClassText
import WireSchema.Proofs.Artifact.Idents
import WireSchema.Proofs.Document.Spelled
set_option autoImplicit false

namespace WireSchema.Artifact

open Token (isName isNameByte)

def nameAt (t : Text) : Text := t.takeWhile isNameByte

def fieldAt? (l : Text) : Option Text :=
  if l.isEmpty || Text.startsWith l "\t//" then none else some (nameAt (l.drop 1))

def fieldsIn (name : Text) (lines : Lines) : List Text :=
  (((lines.dropWhile (· != Text.cat ["type ",name," struct \x7b"])).drop 1).takeWhile
    (· != Text.ofString "\x7d")).filterMap fieldAt?

def receiver (name : Text) : Text := Text.cat ["func (m *",name,") "]

def methodAt? (name l : Text) : Option Text :=
  if Text.startsWith l (receiver name) then some (nameAt (l.drop (receiver name).length)) else none

/-- The fields of a structure and its methods, in their order. -/
def declaredIn (name : Text) (lines : Lines) : List Text :=
  fieldsIn name lines ++ lines.filterMap (methodAt? name)

def isSignature (l : Text) : Bool := Text.startsWith l "func "

/-- The bodies of functions. -/
def bodiesIn : Lines → List Lines
  | [] => []
  | l :: ls =>
    if isSignature l then ls.takeWhile (· != Text.ofString "\x7d") :: bodiesIn ls else bodiesIn ls

def variableAt? (l : Text) : Option Text :=
  let name := nameAt (l.drop 1)
  if Text.startsWith ((l.drop 1).drop name.length) ", err := " then some name else none

def variablesIn (body : Lines) : List Text := body.filterMap variableAt?

section Names

variable {name rest : Text}

theorem nameAt_append (h : isName name = true) (hrest : rest.head?.any isNameByte = false) :
    nameAt (name ++ rest) = name := by
  rw [nameAt,List.takeWhile_append_of_pos (List.all_eq_true.mp h)]
  cases rest with
  | nil => simp
  | cons c rest =>
    have hc : isNameByte c = false := hrest
    simp [hc]

theorem variableAt?_named (h : isName name = true) (hrest : rest.head?.any isNameByte = false) :
    variableAt? (9 :: (name ++ rest)) =
      if Text.startsWith rest ", err := " then some name else none := by
  unfold variableAt?
  simp only [List.drop_one,List.tail_cons,nameAt_append h hrest,List.drop_left]

theorem fieldAt?_named (h : isName name = true) (hrest : rest.head? = some 32) :
    fieldAt? (9 :: (name ++ rest)) = some name := by
  have hspace : rest.head?.any isNameByte = false := by rw [hrest]; decide
  -- No name starts with a slash, so that this is no comment.
  have hcode : Text.startsWith (9 :: (name ++ rest)) "\t//" = false := by
    cases name with
    | nil =>
      cases rest with
      | nil => cases hrest
      | cons c rest => cases hrest; rfl
    | cons c name =>
      have hc : isNameByte c = true := List.all_eq_true.mp h c List.mem_cons_self
      have hslash : (47 == c) = false := by
        rw [beq_eq_false_iff_ne]
        rintro rfl
        exact absurd hc (by decide)
      show ((9 : UInt8) == 9 && (47 == c && _)) = false
      rw [hslash]
      rfl
  unfold fieldAt?
  rw [hcode,List.drop_one,List.tail_cons,nameAt_append h hspace]
  rfl

end Names

def blockEnd : Lines := ["\x7d",""]

def block (signature : Text) (body : Lines) : Lines := signature :: (body ++ blockEnd)

def Indented (l : Text) : Prop := l.head? = some 9

/-- Lines whose methods and bodies are as told, whatever stands behind them. -/
structure ReadsAs (name : Text) (lines : Lines) (methods : List Text)
    (vars : List (List Text)) : Prop where
  methods : lines.filterMap (methodAt? name) = methods
  bodies : ∃ list, list.map variablesIn = vars ∧
    ∀ rest, bodiesIn (lines ++ rest) = list ++ bodiesIn rest

section ReadsAs

variable {name l signature : Text} {lines more body : Lines} {methods others : List Text}
variable {vars rest : List (List Text)}

theorem isSignature_of_startsWith (h : Text.startsWith l (receiver name) = true) :
    isSignature l = true := by
  have hfront : Text.ofString "func " <+: receiver name := ⟨_,rfl⟩
  exact List.isPrefixOf_iff_prefix.mpr (hfront.trans (List.isPrefixOf_iff_prefix.mp h))

theorem methodAt?_of_plain (h : isSignature l = false) : methodAt? name l = none := by
  unfold methodAt?
  split
  · rename_i hstart
    rw [isSignature_of_startsWith hstart] at h
    cases h
  · rfl

theorem Indented.plain (h : Indented l) : isSignature l = false := by
  cases l with
  | nil => cases h
  | cons c rest => cases h; rfl

theorem Indented.notEnd (h : Indented l) : (l != Text.ofString "\x7d") = true := by
  cases l with
  | nil => cases h
  | cons c rest =>
    cases h
    rw [bne_iff_ne]
    exact fun heq => absurd (List.cons.inj heq).1 (by decide)

theorem ReadsAs.nil : ReadsAs name [] [] [] where
  methods := rfl
  bodies := ⟨[],rfl,fun _ => rfl⟩

theorem ReadsAs.append (h : ReadsAs name lines methods vars)
    (hmore : ReadsAs name more others rest) :
    ReadsAs name (lines ++ more) (methods ++ others) (vars ++ rest) where
  methods := by rw [List.filterMap_append,h.methods,hmore.methods]
  bodies := by
    obtain ⟨list,hlist,hlines⟩ := h.bodies
    obtain ⟨back,hback,hrest⟩ := hmore.bodies
    refine ⟨list ++ back,by rw [List.map_append,hlist,hback],fun behind => ?_⟩
    rw [List.append_assoc,hlines,hrest,List.append_assoc]

theorem ReadsAs.bodies_read (h : ReadsAs name lines methods vars) :
    (bodiesIn lines).map variablesIn = vars := by
  obtain ⟨list,hlist,hlines⟩ := h.bodies
  rw [← List.append_nil lines,hlines,bodiesIn,List.append_nil,hlist]

theorem ReadsAs.flatMap {α : Type} {xs : List α} {f : α → Lines} {g : α → List Text}
    {v : α → List (List Text)} (h : ∀ x ∈ xs, ReadsAs name (f x) (g x) (v x)) :
    ReadsAs name (xs.flatMap f) (xs.flatMap g) (xs.flatMap v) := by
  induction xs with
  | nil => exact .nil
  | cons x xs ih =>
    exact (h x List.mem_cons_self).append (ih fun y hy => h y (List.mem_cons_of_mem x hy))

theorem ReadsAs.plain (h : ∀ l ∈ lines, isSignature l = false) : ReadsAs name lines [] [] where
  methods := List.filterMap_eq_nil_iff.mpr fun l hl => methodAt?_of_plain (h l hl)
  bodies := by
    refine ⟨[],rfl,fun rest => ?_⟩
    induction lines with
    | nil => rfl
    | cons l lines ih =>
      rw [List.cons_append,bodiesIn,if_neg (by simp [h l List.mem_cons_self])]
      exact ih fun k hk => h k (List.mem_cons_of_mem l hk)

theorem plain_blockEnd : ∀ l ∈ blockEnd, isSignature l = false := by decide

theorem plain_body (hbody : ∀ l ∈ body, Indented l) :
    ∀ l ∈ body ++ blockEnd, isSignature l = false := by
  intro l hl
  rcases List.mem_append.mp hl with hl | hl
  · exact (hbody l hl).plain
  · exact plain_blockEnd l hl

theorem takeWhile_body (hbody : ∀ l ∈ body, Indented l) (rest : Lines) :
    (body ++ blockEnd ++ rest).takeWhile (· != Text.ofString "\x7d") = body := by
  rw [List.append_assoc,List.takeWhile_append_of_pos fun l hl => (hbody l hl).notEnd]
  exact List.append_nil body

theorem ReadsAs.block (hsignature : isSignature signature = true)
    (hbody : ∀ l ∈ body, Indented l) :
    ReadsAs name (block signature body) (methodAt? name signature).toList
      [variablesIn body] where
  methods := by
    have hplain : ∀ l ∈ body ++ blockEnd, methodAt? name l = none :=
      fun l hl => methodAt?_of_plain (plain_body hbody l hl)
    rw [Artifact.block,List.filterMap_cons,List.filterMap_eq_nil_iff.mpr hplain]
    cases methodAt? name signature <;> rfl
  bodies := by
    refine ⟨[body],rfl,fun rest => ?_⟩
    -- The lines of the body are met again, but no function starts with one of them.
    have hlines : ReadsAs name (body ++ blockEnd) [] [] := .plain (plain_body hbody)
    obtain ⟨list,hlist,hplain⟩ := hlines.bodies
    obtain rfl := List.map_eq_nil_iff.mp hlist
    rw [Artifact.block,List.cons_append,bodiesIn,if_pos hsignature,takeWhile_body hbody,
      hplain]
    rfl

end ReadsAs

/-- Lines of a body, and the variables that they declare. -/
structure Statements (lines : Lines) (vars : List Text) : Prop where
  indented : ∀ l ∈ lines, Indented l
  vars : variablesIn lines = vars

section Statements

variable {name l ref payload : Text} {lines more : Lines} {vars others : List Text}

theorem Statements.nil : Statements [] [] := ⟨by simp,rfl⟩

theorem Statements.append (h : Statements lines vars) (hmore : Statements more others) :
    Statements (lines ++ more) (vars ++ others) where
  indented := fun l hl => (List.mem_append.mp hl).elim (h.indented l) (hmore.indented l)
  vars := by rw [variablesIn,List.filterMap_append,← variablesIn,← variablesIn,h.vars,hmore.vars]

theorem Statements.flatMap {α : Type} {xs : List α} {f : α → Lines} {g : α → Option Text}
    (h : ∀ x ∈ xs, Statements (f x) (g x).toList) :
    Statements (xs.flatMap f) (xs.filterMap g) := by
  induction xs with
  | nil => exact .nil
  | cons x xs ih =>
    have hrest := ih fun y hy => h y (List.mem_cons_of_mem x hy)
    have hboth := (h x List.mem_cons_self).append hrest
    rw [List.flatMap_cons]
    cases hx : g x with
    | none =>
      rw [List.filterMap_cons_none hx]
      simpa [hx] using hboth
    | some v =>
      rw [List.filterMap_cons_some hx]
      simpa [hx] using hboth

theorem Statements.quiet (h : Statements lines vars) (hl : Indented l)
    (hvar : variableAt? l = none) : Statements (l :: lines) vars where
  indented := List.forall_mem_cons.mpr ⟨hl,h.indented⟩
  vars := by rw [variablesIn,List.filterMap_cons_none hvar]; exact h.vars

theorem quiet_named (h : isName ref = true) {pieces : List Text}
    (hname : (Text.cat pieces).head?.any isNameByte = false)
    (hrest : Text.startsWith (Text.cat pieces) ", err := " = false) :
    variableAt? (Text.cat ("\t" :: ref :: pieces)) = none := by
  have hline := variableAt?_named h hname
  rw [hrest] at hline
  exact hline

theorem statements_failing (statement : Text) : Statements (failing "\t" statement) [] := by
  unfold failing
  exact .quiet (.quiet (.quiet .nil rfl rfl) rfl rfl) rfl rfl

theorem statements_filling (h : isName payload = true) (call : Text) :
    Statements (filling payload call) [payload] where
  indented := by
    refine List.forall_mem_cons.mpr ⟨rfl,(statements_failing []).indented⟩
  vars := by
    have hline : variableAt? (Text.cat ["\t",payload,", err := ",call]) = some payload :=
      variableAt?_named h rfl
    rw [filling,Lines.cat,List.flatten_cons,List.singleton_append,variablesIn,
      List.filterMap_cons_some hline]
    exact congrArg _ (statements_failing []).vars

theorem methodAt?_named {ident after : Text} {pieces : List Text} (hident : isName ident = true)
    (hafter : after.head?.any isNameByte = false)
    (h : Text.cat pieces = Text.ofString ") " ++ (ident ++ after)) :
    methodAt? name (Text.cat ("func (m *" :: name :: pieces)) = some ident := by
  have hline : Text.cat ("func (m *" :: name :: pieces) = receiver name ++ (ident ++ after) := by
    rw [Text.cat_cons,Text.cat_cons,h]
    simp [receiver]
  have hstart : Text.startsWith (receiver name ++ (ident ++ after)) (receiver name) = true :=
    List.isPrefixOf_iff_prefix.mpr (List.prefix_append _ _)
  rw [hline,methodAt?,if_pos hstart,List.drop_left,nameAt_append hident hafter]

theorem Statements.function {signature : Text} {body : Lines} {vars : List Text}
    {method : Option Text} (h : Statements body vars) (hsignature : isSignature signature = true)
    (hmethod : methodAt? name signature = method) :
    ReadsAs name (block signature body) method.toList [vars] := by
  have hblock : ReadsAs name (block signature body) _ _ := .block hsignature h.indented
  rw [hmethod,h.vars] at hblock
  exact hblock

end Statements

end WireSchema.Artifact
