import WireSchema.Proofs.Artifact.Render
import Mathlib.Data.List.Flatten
import Mathlib.Data.List.Perm.Basic
set_option autoImplicit false

namespace WireSchema.Artifact

variable [Casing]

section Taken

variable {taken result uses : List Use} {fields : List PlanField} {plan : Plan.Class}

omit [Casing] in
theorem takeIdents_ok (h : takeIdents taken uses = .ok result) :
    result.map Prod.fst = (uses.map Prod.fst).reverse ++ taken.map Prod.fst ∧
      ((taken.map Prod.fst).Nodup → (result.map Prod.fst).Nodup) := by
  induction uses generalizing taken with
  | nil =>
    cases h
    simp
  | cons use uses ih =>
    obtain ⟨ident,owner⟩ := use
    rw [takeIdents] at h
    cases hlookup : taken.lookup ident with
    | some first => simp [hlookup] at h
    | none =>
      simp only [hlookup] at h
      obtain ⟨hnames,hnodup⟩ := ih h
      refine ⟨by simp [hnames],fun htaken => hnodup (List.nodup_cons.mpr ⟨?_,htaken⟩)⟩
      intro hin
      obtain ⟨use,huse,heq⟩ := List.mem_map.mp hin
      simpa [heq] using List.lookup_eq_none_iff.mp hlookup use huse

theorem takeFieldIdents_cons {f : PlanField} (h : takeFieldIdents taken (f :: fields) = .ok ()) :
    ∃ next, takeIdents taken ((propertyIdents f).map fun ident =>
      (ident,Text.cat ["property ",f.name])) = .ok next ∧ takeFieldIdents next fields = .ok () := by
  rw [takeFieldIdents] at h
  split at h
  · split at h
    · cases h
    · exact Result.bind_eq_ok.mp h
  · exact Result.bind_eq_ok.mp h

theorem takeFieldIdents_nodup (h : takeFieldIdents taken fields = .ok ())
    (htaken : (taken.map Prod.fst).Nodup) :
    (taken.map Prod.fst ++ fields.flatMap propertyIdents).Nodup := by
  induction fields generalizing taken with
  | nil => simpa using htaken
  | cons f fields ih =>
    obtain ⟨next,hnext,hrest⟩ := takeFieldIdents_cons h
    obtain ⟨hnames,hnodup⟩ := takeIdents_ok hnext
    have hall := ih hrest (hnodup htaken)
    have hidents : ((propertyIdents f).map fun ident =>
        (ident,Text.cat ["property ",f.name])).map Prod.fst = propertyIdents f := by
      simp [Function.comp_def]
    have horder : (next.map Prod.fst).Perm (taken.map Prod.fst ++ propertyIdents f) := by
      rw [hnames,hidents]
      exact ((List.reverse_perm _).append_right _).trans List.perm_append_comm
    rw [List.flatMap_cons,← List.append_assoc]
    exact (horder.append_right _).nodup_iff.mp hall

/-- All identifiers that a class takes. -/
def claimed (plan : Plan.Class) : List Text :=
  reservedIdents plan ++ plan.fields.flatMap propertyIdents

theorem claimed_nodup (h : checkIdents plan = .ok ()) : (claimed plan).Nodup := by
  obtain ⟨taken,hreserved,hfields⟩ : ∃ taken, takeIdents [] ((reservedIdents plan).map fun ident =>
      (ident,Text.cat ["generated method ",ident])) = .ok taken ∧
        takeFieldIdents taken plan.fields = .ok () := by
    unfold checkIdents at h
    simp only at h
    split at h
    · split at h
      · cases h
      · exact Result.bind_eq_ok.mp h
    · exact Result.bind_eq_ok.mp h
  obtain ⟨hnames,hnodup⟩ := takeIdents_ok hreserved
  have hall := takeFieldIdents_nodup hfields (hnodup List.nodup_nil)
  have horder : (taken.map Prod.fst).Perm (reservedIdents plan) := by
    rw [hnames]
    simp [Function.comp_def]
  exact (horder.append_right _).nodup_iff.mp hall

end Taken

section Members

variable (plan : Plan.Class)

def accessorIdents (f : PlanField) : List Text :=
  if f.head.transform.isAdapter then [exported f.name,Text.cat ["Set",exported f.name]] else []

def headerIdents : List Text := if plan.parent.isSome then ["Header"] else []

def methodIdents : List Text := ["Serialize","Deserialize"]

def tagIdents : List Text :=
  match plan.role with
  | .message => ["GetEMsg"]
  | .header => ["SetEMsg"]
  | .plain => []

def memberIdents : List Text :=
  headerIdents plan ++ plan.fields.map fieldIdent ++
    (tagIdents plan ++ plan.fields.flatMap accessorIdents ++ methodIdents)

variable {plan}

theorem propertyIdents_perm (f : PlanField) :
    (propertyIdents f).Perm (fieldIdent f :: accessorIdents f) := by
  unfold propertyIdents fieldIdent accessorIdents
  split
  · exact List.Perm.swap _ _ _
  · exact List.Perm.refl _

theorem memberIdents_perm : (memberIdents plan).Perm (claimed plan) := by
  have hfields : (plan.fields.flatMap propertyIdents).Perm
      (plan.fields.map fieldIdent ++ plan.fields.flatMap accessorIdents) :=
    (List.Perm.flatMap_left _ fun f _ => propertyIdents_perm f).trans
      (List.map_append_flatMap_perm _ _ _).symm
  have hreserved : reservedIdents plan = methodIdents ++ (headerIdents plan ++ tagIdents plan) := by
    unfold reservedIdents methodIdents headerIdents tagIdents
    cases plan.role <;> simp
  rw [claimed,hreserved]
  refine List.Perm.trans ?_ (hfields.symm.append_left _)
  rw [List.perm_iff_count]
  intro ident
  simp only [memberIdents,List.count_append]
  omega

theorem memberIdents_nodup (h : checkIdents plan = .ok ()) : (memberIdents plan).Nodup :=
  memberIdents_perm.nodup_iff.mpr (claimed_nodup h)

theorem exported_sublist (f : PlanField) : [exported f.name].Sublist (propertyIdents f) := by
  unfold propertyIdents
  split <;> simp

theorem payloads_nodup (h : checkIdents plan = .ok ()) :
    (plan.fields.map fun f => (slotOf f).payload).Nodup := by
  have hfields : (plan.fields.map fun f => exported f.name).Nodup := by
    rw [List.map_eq_flatMap]
    exact (claimed_nodup h).of_append_right.sublist
      (List.Sublist.flatMap_right _ fun f _ => exported_sublist f)
  have hmap : (plan.fields.map fun f => (slotOf f).payload) =
      (plan.fields.map fun f => exported f.name).map (Text.ofString "payload" ++ ·) := by
    simp [slotOf]
  rw [hmap]
  exact hfields.map fun a b hab => List.append_cancel_left hab

theorem slots_nodup (h : checkIdents plan = .ok ()) : (plan.fields.map slotOf).Nodup := by
  refine List.Nodup.of_map Slot.payload ?_
  rw [List.map_map]
  exact payloads_nodup h

end Members

end WireSchema.Artifact
