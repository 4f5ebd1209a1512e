import WireSchema.Proofs.Artifact.Render
import WireSchema.Proofs.Record.Fields
set_option autoImplicit false

/-!
Imports that rendering notes. Each package is imported once, under the latest name that has been
noted for it. So a path that has been noted stays, whatever is rendered behind it, and its name
stays as long as no other name is noted for the path.
-/

namespace WireSchema.Artifact

open WireSchema.Text (before before_irrefl before_trans before_total)

abbrev Package := Text × Text

namespace Imports

/-- An import as the source code sees it. Without a name of its own a package has the last part of
its path. -/
def package (x : Text × Text) : Package :=
  (x.1,if x.2.isEmpty then Path.base x.1 else x.2)

def packages (imports : Imports) : List Package := imports.map package

def paths (imports : Imports) : List Text := imports.map Prod.fst

/-- Imports in the order of their paths, out of those that a file may need. -/
structure Within (imports allowed : Imports) : Prop where
  sorted : imports.Pairwise fun x y => before x.1 y.1 = true
  allowed : imports ⊆ allowed

variable {allowed imports : Imports} {path nickname : Text}

theorem Within.nodup (h : imports.Within allowed) : imports.paths.Nodup := by
  rw [Imports.paths,List.Nodup,List.pairwise_map]
  refine h.sorted.imp fun {x y} hxy heq => ?_
  rw [heq,before_irrefl] at hxy
  cases hxy

theorem mem_use {x : Text × Text} (h : x ∈ imports.use path nickname) :
    x = (path,nickname) ∨ x ∈ imports := by
  induction imports with
  | nil => exact .inl (List.mem_singleton.mp h)
  | cons y rest ih =>
    obtain ⟨other,old⟩ := y
    simp only [use] at h
    split at h
    · rcases List.mem_cons.mp h with rfl | h
      · exact .inl rfl
      · exact .inr (List.mem_cons_of_mem _ h)
    · split at h
      · exact List.mem_cons.mp h
      · rcases List.mem_cons.mp h with rfl | h
        · exact .inr List.mem_cons_self
        · exact (ih h).imp_right (List.mem_cons_of_mem _)

theorem mem_paths_use {p : Text} :
    p ∈ (imports.use path nickname).paths ↔ p = path ∨ p ∈ imports.paths := by
  induction imports with
  | nil => simp [use,paths]
  | cons y rest ih =>
    obtain ⟨other,old⟩ := y
    simp only [paths] at ih ⊢
    simp only [use]
    split
    · rename_i heq
      simp [heq]
    · split
      · simp
      · simp only [List.map_cons,List.mem_cons,ih]
        exact or_left_comm

theorem Within.use (h : imports.Within allowed) (hmem : (path,nickname) ∈ allowed) :
    (imports.use path nickname).Within allowed := by
  obtain ⟨hsorted,hallowed⟩ := h
  have hused : imports.use path nickname ⊆ allowed := by
    intro x hx
    rcases mem_use hx with rfl | hx
    · exact hmem
    · exact hallowed hx
  refine ⟨?_,hused⟩
  clear hused hallowed
  induction imports with
  | nil => exact List.pairwise_singleton _ _
  | cons y rest ih =>
    obtain ⟨other,old⟩ := y
    obtain ⟨hother,hrest⟩ := List.pairwise_cons.mp hsorted
    simp only [Imports.use]
    split
    · rename_i heq
      exact List.pairwise_cons.mpr ⟨fun x hx => heq ▸ hother x hx,hrest⟩
    · rename_i hne
      split
      · rename_i hbefore
        refine List.pairwise_cons.mpr ⟨fun x hx => ?_,hsorted⟩
        rcases List.mem_cons.mp hx with rfl | hx
        · exact hbefore
        · exact before_trans hbefore (hother x hx)
      · rename_i hbefore
        refine List.pairwise_cons.mpr ⟨fun x hx => ?_,ih hrest⟩
        rcases mem_use hx with rfl | hx
        · exact before_total hne (by simpa using hbefore)
        · exact hother x hx

end Imports

/-- Rendering that imports only what is allowed and drops no path. What it gives suits the paths
that have been noted by then, and all that are noted later. -/
def Notes {α : Type} (allowed : Imports) (x : Render α) (Q : α → List Text → Prop) : Prop :=
  ∀ imports : Imports, imports.Within allowed → (x imports).2.Within allowed ∧
    imports.paths ⊆ (x imports).2.paths ∧
    ∀ a, (x imports).1 = .ok a → ∀ paths, (x imports).2.paths ⊆ paths → Q a paths

namespace Notes

variable {α β : Type} {allowed : Imports} {x : Render α} {f : α → Render β}
variable {P : α → List Text → Prop} {Q : β → List Text → Prop}

theorem pure {a : α} (h : ∀ paths, P a paths) : Notes allowed (Pure.pure a) P := by
  refine fun imports hin => ⟨hin,List.Subset.refl _,fun b hb paths _ => ?_⟩
  cases hb
  exact h paths

theorem throw {fault : Fault} : Notes allowed (throw fault : Render α) P :=
  fun _ hin => ⟨hin,List.Subset.refl _,fun _ hb => nomatch hb⟩

theorem refuse {c : Prop} [Decidable c] {fault : Fault} {a : α} (h : ∀ paths, P a paths) :
    Notes allowed (if c then Pure.pure a else MonadExcept.throw fault) P := by
  split
  · exact .pure h
  · exact .throw

theorem bind (hx : Notes allowed x P)
    (hf : ∀ a, Notes allowed (f a) fun b paths => P a paths → Q b paths) :
    Notes allowed (x >>= f) Q := by
  intro imports hin
  obtain ⟨hnext,hkept,hresult⟩ := hx imports hin
  rw [Result.run_bind]
  cases hrun : x imports with
  | mk result next =>
    rw [hrun] at hnext hkept hresult
    cases result with
    | error fault => exact ⟨hnext,hkept,fun _ hb => nomatch hb⟩
    | ok a =>
      obtain ⟨hlast,hmore,hrest⟩ := hf a next hnext
      exact ⟨hlast,List.Subset.trans hkept hmore,fun b hb paths hpaths =>
        hrest b hb paths hpaths (hresult a rfl paths (List.Subset.trans hmore hpaths))⟩

theorem imp {P' : α → List Text → Prop} (hx : Notes allowed x P)
    (h : ∀ a paths, P a paths → P' a paths) : Notes allowed x P' := by
  intro imports hin
  obtain ⟨hnext,hkept,hresult⟩ := hx imports hin
  exact ⟨hnext,hkept,fun a ha paths hpaths => h a paths (hresult a ha paths hpaths)⟩

theorem noted {c : Prop} [Decidable c] {note : Render Unit} {N : List Text → Prop}
    (hnote : c → Notes allowed note fun _ => N)
    (hx : Notes allowed x fun a paths => (c → N paths) → P a paths) :
    Notes allowed (if c then note >>= fun _ => x else x) P := by
  split
  · rename_i hc
    exact (hnote hc).bind fun _ => hx.imp fun _ _ h hn => h fun _ => hn
  · rename_i hc
    exact hx.imp fun _ _ h => h fun hc' => absurd hc' hc

theorem result (hx : Notes allowed x P) :
    Notes allowed x fun a paths => (∃ before, (x before).1 = .ok a) ∧ P a paths := by
  intro imports hin
  obtain ⟨hnext,hkept,hresult⟩ := hx imports hin
  exact ⟨hnext,hkept,fun a ha paths hpaths => ⟨⟨imports,ha⟩,hresult a ha paths hpaths⟩⟩

theorem during {wrap : Fault → Fault} (hx : Notes allowed x P) :
    Notes allowed (during wrap x) P := by
  intro imports hin
  have h := hx imports hin
  unfold Artifact.during
  rw [Result.run_tryCatch]
  cases hrun : x imports with
  | mk result next =>
    rw [hrun] at h
    cases result with
    | error fault => exact ⟨h.1,h.2.1,fun _ hb => nomatch hb⟩
    | ok a => exact h

theorem useImport {path nickname : Text} (h : (path,nickname) ∈ allowed) :
    Notes allowed (useImport path nickname) fun _ paths => path ∈ paths :=
  fun _ hin => ⟨hin.use h,fun _ hp => Imports.mem_paths_use.mpr (.inr hp),
    fun _ _ _ hpaths => hpaths (Imports.mem_paths_use.mpr (.inl rfl))⟩

theorem mapM {R : α → β → List Text → Prop} {xs : List α}
    (h : ∀ a ∈ xs, Notes allowed (f a) (R a)) :
    Notes allowed (xs.mapM f) fun bs paths => List.Forall₂ (fun a b => R a b paths) xs bs := by
  induction xs with
  | nil => exact .pure fun _ => .nil
  | cons a xs ih =>
    rw [List.mapM_cons]
    refine (h a List.mem_cons_self).bind fun b => ?_
    refine (ih fun c hc => h c (List.mem_cons_of_mem _ hc)).bind fun bs => ?_
    exact .pure fun paths hbs hb => .cons hb hbs

theorem forIn {R : α → List Text → Prop} {step : α → PUnit → Render (ForInStep PUnit)}
    {xs : List α} (h : ∀ a ∈ xs, Notes allowed (step a ⟨⟩) fun next paths =>
      next = .yield ⟨⟩ ∧ R a paths) :
    Notes allowed (forIn xs ⟨⟩ step) fun _ paths => ∀ a ∈ xs, R a paths := by
  induction xs with
  | nil => exact .pure fun _ => by simp
  | cons a xs ih =>
    rw [List.forIn_cons]
    refine (h a List.mem_cons_self).bind fun next => ?_
    cases next with
    | done u => exact .pure fun _ hnext => by simp at hnext
    | yield u =>
      refine (ih fun c hc => h c (List.mem_cons_of_mem _ hc)).imp fun _ paths hrest hfirst => ?_
      simpa using ⟨hfirst.2,hrest⟩

end Notes

end WireSchema.Artifact
