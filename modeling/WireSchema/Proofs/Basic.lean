import WireSchema.Text.Basic
import Mathlib.Data.List.Forall2
import Mathlib.Data.List.Nodup
set_option autoImplicit false

namespace WireSchema

namespace Result

variable {ε δ α β : Type}

theorem bind_eq_ok {x : Except ε α} {f : α → Except ε β} {b : β} :
    x >>= f = .ok b ↔ ∃ a, x = .ok a ∧ f a = .ok b := by
  cases x with
  | error e => simp [bind,Except.bind]
  | ok a => simp [bind,Except.bind]

theorem bind_eq_error {x : Except ε α} {f : α → Except ε β} {e : ε} :
    x >>= f = .error e ↔ x = .error e ∨ ∃ a, x = .ok a ∧ f a = .error e := by
  cases x with
  | error e => simp [bind,Except.bind]
  | ok a => simp [bind,Except.bind]

@[simp] theorem ok_bind (a : α) (f : α → Except ε β) : (Except.ok a >>= f) = f a := rfl

@[simp] theorem error_bind (e : ε) (f : α → Except ε β) :
    ((Except.error e : Except ε α) >>= f) = .error e := rfl

@[simp] theorem pure_eq_ok (a : α) : (pure a : Except ε α) = .ok a := rfl

@[simp] theorem mapError_eq_ok {g : ε → δ} {x : Except ε α} {a : α} :
    x.mapError g = .ok a ↔ x = .ok a := by
  cases x <;> simp [Except.mapError]

@[simp] theorem mapError_eq_error {g : ε → δ} {x : Except ε α} {d : δ} :
    x.mapError g = .error d ↔ ∃ e, x = .error e ∧ g e = d := by
  cases x <;> simp [Except.mapError]

theorem forM_eq_ok {f : α → Except ε Unit} {xs : List α} :
    xs.forM f = .ok () ↔ ∀ x ∈ xs, f x = .ok () := by
  induction xs with
  | nil => simp
  | cons x xs ih =>
    change (f x >>= fun _ => xs.forM f) = .ok () ↔ _
    rw [bind_eq_ok]
    simp only [ih,List.mem_cons,forall_eq_or_imp]
    exact ⟨fun ⟨_,hx,hxs⟩ => ⟨hx,hxs⟩,fun ⟨hx,hxs⟩ => ⟨(),hx,hxs⟩⟩

theorem mapM_ok {f : α → Except ε β} {xs : List α} {ys : List β} (h : xs.mapM f = .ok ys) :
    List.Forall₂ (fun x y => f x = .ok y) xs ys := by
  induction xs generalizing ys with
  | nil =>
    obtain rfl : [] = ys := Except.ok.inj h
    exact .nil
  | cons x xs ih =>
    rw [List.mapM_cons] at h
    obtain ⟨y,hy,hrest⟩ := bind_eq_ok.mp h
    obtain ⟨rest,hys,heq⟩ := bind_eq_ok.mp hrest
    obtain rfl : y :: rest = ys := Except.ok.inj heq
    exact .cons hy (ih hys)

theorem exists_of_isOk {x : Except ε α} (h : x.isOk = true) : ∃ a, x = .ok a := by
  cases x with
  | error e => simp [Except.isOk,Except.toBool] at h
  | ok a => exact ⟨a,rfl⟩

theorem run_bind {σ : Type} (x : ExceptT ε (StateM σ) α) (f : α → ExceptT ε (StateM σ) β) (s : σ) :
    (x >>= f) s = match x s with
      | (.ok a,next) => f a next
      | (.error e,next) => (.error e,next) := by
  simp only [bind,ExceptT.bind,ExceptT.mk,StateT.bind,ExceptT.bindCont]
  cases x s with
  | mk result next => cases result <;> rfl

theorem run_tryCatch {σ : Type} (x : ExceptT ε (StateM σ) α) (wording : ε → ε) (s : σ) :
    (tryCatch x fun e => MonadExcept.throw (wording e)) s =
      match x s with
      | (.ok a,next) => (.ok a,next)
      | (.error e,next) => (.error (wording e),next) := by
  simp only [MonadExcept.tryCatch,tryCatchThe,MonadExceptOf.tryCatch,ExceptT.tryCatch,ExceptT.mk,
    Bind.bind,StateT.bind]
  cases x s with
  | mk result next => cases result <;> rfl

end Result

section Named

variable {α : Type} {name : α → Text} {xs : List α}

theorem find?_of_mem (hn : (xs.map name).Nodup) {x : α} (hx : x ∈ xs) :
    xs.find? (fun y => name y == name x) = some x := by
  induction xs with
  | nil => simp at hx
  | cons y ys ih =>
    simp only [List.map_cons,List.nodup_cons] at hn
    by_cases hxy : x = y
    · subst x
      simp
    · have hmem : x ∈ ys := by simpa [hxy] using hx
      have hne : name y ≠ name x := fun he => hn.1 (he ▸ List.mem_map_of_mem hmem)
      simp [hne,ih hn.2 hmem]

theorem find?_perm {ys : List α} (hn : (xs.map name).Nodup) (h : xs.Perm ys) (n : Text) :
    xs.find? (fun x => name x == n) = ys.find? (fun y => name y == n) := by
  have hn' : (ys.map name).Nodup := (h.map name).nodup_iff.mp hn
  cases hx : xs.find? (fun x => name x == n) with
  | some x =>
    have hname : name x = n := by simpa using List.find?_some hx
    rw [← hname,find?_of_mem hn' (h.subset (List.mem_of_find?_eq_some hx))]
  | none =>
    rw [eq_comm,List.find?_eq_none]
    exact fun y hy => List.find?_eq_none.mp hx y (h.symm.subset hy)

theorem eq_of_name_eq (hn : (xs.map name).Nodup) {x y : α} (hx : x ∈ xs) (hy : y ∈ xs)
    (h : name x = name y) : x = y :=
  List.inj_on_of_nodup_map hn hx hy h

end Named

theorem find?_of_filter {α : Type} {p q : α → Bool} {xs : List α} {x : α}
    (h : xs.find? q = some x) (hx : p x = true) : (xs.filter p).find? q = some x := by
  induction xs with
  | nil => cases h
  | cons y ys ih =>
    rw [List.find?_cons] at h
    split at h
    · rename_i hy
      cases h
      simp [hx,hy]
    · rename_i hy
      rw [List.filter_cons]
      split
      · rw [List.find?_cons,hy]
        exact ih h
      · exact ih h

theorem exists_of_forall₂ {α β : Type} {R : α → β → Prop} {xs : List α} {ys : List β}
    (h : List.Forall₂ R xs ys) {y : β} (hy : y ∈ ys) : ∃ x ∈ xs, R x y := by
  induction h with
  | nil => simp at hy
  | @cons a b _ _ hab _ ih =>
    rcases List.mem_cons.mp hy with rfl | hy
    · exact ⟨a,by simp,hab⟩
    · obtain ⟨x,hx,hxy⟩ := ih hy
      exact ⟨x,by simp [hx],hxy⟩

theorem map_eq_of_forall₂ {α β γ : Type} {R : α → β → Prop} {f : α → γ} {g : β → γ}
    (hR : ∀ x y, R x y → g y = f x) {xs : List α} {ys : List β} (h : List.Forall₂ R xs ys) :
    ys.map g = xs.map f := by
  induction h with
  | nil => rfl
  | cons hxy _ ih => simp [hR _ _ hxy,ih]

theorem mem_of_lookup {κ α : Type} [BEq κ] [LawfulBEq κ] {xs : List (κ × α)} {k : κ} {a : α}
    (h : xs.lookup k = some a) : (k,a) ∈ xs := by
  obtain ⟨front,back,rfl,-⟩ := List.lookup_eq_some_iff.mp h
  simp

end WireSchema
