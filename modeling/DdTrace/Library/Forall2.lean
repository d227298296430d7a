import Mathlib.Data.List.Forall2

/-!
# Lists related entry by entry

What holds of two lists when their entries are related in their order.

* `exists_forall₂`: a list of related entries, when every entry has one.
* `exists_of_forall₂`, `exists_of_forall₂_right`: the entry that is related to one of either list.
* `forall₂_of_mapM`, `mapM_eq_some`: a map that may fail, read as a relation and back.
* `forall₂_iff_of_forall₂`: a second relation between lists that are related.
-/

namespace Library

open List

variable {α β γ : Type*} {R S : α → β → Prop} {xs : List α} {ys : List β}

theorem exists_forall₂ (h : ∀ x ∈ xs, ∃ y, R x y) : ∃ ys, List.Forall₂ R xs ys := by
  induction xs with
  | nil => exact ⟨[], .nil⟩
  | cons x xs ih =>
    obtain ⟨y, hy⟩ := h x mem_cons_self
    obtain ⟨ys, hys⟩ := ih (forall_mem_cons.mp h).2
    exact ⟨y :: ys, .cons hy hys⟩

theorem exists_of_forall₂ {x : α} (h : List.Forall₂ R xs ys) (hx : x ∈ xs) : ∃ y ∈ ys, R x y := by
  induction h with
  | nil => cases hx
  | cons hxy _ ih =>
    rcases mem_cons.mp hx with rfl | hx
    · exact ⟨_, mem_cons_self, hxy⟩
    · obtain ⟨y, hy, h⟩ := ih hx
      exact ⟨y, mem_cons_of_mem _ hy, h⟩

theorem exists_of_forall₂_right {y : β} (h : List.Forall₂ R xs ys) (hy : y ∈ ys) :
    ∃ x ∈ xs, R x y :=
  exists_of_forall₂ h.flip hy

theorem forall₂_of_mapM {f : α → Option β} (h : xs.mapM f = some ys) :
    List.Forall₂ (fun x y => f x = some y) xs ys := by
  induction xs generalizing ys with
  | nil =>
    cases h
    exact .nil
  | cons x xs ih =>
    rw [mapM_cons] at h
    obtain ⟨y, hy, h⟩ := Option.bind_eq_some_iff.mp h
    obtain ⟨rest, hrest, h⟩ := Option.bind_eq_some_iff.mp h
    cases h
    exact .cons hy (ih hrest)

theorem mapM_eq_some {f : β → Option γ} {g : α → γ} (h : List.Forall₂ R xs ys)
    (hf : ∀ x ∈ xs, ∀ y, R x y → f y = some (g x)) : ys.mapM f = some (xs.map g) := by
  induction h with
  | nil => rfl
  | cons hxy _ ih =>
    rw [mapM_cons, hf _ mem_cons_self _ hxy, ih (forall_mem_cons.mp hf).2]
    rfl

/-- Where one relation holds of two lists, another does exactly when the elements of the first are
such that it follows. -/
theorem forall₂_iff_of_forall₂ {P : α → Prop} (h : List.Forall₂ R xs ys)
    (hiff : ∀ x y, R x y → (S x y ↔ P x)) : List.Forall₂ S xs ys ↔ ∀ x ∈ xs, P x := by
  induction h with
  | nil => simp
  | cons hxy _ ih => rw [List.forall₂_cons, forall_mem_cons, hiff _ _ hxy, ih]

end Library
