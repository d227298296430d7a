import Mathlib.Data.List.Basic
import Mathlib.Tactic.Common

/-!
# Sums over a list whose items change

A count or a size that is kept for the items of a list, as items are added, removed and replaced.

* `tally_concat`, `tally_eraseIdx`, `tally_set`: what each of them does to the sum.
* `tally_eq_zero_iff`: the sum is nothing when every item is nothing.
-/

namespace Library

variable {α : Type*}

/-- The sum of what the items count. -/
def tally (f : α → ℕ) : List α → ℕ
  | [] => 0
  | a :: l => f a + tally f l

variable (f : α → ℕ)

theorem tally_append (l m : List α) : tally f (l ++ m) = tally f l + tally f m := by
  induction l with
  | nil => exact (Nat.zero_add _).symm
  | cons a l ih => rw [List.cons_append, tally, tally, ih, Nat.add_assoc]

@[simp] theorem tally_concat (l : List α) (a : α) :
    tally f (l ++ [a]) = tally f l + f a := tally_append f l [a]

variable {l : List α}

theorem tally_eraseIdx {i : ℕ} {a : α} (h : l[i]? = some a) :
    tally f (l.eraseIdx i) + f a = tally f l := by
  induction l generalizing i with
  | nil => simp at h
  | cons b l ih =>
    cases i with
    | zero =>
      cases h
      exact Nat.add_comm _ _
    | succ i =>
      have hrest := ih h
      rw [List.eraseIdx_cons_succ, tally, tally]
      omega

theorem tally_set {i : ℕ} {a : α} (h : l[i]? = some a) (b : α) :
    tally f (l.set i b) + f a = tally f l + f b := by
  induction l generalizing i with
  | nil => simp at h
  | cons c l ih =>
    cases i with
    | zero =>
      cases h
      rw [List.set_cons_zero, tally, tally]
      omega
    | succ i =>
      have hrest := ih h
      rw [List.set_cons_succ, tally, tally]
      omega

theorem tally_eq_zero_iff {f : α → ℕ} : tally f l = 0 ↔ ∀ a ∈ l, f a = 0 := by
  induction l with
  | nil => simp [tally]
  | cons a l ih => simp [tally, ih]

theorem tally_congr {f g : α → ℕ} (h : ∀ a ∈ l, f a = g a) : tally f l = tally g l := by
  induction l with
  | nil => rfl
  | cons a l ih =>
    rw [tally, tally, h a List.mem_cons_self, ih fun b hb => h b (List.mem_cons_of_mem _ hb)]

end Library
