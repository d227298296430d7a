import Mathlib.Data.List.Basic
import Mathlib.Tactic.Common

/-!
# Glob patterns

A glob pattern is a list of tokens, of which one stands for any sequence, one for any single
element, and each of the others for an element.  `Matches` says that a list has the shape of a
pattern.

* `matches_star_iff`: a star takes a prefix, of any length.
* `Matches.star_of_le`: what a star matches from a place on, it matches from any earlier place on.
* `Matches.drop_of_forall_ne_star`: tokens without a star take one element each.
-/

namespace Library.Glob

variable {α : Type*}

inductive Token (α : Type*) where
  | star
  | any
  | char (c : α)
  deriving DecidableEq

/-- The list is made of what the tokens stand for. -/
def Matches : List (Token α) → List α → Prop
  | [], s => s = []
  | .star :: p, s => ∃ t u, s = t ++ u ∧ Matches p u
  | .any :: p, s => ∃ c u, s = c :: u ∧ Matches p u
  | .char c :: p, s => ∃ u, s = c :: u ∧ Matches p u

variable {s : List α} {p : List (Token α)}

@[simp] theorem matches_nil : Matches [] s ↔ s = [] := Iff.rfl

theorem matches_star_iff : Matches (.star :: p) s ↔ ∃ k ≤ s.length, Matches p (s.drop k) := by
  constructor
  · rintro ⟨t, u, rfl, h⟩
    exact ⟨t.length, by simp, by simpa using h⟩
  · rintro ⟨k, -, h⟩
    exact ⟨s.take k, s.drop k, (List.take_append_drop k s).symm, h⟩

@[simp] theorem matches_any_cons {c : α} : Matches (.any :: p) (c :: s) ↔ Matches p s := by
  constructor
  · rintro ⟨d, u, hs, h⟩
    rw [List.cons_eq_cons] at hs
    rw [hs.2]
    exact h
  · exact fun h => ⟨c, s, rfl, h⟩

@[simp] theorem matches_char_cons {c d : α} :
    Matches (.char c :: p) (d :: s) ↔ d = c ∧ Matches p s := by
  constructor
  · rintro ⟨u, hs, h⟩
    rw [List.cons_eq_cons] at hs
    rw [hs.2]
    exact ⟨hs.1, h⟩
  · rintro ⟨rfl, h⟩
    exact ⟨s, rfl, h⟩

/-- A token other than a star does not match the end. -/
theorem not_matches_cons_nil {t : Token α} (h : t ≠ .star) : ¬ Matches (t :: p) [] := by
  cases t with
  | star => exact absurd rfl h
  | any =>
    rintro ⟨c, u, hs, -⟩
    cases hs
  | char c =>
    rintro ⟨u, hs, -⟩
    cases hs

/-- A star can take more of what stands before it. -/
theorem Matches.star_of_le {i j : ℕ} (hij : i ≤ j)
    (h : Matches (.star :: p) (s.drop j)) : Matches (.star :: p) (s.drop i) := by
  obtain ⟨t, u, hs, hu⟩ := h
  refine ⟨(s.drop i).take (j - i) ++ t, u, ?_, hu⟩
  have hdrop : (s.drop i).drop (j - i) = s.drop j := by
    rw [List.drop_drop]
    congr 1
    omega
  rw [List.append_assoc, ← hs, ← hdrop, List.take_append_drop]

/-- Tokens without a star take one element each. -/
theorem Matches.drop_of_forall_ne_star {q : List (Token α)} (hq : ∀ t ∈ q, t ≠ .star)
    (h : Matches (q ++ p) s) :
    q.length ≤ s.length ∧ Matches p (s.drop q.length) := by
  induction q generalizing s with
  | nil => exact ⟨Nat.zero_le _, h⟩
  | cons t q ih =>
    have hrest : ∀ t ∈ q, t ≠ .star := fun t ht => hq t (List.mem_cons_of_mem _ ht)
    have hcons : ∃ c u, s = c :: u ∧ Matches (q ++ p) u := by
      cases t with
      | star => exact absurd rfl (hq .star List.mem_cons_self)
      | any => exact h
      | char c =>
        obtain ⟨u, hs, hu⟩ := h
        exact ⟨c, u, hs, hu⟩
    obtain ⟨c, u, rfl, hu⟩ := hcons
    obtain ⟨hlen, hmatch⟩ := ih hrest hu
    exact ⟨Nat.succ_le_succ hlen, hmatch⟩

end Library.Glob
