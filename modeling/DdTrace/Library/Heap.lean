import Mathlib.Data.List.Basic
import Mathlib.Tactic.Common

/-!
# Objects by reference

A program that keeps references to objects: those that it was given, which its caller still has, and
those that it made.  A write is seen through every reference to the object.

* `read_write_of_ne`: a write is not seen through another reference.
* `write_read`: a write of what is there changes nothing.
* `read_alloc`: a new object leaves the others as they are.
-/

namespace Library

open List Option

/-- A reference to an object that was given, or to one that was made. -/
inductive Ref where
  | given (n : ℕ)
  | made (k : ℕ)
  deriving DecidableEq

structure Heap (α : Type*) where
  given : List α
  made : List α

namespace Heap

variable {α : Type*} [Inhabited α]

def read (h : Heap α) : Ref → α
  | .given n => h.given.getD n default
  | .made k => h.made.getD k default

def write (h : Heap α) (r : Ref) (a : α) : Heap α :=
  match r with
  | .given n => { h with given := h.given.set n a }
  | .made k => { h with made := h.made.set k a }

/-- A new object. -/
def alloc (h : Heap α) (a : α) : Heap α := { h with made := h.made ++ [a] }

/-- The reference to the next new object. -/
def next (h : Heap α) : Ref := .made h.made.length

@[simp] theorem read_write_of_ne {r r' : Ref} (hne : r' ≠ r) (h : Heap α) (a : α) :
    (h.write r a).read r' = h.read r' := by
  cases r with
  | given n =>
    cases r' with
    | given m =>
      have hnm : n ≠ m := fun heq => hne (heq ▸ rfl)
      show (h.given.set n a).getD m default = _
      rw [getD_eq_getElem?_getD, getElem?_set_ne hnm]
      exact getD_eq_getElem?_getD.symm
    | made k => rfl
  | made k =>
    cases r' with
    | given m => rfl
    | made j =>
      have hkj : k ≠ j := fun heq => hne (heq ▸ rfl)
      show (h.made.set k a).getD j default = _
      rw [getD_eq_getElem?_getD, getElem?_set_ne hkj]
      exact getD_eq_getElem?_getD.symm

theorem read_write_made {h : Heap α} {k : ℕ} (hk : k < h.made.length) (a : α) :
    (h.write (.made k) a).read (.made k) = a := by
  show (h.made.set k a).getD k default = a
  rw [getD_eq_getElem?_getD, getElem?_set_self hk, getD_some]

/-- Writing what is there. -/
theorem write_read (h : Heap α) (r : Ref) : h.write r (h.read r) = h := by
  have hset : ∀ (l : List α) (n : ℕ), l.set n (l.getD n default) = l := by
    intro l n
    by_cases hn : n < l.length
    · rw [getD_eq_getElem?_getD, getElem?_eq_getElem hn, getD_some, set_getElem_self]
    · exact set_eq_of_length_le (Nat.not_lt.mp hn)
  cases r with
  | given n =>
    show { h with given := h.given.set n (h.given.getD n default) } = h
    rw [hset]
  | made k =>
    show { h with made := h.made.set k (h.made.getD k default) } = h
    rw [hset]

/-- **A new object leaves the others as they are.** -/
theorem read_alloc {h : Heap α} {r : Ref} (hr : ∀ k, r = .made k → k < h.made.length) (a : α) :
    (h.alloc a).read r = h.read r := by
  cases r with
  | given n => rfl
  | made k =>
    have hk := hr k rfl
    show (h.made ++ [a]).getD k default = h.made.getD k default
    rw [getD_eq_getElem?_getD, getElem?_append_left hk]
    exact getD_eq_getElem?_getD.symm

@[simp] theorem read_next (h : Heap α) (a : α) : (h.alloc a).read h.next = a := by
  show (h.made ++ [a]).getD h.made.length default = a
  rw [getD_eq_getElem?_getD, getElem?_concat_length, getD_some]

end Heap
end Library
