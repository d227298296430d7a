import Mathlib.Algebra.BigOperators.Group.List.Basic
import Mathlib.Algebra.Ring.Nat
import Mathlib.Tactic.Common

/-!
# Packing items into batches of bounded size

Items are packed in the order in which they come.  One batch is open; an item that would take it
over the limit closes it first.  An item larger than the limit has a batch of its own, so what is
known of a batch is `Fits`: its items come to at most the limit, or it has one item.

* `Packing`: the closed batches and the open one, with the bound as fields.
* `items_write`, `items_close`: no item is lost, repeated or moved.
* `closed_close`: what closing adds, nothing when no item is in the open batch.
-/

namespace Library

open List

variable {α : Type*} {size : α → ℕ} {limit : ℕ}

/-- The size of a batch. -/
def load (size : α → ℕ) (batch : List α) : ℕ := (batch.map size).sum

@[simp] theorem load_nil (size : α → ℕ) : load size [] = 0 := rfl

@[simp] theorem load_singleton (size : α → ℕ) (a : α) : load size [a] = size a := by
  simp [load]

theorem load_concat (size : α → ℕ) (batch : List α) (a : α) :
    load size (batch ++ [a]) = load size batch + size a := by
  simp [load]

/-- A batch within the limit, or of one item. -/
def Fits (size : α → ℕ) (limit : ℕ) (batch : List α) : Prop :=
  load size batch ≤ limit ∨ batch.length = 1

/-- The batches that were closed and the one that is open. -/
@[ext]
structure Packing (size : α → ℕ) (limit : ℕ) where
  closed : List (List α)
  opened : List α
  nonempty : [] ∉ closed
  fits : ∀ batch ∈ closed, Fits size limit batch
  opened_fits : Fits size limit opened

namespace Packing

/-- Nothing packed yet. -/
def empty : Packing size limit where
  closed := []
  opened := []
  nonempty := not_mem_nil
  fits := fun _ h => absurd h not_mem_nil
  opened_fits := Or.inl (Nat.zero_le _)

/-- All items, in order. -/
def items (p : Packing size limit) : List α := p.closed.flatten ++ p.opened

/-- Close the open batch, unless it is empty. -/
def close (p : Packing size limit) : Packing size limit :=
  if h : p.opened = [] then p
  else
    { closed := p.closed ++ [p.opened]
      opened := []
      nonempty := by
        rw [mem_append, mem_singleton, not_or]
        exact ⟨p.nonempty, fun e => h e.symm⟩
      fits := by
        intro batch hb
        rcases mem_append.mp hb with hb | hb
        · exact p.fits batch hb
        · rw [mem_singleton.mp hb]
          exact p.opened_fits
      opened_fits := Or.inl (Nat.zero_le _) }

/-- Pack one item. -/
def write (p : Packing size limit) (a : α) : Packing size limit :=
  if h : limit < load size p.opened + size a then
    { p.close with
      opened := [a]
      opened_fits := Or.inr rfl }
  else
    { p with
      opened := p.opened ++ [a]
      opened_fits := Or.inl (by rw [load_concat]; omega) }

@[simp] theorem items_empty : (empty : Packing size limit).items = [] := rfl

@[simp] theorem opened_close (p : Packing size limit) : p.close.opened = [] := by
  rw [close]
  split
  · assumption
  · rfl

variable {p : Packing size limit}

theorem close_of_nil (h : p.opened = []) : p.close = p := dif_pos h

theorem closed_close_of_ne (h : p.opened ≠ []) :
    p.close.closed = p.closed ++ [p.opened] := by
  rw [close, dif_neg h]

/-- **Closing moves no item.** -/
@[simp] theorem items_close (p : Packing size limit) : p.close.items = p.items := by
  by_cases h : p.opened = []
  · rw [close_of_nil h]
  · rw [items, items, opened_close, closed_close_of_ne h, flatten_append, flatten_singleton,
      append_nil]

/-- Once the open batch is closed, the closed ones hold everything. -/
theorem flatten_closed_close (p : Packing size limit) : p.close.closed.flatten = p.items := by
  have h := items_close p
  rwa [items, opened_close, append_nil] at h

/-- **An item is packed behind the others.** -/
@[simp] theorem items_write (p : Packing size limit) (a : α) :
    (p.write a).items = p.items ++ [a] := by
  rw [write]
  split
  · show p.close.closed.flatten ++ [a] = _
    rw [flatten_closed_close]
  · show p.closed.flatten ++ (p.opened ++ [a]) = _
    rw [items, append_assoc]

/-- No closed batch after closing means that there was nothing to pack. -/
theorem closed_close_eq_nil_iff : p.close.closed = [] ↔ p.items = [] := by
  constructor
  · intro h
    rw [← flatten_closed_close, h, flatten_nil]
  · intro h
    rw [items, append_eq_nil_iff] at h
    rw [close_of_nil h.2]
    rcases hc : p.closed with _ | ⟨batch, closed⟩
    · rfl
    · have hflat := h.1
      rw [hc, flatten_cons, append_eq_nil_iff] at hflat
      have hmem := p.nonempty
      rw [hc, hflat.1] at hmem
      exact absurd mem_cons_self hmem

end Packing

end Library
