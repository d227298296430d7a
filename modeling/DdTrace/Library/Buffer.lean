import Mathlib.Data.List.Forall2
import Mathlib.Tactic.Common

/-!
# Buffers

A buffer has a fixed number of entries and is assigned to one entry at a time; an assignment
beyond its end has no effect.  What is known about a buffer that is filled from the front is a log
of entries, some of which are room that was left and may hold anything.

* `store_eq`: assignments to consecutive entries, as long as they stay inside.
* `Shows`: the entries are those of the log, except where the log leaves room.
* `shows_map_some_iff`: without room, they are the log.
* `Shows.append`, `Shows.take`, `Shows.store`: writing at the end, cutting back, and writing over
  a part.
-/

namespace Library.Buffer

open List

variable {α : Type*}

/-- Assignments to the entries from `offset` on. -/
def store (buffer : List α) (offset : ℕ) : List α → List α
  | [] => buffer
  | a :: l => store (buffer.set offset a) (offset + 1) l

@[simp] theorem store_nil (buffer : List α) (offset : ℕ) : store buffer offset [] = buffer := rfl

@[simp] theorem length_store (buffer : List α) (offset : ℕ) (l : List α) :
    (store buffer offset l).length = buffer.length := by
  induction l generalizing buffer offset with
  | nil => rfl
  | cons a l ih => rw [store, ih, length_set]

/-- Assignments that stay inside the buffer. -/
theorem store_eq {buffer : List α} {offset : ℕ} {l : List α}
    (h : offset + l.length ≤ buffer.length) :
    store buffer offset l = buffer.take offset ++ l ++ buffer.drop (offset + l.length) := by
  induction l generalizing buffer offset with
  | nil => simp
  | cons a l ih =>
    rw [length_cons] at h
    have hset : buffer.set offset a = (buffer.take offset ++ [a]) ++ buffer.drop (offset + 1) := by
      rw [set_eq_take_append_cons_drop, if_pos (by omega), append_assoc]
      rfl
    have hfront : (buffer.take offset ++ [a]).length = offset + 1 := by
      rw [length_append, length_take, length_singleton]
      omega
    have hrest : (buffer.set offset a).drop (offset + 1 + l.length) =
        buffer.drop (offset + 1 + l.length) := by
      rw [hset, ← drop_drop, drop_left' hfront, drop_drop]
    rw [store, ih (by rw [length_set]; omega), hrest, hset, take_left' hfront,
      Nat.add_assoc, Nat.add_comm 1]
    simp

/-- Assignments behind what is known. -/
theorem store_append {n : ℕ} {l m rest : List α} (hl : l.length = n) (h : m.length ≤ rest.length) :
    store (l ++ rest) n m = (l ++ m) ++ rest.drop m.length := by
  subst hl
  rw [store_eq (by rw [length_append]; omega), take_left, ← drop_drop, drop_left]

/-- What is before the assignments. -/
theorem take_store {buffer : List α} {offset : ℕ} {l : List α}
    (h : offset + l.length ≤ buffer.length) :
    (store buffer offset l).take (offset + l.length) = buffer.take offset ++ l := by
  have hlen : (buffer.take offset ++ l).length = offset + l.length := by
    rw [length_append, length_take]
    omega
  rw [store_eq h, ← hlen, take_left]

/-- Assignments to the first entries of a buffer leave the others. -/
theorem take_store_of_le {buffer : List α} {offset n : ℕ} {l : List α}
    (h : offset + l.length ≤ n) (hn : n ≤ buffer.length) :
    (store buffer offset l).take n = store (buffer.take n) offset l := by
  have hlen : (buffer.take n).length = n := by
    rw [length_take]
    omega
  have hfront : (buffer.take offset ++ l).length = offset + l.length := by
    rw [length_append, length_take]
    omega
  rw [store_eq (by omega), store_eq (by omega), take_append, take_of_length_le (by omega),
    hfront, take_take, Nat.min_eq_left (by omega), drop_take]

/-! ## Logs with room -/

/-- The entries are those of the log, which does not say what is in the room it leaves. -/
def Shows (l : List α) (log : List (Option α)) : Prop :=
  List.Forall₂ (fun a entry => ∀ b ∈ entry, b = a) l log

theorem shows_nil : Shows ([] : List α) [] := List.Forall₂.nil

theorem Shows.length_eq {l : List α} {log : List (Option α)} (h : Shows l log) :
    l.length = log.length := List.Forall₂.length_eq h

/-- **A log without room** is all that there is. -/
theorem shows_map_some_iff {l written : List α} : Shows l (written.map some) ↔ l = written := by
  constructor
  · intro h
    induction written generalizing l with
    | nil => exact List.forall₂_nil_right_iff.mp h
    | cons b written ih =>
      obtain ⟨a, l, ha, hl, rfl⟩ := List.forall₂_cons_right_iff.mp h
      rw [ha b rfl, ih hl]
  · rintro rfl
    refine List.forall₂_map_right_iff.mpr (List.forall₂_same.mpr fun a _ b hb => ?_)
    exact (Option.some.inj hb).symm

theorem Shows.eq_map_some {l : List α} {log : List (Option α)} (h : Shows l log)
    (hlog : ∀ entry ∈ log, entry.isSome) : log = l.map some := by
  induction h with
  | nil => rfl
  | @cons a entry l log ha _ ih =>
    obtain ⟨b, rfl⟩ := Option.isSome_iff_exists.mp (hlog entry mem_cons_self)
    rw [map_cons, ha b rfl, ih (forall_mem_cons.mp hlog).2]

/-- Nothing is known of room. -/
theorem shows_room (l : List α) : Shows l (List.replicate l.length none) := by
  induction l with
  | nil => exact shows_nil
  | cons a l ih => exact List.Forall₂.cons (fun b hb => by cases hb) ih

theorem Shows.append {l m : List α} {log entries : List (Option α)} (h : Shows l log)
    (hm : Shows m entries) : Shows (l ++ m) (log ++ entries) := rel_append h hm

theorem Shows.take {l : List α} {log : List (Option α)} (h : Shows l log) (n : ℕ) :
    Shows (l.take n) (log.take n) := List.forall₂_take n h

theorem Shows.drop {l : List α} {log : List (Option α)} (h : Shows l log) (n : ℕ) :
    Shows (l.drop n) (log.drop n) := List.forall₂_drop n h

/-- Writing over a part of the log. -/
theorem Shows.store {l m : List α} {log entries : List (Option α)} {offset : ℕ}
    (h : Shows l log) (hm : Shows m entries) (hle : offset + m.length ≤ l.length) :
    Shows (Buffer.store l offset m) (Buffer.store log offset entries) := by
  rw [store_eq hle, store_eq (by rw [← hm.length_eq, ← h.length_eq]; exact hle), ← hm.length_eq]
  exact ((h.take offset).append hm).append (h.drop _)

/-- No room is left by writing over a part of a log without any. -/
theorem isSome_of_mem_store {log entries : List (Option α)} {offset : ℕ}
    (hlog : ∀ entry ∈ log, entry.isSome) (hentries : ∀ entry ∈ entries, entry.isSome) :
    ∀ entry ∈ Buffer.store log offset entries, entry.isSome := by
  induction entries generalizing log offset with
  | nil => exact hlog
  | cons a entries ih =>
    refine ih (fun entry hmem => ?_) (fun entry hmem => hentries entry (mem_cons_of_mem a hmem))
    rcases mem_or_eq_of_mem_set hmem with h | rfl
    · exact hlog entry h
    · exact hentries _ mem_cons_self

end Library.Buffer
