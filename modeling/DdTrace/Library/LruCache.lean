import Mathlib.Data.List.Dedup
import Mathlib.Data.List.Perm.Subperm
import Mathlib.Tactic.Common

/-!
# Caches that drop what was used least recently

A cache of at most `max` entries, as the list of its entries from the most recently used to the
least.  `get` makes an entry the most recent one; `set` puts one in front and drops what is then too
much at the end.

A program that keeps counters in such a cache reads a default value where there is no entry, so a
dropped entry is harmless as long as it held that value.  `Keeps` is the invariant that carries this:
the entries of a group of keys stand before all others, except such harmless ones.  When the group is
no larger than the cache, `get` and `set` within the group keep the invariant and never change what
is read of another key (`keeps_set`, `read_set`).
-/

namespace Library

open List

/-- A cache with its capacity. -/
structure LruCache (κ ν : Type*) where
  max : ℕ
  entries : List (κ × ν)
  nodup : (entries.map Prod.fst).Nodup
  length_le : entries.length ≤ max

namespace LruCache

variable {κ ν : Type*} [DecidableEq κ]

/-- The cache without entries. -/
def empty (max : ℕ) : LruCache κ ν := ⟨max, [], nodup_nil, Nat.zero_le max⟩

/-- The entries of the other keys. -/
def others (l : List (κ × ν)) (k : κ) : List (κ × ν) := l.filter fun e => e.1 ≠ k

theorem others_append (l l' : List (κ × ν)) (k : κ) :
    others (l ++ l') k = others l k ++ others l' k := filter_append l l'

/-- `peek`: the value, with no effect on the order. -/
def peek (c : LruCache κ ν) (k : κ) : Option ν := c.entries.lookup k

variable {l : List (κ × ν)}

theorem nodup_cons_others (h : (l.map Prod.fst).Nodup) (k : κ) (v : ν) :
    (((k, v) :: others l k).map Prod.fst).Nodup := by
  rw [map_cons, nodup_cons]
  refine ⟨?_, h.sublist (filter_sublist.map _)⟩
  intro hk
  obtain ⟨e, he, hek⟩ := mem_map.mp hk
  have hne := (mem_filter.mp he).2
  simp [hek] at hne

/-- `set` -/
def set (c : LruCache κ ν) (k : κ) (v : ν) : LruCache κ ν where
  max := c.max
  entries := ((k, v) :: others c.entries k).take c.max
  nodup := (nodup_cons_others c.nodup k v).sublist ((take_sublist _ _).map _)
  length_le := by
    rw [length_take]
    exact Nat.min_le_left _ _

/-- `get`, as far as the order goes. -/
def touch (c : LruCache κ ν) (k : κ) : LruCache κ ν :=
  match c.peek k with
  | some v => c.set k v
  | none => c

/-- What is read of a key, with a default. -/
def read (c : LruCache κ ν) (d : ν) (k : κ) : ν := (c.peek k).getD d

variable {c : LruCache κ ν} {K : List κ} {d v : ν} {j k : κ}

theorem lookup_others (h : j ≠ k) : (others l k).lookup j = l.lookup j := by
  induction l with
  | nil => rfl
  | cons e l ih =>
    obtain ⟨i, w⟩ := e
    by_cases hi : i = k
    · have hij : (j == i) = false := by simpa [hi] using h
      rw [others, filter_cons_of_neg (by simpa using hi), List.lookup_cons, hij]
      exact ih
    · rw [others, filter_cons_of_pos (by simpa using hi), List.lookup_cons, List.lookup_cons]
      cases j == i with
      | true => rfl
      | false => exact ih

/-- What is found in a list whose entries under the key all hold the default reads as the
default. -/
theorem getD_lookup_eq (h : ∀ e ∈ l, e.1 = k → e.2 = d) : (l.lookup k).getD d = d := by
  induction l with
  | nil => rfl
  | cons e l ih =>
    obtain ⟨i, w⟩ := e
    rw [List.lookup_cons]
    cases hi : k == i with
    | true => exact h (i, w) mem_cons_self (beq_iff_eq.mp hi).symm
    | false => exact ih (forall_mem_cons.mp h).2

/-- The entries of the keys in `K` come first, except for some that hold the default. -/
def Keeps (c : LruCache κ ν) (K : List κ) (d : ν) : Prop :=
  ∃ front back, c.entries = front ++ back ∧ (∀ e ∈ front, e.1 ∈ K) ∧ ∀ e ∈ back, e.1 ∈ K → e.2 = d

/-- Every cache keeps a group whose entries all hold the default. -/
theorem keeps_of_default (h : ∀ k ∈ K, c.read d k = d) : c.Keeps K d := by
  refine ⟨[], c.entries, rfl, fun e he => absurd he not_mem_nil, fun e he hk => ?_⟩
  have hlookup : c.entries.lookup e.1 = some e.2 := by
    have hnodup := c.nodup
    revert he
    generalize c.entries = l at hnodup
    intro he
    induction l with
    | nil => exact absurd he not_mem_nil
    | cons x l ih =>
      rw [map_cons, nodup_cons] at hnodup
      rw [List.lookup_cons]
      rcases mem_cons.mp he with rfl | he
      · rw [beq_self_eq_true]
      · have hne : (e.1 == x.1) = false := by
          rw [beq_eq_false_iff_ne]
          rintro heq
          exact hnodup.1 (heq ▸ mem_map_of_mem he)
        rw [hne]
        exact ih hnodup.2 he
  have hread := h e.1 hk
  rwa [read, peek, hlookup] at hread

/-- What `set` leaves of the two parts. -/
theorem entries_set (h : c.Keeps K d) (hk : k ∈ K) (hlen : K.length ≤ c.max) (v : ν) :
    ∃ front back n, c.entries = front ++ back ∧ (∀ e ∈ front, e.1 ∈ K) ∧
      (∀ e ∈ back, e.1 ∈ K → e.2 = d) ∧
      (c.set k v).entries = (k, v) :: (others front k ++ (others back k).take n) := by
  obtain ⟨front, back, hentries, hfront, hback⟩ := h
  have hshort : (((k, v) :: others front k).map Prod.fst).length ≤ K.length := by
    have hnodup : (((k, v) :: others front k).map Prod.fst).Nodup := by
      have hall := c.nodup
      rw [hentries, map_append] at hall
      exact nodup_cons_others hall.of_append_left k v
    refine (hnodup.subperm ?_).length_le
    intro i hi
    rcases mem_cons.mp hi with rfl | hi
    · exact hk
    · obtain ⟨e, he, rfl⟩ := mem_map.mp hi
      exact hfront e (mem_of_mem_filter he)
  rw [length_map] at hshort
  refine ⟨front, back, c.max - ((k, v) :: others front k).length, hentries, hfront, hback, ?_⟩
  show ((k, v) :: others c.entries k).take c.max = _
  rw [hentries, others_append, ← cons_append, take_append,
    take_of_length_le (Nat.le_trans hshort hlen)]
  rfl

/-- **`set` within the group.** -/
theorem keeps_set (h : c.Keeps K d) (hk : k ∈ K) (hlen : K.length ≤ c.max) (v : ν) :
    (c.set k v).Keeps K d := by
  obtain ⟨front, back, n, -, hfront, hback, hset⟩ := entries_set h hk hlen v
  refine ⟨(k, v) :: others front k, (others back k).take n, hset, fun e he => ?_, fun e he => ?_⟩
  · rcases mem_cons.mp he with rfl | he
    · exact hk
    · exact hfront e (mem_of_mem_filter he)
  · exact hback e (mem_of_mem_filter (mem_of_mem_take he))

/-- It changes what is read of its key, and of no other one in the group. -/
theorem read_set (h : c.Keeps K d) (hk : k ∈ K) (hlen : K.length ≤ c.max) (v : ν) (hj : j ∈ K) :
    (c.set k v).read d j = if j = k then v else c.read d j := by
  obtain ⟨front, back, n, hentries, -, hback, hset⟩ := entries_set h hk hlen v
  rw [read, peek, hset, List.lookup_cons]
  by_cases hjk : j = k
  · rw [if_pos hjk, hjk, beq_self_eq_true]
    rfl
  · have hne : (j == k) = false := by simpa using hjk
    rw [if_neg hjk, hne, read, peek, hentries]
    rw [lookup_append, lookup_append, lookup_others hjk]
    cases front.lookup j with
    | some w => rfl
    | none =>
      rw [Option.none_or, Option.none_or]
      rw [getD_lookup_eq fun e he hej => hback e he (hej ▸ hj), getD_lookup_eq]
      intro e he hej
      exact hback e (mem_of_mem_filter (mem_of_mem_take he)) (hej ▸ hj)

/-- **`get` within the group** changes nothing that is read. -/
theorem keeps_touch (h : c.Keeps K d) (hk : k ∈ K) (hlen : K.length ≤ c.max) :
    (c.touch k).Keeps K d ∧ (c.touch k).max = c.max ∧
      ∀ j ∈ K, (c.touch k).read d j = c.read d j := by
  unfold touch
  cases hv : c.peek k with
  | none => exact ⟨h, rfl, fun _ _ => rfl⟩
  | some v =>
    refine ⟨keeps_set h hk hlen v, rfl, fun j hj => ?_⟩
    rw [read_set h hk hlen v hj]
    split
    · next hjk => rw [hjk, read, hv, Option.getD_some]
    · rfl

end LruCache
end Library
