import Mathlib.Data.List.Induction
import Mathlib.Tactic.Common

/-!
# A budget that moves along a sequence

A sequence of keyed events happens the same way again and again, and each time only `b` of them may
be taken.  To come to the later ones, a pass skips what was taken before: it counts the events of
each key as they come, and skips one while its count is below the count that is remembered.

* `Quota.scan`: one pass.
* `scan_window`: **when the remembered counts are those of the first `q` events, the pass takes the
  events from `q` on, `b` of them or as many as there are**, and its own counts are those of the first
  `q + b`.
-/

namespace Library.Quota

open List

variable {κ : Type*} [DecidableEq κ]

/-- A pass under way: its counts, what is left of the budget and which events it took. -/
structure Scan (κ : Type*) where
  count : κ → ℕ
  tokens : ℕ
  taken : List Bool

/-- The start of a pass. -/
def start (b : ℕ) : Scan κ := ⟨fun _ => 0, b, []⟩

/-- One more of a key. -/
def bump (count : κ → ℕ) (k : κ) : κ → ℕ := fun j => if j = k then count j + 1 else count j

/-- One event, against the counts remembered before the pass. -/
def step (seen : κ → ℕ) (s : Scan κ) (k : κ) : Scan κ :=
  if s.tokens = 0 then { s with taken := s.taken ++ [false] }
  else if s.count k < seen k then ⟨bump s.count k, s.tokens, s.taken ++ [false]⟩
  else ⟨bump s.count k, s.tokens - 1, s.taken ++ [true]⟩

/-- A pass over a sequence. -/
def scan (seen : κ → ℕ) (b : ℕ) (ks : List κ) : Scan κ := ks.foldl (step seen) (start b)

theorem scan_concat (seen : κ → ℕ) (b : ℕ) (ks : List κ) (k : κ) :
    scan seen b (ks ++ [k]) = step seen (scan seen b ks) k := by
  rw [scan, foldl_append]
  rfl

/-- Only the counts of keys that come are looked at. -/
theorem scan_congr {seen seen' : κ → ℕ} (b : ℕ) {ks : List κ} (h : ∀ k ∈ ks, seen k = seen' k) :
    scan seen b ks = scan seen' b ks := by
  induction ks using List.reverseRecOn with
  | nil => rfl
  | append_singleton ks k ih =>
    rw [scan_concat, scan_concat, ih (forall_mem_append.mp h).1, step, step,
      h k (mem_append_right _ mem_cons_self)]

theorem bump_count (ks : List κ) (k : κ) :
    bump (fun j => ks.count j) k = fun j => (ks ++ [k]).count j := by
  funext j
  rw [bump, List.count_append, count_singleton]
  by_cases h : j = k
  · rw [if_pos h, if_pos (by simp [h])]
  · rw [if_neg h, if_neg (by simpa using fun hk => h hk.symm), Nat.add_zero]

/-- The test that a pass skips by: fewer of the key have come than stand among the first `q`
events exactly when the event is one of these. -/
theorem count_lt_count_take {pre rest : List κ} {k : κ} {q : ℕ} :
    pre.count k < ((pre ++ k :: rest).take q).count k ↔ pre.length < q := by
  constructor
  · intro h
    by_contra hq
    have hhead : (pre ++ k :: rest).take q = pre.take q := by
      rw [take_append, Nat.sub_eq_zero_of_le (Nat.not_lt.mp hq), take_zero, append_nil]
    rw [hhead] at h
    exact absurd ((take_sublist q pre).count_le k) (Nat.not_le.mpr h)
  · intro hq
    obtain ⟨m, hm⟩ : ∃ m, q - pre.length = m + 1 := ⟨q - pre.length - 1, by omega⟩
    rw [take_append, take_of_length_le (Nat.le_of_lt hq), hm, take_succ_cons,
      List.count_append, count_cons_self]
    omega

/-- **The window of a pass.** -/
theorem scan_window {b q : ℕ} (hb : 0 < b) (ks : List κ) : ∀ pre rest, ks = pre ++ rest →
      scan (fun k => (ks.take q).count k) b pre =
        ⟨fun k => (pre.take (q + b)).count k, b - (pre.length - q),
          (List.range pre.length).map fun i => decide (q ≤ i ∧ i < q + b)⟩ := by
  intro pre
  induction pre using List.reverseRecOn with
  | nil =>
    intro rest _
    show start b = _
    simp [start]
  | append_singleton pre k ih =>
    intro rest hks
    rw [append_assoc] at hks
    rw [scan_concat, ih _ hks, step, length_append, length_singleton, range_succ, map_append]
    dsimp only
    by_cases hend : q + b ≤ pre.length
    · have hflag : decide (q ≤ pre.length ∧ pre.length < q + b) = false := by
        rw [decide_eq_false_iff_not]
        omega
      have htake : (pre ++ [k]).take (q + b) = pre.take (q + b) := by
        rw [take_append, Nat.sub_eq_zero_of_le hend, take_zero, append_nil]
      rw [if_pos (by omega), htake, map_singleton, hflag]
      congr 1
      omega
    · have htake : pre.take (q + b) = pre := take_of_length_le (by omega)
      have htake' : (pre ++ [k]).take (q + b) = pre ++ [k] := by
        apply take_of_length_le
        rw [length_append, length_singleton]
        omega
      rw [if_neg (by omega), htake, htake', bump_count, map_singleton]
      have htest : pre.count k < (ks.take q).count k ↔ pre.length < q := by
        rw [hks]
        exact count_lt_count_take
      by_cases hq : pre.length < q
      · have hflag : decide (q ≤ pre.length ∧ pre.length < q + b) = false := by
          rw [decide_eq_false_iff_not]
          omega
        rw [if_pos (htest.mpr hq), hflag]
        congr 1
        omega
      · have hflag : decide (q ≤ pre.length ∧ pre.length < q + b) = true := by
          rw [decide_eq_true_iff]
          omega
        rw [if_neg fun h => hq (htest.mp h), hflag]
        congr 1
        omega

end Library.Quota
