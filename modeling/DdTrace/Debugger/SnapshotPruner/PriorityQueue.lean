import Mathlib.Data.Int.Basic
import Mathlib.Data.List.Basic
import Mathlib.Tactic.Common

/-!
# The queue of the snapshot pruner

Objects are pruned in the order in which a binary heap hands them out.  A comparison of two of
them reads their sizes and can fail, so that every operation can.

Which object comes first is of no consequence for what the pruner may and may not do to a text.
What counts is that the queue neither loses nor doubles one, and that it does not fail where its
comparisons do not.

* `exists_push`, `exists_pop`: both, for the two operations.
* `bubbleUp_succ`, `bubbleDown_succ`: the loops end by themselves within the rounds that they
  are given.
-/

namespace DdTrace.Debugger.SnapshotPruner.PriorityQueue

open List Option

variable {α : Type*} (compare : α → α → Option ℤ)

/-- `[heap[i], heap[j]] = [heap[j], heap[i]]` -/
def swap (heap : List α) (i j : ℕ) : List α :=
  match heap[i]?, heap[j]? with
  | some a, some b => (heap.set i b).set j a
  | _, _ => heap

/-- `#bubbleUp`, for so many rounds. -/
def bubbleUp : ℕ → ℕ → List α → Option (List α)
  | 0, _, heap => some heap
  | rounds + 1, index, heap =>
    if index = 0 then some heap
    else
      match heap[index]?, heap[(index - 1) / 2]? with
      | some a, some b =>
        match compare a b with
        | some c =>
          if c ≤ 0 then some heap
          else bubbleUp rounds ((index - 1) / 2) (swap heap index ((index - 1) / 2))
        | none => none
      | _, _ => none

/-- The one of two positions that `largest` is after the comparison with a child. -/
def larger (heap : List α) (largest child : ℕ) : Option ℕ :=
  match heap[child]?, heap[largest]? with
  | some a, some b => (compare a b).map fun c => if 0 < c then child else largest
  | some _, none => none
  | none, _ => some largest

/-- `#bubbleDown`, for so many rounds. -/
def bubbleDown : ℕ → ℕ → List α → Option (List α)
  | 0, _, heap => some heap
  | rounds + 1, index, heap =>
    match (larger compare heap index (2 * index + 1)).bind fun largest =>
        larger compare heap largest (2 * index + 2) with
    | some largest =>
      if largest = index then some heap
      else bubbleDown rounds largest (swap heap index largest)
    | none => none

def push (heap : List α) (node : α) : Option (List α) :=
  bubbleUp compare heap.length heap.length (heap ++ [node])

/-- What is popped, if anything, and what stays. -/
def pop : List α → Option (Option α × List α)
  | [] => some (none, [])
  | [top] => some (some top, [])
  | top :: next :: rest =>
    (bubbleDown compare (rest.length + 1) 0
      ((next :: rest).getLast (cons_ne_nil _ _) :: (next :: rest).dropLast)).map
      fun heap => (some top, heap)

/-! ## Nothing is lost -/

theorem swap_perm (heap : List α) (i j : ℕ) : (swap heap i j).Perm heap := by
  unfold swap
  split
  · next a b ha hb =>
    obtain ⟨hi, rfl⟩ := List.getElem?_eq_some_iff.mp ha
    obtain ⟨hj, rfl⟩ := List.getElem?_eq_some_iff.mp hb
    exact set_set_perm hi hj
  · exact List.Perm.refl heap

/-- The items whose comparison does not fail. -/
def Comparable (heap : List α) : Prop := ∀ a ∈ heap, ∀ b ∈ heap, (compare a b).isSome = true

variable {compare}

variable {heap : List α}

theorem Comparable.perm {heap' : List α} (h : Comparable compare heap)
    (hp : heap'.Perm heap) : Comparable compare heap' := fun a ha b hb =>
  h a (hp.subset ha) b (hp.subset hb)

theorem Comparable.exists_eq (h : Comparable compare heap) {i j : ℕ} {a b : α}
    (ha : heap[i]? = some a) (hb : heap[j]? = some b) : ∃ c, compare a b = some c :=
  isSome_iff_exists.mp (h a (mem_of_getElem? ha) b (mem_of_getElem? hb))

theorem exists_bubbleUp (rounds index : ℕ) (h : Comparable compare heap)
    (hindex : index < heap.length) :
    ∃ heap', bubbleUp compare rounds index heap = some heap' ∧ heap'.Perm heap := by
  induction rounds generalizing index heap with
  | zero => exact ⟨heap, rfl, List.Perm.refl heap⟩
  | succ rounds ih =>
    rw [bubbleUp]
    by_cases h0 : index = 0
    · rw [if_pos h0]
      exact ⟨heap, rfl, List.Perm.refl heap⟩
    · have hparent : (index - 1) / 2 < heap.length := by omega
      rw [if_neg h0]
      have ha := getElem?_eq_getElem hindex
      have hb := getElem?_eq_getElem hparent
      obtain ⟨c, hc⟩ := h.exists_eq ha hb
      simp only [ha, hb, hc]
      by_cases hle : c ≤ 0
      · rw [if_pos hle]
        exact ⟨heap, rfl, List.Perm.refl heap⟩
      · rw [if_neg hle]
        have hswap := swap_perm heap index ((index - 1) / 2)
        obtain ⟨heap', heq, hperm⟩ := ih _ (h.perm hswap) (by rwa [hswap.length_eq])
        exact ⟨heap', heq, hperm.trans hswap⟩

/-- **A push adds one item.** -/
theorem exists_push {node : α} (h : Comparable compare (node :: heap)) :
    ∃ heap', push compare heap node = some heap' ∧ heap'.Perm (node :: heap) := by
  have hperm : (heap ++ [node]).Perm (node :: heap) := perm_append_singleton node heap
  obtain ⟨heap', heq, hperm'⟩ := exists_bubbleUp heap.length heap.length (h.perm hperm) (by simp)
  exact ⟨heap', heq, hperm'.trans hperm⟩

theorem exists_larger (h : Comparable compare heap) {largest : ℕ} (child : ℕ)
    (hl : largest < heap.length) :
    ∃ l, larger compare heap largest child = some l ∧ l < heap.length := by
  unfold larger
  rw [getElem?_eq_getElem hl]
  rcases hchild : heap[child]? with _ | a
  · exact ⟨largest, rfl, hl⟩
  · obtain ⟨c, hc⟩ := h.exists_eq hchild (getElem?_eq_getElem hl)
    simp only [hc, map_some]
    by_cases hpos : 0 < c
    · exact ⟨child, by rw [if_pos hpos], (List.getElem?_eq_some_iff.mp hchild).1⟩
    · exact ⟨largest, by rw [if_neg hpos], hl⟩

theorem exists_bubbleDown (rounds index : ℕ) (h : Comparable compare heap)
    (hindex : index < heap.length) :
    ∃ heap', bubbleDown compare rounds index heap = some heap' ∧ heap'.Perm heap := by
  induction rounds generalizing index heap with
  | zero => exact ⟨heap, rfl, List.Perm.refl heap⟩
  | succ rounds ih =>
    obtain ⟨left, hleft, hleft'⟩ := exists_larger h (2 * index + 1) hindex
    obtain ⟨largest, hlargest, hlargest'⟩ := exists_larger h (2 * index + 2) hleft'
    simp only [bubbleDown, hleft, bind_some, hlargest]
    by_cases heq : largest = index
    · rw [if_pos heq]
      exact ⟨heap, rfl, List.Perm.refl heap⟩
    · rw [if_neg heq]
      have hswap := swap_perm heap index largest
      obtain ⟨heap', heq', hperm⟩ := ih _ (h.perm hswap) (by rwa [hswap.length_eq])
      exact ⟨heap', heq', hperm.trans hswap⟩

/-- **A pop takes one item.** -/
theorem exists_pop (h : Comparable compare heap) (hne : heap ≠ []) :
    ∃ top heap', pop compare heap = some (some top, heap') ∧ (top :: heap').Perm heap := by
  match heap, hne with
  | [top], _ => exact ⟨top, [], rfl, List.Perm.refl [top]⟩
  | top :: next :: rest, _ =>
    have hne' : next :: rest ≠ [] := cons_ne_nil next rest
    have hperm : ((next :: rest).getLast hne' :: (next :: rest).dropLast).Perm (next :: rest) := by
      conv_rhs => rw [← dropLast_append_getLast hne']
      exact (perm_append_singleton _ _).symm
    have hrest : Comparable compare (next :: rest) := fun a ha b hb =>
      h a (mem_cons_of_mem top ha) b (mem_cons_of_mem top hb)
    obtain ⟨heap', heq, hperm'⟩ := exists_bubbleDown (rest.length + 1) 0
      (hrest.perm hperm) (by simp)
    refine ⟨top, heap', ?_, (hperm'.trans hperm).cons top⟩
    rw [pop, heq, map_some]

/-! ## The loops end by themselves -/

/-- The position halves in each round of the way up. -/
theorem bubbleUp_succ {rounds index : ℕ} (h : index ≤ rounds) :
    bubbleUp compare (rounds + 1) index heap = bubbleUp compare rounds index heap := by
  induction rounds generalizing index heap with
  | zero =>
    obtain rfl : index = 0 := Nat.le_zero.mp h
    rw [bubbleUp.eq_2, if_pos rfl, bubbleUp.eq_1]
  | succ rounds ih =>
    rw [bubbleUp.eq_2, bubbleUp.eq_2 compare index heap rounds]
    by_cases h0 : index = 0
    · rw [if_pos h0, if_pos h0]
    · have hparent : (index - 1) / 2 ≤ rounds := by omega
      simp only [ih hparent]

theorem larger_cases {largest child l : ℕ} (h : larger compare heap largest child = some l) :
    l = largest ∨ l = child ∧ child < heap.length := by
  unfold larger at h
  split at h
  · next a b ha hb =>
    rw [map_eq_some_iff] at h
    obtain ⟨c, -, rfl⟩ := h
    split_ifs with hc
    · exact Or.inr ⟨rfl, (List.getElem?_eq_some_iff.mp ha).1⟩
    · exact Or.inl rfl
  · cases h
  · exact Or.inl (some.inj h).symm

/-- The position moves towards the end in each round of the way down. -/
theorem bubbleDown_succ {rounds index : ℕ} (h : heap.length ≤ index + 1 + rounds) :
    bubbleDown compare (rounds + 1) index heap = bubbleDown compare rounds index heap := by
  induction rounds generalizing index heap with
  | zero =>
    have hleft : heap[2 * index + 1]? = none := getElem?_eq_none (by omega)
    have hright : heap[2 * index + 2]? = none := getElem?_eq_none (by omega)
    simp [bubbleDown, larger, hleft, hright]
  | succ rounds ih =>
    rw [bubbleDown.eq_2, bubbleDown.eq_2]
    rcases hlargest : (larger compare heap index (2 * index + 1)).bind fun largest =>
        larger compare heap largest (2 * index + 2) with _ | largest
    · rfl
    · dsimp only
      by_cases heq : largest = index
      · rw [if_pos heq, if_pos heq]
      · have hlt : index < largest := by
          obtain ⟨left, hleft, hright⟩ := bind_eq_some_iff.mp hlargest
          have hleft' := larger_cases hleft
          have hright' := larger_cases hright
          omega
        have hlen := (swap_perm heap index largest).length_eq
        rw [if_neg heq, if_neg heq, ih (by omega)]

end DdTrace.Debugger.SnapshotPruner.PriorityQueue
