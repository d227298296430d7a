import Mathlib.Data.List.Sort
import Mathlib.Data.List.TakeWhile

/-!
# Settings on top of each other

Several sources set something or leave it open.  They are sorted by a rank, where the sort is
stable, and each overrides what is before it.

* `overlay_of_wins`: what comes out is the setting of the last source of the highest rank that has
  one.
* `exists_wins`: there is such a source as soon as any source has a setting.
* `overlay_eq_none_iff`: else nothing comes out.
* `overlay_perm`: the order of the sources does not matter where sources of the same rank agree.
-/

namespace Library.Overlay

open List Option

variable {α β : Type*}

/-- Each source overrides what is before it. -/
def top (setting : α → Option β) (l : List α) : Option β :=
  l.foldl (fun below a => (setting a).or below) none

/-- The sources in the order of their ranks. -/
def sorted (rank : α → ℕ) (l : List α) : List α := l.insertionSort fun a b => rank a ≤ rank b

def overlay (rank : α → ℕ) (setting : α → Option β) (l : List α) : Option β :=
  top setting (sorted rank l)

/-- A source that has a setting, and the last one of its rank, which is the highest. -/
def Wins (rank : α → ℕ) (setting : α → Option β) (l : List α) (a : α) : Prop :=
  ∃ l₁ l₂, l = l₁ ++ a :: l₂ ∧ (setting a).isSome ∧
    (∀ b ∈ l₁, (setting b).isSome → rank b ≤ rank a) ∧
    ∀ b ∈ l₂, (setting b).isSome → rank b < rank a

variable {rank : α → ℕ} {setting : α → Option β} {l l' : List α} {a : α}

/-! ## One on top of the other -/

theorem foldl_or (below : Option β) (l : List α) :
    l.foldl (fun below a => (setting a).or below) below = (top setting l).or below := by
  induction l generalizing below with
  | nil => rfl
  | cons a l ih =>
    have hnone := ih ((setting a).or none)
    show l.foldl _ ((setting a).or below) = (l.foldl _ ((setting a).or none)).or below
    rw [ih, hnone, or_none, Option.or_assoc]

theorem top_append (l l' : List α) :
    top setting (l ++ l') = (top setting l').or (top setting l) := by
  rw [top, foldl_append, foldl_or]
  rfl

theorem top_cons (a : α) (l : List α) : top setting (a :: l) = (top setting l).or (setting a) := by
  rw [top, foldl_cons, foldl_or, or_none]

theorem top_eq_none_iff : top setting l = none ↔ ∀ a ∈ l, setting a = none := by
  induction l with
  | nil => simp [top]
  | cons a l ih => rw [top_cons, or_eq_none_iff, ih, forall_mem_cons, and_comm]

/-! ## Sorting -/

theorem mem_sorted : a ∈ sorted rank l ↔ a ∈ l := mem_insertionSort _

theorem pairwise_sorted (rank : α → ℕ) (l : List α) :
    (sorted rank l).Pairwise fun a b => rank a ≤ rank b := by
  exact pairwise_insertionSort _ l

/-- Where a source is inserted. -/
theorem sorted_cons (rank : α → ℕ) (a : α) (l : List α) :
    ∃ lower upper, sorted rank l = lower ++ upper ∧
    sorted rank (a :: l) = lower ++ a :: upper ∧ (∀ b ∈ lower, rank b < rank a) ∧
    ∀ b ∈ upper, rank a ≤ rank b := by
  refine ⟨(sorted rank l).takeWhile fun b => ¬rank a ≤ rank b,
    (sorted rank l).dropWhile fun b => ¬rank a ≤ rank b, takeWhile_append_dropWhile.symm,
    insertionSort_cons_eq_take_drop _ a l, fun b hb => ?_, fun b hb => ?_⟩
  · have hlt := mem_takeWhile_imp hb
    rw [decide_eq_true_eq] at hlt
    exact Nat.lt_of_not_le hlt
  · have hsorted := (pairwise_sorted rank l).sublist (dropWhile_sublist
      fun b => decide ¬rank a ≤ rank b)
    cases hdrop : (sorted rank l).dropWhile fun b => decide ¬rank a ≤ rank b with
    | nil =>
      rw [hdrop] at hb
      cases hb
    | cons c upper =>
      have hfirst : rank a ≤ rank c := by
        have hnot := head_dropWhile_not (fun b => decide ¬rank a ≤ rank b) (l := sorted rank l)
          (by rw [hdrop]; exact cons_ne_nil c upper)
        simp only [hdrop, head_cons, decide_eq_false_iff_not, not_not] at hnot
        exact hnot
      rw [hdrop] at hb hsorted
      rcases mem_cons.mp hb with rfl | hb
      · exact hfirst
      · exact Nat.le_trans hfirst (rel_of_pairwise_cons hsorted hb)

/-! ## What wins -/

/-- **The last source of the highest rank** that has a setting is what comes out. -/
theorem overlay_of_wins (h : Wins rank setting l a) : overlay rank setting l = setting a := by
  obtain ⟨l₁, l₂, rfl, hsome, hbefore, hafter⟩ := h
  unfold overlay
  induction l₁ with
  | nil =>
    obtain ⟨lower, upper, hsorted, hcons, -, hupper⟩ := sorted_cons rank a l₂
    have hnone : top setting upper = none := by
      rw [top_eq_none_iff]
      intro b hb
      have hmem : b ∈ l₂ := mem_sorted.mp (by rw [hsorted]; exact mem_append_right lower hb)
      have hle := hupper b hb
      cases hset : setting b with
      | none => rfl
      | some v =>
        have hlt := hafter b hmem (by rw [hset]; rfl)
        omega
    rw [List.nil_append, hcons, top_append, top_cons, hnone]
    exact or_of_isSome hsome
  | cons c l₁ ih =>
    have hrest := ih fun b hb => hbefore b (mem_cons_of_mem c hb)
    obtain ⟨lower, upper, hsorted, hcons, hlower, -⟩ :=
      sorted_cons rank c (l₁ ++ a :: l₂)
    rw [cons_append, hcons, top_append, top_cons]
    rw [hsorted, top_append] at hrest
    cases hupper : top setting upper with
    | some v =>
      rw [hupper] at hrest
      exact hrest
    | none =>
      -- the winner is below, and the new source has a higher rank, so that it has no setting
      have hmem : a ∈ lower := by
        have ha : a ∈ lower ++ upper := by
          rw [← hsorted, mem_sorted]
          exact mem_append_right l₁ mem_cons_self
        rcases mem_append.mp ha with ha | ha
        · exact ha
        · have hnone := top_eq_none_iff.mp hupper a ha
          rw [hnone] at hsome
          cases hsome
      have hopen : setting c = none := by
        cases hset : setting c with
        | none => rfl
        | some v =>
          have hle := hbefore c mem_cons_self (by rw [hset]; rfl)
          have hlt := hlower a hmem
          omega
      rw [hupper] at hrest
      rw [hopen]
      exact hrest

theorem exists_wins (rank : α → ℕ) (h : ∃ a ∈ l, (setting a).isSome) :
    ∃ a, Wins rank setting l a := by
  induction l with
  | nil =>
    obtain ⟨a, ha, -⟩ := h
    cases ha
  | cons c l ih =>
    by_cases hrest : ∃ a ∈ l, (setting a).isSome
    · obtain ⟨a, l₁, l₂, rfl, hsome, hbefore, hafter⟩ := ih hrest
      by_cases hc : (setting c).isSome ∧ rank a < rank c
      · refine ⟨c, [], l₁ ++ a :: l₂, rfl, hc.1, nofun, fun b hb hset => ?_⟩
        rcases mem_append.mp hb with hb | hb
        · exact Nat.lt_of_le_of_lt (hbefore b hb hset) hc.2
        · rcases mem_cons.mp hb with rfl | hb
          · exact hc.2
          · exact Nat.lt_trans (hafter b hb hset) hc.2
      · refine ⟨a, c :: l₁, l₂, rfl, hsome, fun b hb hset => ?_, hafter⟩
        rcases mem_cons.mp hb with rfl | hb
        · exact Nat.le_of_not_lt fun hlt => hc ⟨hset, hlt⟩
        · exact hbefore b hb hset
    · obtain ⟨a, ha, hset⟩ := h
      rcases mem_cons.mp ha with rfl | ha
      · exact ⟨a, [], l, rfl, hset, nofun, fun b hb hb' => absurd ⟨b, hb, hb'⟩ hrest⟩
      · exact absurd ⟨a, ha, hset⟩ hrest

theorem overlay_eq_none_iff : overlay rank setting l = none ↔ ∀ a ∈ l, setting a = none := by
  rw [overlay, top_eq_none_iff]
  exact forall_congr' fun a => by rw [mem_sorted]

theorem Wins.mem (h : Wins rank setting l a) : a ∈ l := by
  obtain ⟨l₁, l₂, rfl, -⟩ := h
  exact mem_append_right l₁ mem_cons_self

theorem Wins.isSome (h : Wins rank setting l a) : (setting a).isSome := by
  obtain ⟨l₁, l₂, -, hsome, -⟩ := h
  exact hsome

theorem Wins.le (h : Wins rank setting l a) {b : α} (hb : b ∈ l) (hset : (setting b).isSome) :
    rank b ≤ rank a := by
  obtain ⟨l₁, l₂, rfl, -, hbefore, hafter⟩ := h
  rcases mem_append.mp hb with hb | hb
  · exact hbefore b hb hset
  · rcases mem_cons.mp hb with rfl | hb
    · exact Nat.le_refl _
    · exact Nat.le_of_lt (hafter b hb hset)

/-- **The order does not matter** where sources of one rank agree. -/
theorem overlay_perm (h : l.Perm l') (hagree : ∀ a ∈ l, ∀ b ∈ l, rank a = rank b →
    (setting a).isSome → (setting b).isSome → setting a = setting b) :
    overlay rank setting l = overlay rank setting l' := by
  by_cases hsome : ∃ a ∈ l, (setting a).isSome
  · have hsome' : ∃ a ∈ l', (setting a).isSome := by
      obtain ⟨c, hc, hset⟩ := hsome
      exact ⟨c, h.mem_iff.mp hc, hset⟩
    obtain ⟨a, ha⟩ := exists_wins rank hsome
    obtain ⟨b, hb⟩ := exists_wins rank hsome'
    have hbl := h.mem_iff.mpr hb.mem
    have hrank : rank a = rank b :=
      Nat.le_antisymm (hb.le (h.mem_iff.mp ha.mem) ha.isSome) (ha.le hbl hb.isSome)
    rw [overlay_of_wins ha, overlay_of_wins hb]
    exact hagree a ha.mem b hbl hrank ha.isSome hb.isSome
  · have hnone : ∀ a ∈ l, setting a = none := fun a ha =>
      not_isSome_iff_eq_none.mp fun hset => hsome ⟨a, ha, hset⟩
    rw [overlay_eq_none_iff.mpr hnone]
    exact (overlay_eq_none_iff.mpr fun a ha => hnone a (h.mem_iff.mpr ha)).symm

end Library.Overlay
