import Mathlib.Data.List.Basic
import Mathlib.Data.List.Infix
import Mathlib.Tactic.Common

/-!
# Parts of a text

The parts of a text by position: `slice` from one position to another, and `substring` of
ECMAScript, whose arguments may be negative or in the wrong order.  `indexOf` finds the first
occurrence of one text in another.

When some positions of a text are hidden, `visible` is what remains of a part of it.

* `slice_append_slice`, `visible_append`: two parts that meet.
* `indexOf_eq_some`, `indexOf_eq_none_iff`: what the search finds.
* `visible_eq_slice`, `visible_eq_nil`: a part of which nothing is hidden, and one of which all is.
* `Shown`: what is shown of a text is what is visible under a condition, and more otherwise.
-/

namespace Library

open List Option

variable {α : Type*}

/-! ## Slices -/

/-- The part from position `a` to position `b`. -/
def slice (s : List α) (a b : ℕ) : List α := (s.take b).drop a

theorem slice_self (s : List α) (a : ℕ) : slice s a a = [] := by
  rw [slice, drop_eq_nil_iff, length_take]
  exact Nat.min_le_left a _

theorem length_slice (s : List α) (a b : ℕ) : (slice s a b).length = min b s.length - a := by
  rw [slice, length_drop, length_take]

theorem slice_append_slice (s : List α) {a b c : ℕ} (hab : a ≤ b) (hbc : b ≤ c) :
    slice s a b ++ slice s b c = slice s a c := by
  have hb : s.take b = (s.take c).take b := by rw [take_take, Nat.min_eq_left hbc]
  have hsplit : (s.take c).drop a = ((s.take c).take b).drop a ++ ((s.take c).drop b) := by
    conv_lhs => rw [← take_append_drop b (s.take c)]
    rw [drop_append]
    by_cases hlen : b ≤ (s.take c).length
    · rw [length_take, Nat.min_eq_left hlen, Nat.sub_eq_zero_of_le hab, drop_zero]
    · have hdrop : (s.take c).drop b = [] := drop_eq_nil_iff.mpr (Nat.le_of_not_le hlen)
      rw [hdrop, drop_nil]
  rw [slice, hb]
  exact hsplit.symm

theorem drop_eq_slice (s : List α) (a : ℕ) : s.drop a = slice s a s.length := by
  rw [slice, take_length]

theorem slice_of_length_le (s : List α) {a b : ℕ} (h : s.length ≤ b) :
    slice s a b = slice s a s.length := by
  rw [slice, slice, take_of_length_le h, take_length]

/-- A part of a part. -/
theorem slice_slice (s : List α) (a b c d : ℕ) :
    slice (slice s a b) c d = slice s (a + c) (min (a + d) b) := by
  rw [slice, slice, slice, take_drop, take_take, drop_drop]

/-- `String.prototype.substring` -/
def substring (s : List α) (a b : ℤ) : List α :=
  slice s (min a.toNat b.toNat) (max a.toNat b.toNat)

theorem substring_eq_slice (s : List α) {a b : ℤ} (h : a ≤ b) :
    substring s a b = slice s a.toNat b.toNat := by
  have hnat : a.toNat ≤ b.toNat := Int.toNat_le_toNat h
  rw [substring, Nat.min_eq_left hnat, Nat.max_eq_right hnat]

theorem slice_isInfix (s : List α) (a b : ℕ) : slice s a b <:+: s :=
  (drop_suffix a _).isInfix.trans ( take_prefix b s).isInfix

/-! ## Occurrences -/

section Occurrences

/-- `String.prototype.indexOf` -/
def indexOf [DecidableEq α] (t : List α) : List α → Option ℕ
  | [] => if t = [] then some 0 else none
  | a :: s => if t.isPrefixOf (a :: s) then some 0 else (indexOf t s).map (· + 1)

variable [DecidableEq α]

theorem indexOf_eq_some {t s : List α} {k : ℕ} (h : indexOf t s = some k) :
    k + t.length ≤ s.length := by
  induction s generalizing k with
  | nil =>
    unfold indexOf at h
    split at h
    · next ht =>
      cases h
      rw [ht]
      exact Nat.le_refl 0
    · cases h
  | cons a s ih =>
    unfold indexOf at h
    split at h
    · next ht =>
      cases h
      rw [Nat.zero_add]
      exact ( isPrefixOf_iff_prefix.mp ht).length_le
    · obtain ⟨j, hj, rfl⟩ := map_eq_some_iff.mp h
      have hle := ih hj
      rw [length_cons]
      omega

theorem isSome_indexOf_iff {t s : List α} : (indexOf t s).isSome = true ↔ t <:+: s := by
  induction s with
  | nil =>
    unfold indexOf
    rw [infix_nil]
    split
    · next h => exact ⟨fun _ => h, fun _ => rfl⟩
    · next h => exact ⟨fun hs => (by cases hs), fun ht => absurd ht h⟩
  | cons a s ih =>
    unfold indexOf
    rw [infix_cons_iff]
    split
    · next h => exact ⟨fun _ => Or.inl ( isPrefixOf_iff_prefix.mp h), fun _ => rfl⟩
    · next h =>
      rw [isSome_map, ih]
      constructor
      · exact Or.inr
      · rintro (hpre | hin)
        · exact absurd ( isPrefixOf_iff_prefix.mpr hpre) h
        · exact hin

theorem indexOf_nil (s : List α) : indexOf [] s = some 0 := by
  cases s with
  | nil => rfl
  | cons a s => rfl

end Occurrences

/-! ## Hidden positions -/

/-- What is visible of the part from position `a` to position `b`. -/
def visible (hidden : ℕ → Bool) (s : List α) (a b : ℕ) : List α :=
  (List.range' a (b - a)).filterMap fun p => if hidden p then none else s[p]?

variable {hidden : ℕ → Bool} {s : List α} {a b c : ℕ}

theorem visible_self (hidden : ℕ → Bool) (s : List α) (a : ℕ) : visible hidden s a a = [] := by
  rw [visible, Nat.sub_self]
  rfl

theorem visible_append (hab : a ≤ b) (hbc : b ≤ c) :
    visible hidden s a b ++ visible hidden s b c = visible hidden s a c := by
  have hrange : List.range' a (b - a) ++ List.range' b (c - b) = List.range' a (c - a) := by
    have hsplit : List.range' a (b - a) ++ List.range' (a + 1 * (b - a)) (c - b) =
        List.range' a (b - a + (c - b)) := List.range'_append
    rw [Nat.one_mul, Nat.add_sub_cancel' hab] at hsplit
    rw [hsplit]
    congr 1
    omega
  rw [visible, visible, visible, ← filterMap_append, hrange]

/-- All of a part is hidden. -/
theorem visible_eq_nil (h : ∀ p, a ≤ p → p < b → p < s.length → hidden p = true) :
    visible hidden s a b = [] := by
  rw [visible, filterMap_eq_nil_iff]
  intro p hp
  rw [mem_range'_1] at hp
  by_cases hlen : p < s.length
  · rw [if_pos (h p hp.1 (by omega) hlen)]
  · rw [getElem?_eq_none (Nat.le_of_not_lt hlen), ite_self]

theorem visible_of_length_le (hidden : ℕ → Bool) (h : s.length ≤ a) (b : ℕ) :
    visible hidden s a b = [] :=
  visible_eq_nil fun p hap _ hp => absurd (h.trans hap) (Nat.not_le.mpr hp)

/-- A text ends where it ends. -/
theorem visible_of_le (hidden : ℕ → Bool) (hb : s.length ≤ b) (hc : s.length ≤ c) :
    visible hidden s a b = visible hidden s a c := by
  have hrest : ∀ {b c : ℕ}, b ≤ c → s.length ≤ b → visible hidden s a b = visible hidden s a c := by
    intro b c hbc hb
    by_cases hab : a ≤ b
    · rw [← visible_append hab hbc, visible_of_length_le hidden hb, append_nil]
    · have ha : s.length ≤ a := hb.trans (Nat.le_of_not_le hab)
      rw [visible_of_length_le hidden ha, visible_of_length_le hidden ha]
  rcases Nat.le_total b c with hbc | hcb
  · exact hrest hbc hb
  · exact (hrest hcb hc).symm

/-- Nothing of a part is hidden. -/
theorem visible_eq_slice (h : ∀ p, a ≤ p → p < b → p < s.length → hidden p = false) :
    visible hidden s a b = slice s a b := by
  by_cases hab : a ≤ b
  · obtain ⟨n, rfl⟩ := Nat.exists_eq_add_of_le hab
    clear hab
    induction n with
    | zero => rw [Nat.add_zero, visible_self, slice_self]
    | succ n ih =>
      have hlast : visible hidden s (a + n) (a + (n + 1)) = slice s (a + n) (a + (n + 1)) := by
        have hone : a + (n + 1) - (a + n) = 1 := by omega
        rw [visible, slice, ← Nat.add_assoc, take_add_one]
        by_cases hlen : a + n < s.length
        · have hp := h (a + n) (by omega) (by omega) hlen
          rw [drop_append, length_take, Nat.min_eq_left (Nat.le_of_lt hlen)]
          simp [hp, hlen]
        · have hnone : s[a + n]? = none := getElem?_eq_none (by omega)
          simp [hnone]
      rw [← visible_append (b := a + n) (by omega) (by omega), hlast,
        ih fun p hap hpn hp => h p hap (by omega) hp, slice_append_slice s (by omega) (by omega)]
  · rw [visible, Nat.sub_eq_zero_of_le (by omega), slice, drop_eq_nil_of_le (by rw [length_take]; omega)]
    rfl

/-- What is visible of a part, from the start of the part. -/
theorem visible_slice (hidden : ℕ → Bool) (s : List α) (a b : ℕ) :
    visible (fun p => hidden (a + p)) (slice s a b) 0 (b - a) = visible hidden s a b := by
  rw [visible, visible, List.range'_eq_map_range, List.range'_eq_map_range,
    filterMap_map, filterMap_map]
  refine filterMap_congr fun p hp => ?_
  rw [mem_range] at hp
  show (if hidden (a + (0 + p)) = true then none else (slice s a b)[0 + p]?) =
    if hidden (a + p) = true then none else s[a + p]?
  rw [Nat.zero_add, slice, getElem?_drop, getElem?_take_of_lt (by omega)]

/-- What is shown of a text is what should be under a condition, and it is longer otherwise. -/
structure Shown (shown should : List α) (P : Prop) : Prop where
  good : P → shown = should
  le : should.length ≤ shown.length
  lt : ¬ P → should.length < shown.length

theorem Shown.of_eq {t u : List α} (h : t = u) : Shown t u True :=
  ⟨fun _ => h, by rw [h], fun hn => absurd trivial hn⟩

theorem Shown.append {t₁ u₁ t₂ u₂ : List α} {g₁ g₂ : Prop} (h₁ : Shown t₁ u₁ g₁)
    (h₂ : Shown t₂ u₂ g₂) : Shown (t₁ ++ t₂) (u₁ ++ u₂) (g₁ ∧ g₂) := by
  have hle₁ := h₁.le
  have hle₂ := h₂.le
  refine ⟨fun h => ?_, ?_, fun h => ?_⟩
  · rw [h₁.good h.1, h₂.good h.2]
  · rw [length_append, length_append]
    omega
  · rw [length_append, length_append]
    by_cases hg : g₁
    · have hlt := h₂.lt fun hg₂ => h ⟨hg, hg₂⟩
      omega
    · have hlt := h₁.lt hg
      omega

theorem Shown.congr {t u : List α} {g g' : Prop} (h : Shown t u g) (hg : g ↔ g') : Shown t u g' :=
  ⟨fun h' => h.good (hg.mpr h'), h.le, fun h' => h.lt fun hg' => h' (hg.mp hg')⟩

/-- What is shown is what should be exactly under the condition. -/
theorem Shown.eq_iff {t u : List α} {g : Prop} (h : Shown t u g) : t = u ↔ g := by
  refine ⟨fun he => ?_, h.good⟩
  by_contra hg
  have hlt := h.lt hg
  rw [he] at hlt
  exact Nat.lt_irrefl _ hlt

end Library
