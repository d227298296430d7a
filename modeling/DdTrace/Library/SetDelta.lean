import Mathlib.Data.Finset.Basic
import Mathlib.Data.Finset.Lattice.Lemmas
import Mathlib.Tactic.Common

/-!
# Pending changes of a set

A set is edited here and kept elsewhere; what has not been sent yet is a set of elements to add and
a set of elements to remove.  An edit that takes back a pending one is not recorded beside it, it
cancels it.  So the pending change must fit the set that it will be applied to: it adds only what is
not there and removes only what is there.

* `SetDelta.Fits.insert`, `SetDelta.Fits.erase`: **an element that is not in the edited set is added,
  one that is in it is removed, and the change still fits**; which of the two sets of the change it
  goes into, or out of, follows from that.
* `fits_foldl_insert`, `fits_foldl_erase`: a list of elements, one after the other.
-/

namespace Library

/-- A pending change of a set. -/
@[ext] structure SetDelta (α : Type*) where
  added : Finset α
  removed : Finset α

namespace SetDelta

variable {α : Type*} [DecidableEq α]

/-- The set with the change made. -/
def apply (d : SetDelta α) (base : Finset α) : Finset α := (base \ d.removed) ∪ d.added

/-- The change adds what is not there and removes what is. -/
structure Fits (d : SetDelta α) (base : Finset α) : Prop where
  new : ∀ a ∈ d.added, a ∉ base
  old : ∀ a ∈ d.removed, a ∈ base

/-- One more element, or a pending removal less. -/
def insert (d : SetDelta α) (a : α) : SetDelta α :=
  if a ∈ d.removed then { d with removed := d.removed.erase a }
  else { d with added := Insert.insert a d.added }

/-- One element less, or a pending addition less. -/
def erase (d : SetDelta α) (a : α) : SetDelta α :=
  if a ∈ d.added then { d with added := d.added.erase a }
  else { d with removed := Insert.insert a d.removed }

variable {d : SetDelta α} {base : Finset α} {a : α}

theorem mem_apply {b : α} : b ∈ d.apply base ↔ (b ∈ base ∧ b ∉ d.removed) ∨ b ∈ d.added := by
  rw [apply, Finset.mem_union, Finset.mem_sdiff]

/-- **An element is added.** -/
theorem Fits.insert (h : d.Fits base) (ha : a ∉ d.apply base) :
    (d.insert a).Fits base ∧ (d.insert a).apply base = Insert.insert a (d.apply base) := by
  have hout : a ∈ base → a ∈ d.removed := fun hb => by
    by_contra hr
    exact ha (mem_apply.mpr (Or.inl ⟨hb, hr⟩))
  unfold SetDelta.insert
  by_cases hr : a ∈ d.removed
  · rw [if_pos hr]
    refine ⟨⟨h.new, fun b hb => h.old b (Finset.mem_of_mem_erase hb)⟩, ?_⟩
    ext b
    rw [mem_apply, Finset.mem_insert, mem_apply]
    by_cases hb : b = a
    · subst hb
      simp [h.old b hr]
    · simp [hb]
  · rw [if_neg hr]
    refine ⟨⟨fun b hb => ?_, h.old⟩, ?_⟩
    · rcases Finset.mem_insert.mp hb with rfl | hb
      · exact fun hbase => hr (hout hbase)
      · exact h.new b hb
    · ext b
      simp only [mem_apply, Finset.mem_insert]
      tauto

/-- **An element is removed.** -/
theorem Fits.erase (h : d.Fits base) (ha : a ∈ d.apply base) :
    (d.erase a).Fits base ∧ (d.erase a).apply base = (d.apply base).erase a := by
  unfold SetDelta.erase
  by_cases hadd : a ∈ d.added
  · rw [if_pos hadd]
    refine ⟨⟨fun b hb => h.new b (Finset.mem_of_mem_erase hb), h.old⟩, ?_⟩
    ext b
    simp only [mem_apply, Finset.mem_erase]
    by_cases hb : b = a
    · subst hb
      simp [h.new b hadd]
    · simp [hb]
  · rw [if_neg hadd]
    have hbase : a ∈ base := by
      rcases mem_apply.mp ha with h | h
      · exact h.1
      · exact absurd h hadd
    refine ⟨⟨h.new, fun b hb => ?_⟩, ?_⟩
    · rcases Finset.mem_insert.mp hb with rfl | hb
      · exact hbase
      · exact h.old b hb
    · ext b
      simp only [mem_apply, Finset.mem_erase, Finset.mem_insert]
      by_cases hb : b = a
      · subst hb
        simp [hadd]
      · simp [hb]

/-- Elements that are not in the set are added, one after the other. -/
theorem fits_foldl_insert {l : List α} (hl : l.Nodup) (h : d.Fits base)
    (hout : ∀ a ∈ l, a ∉ d.apply base) :
    (l.foldl SetDelta.insert d).Fits base ∧
      (l.foldl SetDelta.insert d).apply base = d.apply base ∪ l.toFinset := by
  induction l generalizing d with
  | nil => exact ⟨h, (Finset.union_empty _).symm⟩
  | cons a l ih =>
    obtain ⟨hal, hl⟩ := List.nodup_cons.mp hl
    obtain ⟨hfits, happly⟩ := h.insert (hout a List.mem_cons_self)
    obtain ⟨hfits', happly'⟩ := ih hl hfits fun b hb => by
      rw [happly, Finset.mem_insert, not_or]
      exact ⟨fun hba => hal (hba ▸ hb), hout b (List.mem_cons_of_mem _ hb)⟩
    refine ⟨hfits', happly'.trans ?_⟩
    rw [happly, List.toFinset_cons, Finset.insert_union, Finset.union_insert]

/-- Elements of the set are removed, one after the other. -/
theorem fits_foldl_erase {l : List α} (hl : l.Nodup) (h : d.Fits base)
    (hin : ∀ a ∈ l, a ∈ d.apply base) :
    (l.foldl SetDelta.erase d).Fits base ∧
      (l.foldl SetDelta.erase d).apply base = d.apply base \ l.toFinset := by
  induction l generalizing d with
  | nil => exact ⟨h, Finset.sdiff_empty.symm⟩
  | cons a l ih =>
    obtain ⟨hal, hl⟩ := List.nodup_cons.mp hl
    obtain ⟨hfits, happly⟩ := h.erase (hin a List.mem_cons_self)
    obtain ⟨hfits', happly'⟩ := ih hl hfits fun b hb => by
      rw [happly, Finset.mem_erase]
      exact ⟨fun hba => hal (hba ▸ hb), hin b (List.mem_cons_of_mem _ hb)⟩
    refine ⟨hfits', happly'.trans ?_⟩
    rw [happly, List.toFinset_cons]
    ext b
    simp only [Finset.mem_sdiff, Finset.mem_erase, Finset.mem_insert]
    tauto

end SetDelta
end Library
