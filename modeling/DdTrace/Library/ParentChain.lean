import DdTrace.Library.Text

/-!
# Chains of parents

A forest on the numbers from 1 on, by the parent of each number, where 0 stands for no parent and a
parent is smaller than its child.  A loop that climbs from a number to its root takes no more turns
than the number itself.

* `chain_of_ne_zero`: the chain of a number is the number and the chain of its parent.
* `chain_trans`: the chain of a number goes on as the chain of any number in it.
* `chain_nearest`: when each number that is kept gets the nearest kept number above it for its
  parent, its chain is what is kept of the old one.
* `mem_mark_iff`: to mark all of a chain up to the first number that is already marked is to mark
  all of it, once the marked numbers are closed under parents.
-/

namespace Library.ParentChain

open List

/-- The loop that climbs from a number to its root, with a bound on its turns. -/
def climb (parent : ℕ → ℕ) : ℕ → ℕ → List ℕ
  | 0, _ => []
  | fuel + 1, g => if g = 0 then [] else g :: climb parent fuel (parent g)

/-- A number, its parent, and so on to the root. -/
def chain (parent : ℕ → ℕ) (g : ℕ) : List ℕ := climb parent g g

/-- The first number from one on upwards that is kept, with a bound on the turns. -/
def nearest (parent : ℕ → ℕ) (keep : ℕ → Bool) : ℕ → ℕ → ℕ
  | 0, g => g
  | fuel + 1, g => if g != 0 && !keep g then nearest parent keep fuel (parent g) else g

/-- The numbers from one on upwards are marked, up to the first that is. -/
def mark (parent : ℕ → ℕ) : ℕ → ℕ → List ℕ → List ℕ
  | 0, _, marked => marked
  | fuel + 1, g, marked =>
    if g != 0 && !includes marked g then mark parent fuel (parent g) (marked ++ [g]) else marked

variable {parent : ℕ → ℕ} {keep : ℕ → Bool} {g h : ℕ}

@[simp] theorem chain_zero : chain parent 0 = [] := rfl

theorem climb_eq_chain (hparent : ∀ g, g ≠ 0 → parent g < g) (fuel : ℕ) (h : g ≤ fuel) :
    climb parent fuel g = chain parent g := by
  induction g using Nat.strong_induction_on generalizing fuel with
  | _ g ih =>
    by_cases hg : g = 0
    · rw [hg]
      cases fuel with
      | zero => rfl
      | succ fuel => rw [climb, if_pos rfl, chain_zero]
    · have hlt := hparent g hg
      obtain ⟨fuel, rfl⟩ := Nat.exists_eq_succ_of_ne_zero (show fuel ≠ 0 by omega)
      obtain ⟨g', rfl⟩ := Nat.exists_eq_succ_of_ne_zero hg
      rw [chain, climb, climb, if_neg hg, if_neg hg, ih _ hlt fuel (by omega),
        ih _ hlt g' (by omega)]

theorem chain_of_ne_zero (hparent : ∀ g, g ≠ 0 → parent g < g) (hg : g ≠ 0) :
    chain parent g = g :: chain parent (parent g) := by
  obtain ⟨g', rfl⟩ := Nat.exists_eq_succ_of_ne_zero hg
  have hlt := hparent _ hg
  rw [chain, climb, if_neg hg, climb_eq_chain hparent g' (by omega)]

/-- The chain only depends on the parents up to its number. -/
theorem chain_congr {parent' : ℕ → ℕ} (hparent : ∀ g, g ≠ 0 → parent g < g)
    (hparent' : ∀ g, g ≠ 0 → parent' g < g) (h : ∀ k ≤ g, parent' k = parent k) :
    chain parent' g = chain parent g := by
  induction g using Nat.strong_induction_on with
  | _ g ih =>
    by_cases hg : g = 0
    · rw [hg]
      rfl
    · have hlt := hparent g hg
      rw [chain_of_ne_zero hparent' hg, chain_of_ne_zero hparent hg, h g le_rfl,
        ih _ hlt fun k hk => h k (hk.trans hlt.le)]

theorem headD_chain (hparent : ∀ g, g ≠ 0 → parent g < g) : (chain parent g).headD 0 = g := by
  by_cases hg : g = 0
  · rw [hg]
    rfl
  · rw [chain_of_ne_zero hparent hg]
    rfl

theorem mem_chain_self (hparent : ∀ g, g ≠ 0 → parent g < g) (hg : g ≠ 0) :
    g ∈ chain parent g := by
  rw [chain_of_ne_zero hparent hg]
  exact mem_cons_self ..

/-- The chain of a number goes on as the chain of any number in it. -/
theorem chain_trans (hparent : ∀ g, g ≠ 0 → parent g < g) {k : ℕ} (h' : h ∈ chain parent g)
    (hk : k ∈ chain parent h) : k ∈ chain parent g := by
  induction g using Nat.strong_induction_on with
  | _ g ih =>
    by_cases hg : g = 0
    · rw [hg] at h'
      cases h'
    · rw [chain_of_ne_zero hparent hg] at h' ⊢
      rcases mem_cons.mp h' with rfl | h'
      · rwa [chain_of_ne_zero hparent hg] at hk
      · exact mem_cons_of_mem _ (ih _ (hparent g hg) h')

/-! ## The nearest number that is kept -/

variable (keep) in
theorem filter_chain_nearest (hparent : ∀ g, g ≠ 0 → parent g < g) (fuel : ℕ) (h : g ≤ fuel) :
    (chain parent g).filter keep = (chain parent (nearest parent keep fuel g)).filter keep ∧
    (nearest parent keep fuel g ≠ 0 → keep (nearest parent keep fuel g) = true) ∧
    nearest parent keep fuel g ≤ g := by
  induction g using Nat.strong_induction_on generalizing fuel with
  | _ g ih =>
    by_cases hg : g = 0
    · have hnearest : nearest parent keep fuel g = 0 := by
        rw [hg]
        cases fuel with
        | zero => rfl
        | succ fuel => rfl
      rw [hnearest, hg]
      exact ⟨rfl, fun h => (h rfl).elim, le_rfl⟩
    · have hlt := hparent g hg
      obtain ⟨fuel, rfl⟩ := Nat.exists_eq_succ_of_ne_zero (show fuel ≠ 0 by omega)
      rcases hkeep : keep g with _ | _
      · have hnearest : nearest parent keep (fuel + 1) g = nearest parent keep fuel (parent g) := by
          rw [nearest, hkeep, if_pos (by simpa using hg)]
        obtain ⟨hfilter, hkept, hle⟩ := ih _ hlt fuel (by omega)
        rw [hnearest, chain_of_ne_zero hparent hg, filter_cons, if_neg (by simp [hkeep])]
        exact ⟨hfilter, hkept, by omega⟩
      · have hnearest : nearest parent keep (fuel + 1) g = g := by
          rw [nearest, hkeep, if_neg (by simp)]
        rw [hnearest]
        exact ⟨rfl, fun _ => hkeep, le_rfl⟩

/-- With the nearest kept numbers for parents, the chain of a kept number is what is kept of the
old one. -/
theorem chain_nearest {parent' : ℕ → ℕ} (hparent : ∀ g, g ≠ 0 → parent g < g)
    (hparent' : ∀ g, g ≠ 0 → parent' g < g)
    (hnearest : ∀ g, g ≠ 0 → keep g = true → parent' g = nearest parent keep g (parent g))
    (hg : g ≠ 0 → keep g = true) : chain parent' g = (chain parent g).filter keep := by
  induction g using Nat.strong_induction_on with
  | _ g ih =>
    by_cases hzero : g = 0
    · rw [hzero]
      rfl
    · have hlt := hparent g hzero
      obtain ⟨hfilter, hkept, -⟩ := filter_chain_nearest keep hparent g hlt.le
      rw [← hnearest g hzero (hg hzero)] at hfilter hkept
      rw [chain_of_ne_zero hparent' hzero, chain_of_ne_zero hparent hzero, filter_cons,
        if_pos (hg hzero), hfilter, ih _ (hparent' g hzero) hkept]

/-! ## Marking -/

/-- What is marked has its parents marked. -/
def Closed (parent : ℕ → ℕ) (marked : List ℕ) : Prop :=
  ∀ g ∈ marked, ∀ h ∈ chain parent g, h ∈ marked

variable {marked : List ℕ}

/-- What the loop has marked itself lies below the number it has come to. -/
theorem mem_mark_of_closed_below (hparent : ∀ g, g ≠ 0 → parent g < g) (fuel : ℕ) (hfuel : g ≤ fuel)
    (hclosed : ∀ k ∈ marked, k ≤ g → ∀ h ∈ chain parent k, h ∈ marked) :
    h ∈ mark parent fuel g marked ↔ h ∈ marked ∨ h ∈ chain parent g := by
  induction g using Nat.strong_induction_on generalizing fuel marked with
  | _ g ih =>
    by_cases hg : g = 0
    · have hmark : mark parent fuel g marked = marked := by
        rw [hg]
        cases fuel with
        | zero => rfl
        | succ fuel => rfl
      rw [hmark, hg]
      simp
    · have hlt := hparent g hg
      obtain ⟨fuel, rfl⟩ := Nat.exists_eq_succ_of_ne_zero (show fuel ≠ 0 by omega)
      by_cases hmem : g ∈ marked
      · rw [mark, includes_eq_true_iff.mpr hmem, if_neg (by simp)]
        exact ⟨.inl, fun h' => h'.elim id (hclosed g hmem le_rfl h)⟩
      · have hbelow : ∀ k ∈ marked ++ [g], k ≤ parent g → ∀ h ∈ chain parent k,
            h ∈ marked ++ [g] := by
          intro k hk hle h hh
          rcases mem_append.mp hk with hk | hk
          · exact mem_append_left _ (hclosed k hk (hle.trans hlt.le) h hh)
          · have hkg := mem_singleton.mp hk
            omega
        rw [mark, includes_eq_false_iff.mpr hmem, if_pos (by simpa using hg),
          ih _ hlt fuel (by omega) hbelow, chain_of_ne_zero hparent hg, mem_append,
          mem_singleton, mem_cons, or_assoc]

theorem mem_mark_iff (hparent : ∀ g, g ≠ 0 → parent g < g) (hclosed : Closed parent marked) :
    h ∈ mark parent g g marked ↔ h ∈ marked ∨ h ∈ chain parent g :=
  mem_mark_of_closed_below hparent g le_rfl fun k hk _ => hclosed k hk

theorem closed_mark (hparent : ∀ g, g ≠ 0 → parent g < g) (hclosed : Closed parent marked) :
    Closed parent (mark parent g g marked) := by
  intro k hk h hh
  rw [mem_mark_iff hparent hclosed] at hk ⊢
  rcases hk with hk | hk
  · exact .inl (hclosed k hk h hh)
  · exact .inr (chain_trans hparent hk hh)

end Library.ParentChain
