import DdTrace.Library.Binary64

/-!
# Rounding to double precision

Sums, products and quotients of numbers are rounded to 53 significant digits, to the nearest such
number and to an even significand between two.

A sum or a product of integers is an integer, and is rounded as one.  A quotient is rounded in units
of `2 ^ -1074`: a digit that tells whether anything is left stands in for all the digits beyond, so
that no tie is taken for one that is none.

* `nearest53_eq_self`: a number that can be represented is not changed.
* `quotient53_mul`, `nearestQuotient_mul`: a quotient that can be represented is exact.
* `mathRound_quotient`: and is what `Math.round` makes of it.
* `nearest53_tie`: counting stays at `2 ^ 53`.
-/

namespace Library.Binary64

/-- `Number.MAX_SAFE_INTEGER`. -/
def MAX_SAFE_INTEGER : ℕ := 2 ^ 53 - 1

/-- A natural rounded to 53 significant digits. -/
def nearest53 (n : ℕ) : ℕ :=
  let q := n / 2 ^ spare n
  let r := n % 2 ^ spare n
  if 2 * r > 2 ^ spare n ∨ (2 * r = 2 ^ spare n ∧ q % 2 = 1) then (q + 1) * 2 ^ spare n
  else q * 2 ^ spare n

/-- An integer rounded to 53 significant digits. -/
def nearest (x : ℤ) : ℤ := if 0 ≤ x then nearest53 x.natAbs else -nearest53 x.natAbs

/-- A quotient, in units of `2 ^ -1074`. -/
def quotient53 (a b : ℕ) : ℕ :=
  nearest53 (2 * (a * one / b) + if a * one % b = 0 then 0 else 1) / 2

/-- `a / b` for an integer and a positive one. -/
def quotient (a : ℤ) (b : ℕ) : ℤ := if 0 ≤ a then quotient53 a.natAbs b else -quotient53 a.natAbs b

/-- `Math.round` of a number in units of `2 ^ -1074`. -/
def mathRound (x : ℤ) : ℤ := (x + (one / 2 : ℕ)) / one

/-- A quotient of naturals, rounded to 53 significant digits. -/
def nearestQuotient (a b : ℕ) : ℕ :=
  let place := b * 2 ^ spare (a / b)
  let q := a / place
  let r := a % place
  (if 2 * r > place ∨ (2 * r = place ∧ q % 2 = 1) then q + 1 else q) * 2 ^ spare (a / b)

theorem one_pos : 0 < one := by
  unfold one
  positivity

/-- The digits beyond the 53 most significant ones are zero. -/
theorem two_pow_spare_dvd {n : ℕ} (h : Representable n) : 2 ^ spare n ∣ n := by
  obtain ⟨m, p, hm, rfl⟩ := h
  have hsize : (m * 2 ^ p).size ≤ 53 + p := by
    rw [Nat.size_le, pow_add]
    exact Nat.mul_lt_mul_of_pos_right hm (by positivity)
  exact (Nat.pow_dvd_pow 2 (by unfold spare; omega)).mul_left m

/-- **A number that can be represented** is not changed. -/
theorem nearest53_eq_self {n : ℕ} (h : Representable n) : nearest53 n = n := by
  have hdvd := two_pow_spare_dvd h
  unfold nearest53
  rw [if_neg (by omega)]
  exact Nat.div_mul_cancel hdvd

/-- Halfway between `2 ^ 53` and the next number, the significand of the lower one is even. -/
theorem nearest53_tie (p : ℕ) : nearest53 (2 ^ 53 * 2 ^ p + 2 ^ p) = 2 ^ 53 * 2 ^ p := by
  have hpos : 0 < 2 ^ p := by positivity
  have hsize : (2 ^ 53 * 2 ^ p + 2 ^ p).size = p + 54 := by
    refine le_antisymm ?_ ?_
    · rw [Nat.size_le, pow_add]
      omega
    · rw [Nat.succ_le_iff, Nat.lt_size, pow_add]
      omega
  have hspare : spare (2 ^ 53 * 2 ^ p + 2 ^ p) = p + 1 := by
    rw [spare]
    omega
  unfold nearest53
  rw [hspare, pow_succ 2 p]
  generalize 2 ^ p = k at hpos
  have hq : (2 ^ 53 * k + k) / (k * 2) = 2 ^ 52 := by
    rw [Nat.div_eq_iff (by omega)]
    omega
  have hr : (2 ^ 53 * k + k) % (k * 2) = k := by
    have h := Nat.div_add_mod (2 ^ 53 * k + k) (k * 2)
    rw [hq] at h
    omega
  rw [hq, if_neg (by omega)]
  omega

/-- **A quotient that can be represented** is exact. -/
theorem nearestQuotient_mul {m b : ℕ} (hb : 0 < b) (hm : Representable m) :
    nearestQuotient (m * b) b = m := by
  have hdvd := two_pow_spare_dvd hm
  have hplace : b * 2 ^ spare m ∣ m * b := by
    rw [mul_comm m]
    exact Nat.mul_dvd_mul_left b hdvd
  have hpos : 0 < b * 2 ^ spare m := Nat.mul_pos hb (by positivity)
  have hquotient : m * b / (b * 2 ^ spare m) = m / 2 ^ spare m := by
    rw [mul_comm m, Nat.mul_div_mul_left _ _ hb]
  unfold nearestQuotient
  rw [Nat.mul_div_cancel _ hb]
  dsimp only
  rw [if_neg (by omega), hquotient]
  exact Nat.div_mul_cancel hdvd

theorem representable_of_lt {n : ℕ} (h : n < 2 ^ 53) : Representable n := ⟨n, 0, h, by simp⟩

theorem nearest_eq_self {x : ℤ} (h : x.natAbs < 2 ^ 53) : nearest x = x := by
  unfold nearest
  rw [nearest53_eq_self (representable_of_lt h)]
  split <;> omega

/-- **A quotient that is an integer** is exact. -/
theorem quotient53_mul {m b : ℕ} (hb : 0 < b) (hm : m < 2 ^ 53) :
    quotient53 (m * b) b = m * one := by
  have hprod : m * b * one = m * one * b := by ring
  have hdouble : ∀ k, 2 * (m * 2 ^ k) = m * 2 ^ (k + 1) := fun k => by ring
  have hrep : Representable (2 * (m * one)) := ⟨m, 1074 + 1, hm, hdouble 1074⟩
  unfold quotient53
  rw [hprod, Nat.mul_mod_left, if_pos rfl, Nat.mul_div_cancel _ hb, Nat.add_zero,
    nearest53_eq_self hrep, Nat.mul_div_cancel_left _ (by decide)]

theorem mathRound_mul_one (m : ℕ) : mathRound ((m * one : ℕ) : ℤ) = m := by
  have hone := one_pos
  unfold mathRound
  rw [Nat.cast_mul, add_comm, Int.add_mul_ediv_right _ _ (by omega),
    Int.ediv_eq_zero_of_lt (by omega) (by omega), zero_add]

/-- **`Math.round(m * b / b)`**. -/
theorem mathRound_quotient {m b : ℕ} (hb : 0 < b) (hm : m < 2 ^ 53) :
    mathRound (quotient ((m * b : ℕ) : ℤ) b) = m := by
  unfold quotient
  rw [Int.natAbs_natCast, quotient53_mul hb hm]
  exact mathRound_mul_one m

end Library.Binary64
