import Mathlib.Data.Nat.Size
import Mathlib.Tactic.Ring
import Mathlib.Tactic.Positivity

/-!
# Double-precision numbers

A `Binary64` is the three fields of a 64-bit IEEE 754 number.  Every finite one is an integer
multiple of `2 ^ -1074`, so that its value is kept as the integer `scaled` and no rational
arithmetic is needed: a sum, a comparison or a floor is one of integers.

* `Representable`: the naturals whose binary numeral has at most 53 significant digits.
* `exists_mag`: the magnitudes of the finite numbers are those of the form `m * 2 ^ p` with
  `m < 2 ^ 53` and `p ≤ 2045`.
* `ceil53`: a natural rounded up to 53 significant digits, the least representable one above it.
* `ofBits_bits`: the 64 bits of a number give it back.
-/

namespace Library

/-- The fields of a double-precision number. -/
structure Binary64 where
  neg : Bool
  exp : Fin 2048
  frac : Fin (2 ^ 52)
  deriving DecidableEq

namespace Binary64

/-- The significand, with its leading bit unless the number is subnormal. -/
def sig (d : Binary64) : ℕ := if d.exp.val = 0 then d.frac.val else 2 ^ 52 + d.frac.val

/-- The exponent of the significand's unit, above `-1074`. -/
def unitExp (d : Binary64) : ℕ := d.exp.val - 1

/-- The magnitude, in units of `2 ^ -1074`. -/
def mag (d : Binary64) : ℕ := d.sig * 2 ^ d.unitExp

/-- The value, in units of `2 ^ -1074`. -/
def scaled (d : Binary64) : ℤ := if d.neg then -(d.mag : ℤ) else d.mag

def isFinite (d : Binary64) : Bool := d.exp.val != 2047

def isNaN (d : Binary64) : Bool := d.exp.val == 2047 && d.frac.val != 0

/-- The number of units in `1`. -/
def one : ℕ := 2 ^ 1074

def isInteger (d : Binary64) : Bool := d.isFinite && d.mag % one == 0

/-- The value rounded towards zero. -/
def toInt (d : Binary64) : ℤ := if d.neg then -((d.mag / one : ℕ) : ℤ) else (d.mag / one : ℕ)

theorem sig_lt (d : Binary64) : d.sig < 2 ^ 53 := by
  unfold sig
  split <;> omega

/-! ## The 64 bits -/

/-- The 64 bits of a number, as a natural. -/
def bits (d : Binary64) : ℕ :=
  (if d.neg then 2 ^ 63 else 0) + d.exp.val * 2 ^ 52 + d.frac.val

/-- The number with the lowest 64 bits of a natural. -/
def ofBits (n : ℕ) : Binary64 where
  neg := n / 2 ^ 63 % 2 == 1
  exp := ⟨n / 2 ^ 52 % 2048, Nat.mod_lt _ (by decide)⟩
  frac := ⟨n % 2 ^ 52, Nat.mod_lt _ (by decide)⟩

theorem bits_lt (d : Binary64) : d.bits < 2 ^ 64 := by
  unfold bits
  split <;> omega

theorem ofBits_bits (d : Binary64) : ofBits d.bits = d := by
  obtain ⟨neg, ⟨e, he⟩, ⟨f, hf⟩⟩ := d
  unfold ofBits bits
  simp only [mk.injEq, Fin.mk.injEq]
  cases neg
  · refine ⟨?_, ?_, ?_⟩
    · rw [beq_eq_false_iff_ne]
      simp only [Bool.false_eq_true, if_false]
      omega
    all_goals
      simp only [Bool.false_eq_true, if_false]
      omega
  · refine ⟨?_, ?_, ?_⟩
    · rw [beq_iff_eq]
      simp only [if_true]
      omega
    all_goals
      simp only [if_true]
      omega

/-! ## Magnitudes -/

/-- **The magnitudes of the finite numbers**: a significand of at most 53 digits times a power of
two.  A significand without its leading digit takes a smaller unit, down to the smallest one. -/
theorem exists_mag {m p : ℕ} (hm : m < 2 ^ 53) (hp : p ≤ 2045) :
    ∃ d : Binary64, d.neg = false ∧ d.isFinite = true ∧ d.mag = m * 2 ^ p := by
  induction p generalizing m with
  | zero =>
    rcases lt_or_ge m (2 ^ 52) with h | h
    · exact ⟨⟨false, 0, ⟨m, h⟩⟩, rfl, rfl, by simp [mag, sig, unitExp]⟩
    · refine ⟨⟨false, 1, ⟨m - 2 ^ 52, by omega⟩⟩, rfl, rfl, ?_⟩
      show (2 ^ 52 + (m - 2 ^ 52)) * 2 ^ 0 = m * 2 ^ 0
      rw [Nat.add_sub_cancel' h]
  | succ p ih =>
    rcases lt_or_ge m (2 ^ 52) with h | h
    · obtain ⟨d, hneg, hfin, hd⟩ := ih (m := 2 * m) (by omega) (by omega)
      exact ⟨d, hneg, hfin, by rw [hd]; ring⟩
    · refine ⟨⟨false, ⟨p + 2, by omega⟩, ⟨m - 2 ^ 52, by omega⟩⟩, rfl, ?_, ?_⟩
      · simp only [isFinite, bne_iff_ne, ne_eq]
        omega
      · show (if p + 2 = 0 then m - 2 ^ 52 else 2 ^ 52 + (m - 2 ^ 52)) * 2 ^ (p + 1) = _
        rw [if_neg (by omega), Nat.add_sub_cancel' h]

/-! ## Naturals with a significand of 53 digits -/

/-- The naturals whose binary numeral has at most 53 significant digits. -/
def Representable (n : ℕ) : Prop := ∃ m p, m < 2 ^ 53 ∧ n = m * 2 ^ p

/-- The digits of a natural beyond the 53 most significant ones. -/
def spare (n : ℕ) : ℕ := n.size - 53

/-- A natural rounded up to 53 significant digits. -/
def ceil53 (n : ℕ) : ℕ := (n + (2 ^ spare n - 1)) / 2 ^ spare n * 2 ^ spare n

theorem lt_two_pow_spare (n : ℕ) : n < 2 ^ 53 * 2 ^ spare n := by
  have h := Nat.lt_size_self n
  have hle : n.size ≤ 53 + spare n := by
    unfold spare
    omega
  calc n < 2 ^ n.size := h
    _ ≤ 2 ^ (53 + spare n) := Nat.pow_le_pow_right (by omega) hle
    _ = 2 ^ 53 * 2 ^ spare n := pow_add _ _ _

theorem two_pow_spare_le {n : ℕ} (h : 0 < spare n) : 2 ^ 52 * 2 ^ spare n ≤ n := by
  have hsize : 52 + spare n < n.size := by
    unfold spare at h ⊢
    omega
  rw [← pow_add]
  exact Nat.lt_size.mp hsize

theorem le_ceil53 (n : ℕ) : n ≤ ceil53 n := by
  have hpos : 0 < 2 ^ spare n := by positivity
  have h := Nat.lt_div_mul_add (a := n + (2 ^ spare n - 1)) hpos
  unfold ceil53
  omega

theorem representable_ceil53 (n : ℕ) : Representable (ceil53 n) := by
  have hpos : 0 < 2 ^ spare n := by positivity
  have hlt := lt_two_pow_spare n
  have hq : (n + (2 ^ spare n - 1)) / 2 ^ spare n ≤ 2 ^ 53 := by
    rw [← Nat.lt_succ_iff, Nat.div_lt_iff_lt_mul hpos]
    omega
  rcases hq.lt_or_eq with h | h
  · exact ⟨_, _, h, rfl⟩
  · refine ⟨1, 53 + spare n, by norm_num, ?_⟩
    rw [ceil53, h, one_mul, pow_add]

/-- **The least representable number from `n` on** is `ceil53 n`. -/
theorem ceil53_le {n t : ℕ} (ht : Representable t) (h : n ≤ t) : ceil53 n ≤ t := by
  have hpos : 0 < 2 ^ spare n := by positivity
  obtain ⟨m, p, hm, rfl⟩ := ht
  rcases Nat.eq_zero_or_pos (spare n) with h0 | h0
  · rw [ceil53, h0, pow_zero, Nat.div_one, mul_one]
    exact h
  rcases le_or_gt (spare n) p with hp | hp
  · have hdvd : m * 2 ^ p = m * 2 ^ (p - spare n) * 2 ^ spare n := by
      rw [mul_assoc, ← pow_add, Nat.sub_add_cancel hp]
    rw [hdvd] at h ⊢
    refine Nat.mul_le_mul_right _ ?_
    rw [← Nat.lt_succ_iff, Nat.div_lt_iff_lt_mul hpos, Nat.succ_mul]
    omega
  · -- a shorter unit would make the number smaller than `n`
    have hlt : m * 2 ^ p < 2 ^ 53 * 2 ^ p := Nat.mul_lt_mul_of_pos_right hm (by positivity)
    have hle : 2 ^ 53 * 2 ^ p ≤ 2 ^ 52 * 2 ^ spare n := by
      rw [← pow_add, ← pow_add]
      exact Nat.pow_le_pow_right (by omega) (by omega)
    have := two_pow_spare_le h0
    omega

/-- Two numbers that no representable number separates round up to the same one. -/
theorem ceil53_eq_iff {x y : ℕ} : ceil53 x = ceil53 y ↔ ∀ t, Representable t → (x ≤ t ↔ y ≤ t) := by
  constructor
  · intro h t ht
    exact ⟨fun hx => (le_ceil53 y).trans (h ▸ ceil53_le ht hx),
      fun hy => (le_ceil53 x).trans (h.symm ▸ ceil53_le ht hy)⟩
  · intro h
    have hx := (h _ (representable_ceil53 x)).mp (le_ceil53 x)
    have hy := (h _ (representable_ceil53 y)).mpr (le_ceil53 y)
    exact le_antisymm (ceil53_le (representable_ceil53 y) hy)
      (ceil53_le (representable_ceil53 x) hx)

end Binary64
end Library
