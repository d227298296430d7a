import DdTrace.Library.Rounding
import DdTrace.Library.Text

/-!
# Numbers from text

`Number` of ECMAScript makes a number of any text: a decimal literal with a sign, a fraction or an
exponent, a literal in another radix, or `Infinity`, between white space.  A blank text is zero, and
any other is no number.

A finite number is kept in units of `2 ^ -1074`.  A zero has no sign here.

* `le_trans`, `le_ofNat`: comparison, where nothing is compared with what is no number.
* `succ_ofNat`, `succ_ofNat_top`: counting is exact up to `2 ^ 53`, and stays there.
* `ofStr_natString`: the numeral of a natural below `2 ^ 53` is read as that natural.
-/

namespace Library

open Binary64 List

/-- A number: a finite one in units of `2 ^ -1074`. -/
inductive Number where
  | nan
  | infinite (neg : Bool)
  | finite (scaled : ℤ)
  deriving DecidableEq

namespace Number

def ofNat (n : ℕ) : Number := .finite (n * one : ℕ)

def neg : Number → Number
  | .nan => .nan
  | .infinite neg => .infinite !neg
  | .finite x => .finite (-x)

/-- `<=`: nothing is compared with what is no number. -/
def le : Number → Number → Bool
  | .finite x, .finite y => decide (x ≤ y)
  | .finite _, .infinite neg => !neg
  | .infinite neg, .finite _ => neg
  | .infinite neg, .infinite neg' => neg || !neg'
  | .nan, _ => false
  | _, .nan => false

/-- The next number of a count: one is added, and the sum is rounded. -/
def succ : Number → Number
  | .finite x => .finite (nearest (x + one))
  | x => x

/-- The natural that a number is. -/
def toNat? : Number → Option ℕ
  | .finite x => if 0 ≤ x ∧ x.natAbs % one = 0 then some (x.natAbs / one) else none
  | _ => none

theorem le_trans {x y z : Number} (hxy : le x y = true) (hyz : le y z = true) : le x z = true := by
  cases x with
  | nan => cases hxy
  | infinite negX =>
    cases y with
    | nan => cases hxy
    | infinite negY => cases negX <;> cases negY <;> cases z <;> simp_all [le]
    | finite y => cases z <;> simp_all [le]
  | finite x =>
    cases y with
    | nan => cases hxy
    | infinite negY => cases negY <;> cases z <;> simp_all [le]
    | finite y =>
      cases z with
      | nan => cases hyz
      | infinite negZ => exact hyz
      | finite z =>
        simp only [le, decide_eq_true_eq] at hxy hyz ⊢
        exact hxy.trans hyz

@[simp] theorem le_ofNat (a b : ℕ) : le (ofNat a) (ofNat b) = true ↔ a ≤ b := by
  unfold ofNat le
  rw [decide_eq_true_eq, Int.ofNat_le]
  exact Nat.mul_le_mul_right_iff Binary64.one_pos

theorem ofNat_inj {a b : ℕ} : ofNat a = ofNat b ↔ a = b := by
  constructor
  · intro h
    have hle : a ≤ b ∧ b ≤ a := by
      rw [← le_ofNat, ← le_ofNat, h, le_ofNat]
      exact ⟨le_refl b, le_refl b⟩
    exact le_antisymm hle.1 hle.2
  · exact congrArg ofNat

variable {n : ℕ}

theorem representable_mul_one (h : n ≤ 2 ^ 53) : Representable (n * one) := by
  rcases h.lt_or_eq with h | rfl
  · exact ⟨n, 1074, h, rfl⟩
  · exact ⟨1, 53 + 1074, by decide, by rw [Nat.one_mul, pow_add, one]⟩

/-- **Counting is exact** up to `2 ^ 53`. -/
theorem succ_ofNat (h : n < 2 ^ 53) : succ (ofNat n) = ofNat (n + 1) := by
  have hsum : ((n * one : ℕ) : ℤ) + (one : ℕ) = ((n + 1) * one : ℕ) := by
    rw [Nat.add_mul, Nat.one_mul, Nat.cast_add]
  unfold succ ofNat
  dsimp only
  rw [hsum, nearest, if_pos (Int.natCast_nonneg _), Int.natAbs_natCast,
    nearest53_eq_self (representable_mul_one h)]

/-- **And stays there.** -/
theorem succ_ofNat_top : succ (ofNat (2 ^ 53)) = ofNat (2 ^ 53) := by
  have hsum : ((2 ^ 53 * one : ℕ) : ℤ) + (one : ℕ) = (2 ^ 53 * one + one : ℕ) := by
    rw [Nat.cast_add]
  have hround : nearest53 (2 ^ 53 * one + one) = 2 ^ 53 * one := by
    unfold one
    exact nearest53_tie 1074
  unfold succ ofNat
  dsimp only
  rw [hsum, nearest, if_pos (Int.natCast_nonneg _), Int.natAbs_natCast, hround]

theorem toNat?_eq_some {x : Number} : toNat? x = some n ↔ x = ofNat n := by
  cases x with
  | nan => exact ⟨fun h => absurd h.symm (Option.some_ne_none n), fun h => Number.noConfusion h⟩
  | infinite neg =>
    exact ⟨fun h => absurd h.symm (Option.some_ne_none n), fun h => Number.noConfusion h⟩
  | finite x =>
    rw [toNat?, ofNat, Option.ite_none_right_eq_some, Option.some_inj, finite.injEq]
    constructor
    · rintro ⟨⟨hnonneg, hmod⟩, hn⟩
      have hdiv := Nat.div_add_mod x.natAbs one
      rw [hn, Nat.mul_comm] at hdiv
      omega
    · rintro rfl
      exact ⟨⟨Int.natCast_nonneg _, Nat.mul_mod_left n one⟩, Nat.mul_div_cancel n Binary64.one_pos⟩

/-! ## Text -/

/-- A magnitude in units of `2 ^ -1074`, which may be too large. -/
def ofUnits (n : ℕ) : Number := if 2 ^ 1024 * one ≤ n then .infinite false else .finite n

/-- `m * 10 ^ e`, rounded. -/
def decimal (m : ℕ) (e : ℤ) : Number :=
  ofUnits (nearestQuotient (m * 10 ^ e.toNat * one) (10 ^ (-e).toNat))

def isDigit (u : UInt16) : Bool := (Str.digit? 10 u).isSome

/-- The digits of an exponent behind its sign. -/
def exponent (s : Str) : Option ℤ :=
  let (negative, digits) :=
    match s with
    | u :: s' => if u = unit '-' then (true, s') else if u = unit '+' then (false, s') else (false, s)
    | [] => (false, [])
  if digits = [] ∨ !digits.all isDigit then none
  else some (if negative then -Str.readDigits 10 0 digits else Str.readDigits 10 0 digits)

/-- What follows the digits of a decimal literal. -/
def scale (digits : Str) (places : ℕ) : Str → Option Number
  | [] => some (decimal (Str.readDigits 10 0 digits) (-places))
  | u :: s =>
    if u = unit 'e' ∨ u = unit 'E' then
      (exponent s).map fun e => decimal (Str.readDigits 10 0 digits) (e - places)
    else none

/-- A decimal literal without a sign. -/
def unsigned (s : Str) : Option Number :=
  if s = lit "Infinity" then some (.infinite false)
  else
    let whole := s.takeWhile isDigit
    let rest := s.dropWhile isDigit
    if rest.head? = some (unit '.') then
      let fraction := rest.tail.takeWhile isDigit
      if whole ++ fraction = [] then none
      else scale (whole ++ fraction) fraction.length (rest.tail.dropWhile isDigit)
    else if whole = [] then none
    else scale whole 0 rest

/-- A literal behind the letter of its radix. -/
def inRadix (radix : ℕ) (s : Str) : Option Number :=
  if s = [] ∨ !s.all (fun u => (Str.digit? radix u).isSome) then none
  else some (ofUnits (nearestQuotient (Str.readDigits radix 0 s * one) 1))

/-- A literal without white space around it. -/
def literal : Str → Option Number
  | 0x30 :: u :: s =>
    if u = unit 'x' ∨ u = unit 'X' then inRadix 16 s
    else if u = unit 'o' ∨ u = unit 'O' then inRadix 8 s
    else if u = unit 'b' ∨ u = unit 'B' then inRadix 2 s
    else unsigned (0x30 :: u :: s)
  | 0x2B :: s => unsigned s
  | 0x2D :: s => (unsigned s).map neg
  | s => unsigned s

/-- `Number` of a text. -/
def ofStr (s : Str) : Number :=
  if Str.trim s = [] then ofNat 0 else (literal (Str.trim s)).getD .nan

/-! ## Numerals -/

theorem isDigit_iff {u : UInt16} : isDigit u = true ↔ 48 ≤ u.toNat ∧ u.toNat ≤ 57 := by
  unfold isDigit Str.digit?
  dsimp only
  split
  · rw [if_pos (by omega)]
    simp_all
  · split
    · rw [if_neg (by omega)]
      simp_all
    · split
      · rw [if_neg (by omega)]
        simp_all
      · simp_all

/-- **A text of digits** is a decimal literal. -/
theorem literal_digits {s : Str} (hne : s ≠ []) (hs : ∀ u ∈ s, isDigit u = true) :
    literal s = some (decimal (Str.readDigits 10 0 s) 0) := by
  have hunsigned : unsigned s = some (decimal (Str.readDigits 10 0 s) 0) := by
    have hinfinity : s ≠ lit "Infinity" := by
      rintro rfl
      exact absurd (hs _ mem_cons_self) (by decide)
    have htake : s.takeWhile isDigit = s := takeWhile_eq_self_iff.mpr hs
    have hdrop : s.dropWhile isDigit = [] := dropWhile_eq_nil_iff.mpr hs
    unfold unsigned
    rw [if_neg hinfinity, htake, hdrop]
    dsimp only
    rw [if_neg hne]
    rfl
  unfold literal
  split
  · next u s =>
    have hu := hs u (mem_cons_of_mem _ mem_cons_self)
    have hne : ∀ v : UInt16, isDigit v = false → u ≠ v := by
      rintro v hv rfl
      rw [hu] at hv
      cases hv
    rw [if_neg, if_neg, if_neg, hunsigned]
    all_goals rintro (h | h) <;> exact hne _ (by decide) h
  · exact absurd (hs _ mem_cons_self) (by decide)
  · exact absurd (hs _ mem_cons_self) (by decide)
  · exact hunsigned

theorem decimal_zero (h : n ≤ 2 ^ 53) : decimal n 0 = ofNat n := by
  have hlt : n * one < 2 ^ 1024 * one := by
    have hpow : (2 : ℕ) ^ 53 < 2 ^ 1024 := by
      apply Nat.pow_lt_pow_right <;> decide
    exact Nat.mul_lt_mul_of_pos_right (h.trans_lt hpow) Binary64.one_pos
  have hexact := nearestQuotient_mul Nat.one_pos (representable_mul_one h)
  rw [Nat.mul_one] at hexact
  unfold decimal ofUnits
  rw [neg_zero, Int.toNat_zero, pow_zero, Nat.mul_one, hexact, if_neg (Nat.not_le.mpr hlt)]
  rfl

theorem isDigit_of_mem_natString : ∀ u ∈ Str.natString 10 n, isDigit u = true := by
  intro u hu
  obtain ⟨d, hd⟩ := Str.digit?_of_mem_natString (by decide) (by decide) hu
  rw [isDigit, hd]
  rfl

theorem trim_natString (n : ℕ) : Str.trim (Str.natString 10 n) = Str.natString 10 n := by
  have hspace : ∀ u ∈ Str.natString 10 n, Str.isSpace u = false := by
    intro u hu
    have hdigit := isDigit_iff.mp (isDigit_of_mem_natString u hu)
    unfold Str.isSpace
    simp only [Bool.or_eq_false_iff, Bool.and_eq_false_iff, decide_eq_false_iff_not,
      beq_eq_false_iff_ne]
    omega
  exact Str.trim_of_ends (fun u hu => hspace u (mem_of_mem_head? hu))
    fun u hu => hspace u (mem_of_mem_getLast? hu)

/-- **The numeral of a natural** is read as that natural. -/
theorem ofStr_natString (h : n ≤ 2 ^ 53) : ofStr (Str.natString 10 n) = ofNat n := by
  have hne : Str.natString 10 n ≠ [] := Str.natString_ne_nil 10 n
  unfold ofStr
  rw [trim_natString, if_neg hne, literal_digits hne isDigit_of_mem_natString,
    Str.readDigits_natString (by decide) (by decide), decimal_zero h]
  rfl

end Number
end Library
