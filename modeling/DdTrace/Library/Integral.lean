import DdTrace.Library.Binary64
import DdTrace.Library.Text

/-!
# Integral numbers and their numerals

The numbers of ECMAScript that are integers, with the two conversions between them and strings.

* `round53`: a natural rounded to 53 significant binary digits, ties to the even one.
* `Integral`: an integer that is a double-precision number.
* `Integral.toString`: the shortest decimal numeral that rounds to the number, padded with zeros
  below `10 ^ 21` and in exponent form from there on.
* `parseInt_toString`: the numeral of a number below `10 ^ 21` is read back;
  `parseInt_toString_of_le`: from there on only its first digit is.
-/

namespace Library

open List Option

namespace Binary64

/-- A natural rounded to 53 significant digits, ties to the even one. -/
def round53 (n : ℕ) : ℕ :=
  let q := n / 2 ^ spare n
  let r := n % 2 ^ spare n
  if 2 * r < 2 ^ spare n ∨ (2 * r = 2 ^ spare n ∧ q % 2 = 0) then q * 2 ^ spare n
  else (q + 1) * 2 ^ spare n

theorem dvd_of_representable {n : ℕ} (h : Representable n) : 2 ^ spare n ∣ n := by
  obtain ⟨m, p, hm, hn⟩ := h
  rcases Nat.eq_zero_or_pos (spare n) with h0 | h0
  · rw [h0]
    exact one_dvd n
  have hle := two_pow_spare_le h0
  have hlt : m * 2 ^ p < 2 ^ 53 * 2 ^ p := Nat.mul_lt_mul_of_pos_right hm (by positivity)
  have hp : spare n ≤ p := by
    by_contra hp
    have : 2 ^ 53 * 2 ^ p ≤ 2 ^ 52 * 2 ^ spare n := by
      rw [← pow_add, ← pow_add]
      exact Nat.pow_le_pow_right (by omega) (by omega)
    omega
  have hdvd : 2 ^ spare n ∣ m * 2 ^ p := (pow_dvd_pow 2 hp).mul_left m
  rwa [← hn] at hdvd

/-- A representable number is its own rounding. -/
theorem round53_of_representable {n : ℕ} (h : Representable n) : round53 n = n := by
  have hr := Nat.mod_eq_zero_of_dvd (dvd_of_representable h)
  rw [round53, if_pos (Or.inl (by omega))]
  exact Nat.div_mul_cancel (dvd_of_representable h)

theorem representable_round53 (n : ℕ) : Representable (round53 n) := by
  have hlt : n / 2 ^ spare n < 2 ^ 53 := by
    rw [Nat.div_lt_iff_lt_mul (by positivity)]
    exact lt_two_pow_spare n
  rw [round53]
  split
  · exact ⟨_, _, hlt, rfl⟩
  · rcases Nat.lt_or_ge (n / 2 ^ spare n + 1) (2 ^ 53) with h | h
    · exact ⟨_, _, h, rfl⟩
    · refine ⟨1, 53 + spare n, by norm_num, ?_⟩
      have heq : n / 2 ^ spare n + 1 = 2 ^ 53 := by omega
      rw [heq, one_mul, pow_add]

theorem round53_round53 (n : ℕ) : round53 (round53 n) = round53 n :=
  round53_of_representable (representable_round53 n)

theorem round53_of_lt {n : ℕ} (h : n < 2 ^ 53) : round53 n = n :=
  round53_of_representable ⟨n, 0, h, by rw [pow_zero, mul_one]⟩

end Binary64

open Binary64

/-- An integer that is a double-precision number. -/
structure Integral where
  val : ℤ
  exact' : round53 val.natAbs = val.natAbs
  bound : val.natAbs < 2 ^ 1024
  deriving DecidableEq

namespace Integral

theorem ext_val {x y : Integral} (h : x.val = y.val) : x = y := by
  cases y
  cases h
  rfl

/-- A small integer. -/
def ofInt (z : ℤ) (h : z.natAbs < 2 ^ 53) : Integral :=
  ⟨z, round53_of_lt h, h.trans (pow_lt_pow_right₀ (by omega) (by omega))⟩

/-- `Math.abs`. -/
def abs (z : Integral) : Integral := ⟨z.val.natAbs, z.exact', z.bound⟩

def zero : Integral := ofInt 0 (by decide)

def one : Integral := ofInt 1 (by decide)

def two : Integral := ofInt 2 (by decide)

/-! ## From numbers to strings -/

/-- The two multiples of `10 ^ e` around `v` that round to `v`, the closer of them first. -/
def candidate (v e : ℕ) : Option ℕ :=
  let lo := v / 10 ^ e * 10 ^ e
  let hi := lo + 10 ^ e
  let closer := if v - lo < hi - v ∨ (v - lo = hi - v ∧ v / 10 ^ e % 2 = 0) then [lo, hi]
    else [hi, lo]
  closer.find? fun c => round53 c == v

/-- The candidate with the most zeros, of at most `e` of them. -/
def shortestFrom (v : ℕ) : ℕ → ℕ
  | 0 => v
  | e + 1 => (candidate v (e + 1)).getD (shortestFrom v e)

/-- The decimal number with the fewest significant digits that rounds to `v`. -/
def shortest (v : ℕ) : ℕ := shortestFrom v ((Str.natString 10 v).length - 1)

/-- `Number.prototype.toString` of a natural. -/
def natToString (v : ℕ) : Str :=
  let digits := Str.natString 10 (shortest v)
  if digits.length ≤ 21 then digits
  else
    match digits.rdropWhile (· = unit '0') with
    | [] => []
    | d :: ds => d :: (if ds = [] then [] else unit '.' :: ds) ++ lit "e+" ++
        Str.natString 10 (digits.length - 1)

/-- `Number.prototype.toString` of an integral number. -/
def toString (z : Integral) : Str :=
  if z.val < 0 then unit '-' :: natToString z.val.natAbs else natToString z.val.natAbs

variable {v e : ℕ}

theorem candidate_eq_some {c : ℕ} (h : candidate v e = some c) :
    round53 c = v ∧ (c = v / 10 ^ e * 10 ^ e ∨ c = v / 10 ^ e * 10 ^ e + 10 ^ e) := by
  have hmem := List.mem_of_find?_eq_some h
  have hround := List.find?_some h
  refine ⟨by simpa using hround, ?_⟩
  split at hmem
  · simpa using hmem
  · simpa [or_comm] using hmem

theorem round53_shortestFrom (hv : round53 v = v) (e : ℕ) : round53 (shortestFrom v e) = v := by
  induction e with
  | zero => exact hv
  | succ e ih =>
    rw [shortestFrom]
    rcases h : candidate v (e + 1) with _ | c
    · exact ih
    · exact (candidate_eq_some h).1

/-- The shortest numeral rounds to the number it stands for. -/
theorem round53_shortest (hv : round53 v = v) : round53 (shortest v) = v :=
  round53_shortestFrom hv _

theorem ten_pow_dvd {k : ℕ} (h : e ≤ k) : (10 : ℕ) ^ e ∣ 10 ^ k := pow_dvd_pow 10 h

theorem shortestFrom_le {k : ℕ} (hv : v < 10 ^ k) (he : e ≤ k) :
    shortestFrom v e ≤ 10 ^ k := by
  induction e with
  | zero => exact hv.le
  | succ e ih =>
    rw [shortestFrom]
    rcases h : candidate v (e + 1) with _ | c
    · exact ih (by omega)
    · have hpos : 0 < 10 ^ (e + 1) := by positivity
      obtain ⟨q, hq⟩ := ten_pow_dvd he
      have hlt : v / 10 ^ (e + 1) < q := by
        rw [Nat.div_lt_iff_lt_mul hpos, mul_comm, ← hq]
        exact hv
      have hle : (v / 10 ^ (e + 1) + 1) * 10 ^ (e + 1) ≤ q * 10 ^ (e + 1) :=
        Nat.mul_le_mul_right _ hlt
      rw [mul_comm q, Nat.succ_mul] at hle
      rw [getD_some]
      rcases (candidate_eq_some h).2 with rfl | rfl <;> omega

theorem le_shortestFrom {k : ℕ} (hv : 10 ^ k ≤ v) (he : 10 ^ e ≤ v) :
    10 ^ k ≤ shortestFrom v e := by
  induction e with
  | zero => exact hv
  | succ e ih =>
    rw [shortestFrom]
    rcases h : candidate v (e + 1) with _ | c
    · exact ih ((Nat.pow_le_pow_right (by omega) (by omega)).trans he)
    · have hpos : 0 < 10 ^ (e + 1) := by positivity
      have hlo : 10 ^ k ≤ v / 10 ^ (e + 1) * 10 ^ (e + 1) := by
        rcases le_or_gt (e + 1) k with hk | hk
        · obtain ⟨q, hq⟩ := ten_pow_dvd hk
          rw [hq, mul_comm]
          refine Nat.mul_le_mul_right _ ?_
          rw [Nat.le_div_iff_mul_le hpos, mul_comm, ← hq]
          exact hv
        · have hone : 1 ≤ v / 10 ^ (e + 1) := (Nat.one_le_div_iff hpos).mpr he
          calc 10 ^ k ≤ 1 * 10 ^ (e + 1) := by
                rw [one_mul]
                exact Nat.pow_le_pow_right (by omega) hk.le
            _ ≤ _ := Nat.mul_le_mul_right _ hone
      rw [getD_some]
      rcases (candidate_eq_some h).2 with rfl | rfl <;> omega

end Integral

namespace Str

/-- How many digits the numeral of a number has. -/
theorem length_natString_le_iff {r n k : ℕ} (hr : 1 < r) (hk : 0 < k) :
    (natString r n).length ≤ k ↔ n < r ^ k := by
  induction k generalizing n with
  | zero => exact absurd hk (lt_irrefl 0)
  | succ k ih =>
    rcases lt_or_ge n r with h | h
    · rw [natString_of_lt h, length_singleton]
      have hpow : r ≤ r ^ (k + 1) := Nat.le_self_pow (by omega) r
      constructor <;> intro <;> omega
    · rw [natString_of_le hr h, length_append, length_singleton]
      rcases Nat.eq_zero_or_pos k with rfl | hk'
      · have hne := length_pos_iff.mpr (natString_ne_nil r (n / r))
        rw [pow_one]
        constructor <;> intro <;> omega
      · rw [Nat.add_le_add_iff_right, ih hk', Nat.div_lt_iff_lt_mul (by omega), pow_succ]

end Str

namespace Integral

variable {u : UInt16} {v d : ℕ}

theorem ten_pow_length_le (hv : v ≠ 0) : 10 ^ ((Str.natString 10 v).length - 1) ≤ v := by
  by_contra h
  rcases Nat.lt_or_ge 1 (Str.natString 10 v).length with h1 | h1
  · have := (Str.length_natString_le_iff (r := 10) (by omega) (by omega)).mpr (not_le.mp h)
    omega
  · have h0 : (Str.natString 10 v).length - 1 = 0 := by omega
    rw [h0] at h
    omega

/-- The numeral is written out in full for the numbers below `10 ^ 21`. -/
theorem shortest_lt_iff (hv : round53 v = v) : shortest v < 10 ^ 21 ↔ v < 10 ^ 21 := by
  constructor
  · intro h
    by_contra hle
    have hle := not_lt.mp hle
    exact absurd (le_shortestFrom hle (ten_pow_length_le (by omega))) (not_le.mpr h)
  · intro h
    have hlen := (Str.length_natString_le_iff (r := 10) (k := 21) (by omega) (by omega)).mpr h
    have hle : shortest v ≤ 10 ^ 21 := shortestFrom_le h (by omega)
    refine lt_of_le_of_ne hle fun heq => ?_
    have hround := round53_shortest hv
    rw [heq, round53_of_representable ⟨5 ^ 21, 21, by norm_num, by norm_num⟩] at hround
    omega

/-! ## From strings to numbers -/

theorem natAbs_signed (neg : Bool) (n : ℕ) : (if neg then -(n : ℤ) else n).natAbs = n := by
  cases neg
  · rfl
  · exact Int.natAbs_neg n

/-- The number nearest to an integer, when it is finite. -/
def ofNat? (neg : Bool) (n : ℕ) : Option Integral :=
  if h : round53 n < 2 ^ 1024 then
    some ⟨if neg then -(round53 n : ℤ) else round53 n, by rw [natAbs_signed, round53_round53],
      by rw [natAbs_signed]; exact h⟩
  else none

/-- The sign that a string starts with, and the rest of it. -/
def cutSign : Str → Bool × Str
  | [] => (false, [])
  | u :: s =>
    if u = unit '-' then (true, s) else if u = unit '+' then (false, s) else (false, u :: s)

/-- The `0x` that `parseInt` skips in radix 16. -/
def dropHexPrefix : Str → Str
  | u :: w :: s => if u = unit '0' ∧ (w = unit 'x' ∨ w = unit 'X') then s else u :: w :: s
  | s => s

/-- `Number.parseInt`, when the result is a finite number. -/
def parseInt (radix : ℕ) (s : Str) : Option Integral :=
  let (neg, t) := cutSign s.trimStart
  let t := if radix = 16 then dropHexPrefix t else t
  match t.head?.bind (Str.digit? radix) with
  | some _ => ofNat? neg (Str.readDigits radix 0 t)
  | none => none

theorem digit?_ten (h : Str.digit? 10 u = some d) :
    d < 10 ∧ 48 ≤ u.toNat ∧ u.toNat ≤ 57 := by
  simp only [Str.digit?] at h
  split_ifs at h
  all_goals
    rw [some_inj] at h
    omega

theorem isSpace_of_digit (h : Str.digit? 10 u = some d) :
    Str.isSpace u = false := by
  obtain ⟨-, h48, h57⟩ := digit?_ten h
  unfold Str.isSpace
  simp
  omega

theorem ne_sign_of_digit (h : Str.digit? 10 u = some d) :
    u ≠ unit '-' ∧ u ≠ unit '+' := by
  obtain ⟨-, h48, -⟩ := digit?_ten h
  constructor <;> rintro rfl <;> exact absurd h48 (by decide)

/-- Reading a string that starts with a digit. -/
theorem parseInt_digit (h : Str.digit? 10 u = some d) (s : Str) :
    parseInt 10 (u :: s) = ofNat? false (Str.readDigits 10 0 (u :: s)) := by
  have htrim : Str.trimStart (u :: s) = u :: s := by
    rw [Str.trimStart, dropWhile_cons, if_neg (by simp [isSpace_of_digit h])]
  obtain ⟨hm, hp⟩ := ne_sign_of_digit h
  rw [parseInt, htrim, cutSign, if_neg hm, if_neg hp]
  simp [h]

/-- Reading a string that starts with a minus and a digit. -/
theorem parseInt_neg_digit (h : Str.digit? 10 u = some d) (s : Str) :
    parseInt 10 (unit '-' :: u :: s) = ofNat? true (Str.readDigits 10 0 (u :: s)) := by
  have htrim : Str.trimStart (unit '-' :: u :: s) = unit '-' :: u :: s := by
    rw [Str.trimStart, dropWhile_cons, if_neg (by decide)]
  rw [parseInt, htrim, cutSign]
  simp [h]

theorem exists_natString_eq_cons (n : ℕ) :
    ∃ u s d, Str.natString 10 n = u :: s ∧ Str.digit? 10 u = some d := by
  rcases h : Str.natString 10 n with _ | ⟨u, s⟩
  · exact absurd h (Str.natString_ne_nil 10 n)
  · have hmem : u ∈ Str.natString 10 n := by
      rw [h]
      exact mem_cons_self
    obtain ⟨d, hd⟩ := Str.digit?_of_mem_natString (by omega) (by omega) hmem
    exact ⟨u, s, d, rfl, hd⟩

theorem parseInt_natString (n : ℕ) : parseInt 10 (Str.natString 10 n) = ofNat? false n := by
  obtain ⟨u, s, d, hs, hd⟩ := exists_natString_eq_cons n
  rw [hs, parseInt_digit hd, ← hs, Str.readDigits_natString (by omega) (by omega)]

theorem parseInt_neg_natString (n : ℕ) :
    parseInt 10 (unit '-' :: Str.natString 10 n) = ofNat? true n := by
  obtain ⟨u, s, d, hs, hd⟩ := exists_natString_eq_cons n
  rw [hs, parseInt_neg_digit hd, ← hs, Str.readDigits_natString (by omega) (by omega)]

theorem natToString_of_lt (hv : round53 v = v) (h : v < 10 ^ 21) :
    natToString v = Str.natString 10 (shortest v) := by
  rw [natToString, if_pos]
  rw [Str.length_natString_le_iff (by omega) (by omega)]
  exact (shortest_lt_iff hv).mpr h

/-- **The numeral of a number below `10 ^ 21` is read back.** -/
theorem parseInt_toString {z : Integral} (h : z.val.natAbs < 10 ^ 21) :
    parseInt 10 z.toString = some z := by
  have hround : round53 (shortest z.val.natAbs) = z.val.natAbs := round53_shortest z.exact'
  have hbound : round53 (shortest z.val.natAbs) < 2 ^ 1024 := hround.symm ▸ z.bound
  rw [toString, natToString_of_lt z.exact' h]
  by_cases hneg : z.val < 0
  · rw [if_pos hneg, parseInt_neg_natString, ofNat?, dif_pos hbound, some_inj]
    refine ext_val ?_
    show -(round53 (shortest z.val.natAbs) : ℤ) = z.val
    omega
  · rw [if_neg hneg, parseInt_natString, ofNat?, dif_pos hbound, some_inj]
    refine ext_val ?_
    show (round53 (shortest z.val.natAbs) : ℤ) = z.val
    omega

theorem natAbs_of_ofNat? {neg : Bool} {n : ℕ} {w : Integral} (h : ofNat? neg n = some w) :
    w.val.natAbs = round53 n := by
  unfold ofNat? at h
  split at h
  · rw [some_inj] at h
    rw [← h]
    exact natAbs_signed neg _
  · cases h

/-- From `10 ^ 21` on the numeral has an exponent, and only its first digit is read. -/
theorem parseInt_natToString_of_le (hv : round53 v = v) (h : 10 ^ 21 ≤ v) :
    ∀ s ∈ [natToString v, unit '-' :: natToString v], ∀ w ∈ parseInt 10 s,
      w.val.natAbs < 10 := by
  have hlen : ¬ (Str.natString 10 (shortest v)).length ≤ 21 := by
    rw [Str.length_natString_le_iff (by omega) (by omega), shortest_lt_iff hv]
    omega
  rw [natToString, if_neg hlen]
  rcases hd : (Str.natString 10 (shortest v)).rdropWhile (· = unit '0') with _ | ⟨u, ds⟩
  · intro s hs w hw
    simp only [mem_cons, not_mem_nil, or_false] at hs
    rcases hs with rfl | rfl <;> cases hw
  · have hmem : u ∈ Str.natString 10 (shortest v) :=
      ( rdropWhile_prefix _ _).subset (by rw [hd]; exact mem_cons_self)
    obtain ⟨d, hu⟩ := Str.digit?_of_mem_natString (by omega) (by omega) hmem
    have hd10 := (digit?_ten hu).1
    -- what follows the first digit is a point or the exponent
    have hread : ∀ t, (∀ c ∈ t.head?, Str.digit? 10 c = none) →
        Str.readDigits 10 0 (u :: t) = d := by
      intro t ht
      rw [Str.readDigits, hu]
      rcases t with _ | ⟨c, t⟩
      · simp [Str.readDigits]
      · simp [Str.readDigits, ht c rfl]
    have hrest : ∀ e : Str, ∀ c ∈ ((if ds = [] then [] else unit '.' :: ds) ++ lit "e+" ++ e).head?,
        Str.digit? 10 c = none := by
      intro e c hc
      by_cases hds : ds = []
      · rw [if_pos hds] at hc
        cases hc
        decide
      · rw [if_neg hds] at hc
        cases hc
        decide
    intro s hs w hw
    simp only [mem_cons, not_mem_nil, or_false] at hs
    rcases hs with rfl | rfl
    · simp only [cons_append] at hw
      rw [parseInt_digit hu, hread _ (hrest _)] at hw
      rw [natAbs_of_ofNat? hw, round53_of_lt (by omega)]
      exact hd10
    · simp only [cons_append] at hw
      rw [parseInt_neg_digit hu, hread _ (hrest _)] at hw
      rw [natAbs_of_ofNat? hw, round53_of_lt (by omega)]
      exact hd10

theorem parseInt_toString_of_le {z w : Integral} (h : 10 ^ 21 ≤ z.val.natAbs)
    (hw : parseInt 10 z.toString = some w) : w.val.natAbs < 10 := by
  refine parseInt_natToString_of_le z.exact' h _ ?_ w hw
  rw [toString]
  split <;> simp

/-! ## The code units of a numeral -/

theorem mem_natToString (h : u ∈ natToString v) :
    (∃ d, Str.digit? 10 u = some d) ∨ u ∈ lit "-.e+" := by
  have hdigit : ∀ n, ∀ c ∈ Str.natString 10 n, ∃ d, Str.digit? 10 c = some d := fun n c hc =>
    Str.digit?_of_mem_natString (by omega) (by omega) hc
  rw [natToString] at h
  split at h
  · exact Or.inl (hdigit _ u h)
  · split at h
    · cases h
    · next d ds hd =>
      have hds : ∀ c ∈ d :: ds, ∃ n, Str.digit? 10 c = some n := by
        rw [← hd]
        exact fun c hc => hdigit _ c (( rdropWhile_prefix _ _).subset hc)
      rw [mem_append, cons_append, mem_cons, mem_append] at h
      rcases h with (rfl | h | h) | h
      · exact Or.inl (hds u mem_cons_self)
      · split at h
        · cases h
        · rcases mem_cons.mp h with rfl | h
          · exact Or.inr (by decide)
          · exact Or.inl (hds u (mem_cons_of_mem _ h))
      · have hexp : ∀ c ∈ lit "e+", c ∈ lit "-.e+" := Str.forall_mem_of_all (by decide)
        exact Or.inr (hexp u h)
      · exact Or.inl (hdigit _ u h)

/-- A numeral is made of digits, a sign, a point and an exponent. -/
theorem mem_toString {z : Integral} (h : u ∈ z.toString) :
    (∃ d, Str.digit? 10 u = some d) ∨ u ∈ lit "-.e+" := by
  rw [toString] at h
  split at h
  · rcases mem_cons.mp h with rfl | h
    · exact Or.inr (by decide)
    · exact mem_natToString h
  · exact mem_natToString h

end Integral
end Library
