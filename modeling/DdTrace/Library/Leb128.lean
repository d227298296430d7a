import Mathlib.Algebra.Group.Nat.Even
import Mathlib.Tactic.Common

/-!
# Numbers in groups of seven bits

LEB128 writes a natural number as bytes of seven bits each, the lowest first.  Every byte but the
last has its highest bit set, so that what follows a number is told from it.

* `decode_encode`: a number is read back, and what follows it is left.
* `length_encode_le`: a number below `128 ^ k` takes at most `k` bytes.
* `decodeAll_flatMap`: a list is read back, whatever its entries are written as.
-/

namespace Library.Leb128

open List

/-- The bytes of a number. -/
def encode (n : ℕ) : List UInt8 :=
  if n < 128 then [n.toUInt8] else (n % 128 + 128).toUInt8 :: encode (n / 128)
termination_by n
decreasing_by omega

/-- The number at the start of some bytes, and what follows it. -/
def decode : List UInt8 → Option (ℕ × List UInt8)
  | [] => none
  | b :: bytes =>
    if b.toNat < 128 then some (b.toNat, bytes)
    else (decode bytes).map fun r => (b.toNat - 128 + 128 * r.1, r.2)

theorem encode_of_lt {n : ℕ} (h : n < 128) : encode n = [n.toUInt8] := by
  rw [encode, if_pos h]

theorem encode_of_ge {n : ℕ} (h : 128 ≤ n) :
    encode n = (n % 128 + 128).toUInt8 :: encode (n / 128) := by
  rw [encode, if_neg (Nat.not_lt.mpr h)]

theorem toNat_toUInt8 {n : ℕ} (h : n < 256) : n.toUInt8.toNat = n := by
  rw [UInt8.toNat_ofNat', Nat.mod_eq_of_lt h]

/-- **A number is read back**, in front of anything. -/
theorem decode_encode (n : ℕ) (rest : List UInt8) : decode (encode n ++ rest) = some (n, rest) := by
  induction n using encode.induct with
  | case1 n h =>
    have hbyte : n.toUInt8.toNat = n := toNat_toUInt8 (by omega)
    rw [encode_of_lt h, singleton_append, decode, if_pos (by omega), hbyte]
  | case2 n h ih =>
    have hbyte : (n % 128 + 128).toUInt8.toNat = n % 128 + 128 := toNat_toUInt8 (by omega)
    rw [encode_of_ge (by omega), cons_append, decode, if_neg (by omega), ih, Option.map_some, Option.some_inj, Prod.mk.injEq]
    exact ⟨by omega, rfl⟩

theorem encode_ne_nil (n : ℕ) : encode n ≠ [] := by
  rw [encode]
  split <;> exact cons_ne_nil _ _

theorem length_encode_le {n k : ℕ} (hk : 0 < k) (h : n < 128 ^ k) : (encode n).length ≤ k := by
  induction k generalizing n with
  | zero => omega
  | succ k ih =>
    by_cases hn : n < 128
    · rw [encode_of_lt hn]
      exact Nat.succ_pos k
    · have hdiv : n / 128 < 128 ^ k := by
        rw [Nat.div_lt_iff_lt_mul (by decide)]
        exact h
      have hpos : 0 < k := by
        rcases Nat.eq_zero_or_pos k with rfl | hpos
        · exact absurd h hn
        · exact hpos
      rw [encode_of_ge (by omega)]
      exact Nat.succ_le_succ (ih hpos hdiv)

/-! ## Lists of numbers -/

/-- The numbers that some bytes hold, read one by one. -/
def decodeList : ℕ → List UInt8 → Option (List ℕ)
  | _, [] => some []
  | 0, _ :: _ => none
  | fuel + 1, b :: bytes => do
    let (n, rest) ← decode (b :: bytes)
    let ns ← decodeList fuel rest
    pure (n :: ns)

/-- All numbers: every number takes a byte. -/
def decodeAll (bytes : List UInt8) : Option (List ℕ) := decodeList bytes.length bytes

variable {α : Type*} {f : α → List UInt8} {g : α → ℕ}

theorem decodeList_flatMap (h : ∀ a rest, decode (f a ++ rest) = some (g a, rest)) {fuel : ℕ}
    {as : List α} (hfuel : (as.flatMap f).length ≤ fuel) :
    decodeList fuel (as.flatMap f) = some (as.map g) := by
  induction as generalizing fuel with
  | nil => cases fuel <;> rfl
  | cons a as ih =>
    have hread := h a (as.flatMap f)
    rw [flatMap_cons] at hfuel ⊢
    cases hbytes : f a with
    | nil =>
      have hnone := h a []
      rw [hbytes] at hnone
      cases hnone
    | cons b bytes =>
      rw [hbytes, cons_append, length_cons, length_append] at hfuel
      rw [hbytes, cons_append] at hread
      cases fuel with
      | zero => omega
      | succ fuel =>
        rw [cons_append, decodeList, hread]
        show (decodeList fuel (as.flatMap f)).bind _ = _
        rw [ih (by omega)]
        rfl

/-- **A list is read back**, if each of its entries is written so that it is read in front of
anything. -/
theorem decodeAll_flatMap (h : ∀ a rest, decode (f a ++ rest) = some (g a, rest)) (as : List α) :
    decodeAll (as.flatMap f) = some (as.map g) :=
  decodeList_flatMap h (le_refl _)

end Library.Leb128
