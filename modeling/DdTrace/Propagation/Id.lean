import DdTrace.Library.Bytes
import DdTrace.Library.Integral

/-!
# Trace and span identifiers

`id.js` keeps an identifier as a buffer of bytes, most significant first: eight of them, or
sixteen when a 128-bit trace id arrived in one piece.  Its readers differ in the half of a long
buffer they take: `toArray`, which the encoders use, takes the last eight bytes, `toBigInt` the
first eight.

* `createBuffer_of_unhex`: hexadecimal text of whole words becomes its bytes.
* `toNumberString_eq`: the decimal numeral of an identifier is that of its last eight bytes.
* `fromString_natString`: the decimal numeral of a 64-bit number becomes its eight bytes.
-/

namespace DdTrace

open Library Bytes List

/-- `Identifier`: at least eight bytes. -/
structure Identifier where
  buffer : List UInt8
  size : 8 ≤ buffer.length
  deriving DecidableEq

/-- `String.prototype.padStart` with zeros. -/
def padStart (s : Str) (n : ℕ) : Str := List.replicate (n - s.length) (unit '0') ++ s

theorem length_padStart (s : Str) (n : ℕ) : (padStart s n).length = max n s.length := by
  rw [padStart, length_append, length_replicate]
  omega

theorem padStart_of_le {s : Str} {n : ℕ} (h : n ≤ s.length) : padStart s n = s := by
  rw [padStart, Nat.sub_eq_zero_of_le h]
  rfl

namespace Identifier

theorem ext {a b : Identifier} (h : a.buffer = b.buffer) : a = b := by
  cases b
  cases h
  rfl

/-- `UINT_MAX`, one more than the largest 32-bit number. -/
def uintMax : ℕ := 4294967296

/-! ## Readers -/

/-- The hexadecimal digits. -/
def toString (i : Identifier) : Str := Bytes.hex i.buffer

/-- `readBigUInt64BE(0)`: the first eight bytes. -/
def toBigInt (i : Identifier) : ℕ := Bytes.ofBytes (i.buffer.take 8)

/-- `slice(-8)`: the last eight bytes. -/
def toArray (i : Identifier) : List UInt8 :=
  if i.buffer.length = 8 then i.buffer else i.buffer.drop (i.buffer.length - 8)

/-- The full trace id, from the upper half that is kept in a tag when the buffer holds the lower
half only. -/
def toTraceIdHex (i : Identifier) (traceIdHigh : Option Str) : Str :=
  match traceIdHigh with
  | some high => if high ≠ [] ∧ i.buffer.length ≤ 8 then high ++ i.toString else i.toString
  | none => i.toString

/-- A comparison of the bytes from the last one on, as far as both buffers go. -/
def equals (i j : Identifier) : Bool :=
  (i.buffer.reverse.zip j.buffer.reverse).all fun p => p.1 == p.2

/-- The digits of a number in two halves of 32 bits, put before those that have been found. -/
def numberDigits (radix : ℕ) : ℕ → ℕ → ℕ → Str → Str
  | 0, _, _, str => str
  | rest + 1, high, low, str =>
    let mod := high % radix * uintMax + low
    let str := unit (mod % radix).digitChar :: str
    if high / radix = 0 ∧ mod / radix = 0 then str
    else numberDigits radix rest (high / radix) (mod / radix) str

/-- `toNumberString`, which `toString` is in a radix other than 16.  There are no more than 64
digits. -/
def toNumberString (i : Identifier) (radix : ℕ) : Str :=
  numberDigits radix 64 (Bytes.ofBytes (i.toArray.take 4)) (Bytes.ofBytes (i.toArray.drop 4)) []

theorem length_toArray (i : Identifier) : i.toArray.length = 8 := by
  have h := i.size
  unfold toArray
  split
  · assumption
  · rw [length_drop]
    omega

/-! ## From text -/

/-- The eight bytes of a number. -/
def word (n : ℕ) : Identifier := ⟨Bytes.toBytes 8 n, (length_toBytes 8 n).ge⟩

/-- Eight zero bytes. -/
def zeroId : Identifier := ⟨List.replicate 8 0, by decide⟩

/-- A buffer from hexadecimal text, padded to whole words.  The empty text asks for a random
identifier.  Text that is not hexadecimal does not get here: the patterns of the callers admit
only digits. -/
def createBuffer (pseudoRandom : Identifier) (value : Str) : Option Identifier :=
  if value = lit "0" then some zeroId
  else if h0 : value = [] then some pseudoRandom
  else
    let size := (value.length + 15) / 16 * 16
    match h : Bytes.unhex (padStart value size) with
    | some buffer =>
      some ⟨buffer, by
        have hlen := length_of_unhex h
        have hpos := length_pos_iff.mpr h0
        rw [length_padStart] at hlen
        omega⟩
    | none => none

/-- The two halves of a number read digit by digit, up to the first code unit that is no digit.
The upper half is a double-precision number and is rounded as one. -/
def readHalves (radix : ℕ) : ℕ × ℕ → Str → ℕ × ℕ
  | halves, [] => halves
  | (high, low), u :: s =>
    match Str.digit? radix u with
    | some chr =>
      let low' := low * radix + chr
      readHalves radix
        (Binary64.round53 (Binary64.round53 (high * radix) + low' / uintMax), low' % uintMax) s
    | none => (high, low)

/-- A buffer from a numeral, in two's complement after a minus sign. -/
def fromString (str : Str) (radix : ℕ) : Identifier :=
  let negative := str.head? = some (unit '-')
  let (high, low) := readHalves radix (0, 0) (if negative then str.tail else str)
  -- `~high` on 32 bits, and `high + 1` after it when there is nothing to borrow
  let flipped := uintMax - 1 - high % uintMax
  let (high, low) :=
    if negative then (if low ≠ 0 then (flipped, uintMax - low) else (flipped + 1, low))
    else (high, low)
  ⟨Bytes.toBytes 4 high ++ Bytes.toBytes 4 low, by simp⟩

/-- `id(value, radix)`. -/
def id (pseudoRandom : Identifier) (value : Str) (radix : ℕ) : Option Identifier :=
  if radix = 16 then createBuffer pseudoRandom value else some (fromString value radix)

/-- Hexadecimal text of whole words becomes its bytes. -/
theorem createBuffer_of_unhex {r : Identifier} {s : Str} {l : List UInt8}
    (h : Bytes.unhex s = some l) (h8 : 8 ∣ l.length) (hl : 8 ≤ l.length) :
    createBuffer r s = some ⟨l, hl⟩ := by
  have hlen := length_of_unhex h
  have hpad : padStart s ((s.length + 15) / 16 * 16) = s := padStart_of_le (by omega)
  have h0 : s ≠ lit "0" := by
    intro hs
    have hone : (lit "0").length = 1 := rfl
    rw [hs] at hlen
    omega
  have hnil : s ≠ [] := by
    intro hs
    rw [hs, length_nil] at hlen
    omega
  rw [createBuffer, if_neg h0, dif_neg hnil]
  simp only
  split
  · next buffer hb =>
    rw [hpad, h, Option.some_inj] at hb
    subst hb
    rfl
  · next hb =>
    rw [hpad, h] at hb
    cases hb

/-! ## Decimal numerals of 64 bits -/

theorem le_readDigits {radix : ℕ} (hr : 1 ≤ radix) (a : ℕ) (s : Str) :
    a ≤ Str.readDigits radix a s := by
  induction s generalizing a with
  | nil => exact le_refl a
  | cons u s ih =>
    rw [Str.readDigits]
    rcases Str.digit? radix u with _ | d
    · exact le_refl a
    · refine le_trans ?_ (ih (a * radix + d))
      calc a = a * 1 := (mul_one a).symm
        _ ≤ a * radix := Nat.mul_le_mul_left a hr
        _ ≤ a * radix + d := Nat.le_add_right _ _

/-- Below `2 ^ 64` the halves are those of the number read, with nothing rounded. -/
theorem readHalves_eq {radix a : ℕ} (hr : 1 ≤ radix) {s : Str}
    (h : Str.readDigits radix a s < 2 ^ 64) :
    readHalves radix (a / uintMax, a % uintMax) s =
      (Str.readDigits radix a s / uintMax, Str.readDigits radix a s % uintMax) := by
  induction s generalizing a with
  | nil => rfl
  | cons u s ih =>
    rw [Str.readDigits] at h ⊢
    rw [readHalves]
    rcases hu : Str.digit? radix u with _ | d
    · rfl
    · rw [hu] at h
      have hlt := (le_readDigits hr (a * radix + d) s).trans_lt h
      have hsum : a * radix + d = (a % uintMax * radix + d) + uintMax * (a / uintMax * radix) := by
        conv_lhs => rw [← Nat.div_add_mod a uintMax]
        ring
      have hdiv : (a * radix + d) / uintMax =
          (a % uintMax * radix + d) / uintMax + a / uintMax * radix := by
        rw [hsum, Nat.add_mul_div_left _ _ (by decide)]
      have hmod : (a * radix + d) % uintMax = (a % uintMax * radix + d) % uintMax := by
        rw [hsum, Nat.add_mul_mod_self_left]
      have hhigh : (a * radix + d) / uintMax < 2 ^ 53 := by
        refine lt_trans (b := 2 ^ 32) ?_ (by norm_num)
        rw [Nat.div_lt_iff_lt_mul (by decide)]
        exact hlt
      have hhigh' : a / uintMax * radix < 2 ^ 53 := by
        rw [hdiv] at hhigh
        exact (Nat.le_add_left _ _).trans_lt hhigh
      simp only
      rw [Binary64.round53_of_lt hhigh', Nat.add_comm (a / uintMax * radix), ← hdiv,
        Binary64.round53_of_lt hhigh, ← hmod]
      exact ih h

/-- The digits that the halves yield are those of the number. -/
theorem numberDigits_eq {radix : ℕ} (hr : 1 < radix) {rest high low : ℕ}
    (hlow : low < uintMax) (h : high * uintMax + low < radix ^ (rest + 1)) (str : Str) :
    numberDigits radix (rest + 1) high low str =
      Str.natString radix (high * uintMax + low) ++ str := by
  induction rest generalizing high low str with
  | zero =>
    rw [pow_one] at h
    have hpos : 0 < uintMax := by decide
    have hhigh : high < radix :=
      lt_of_le_of_lt ((Nat.le_mul_of_pos_right high hpos).trans (Nat.le_add_right _ low)) h
    rw [Str.natString_of_lt h, numberDigits, Nat.mod_eq_of_lt hhigh, Nat.mod_eq_of_lt h,
      if_pos ⟨Nat.div_eq_of_lt hhigh, Nat.div_eq_of_lt h⟩]
    rfl
  | succ rest ih =>
    have hsum : high * uintMax + low =
        high % radix * uintMax + low + radix * (high / radix * uintMax) := by
      conv_lhs => rw [← Nat.div_add_mod high radix]
      ring
    have hdiv : (high * uintMax + low) / radix =
        high / radix * uintMax + (high % radix * uintMax + low) / radix := by
      rw [hsum, Nat.add_mul_div_left _ _ (by omega), Nat.add_comm]
    have hmod : (high * uintMax + low) % radix = (high % radix * uintMax + low) % radix := by
      rw [hsum, Nat.add_mul_mod_self_left]
    have hlow' : (high % radix * uintMax + low) / radix < uintMax := by
      rw [Nat.div_lt_iff_lt_mul (by omega)]
      have hlt : high % radix + 1 ≤ radix := Nat.mod_lt _ (by omega)
      have hle := Nat.mul_le_mul_right uintMax hlt
      rw [Nat.succ_mul] at hle
      rw [Nat.mul_comm uintMax]
      omega
    rw [numberDigits]
    by_cases hstop : high / radix = 0 ∧ (high % radix * uintMax + low) / radix = 0
    · have hlt : high * uintMax + low < radix := by
        rw [hstop.1, hstop.2, Nat.zero_mul, Nat.div_eq_zero_iff] at hdiv
        omega
      rw [if_pos hstop, Str.natString_of_lt hlt, ← hmod, Nat.mod_eq_of_lt hlt]
      rfl
    · have hle : radix ≤ high * uintMax + low := by
        by_contra hlt
        rw [Nat.div_eq_of_lt (by omega)] at hdiv
        obtain ⟨hhigh, hrest⟩ := Nat.add_eq_zero_iff.mp hdiv.symm
        exact hstop ⟨(Nat.mul_eq_zero.mp hhigh).resolve_right (by decide), hrest⟩
      have hlt : high / radix * uintMax + (high % radix * uintMax + low) / radix <
          radix ^ (rest + 1) := by
        rw [← hdiv, Nat.div_lt_iff_lt_mul (by omega)]
        exact h
      rw [if_neg hstop, ih hlow' hlt, Str.natString_of_le hr hle, hdiv, hmod, append_assoc]
      rfl

/-- The decimal numeral of an identifier is that of its last eight bytes. -/
theorem toNumberString_eq (i : Identifier) :
    i.toNumberString 10 = Str.natString 10 (Bytes.ofBytes i.toArray) := by
  have hlen : (i.toArray.drop 4).length = 4 := by
    rw [length_drop, length_toArray]
  have hsplit := ofBytes_append (i.toArray.take 4) (i.toArray.drop 4)
  rw [take_append_drop, hlen] at hsplit
  have hlow := ofBytes_lt (i.toArray.drop 4)
  rw [hlen] at hlow
  have hlt := ofBytes_lt i.toArray
  rw [length_toArray] at hlt
  have hbound : Bytes.ofBytes (i.toArray.take 4) * uintMax + Bytes.ofBytes (i.toArray.drop 4) <
      10 ^ (63 + 1) := by
    have hmax : uintMax = 256 ^ 4 := by decide
    rw [hmax, ← hsplit]
    exact hlt.trans (by norm_num)
  rw [toNumberString, numberDigits_eq (by omega) hlow hbound, append_nil, hsplit]
  rfl

theorem head?_natString_ne_minus (n : ℕ) : (Str.natString 10 n).head? ≠ some (unit '-') := by
  obtain ⟨u, s, d, hs, hd⟩ := Integral.exists_natString_eq_cons n
  rw [hs]
  intro h
  exact (Integral.ne_sign_of_digit hd).1 (Option.some_inj.mp h)

/-- The decimal numeral of a 64-bit number becomes its eight bytes. -/
theorem fromString_natString {n : ℕ} (h : n < 2 ^ 64) :
    (fromString (Str.natString 10 n) 10).buffer = Bytes.toBytes 8 n := by
  have hread : Str.readDigits 10 0 (Str.natString 10 n) = n :=
    Str.readDigits_natString (by omega) (by omega)
  have hhalves : readHalves 10 (0, 0) (Str.natString 10 n) = (n / uintMax, n % uintMax) := by
    have hlt : Str.readDigits 10 0 (Str.natString 10 n) < 2 ^ 64 := hread.symm ▸ h
    have h0 := readHalves_eq (by omega) hlt
    rwa [hread, Nat.zero_mod] at h0
  have hmax : uintMax = 256 ^ 4 := by decide
  rw [fromString]
  simp only [head?_natString_ne_minus, if_false, hhalves, hmax]
  rw [toBytes_mod, ← toBytes_add]

end Identifier
end DdTrace
