import DdTrace.Library.Unicode

/-!
# Base64

Three bytes are written as four digits of six bits.  Where one or two bytes are left they take two
or three digits, and `=` fills the group.

A `Buffer` reads more than is written: the digits of base64url count as well, and what is no digit
is skipped, so that nothing is refused.

* `decode_encode`: bytes that were written are read back.
* `isAscii_encode`, `length_encode`: what is written.
-/

namespace Library.Base64

/-- The digit of a number below 64. -/
def digit (n : ℕ) : UInt16 :=
  if n < 26 then (0x41 + n).toUInt16
  else if n < 52 then (0x61 + (n - 26)).toUInt16
  else if n < 62 then (0x30 + (n - 52)).toUInt16
  else if n = 62 then unit '+'
  else unit '/'

/-- `buffer.toString('base64')`. -/
def encode : List UInt8 → Str
  | [] => []
  | [a] => [digit (a.toNat / 4), digit (a.toNat % 4 * 16), unit '=', unit '=']
  | [a, b] =>
    [digit (a.toNat / 4), digit (a.toNat % 4 * 16 + b.toNat / 16), digit (b.toNat % 16 * 4),
      unit '=']
  | a :: b :: c :: l =>
    [digit (a.toNat / 4), digit (a.toNat % 4 * 16 + b.toNat / 16),
      digit (b.toNat % 16 * 4 + c.toNat / 64), digit (c.toNat % 64)] ++ encode l

/-- What a code unit counts, as a digit of base64 or of base64url. -/
def value (u : UInt16) : Option ℕ :=
  let n := u.toNat
  if 0x41 ≤ n && n ≤ 0x5A then some (n - 0x41)
  else if 0x61 ≤ n && n ≤ 0x7A then some (n - 0x61 + 26)
  else if 0x30 ≤ n && n ≤ 0x39 then some (n - 0x30 + 52)
  else if u = unit '+' ∨ u = unit '-' then some 62
  else if u = unit '/' ∨ u = unit '_' then some 63
  else none

/-- The bytes of a list of numbers below 64, by groups of four. -/
def ofDigits : List ℕ → List UInt8
  | w :: x :: y :: z :: l =>
    [(w * 4 + x / 16).toUInt8, (x % 16 * 16 + y / 4).toUInt8, (y % 4 * 64 + z).toUInt8] ++
      ofDigits l
  | [w, x, y] => [(w * 4 + x / 16).toUInt8, (x % 16 * 16 + y / 4).toUInt8]
  | [w, x] => [(w * 4 + x / 16).toUInt8]
  | _ => []

/-- `Buffer.from(s, 'base64')`. -/
def decode (s : Str) : List UInt8 := ofDigits (s.filterMap value)

theorem value_digit {n : ℕ} (h : n < 64) : value (digit n) = some n := by
  have hall : ∀ n : Fin 64, value (digit n) = some n.val := by decide
  exact hall ⟨n, h⟩

theorem value_pad : value (unit '=') = none := by decide

theorem toUInt8_eq {n : ℕ} {b : UInt8} (h : n = b.toNat) : n.toUInt8 = b := by
  rw [h, Nat.toUInt8_eq, UInt8.ofNat_toNat]

/-- **Bytes that were written are read back.** -/
theorem decode_encode (l : List UInt8) : decode (encode l) = l := by
  unfold decode
  induction l using encode.induct with
  | case1 => rfl
  | case2 a =>
    have ha := a.toNat_lt
    have hdigits : (encode [a]).filterMap value = [a.toNat / 4, a.toNat % 4 * 16] := by
      simp [encode, value_pad, value_digit (show a.toNat / 4 < 64 by omega),
        value_digit (show a.toNat % 4 * 16 < 64 by omega)]
    rw [hdigits, ofDigits, toUInt8_eq (b := a) (by omega)]
  | case3 a b =>
    have ha := a.toNat_lt
    have hb := b.toNat_lt
    have hdigits : (encode [a, b]).filterMap value =
        [a.toNat / 4, a.toNat % 4 * 16 + b.toNat / 16, b.toNat % 16 * 4] := by
      simp [encode, value_pad, value_digit (show a.toNat / 4 < 64 by omega),
        value_digit (show a.toNat % 4 * 16 + b.toNat / 16 < 64 by omega),
        value_digit (show b.toNat % 16 * 4 < 64 by omega)]
    rw [hdigits, ofDigits, toUInt8_eq (b := a) (by omega), toUInt8_eq (b := b) (by omega)]
  | case4 a b c l ih =>
    have ha := a.toNat_lt
    have hb := b.toNat_lt
    have hc := c.toNat_lt
    have hdigits : (encode (a :: b :: c :: l)).filterMap value =
        a.toNat / 4 :: (a.toNat % 4 * 16 + b.toNat / 16) :: (b.toNat % 16 * 4 + c.toNat / 64) ::
          c.toNat % 64 :: (encode l).filterMap value := by
      simp [encode, value_digit (show a.toNat / 4 < 64 by omega),
        value_digit (show a.toNat % 4 * 16 + b.toNat / 16 < 64 by omega),
        value_digit (show b.toNat % 16 * 4 + c.toNat / 64 < 64 by omega),
        value_digit (show c.toNat % 64 < 64 by omega)]
    rw [hdigits, ofDigits, ih, toUInt8_eq (b := a) (by omega), toUInt8_eq (b := b) (by omega),
      toUInt8_eq (b := c) (by omega)]
    rfl

theorem digit_lt {n : ℕ} (h : n < 64) : (digit n).toNat < 0x80 := by
  have hall : ∀ n : Fin 64, (digit n).toNat < 0x80 := by decide
  exact hall ⟨n, h⟩

theorem isAscii_encode (l : List UInt8) : Unicode.IsAscii (encode l) := by
  have hpad : (unit '=').toNat < 0x80 := by decide
  induction l using encode.induct with
  | case1 => exact List.forall_mem_nil _
  | case2 a =>
    have ha := a.toNat_lt
    have h1 := digit_lt (show a.toNat / 4 < 64 by omega)
    have h2 := digit_lt (show a.toNat % 4 * 16 < 64 by omega)
    simpa [Unicode.IsAscii, encode] using ⟨h1, h2, hpad⟩
  | case3 a b =>
    have ha := a.toNat_lt
    have hb := b.toNat_lt
    have h1 := digit_lt (show a.toNat / 4 < 64 by omega)
    have h2 := digit_lt (show a.toNat % 4 * 16 + b.toNat / 16 < 64 by omega)
    have h3 := digit_lt (show b.toNat % 16 * 4 < 64 by omega)
    simpa [Unicode.IsAscii, encode] using ⟨h1, h2, h3, hpad⟩
  | case4 a b c l ih =>
    have ha := a.toNat_lt
    have hb := b.toNat_lt
    have hc := c.toNat_lt
    have h1 := digit_lt (show a.toNat / 4 < 64 by omega)
    have h2 := digit_lt (show a.toNat % 4 * 16 + b.toNat / 16 < 64 by omega)
    have h3 := digit_lt (show b.toNat % 16 * 4 + c.toNat / 64 < 64 by omega)
    have h4 := digit_lt (show c.toNat % 64 < 64 by omega)
    simpa [Unicode.IsAscii, encode] using ⟨h1, h2, h3, h4, ih⟩

theorem length_encode (l : List UInt8) : (encode l).length = 4 * ((l.length + 2) / 3) := by
  induction l using encode.induct with
  | case1 => rfl
  | case2 a | case3 a b => simp [encode]
  | case4 a b c l ih =>
    rw [encode, List.length_append]
    simp only [List.length_cons, List.length_nil]
    omega

end Library.Base64
