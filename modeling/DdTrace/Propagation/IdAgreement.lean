import DdTrace.Propagation.Id

/-!
# One number behind every reader of an identifier

An identifier is written as a numeral and read in six ways.  `fromString` and `toNumberString` carry
64 bits in two halves of 32, through a long multiplication and a long division, and nothing is lost
in the carries: whatever numeral of a 64-bit number is read, in decimal or in hexadecimal, with
zeros in front or digits of either case, the number is that one, and it comes out as its numeral
again.

The readers of a long identifier agree on its last eight bytes, with one exception.  `toBigInt`
reads the first eight, as its test asks for.

* `Numeral`, `Holds`: text that is read as a number, and an identifier that holds it.
* `hex_toBytes`: bytes in hexadecimal are a numeral with zeros in front.
* `holds_fromString`, `holds_createBuffer`, `low_fromString_neg`: what a numeral becomes.
* `readers_agree`: **a numeral becomes its number, and `toBuffer`, `toArray`, `toString` and
  `equals` agree on the low 64 bits of it**; `toBigInt` agrees where the first eight bytes are the
  last.
-/

namespace DdTrace

open Library List Bytes

/-- Text that is a numeral of `n`: digits, perhaps with zeros in front. -/
structure Numeral (radix : ℕ) (s : Str) (n : ℕ) : Prop where
  ne_nil : s ≠ []
  digits : ∀ u ∈ s, (Str.digit? radix u).isSome = true
  value : Str.readDigits radix 0 s = n

/-! ## Zeros in front -/

theorem readDigits_replicate_zero {radix : ℕ} (hr : 0 < radix) (k : ℕ) (s : Str) :
    Str.readDigits radix 0 (List.replicate k (unit '0') ++ s) = Str.readDigits radix 0 s := by
  have hzero : Str.digit? radix (unit '0') = some 0 := by
    simp [Str.digit?, unit, hr]
  induction k with
  | zero => rfl
  | succ k ih =>
    rw [replicate_succ, cons_append, Str.readDigits, hzero]
    rw [Nat.zero_mul]
    exact ih

theorem readDigits_padStart {radix : ℕ} (hr : 0 < radix) (s : Str) (n : ℕ) :
    Str.readDigits radix 0 (padStart s n) = Str.readDigits radix 0 s :=
  readDigits_replicate_zero hr _ s

theorem padStart_append (s t : Str) (n : ℕ) :
    padStart (s ++ t) (n + t.length) = padStart s n ++ t := by
  have hlen : n + t.length - (s ++ t).length = n - s.length := by
    rw [length_append]
    omega
  rw [padStart, padStart, hlen, append_assoc]

/-- A byte as a numeral of two digits. -/
theorem hexByte_eq {n : ℕ} (h : n < 256) :
    Bytes.hexByte n.toUInt8 = padStart (Str.natString 16 n) 2 := by
  have hn : n.toUInt8.toNat = n := Nat.mod_eq_of_lt h
  rw [Bytes.hexByte, hn]
  by_cases hlt : n < 16
  · rw [Str.natString_of_lt hlt, Nat.div_eq_of_lt hlt, Nat.mod_eq_of_lt hlt]
    rfl
  · have hdiv : n / 16 < 16 := by omega
    rw [Str.natString_of_le (by omega) (by omega), Str.natString_of_lt hdiv]
    rfl

/-- **Bytes in hexadecimal** are a numeral with zeros in front. -/
theorem hex_toBytes {w n : ℕ} (h : n < 256 ^ (w + 1)) :
    Bytes.hex (Bytes.toBytes (w + 1) n) = padStart (Str.natString 16 n) (2 * (w + 1)) := by
  have hlast : ∀ m, Bytes.hex [Nat.toUInt8 m] = Bytes.hexByte m.toUInt8 := by
    intro m
    rw [hex_cons, hex_nil, append_nil]
  induction w generalizing n with
  | zero =>
    exact hexByte_eq h
  | succ w ih =>
    have hdiv : n / 256 < 256 ^ (w + 1) := by
      rw [Nat.div_lt_iff_lt_mul (by decide)]
      exact h
    rw [Bytes.toBytes, hex_append, hlast, ih hdiv]
    by_cases hsmall : n < 256
    · rw [Nat.div_eq_of_lt hsmall, Str.natString_of_lt (by decide), hexByte_eq hsmall]
      have hlen : (Str.natString 16 n).length ≤ 2 := by
        have hl : (Bytes.hexByte n.toUInt8).length = 2 := rfl
        rw [hexByte_eq hsmall, length_padStart] at hl
        omega
      have hzeros : padStart [unit (0 : ℕ).digitChar] (2 * (w + 1)) =
          List.replicate (2 * (w + 1)) (unit '0') := by
        show List.replicate (2 * (w + 1) - 1) (unit '0') ++ List.replicate 1 (unit '0') = _
        rw [← replicate_add]
        congr 1
      rw [hzeros, padStart, ← append_assoc, ← replicate_add]
      congr 2
      omega
    · have htwo : Str.natString 16 n = Str.natString 16 (n / 256) ++ Bytes.hexByte n.toUInt8 := by
        have hdd : n / 16 / 16 = n / 256 := Nat.div_div_eq_div_mul n 16 16
        have htoNat : n.toUInt8.toNat = n % 256 := rfl
        have hhigh : n % 256 / 16 = n / 16 % 16 := by omega
        have hlow : n % 256 % 16 = n % 16 := by omega
        rw [Str.natString_of_le (by omega) (by omega),
          Str.natString_of_le (n := n / 16) (by omega) (by omega), hdd, Bytes.hexByte, htoNat,
          hhigh, hlow, append_assoc]
        rfl
      rw [htwo]
      exact (padStart_append _ _ _).symm

namespace Identifier

/-! ## The low 64 bits -/

/-- The number of the last eight bytes. -/
def low (i : Identifier) : ℕ := Bytes.ofBytes i.buffer % 2 ^ 64

theorem ofBytes_toArray (i : Identifier) : Bytes.ofBytes i.toArray = i.low := by
  have hlt := ofBytes_lt i.toArray
  rw [length_toArray] at hlt
  unfold low
  unfold toArray at hlt ⊢
  split at hlt
  · next hlen =>
    have hpow : (256 : ℕ) ^ 8 = 2 ^ 64 := by norm_num
    rw [if_pos hlen, ← hpow, Nat.mod_eq_of_lt hlt]
  · next hlen =>
    have hsize := i.size
    have hdrop : (i.buffer.drop (i.buffer.length - 8)).length = 8 := by
      rw [length_drop]
      omega
    have hsplit := ofBytes_append (i.buffer.take (i.buffer.length - 8))
      (i.buffer.drop (i.buffer.length - 8))
    rw [take_append_drop, hdrop] at hsplit
    have hpow : (256 : ℕ) ^ 8 = 2 ^ 64 := by norm_num
    rw [if_neg hlen, hsplit, hpow, Nat.mul_add_mod_self_right, ← hpow, Nat.mod_eq_of_lt hlt]

theorem toArray_eq_drop (i : Identifier) : i.toArray = i.buffer.drop (i.buffer.length - 8) := by
  unfold toArray
  split
  · next hlen => rw [hlen, drop_zero]
  · rfl

theorem low_eq_iff (i j : Identifier) : i.low = j.low ↔ i.toArray = j.toArray := by
  rw [← ofBytes_toArray, ← ofBytes_toArray]
  constructor
  · exact ofBytes_injective (by rw [length_toArray, length_toArray])
  · exact congrArg Bytes.ofBytes

/-- `toBigInt` reads the last eight bytes where they are the first. -/
theorem toBigInt_eq_low_iff (i : Identifier) :
    i.toBigInt = i.low ↔ i.buffer.take 8 = i.toArray := by
  have hsize := i.size
  have hlen : (i.buffer.take 8).length = i.toArray.length := by
    rw [length_take, length_toArray]
    omega
  rw [← ofBytes_toArray]
  constructor
  · exact ofBytes_injective hlen
  · exact congrArg Bytes.ofBytes

/-! ## `equals` -/

theorem all_zip_iff {α : Type*} [BEq α] [LawfulBEq α] (l m : List α) :
    (l.zip m).all (fun p => p.1 == p.2) = true ↔ l <+: m ∨ m <+: l := by
  induction l generalizing m with
  | nil => simp
  | cons x l ih =>
    cases m with
    | nil => simp
    | cons y m =>
      rw [zip_cons_cons, all_cons, Bool.and_eq_true, beq_iff_eq, ih,
        cons_prefix_cons, cons_prefix_cons]
      rw [eq_comm (a := y), ← and_or_left]

/-- **`equals`** asks for one buffer to end with the other. -/
theorem equals_iff (i j : Identifier) :
    i.equals j = true ↔ i.buffer <:+ j.buffer ∨ j.buffer <:+ i.buffer := by
  rw [equals, all_zip_iff, reverse_prefix, reverse_prefix]

variable {n : ℕ} {i : Identifier} {s : Str}

/-- Eight bytes at the end of a buffer are its last eight. -/
theorem suffix_iff {j : Identifier} (h : i.buffer.length = 8) :
    i.buffer <:+ j.buffer ↔ i.toArray = j.toArray := by
  have harray : i.toArray = i.buffer := if_pos h
  rw [harray, toArray_eq_drop j, suffix_iff_eq_drop, h]

/-- An identifier of eight bytes is compared by the low 64 bits. -/
theorem equals_iff_low {j : Identifier} (h : i.buffer.length = 8 ∨ j.buffer.length = 8) :
    i.equals j = true ↔ i.low = j.low := by
  rw [equals_iff, low_eq_iff]
  have hi := i.size
  have hj := j.size
  rcases h with h | h
  · constructor
    · rintro (hs | hs)
      · exact (suffix_iff h).mp hs
      · have heq : j.buffer = i.buffer := hs.eq_of_length (by have := hs.length_le; omega)
        rw [ext heq]
    · exact fun heq => .inl ((suffix_iff h).mpr heq)
  · constructor
    · rintro (hs | hs)
      · have heq : i.buffer = j.buffer := hs.eq_of_length (by have := hs.length_le; omega)
        rw [ext heq]
      · exact ((suffix_iff h).mp hs).symm
    · exact fun heq => .inr ((suffix_iff h).mpr heq.symm)

/-- Identifiers of one width are compared as they are. -/
theorem equals_iff_eq {j : Identifier} (h : i.buffer.length = j.buffer.length) :
    i.equals j = true ↔ i = j := by
  rw [equals_iff]
  constructor
  · rintro (hs | hs)
    · exact ext (hs.eq_of_length h)
    · exact (ext (hs.eq_of_length h.symm)).symm
  · rintro rfl
    exact .inl (suffix_refl _)

/-! ## What a numeral becomes -/

/-- An identifier of `w` bytes that holds `n`: its bytes are those of `n`, and its numerals. -/
structure Holds (i : Identifier) (n w : ℕ) : Prop where
  width : i.buffer.length = w
  value : Bytes.ofBytes i.buffer = n
  decimal : i.toNumberString 10 = Str.natString 10 n
  hexadecimal : i.toString = padStart (Str.natString 16 n) (2 * w)

theorem low_of_lt (hvalue : Bytes.ofBytes i.buffer = n) (h : n < 2 ^ 64) : i.low = n := by
  rw [low, hvalue, Nat.mod_eq_of_lt h]

/-- An identifier with the bytes of a 64-bit number writes its numerals. -/
theorem holds_of_value (hvalue : Bytes.ofBytes i.buffer = n)
    (h : n < 2 ^ 64) : Holds i n i.buffer.length where
  width := rfl
  value := hvalue
  decimal := by rw [toNumberString_eq, ofBytes_toArray, low_of_lt hvalue h]
  hexadecimal := by
    have hsize := i.size
    obtain ⟨w, hw⟩ : ∃ w, i.buffer.length = w + 1 := ⟨i.buffer.length - 1, by omega⟩
    have hlt := ofBytes_lt i.buffer
    have hbytes := toBytes_ofBytes i.buffer
    rw [hvalue, hw] at hlt hbytes
    rw [toString, hw, ← hex_toBytes hlt, hbytes]

/-- A decimal numeral does not start with a sign. -/
theorem head?_ne_minus {radix : ℕ} (h : Numeral radix s n) : s.head? ≠ some (unit '-') := by
  intro hhead
  have hdigit := h.digits (unit '-') (mem_of_head? hhead)
  simp [Str.digit?, unit] at hdigit

theorem readHalves_numeral (h : Numeral 10 s n) (hn : n < 2 ^ 64) :
    readHalves 10 (0, 0) s = (n / uintMax, n % uintMax) := by
  have hvalue := h.value
  have hten : 1 ≤ 10 := by decide
  have hread := readHalves_eq (a := 0) hten (s := s) (by omega)
  rw [hvalue, Nat.zero_mod] at hread
  exact hread

/-- The bytes of the two halves. -/
theorem ofBytes_halves (high low : ℕ) :
    Bytes.ofBytes (Bytes.toBytes 4 high ++ Bytes.toBytes 4 low) =
      high % uintMax * uintMax + low % uintMax := by
  rw [ofBytes_append, ofBytes_toBytes, ofBytes_toBytes, length_toBytes]
  rfl

/-- **A decimal numeral.** -/
theorem holds_fromString (h : Numeral 10 s n) (hn : n < 2 ^ 64) : Holds (fromString s 10) n 8 := by
  have hvalue : Bytes.ofBytes (fromString s 10).buffer = n := by
    simp only [fromString, head?_ne_minus h, if_false, readHalves_numeral h hn]
    rw [ofBytes_halves]
    unfold uintMax
    omega
  have hlen : (fromString s 10).buffer.length = 8 := by simp [fromString]
  exact hlen ▸ holds_of_value hvalue hn

/-- **A decimal numeral after a minus sign.** -/
theorem low_fromString_neg (h : Numeral 10 s n) (hn : n < 2 ^ 64) :
    Bytes.ofBytes (fromString (unit '-' :: s) 10).buffer = (2 ^ 64 - n) % 2 ^ 64 := by
  simp only [fromString, head?_cons, if_true, tail_cons, readHalves_numeral h hn]
  by_cases hlow : n % uintMax ≠ 0
  · simp only [if_pos hlow]
    rw [ofBytes_halves]
    unfold uintMax at *
    omega
  · simp only [if_neg hlow]
    rw [ofBytes_halves]
    unfold uintMax at *
    omega

/-- **A hexadecimal numeral.** -/
theorem holds_createBuffer (pseudoRandom : Identifier) (h : Numeral 16 s n)
    (hn : n < 2 ^ 64) : ∃ i, createBuffer pseudoRandom s = some i ∧
      Holds i n ((s.length + 15) / 16 * 8) := by
  rw [createBuffer]
  by_cases hzero : s = lit "0"
  · have hn0 : n = 0 := by
      rw [← h.value, hzero]
      rfl
    have hlen : (s.length + 15) / 16 * 8 = zeroId.buffer.length := by
      rw [hzero]
      rfl
    have hvalue : Bytes.ofBytes zeroId.buffer = n := by
      rw [hn0]
      rfl
    rw [if_pos hzero, hlen]
    exact ⟨zeroId, rfl, holds_of_value hvalue hn⟩
  · obtain ⟨l, hl, hlen⟩ : ∃ l, Bytes.unhex (padStart s ((s.length + 15) / 16 * 16)) = some l ∧
        l.length = (s.length + 15) / 16 * 8 := by
      refine exists_unhex ?_ ?_
      · intro u hu
        rw [padStart, mem_append, mem_replicate] at hu
        rcases hu with ⟨-, rfl⟩ | hu
        · rfl
        · exact h.digits u hu
      · rw [length_padStart]
        omega
    have hvalue : Bytes.ofBytes l = n := by
      rw [← readDigits_of_unhex hl, readDigits_padStart (by decide), h.value]
    rw [if_neg hzero, dif_neg h.ne_nil]
    simp only
    split
    · next buffer hb =>
      rw [hl, Option.some_inj] at hb
      subst hb
      exact ⟨_, rfl, hlen ▸ holds_of_value hvalue hn⟩
    · next hb =>
      rw [hl] at hb
      cases hb

/-! ## The readers -/

/-- What the readers of an identifier say of its low 64 bits, `toBigInt` apart. -/
structure Agrees (i : Identifier) : Prop where
  toArray : i.toArray = Bytes.toBytes 8 i.low
  toNumberString : i.toNumberString 10 = Str.natString 10 i.low
  equals : ∀ j : Identifier, i.buffer.length = 8 ∨ j.buffer.length = 8 →
    (i.equals j = true ↔ i.low = j.low)
  equals_wide : ∀ j : Identifier, i.buffer.length = j.buffer.length →
    (i.equals j = true ↔ Bytes.ofBytes i.buffer = Bytes.ofBytes j.buffer)
  toBigInt : i.toBigInt = i.low ↔ i.buffer.take 8 = i.toArray

theorem agrees (i : Identifier) : Agrees i where
  toArray := by
    rw [← ofBytes_toArray, ← length_toArray i, toBytes_ofBytes]
  toNumberString := by rw [toNumberString_eq, ofBytes_toArray]
  equals _ h := equals_iff_low h
  equals_wide j h := by
    rw [equals_iff_eq h]
    constructor
    · exact fun heq => congrArg (fun k => Bytes.ofBytes k.buffer) heq
    · exact fun heq => ext (ofBytes_injective h heq)
  toBigInt := toBigInt_eq_low_iff i

/-- **Identifiers.**  A numeral of a 64-bit number becomes that number, in eight bytes from decimal
text and in as many words as it needs from hexadecimal text, and after a minus sign its two's
complement.  Every reader of an identifier but `toBigInt` agrees with the others on its low 64
bits; `toBigInt` does where the first eight bytes are the last. -/
theorem readers_agree (pseudoRandom : Identifier) :
    (∀ s n, Numeral 10 s n → n < 2 ^ 64 → ∃ i, id pseudoRandom s 10 = some i ∧ Holds i n 8) ∧
    (∀ s n, Numeral 16 s n → n < 2 ^ 64 → ∃ i, id pseudoRandom s 16 = some i ∧
      Holds i n ((s.length + 15) / 16 * 8)) ∧
    (∀ s n, Numeral 10 s n → n < 2 ^ 64 → ∃ i, id pseudoRandom (unit '-' :: s) 10 = some i ∧
      Holds i ((2 ^ 64 - n) % 2 ^ 64) 8) ∧
    ∀ i, Agrees i := by
  refine ⟨fun s n h hn => ⟨_, rfl, holds_fromString h hn⟩, fun s n h hn => ?_, fun s n h hn => ?_,
    agrees⟩
  · exact holds_createBuffer pseudoRandom h hn
  · have hlen : (fromString (unit '-' :: s) 10).buffer.length = 8 := by simp [fromString]
    exact ⟨_, rfl, hlen ▸ holds_of_value (low_fromString_neg h hn) (Nat.mod_lt _ (by norm_num))⟩

/-- Fifteen, in upper case and with nine zeros in front, and the number `-1`. -/
theorem readers_agree_fifteen : Numeral 16 (lit "000000000F") 15 ∧
    (∃ i, id zeroId (lit "000000000F") 16 = some i ∧ Holds i 15 8) ∧
      ∃ i, id zeroId (lit "-1") 10 = some i ∧ Holds i 0xFFFFFFFFFFFFFFFF 8 := by
  have hnumeral : Numeral 16 (lit "000000000F") 15 :=
    ⟨by decide, all_eq_true.mp (by decide), by decide⟩
  have hone : Numeral 10 (lit "1") 1 :=
    ⟨by decide, all_eq_true.mp (by decide), by decide⟩
  obtain ⟨-, hhex, hneg, -⟩ := readers_agree zeroId
  exact ⟨hnumeral, hhex _ _ hnumeral (by decide), hneg _ _ hone (by decide)⟩

/-- A trace id of sixteen bytes. -/
def wide : List UInt8 :=
  [0x12, 0x29, 0x3a, 0x85, 0x27, 0xe7, 0x0a, 0x7f, 0x27, 0xc8, 0xd6, 0x24, 0xac, 0xe0, 0xf5, 0x59]

/-- **`toBigInt` reads the other half** of a trace id of sixteen bytes. -/
theorem toBigInt_ne_low : ∃ i, id zeroId (lit "12293a8527e70a7f27c8d624ace0f559") 16 = some i ∧
    i.toBigInt = 0x12293a8527e70a7f ∧ i.low = 0x27c8d624ace0f559 ∧
      Bytes.ofBytes i.toArray = 0x27c8d624ace0f559 := by
  have hread : Bytes.unhex (lit "12293a8527e70a7f27c8d624ace0f559") = some wide := by decide +kernel
  have hid := createBuffer_of_unhex (r := zeroId) hread (by decide) (by decide)
  refine ⟨⟨wide, by decide⟩, hid, ?_, ?_, ?_⟩
  all_goals decide +kernel

end Identifier
end DdTrace
