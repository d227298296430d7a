import DdTrace.Library.Buffer
import DdTrace.Library.Leb128
import DdTrace.Library.Rounding

/-!
# Varints in two halves

`datastreams/encoding.js` writes an integer as a varint: twice its magnitude, with the sign in the
lowest bit, in groups of seven bits.  The operators of the language work on 32 bits, so that the
number is kept as a low and a high half, and seven bits of the high one move into the low one for
every group.  A reader puts the groups together in two halves again.

* `encodeLoop_eq`: the loop writes the groups of the number that its halves stand for.
* `encodeVarintInto_eq`: an integer whose double is safe is written as the groups of its code.
* `decodeLoop_append`: the groups of a number below `2 ^ 56` are read as its halves.
* `decodeVarint_encodeVarint`: **an integer is read back in front of anything, and of any bytes no
  more than a prefix is read**.
-/

open Library

namespace DdTrace.Datastreams

/-! ## The source -/

def maxVarLen64 : ℕ := 9

/-- The loop of `encodeVarintInto`, with as many passes left as there is room for. -/
def encodeLoop : ℕ → List UInt8 → ℕ → BitVec 32 → BitVec 32 → List UInt8 × ℕ
  | 0, target, i, low, _ => (target.set i (low &&& 0x7F).toNat.toUInt8, i + 1)
  | left + 1, target, i, low, high =>
    if high ≠ 0 ∨ low.toInt < 0 ∨ low.toInt > 0x7F then
      encodeLoop left (target.set i ((low &&& 0x7F) ||| 0x80).toNat.toUInt8) (i + 1)
        ((low >>> 7) ||| ((high &&& 0x7F) <<< 25)) (high >>> 7)
    else (target.set i (low &&& 0x7F).toNat.toUInt8, i + 1)

/-- `encodeVarintInto`: the target and the offset behind what was written. -/
def encodeVarintInto (target : List UInt8) (offset : ℕ) (value : ℤ) : List UInt8 × ℕ :=
  let sign := if value ≥ 0 then 0 else 1
  let double := value.natAbs * 2
  if double > Binary64.MAX_SAFE_INTEGER then (target, offset)
  else
    encodeLoop (maxVarLen64 - 1) target offset (BitVec.ofNat 32 double ||| BitVec.ofNat 32 sign)
      (BitVec.ofNat 32 (double / 2 ^ 32))

/-- `encodeVarint`. -/
def encodeVarint (v : ℤ) : Option (List UInt8) :=
  let (result, written) := encodeVarintInto (List.replicate maxVarLen64 0) 0 v
  if written = 0 then none else some (result.take written)

/-- The bits of a group in the low half. -/
def orLow (low : BitVec 32) (n s : ℕ) : BitVec 32 :=
  if s < 32 then low ||| (BitVec.ofNat 32 n <<< s) else low

/-- The bits of a group in the high half. -/
def orHigh (high : BitVec 32) (n s : ℕ) : BitVec 32 :=
  if s > 0 then
    high ||| (if s > 32 then BitVec.ofNat 32 n <<< (s - 32) else BitVec.ofNat 32 n >>> (32 - s))
  else high

/-- The loop of `decodeUvarint64`. -/
def decodeLoop : ℕ → ℕ → BitVec 32 → BitVec 32 → List UInt8 →
    Option (BitVec 32 × BitVec 32) × List UInt8
  | _, _, _, _, [] => (none, [])
  | i, s, low, high, n :: bytes =>
    if n < 0x80 ∨ i = maxVarLen64 - 1 then
      (some (orLow low n.toNat s, orHigh high n.toNat s), bytes)
    else
      decodeLoop (i + 1) (s + 7) (orLow low (n &&& 0x7F).toNat s) (orHigh high (n &&& 0x7F).toNat s)
        bytes

/-- `decodeUvarint64`: the two halves, and the bytes behind them. -/
def decodeUvarint64 (bytes : List UInt8) : Option (BitVec 32 × BitVec 32) × List UInt8 :=
  decodeLoop 0 0 0 0 bytes

/-- The number of two halves, of which the high one has a sign. -/
def ofHalves (low high : BitVec 32) : ℤ :=
  let positive := low &&& 1 = 0
  let abs := Binary64.nearest ((low >>> 1).toNat + high.toInt * 0x80000000)
  if positive then abs else -abs

/-- `decodeVarint`. -/
def decodeVarint (b : List UInt8) : Option ℤ × List UInt8 :=
  match decodeUvarint64 b with
  | (some (low, high), bytes) => (some (ofHalves low high), bytes)
  | (none, bytes) => (none, bytes)

/-! ## Writing -/

/-- What stands for an integer. -/
def code (v : ℤ) : ℕ := v.natAbs * 2 + if v ≥ 0 then 0 else 1

/-- The low half of a number without its last seven bits. -/
theorem shift_low (n : ℕ) :
    (BitVec.ofNat 32 n >>> 7) ||| ((BitVec.ofNat 32 (n / 2 ^ 32) &&& 0x7F) <<< 25) =
      BitVec.ofNat 32 (n / 128) := by
  apply BitVec.eq_of_toNat_eq
  have hmask : (n / 2 ^ 32 % 2 ^ 32) &&& 127 = n / 2 ^ 32 % 128 := by
    rw [show 127 = 2 ^ 7 - 1 from rfl, Nat.and_two_pow_sub_one_eq_mod]
    omega
  have hhigh : n / 2 ^ 32 % 128 * 2 ^ 25 % 2 ^ 32 = 2 ^ 25 * (n / 2 ^ 32 % 128) := by omega
  have hlow : n % 2 ^ 32 / 2 ^ 7 < 2 ^ 25 := by omega
  rw [BitVec.toNat_or, BitVec.toNat_ushiftRight, BitVec.toNat_shiftLeft, BitVec.toNat_and,
    BitVec.toNat_ofNat, BitVec.toNat_ofNat, BitVec.toNat_ofNat, Nat.shiftRight_eq_div_pow,
    Nat.shiftLeft_eq]
  show n % 2 ^ 32 / 2 ^ 7 ||| ((n / 2 ^ 32 % 2 ^ 32) &&& 127) * 2 ^ 25 % 2 ^ 32 = _
  rw [hmask, hhigh, Nat.or_comm, ← Nat.two_pow_add_eq_or_of_lt hlow]
  omega

theorem low_byte (n : ℕ) : (BitVec.ofNat 32 n &&& 0x7F).toNat = n % 128 := by
  show n % 2 ^ 32 &&& 2 ^ 7 - 1 = n % 128
  rw [Nat.and_two_pow_sub_one_eq_mod]
  omega

theorem more_byte (n : ℕ) : ((BitVec.ofNat 32 n &&& 0x7F) ||| 0x80).toNat = n % 128 + 128 := by
  have hlt : n % 128 < 2 ^ 7 := Nat.mod_lt _ (by decide)
  rw [BitVec.toNat_or, low_byte]
  show n % 128 ||| 2 ^ 7 * 1 = n % 128 + 128
  rw [Nat.or_comm, ← Nat.two_pow_add_eq_or_of_lt hlt]
  omega

variable {n acc : ℕ}

/-- **The loop goes on** as long as there is more than a group. -/
theorem more_iff (h : n < 2 ^ 63) :
    (BitVec.ofNat 32 (n / 2 ^ 32) ≠ 0 ∨ (BitVec.ofNat 32 n).toInt < 0 ∨
      (BitVec.ofNat 32 n).toInt > 0x7F) ↔ 128 ≤ n := by
  have hhigh : BitVec.ofNat 32 (n / 2 ^ 32) ≠ 0 ↔ n / 2 ^ 32 ≠ 0 := by
    rw [Ne, ← BitVec.toNat_inj, BitVec.toNat_ofNat, Nat.mod_eq_of_lt (by omega)]
    rfl
  rw [hhigh, BitVec.toInt_eq_toNat_cond, BitVec.toNat_ofNat]
  split <;> omega

/-- The last group. -/
theorem last_eq (h : n < 128) (target : List UInt8) (i : ℕ) :
    (target.set i (BitVec.ofNat 32 n &&& 0x7F).toNat.toUInt8, i + 1) =
      (Buffer.store target i (Leb128.encode n), i + (Leb128.encode n).length) := by
  rw [low_byte, Nat.mod_eq_of_lt h, Leb128.encode_of_lt h]
  rfl

/-- **The loop writes the groups of its number.** -/
theorem encodeLoop_eq (left : ℕ) (target : List UInt8) (i : ℕ) (h : n < 2 ^ 63)
    (hleft : n < 128 ^ (left + 1)) :
    encodeLoop left target i (BitVec.ofNat 32 n) (BitVec.ofNat 32 (n / 2 ^ 32)) =
      (Buffer.store target i (Leb128.encode n), i + (Leb128.encode n).length) := by
  induction left generalizing n target i with
  | zero => exact last_eq hleft target i
  | succ left ih =>
    by_cases hn : 128 ≤ n
    · have hdiv : n / 128 < 128 ^ (left + 1) := by
        rw [Nat.div_lt_iff_lt_mul (by decide)]
        exact hleft
      have hshift : BitVec.ofNat 32 (n / 2 ^ 32) >>> 7 = BitVec.ofNat 32 (n / 128 / 2 ^ 32) := by
        apply BitVec.eq_of_toNat_eq
        rw [BitVec.toNat_ushiftRight, BitVec.toNat_ofNat, BitVec.toNat_ofNat]
        omega
      rw [encodeLoop, if_pos ((more_iff h).mpr hn), shift_low, hshift, more_byte,
        ih _ _ (by omega) hdiv, Leb128.encode_of_ge hn, Buffer.store, List.length_cons,
        Nat.add_right_comm, Nat.add_assoc]
    · rw [encodeLoop, if_neg (fun hmore => hn ((more_iff h).mp hmore))]
      exact last_eq (by omega) target i

/-- **What is written of an integer** whose double is safe. -/
theorem encodeVarintInto_eq (target : List UInt8) (offset : ℕ) {value : ℤ}
    (h : value.natAbs * 2 ≤ Binary64.MAX_SAFE_INTEGER) :
    encodeVarintInto target offset value = (Buffer.store target offset (Leb128.encode (code value)),
        offset + (Leb128.encode (code value)).length) := by
  have hlt : value.natAbs * 2 < 2 ^ 53 := by
    unfold Binary64.MAX_SAFE_INTEGER at h
    omega
  have hlow : BitVec.ofNat 32 (value.natAbs * 2) ||| BitVec.ofNat 32 (if value ≥ 0 then 0 else 1) =
      BitVec.ofNat 32 (code value) := by
    apply BitVec.eq_of_toNat_eq
    rw [BitVec.toNat_or, BitVec.toNat_ofNat, BitVec.toNat_ofNat, BitVec.toNat_ofNat]
    have heven : value.natAbs * 2 % 2 ^ 32 = 2 ^ 1 * (value.natAbs % 2 ^ 31) := by omega
    unfold code
    split
    · rw [Nat.or_zero, Nat.add_zero]
    · rw [heven, ← Nat.two_pow_add_eq_or_of_lt (by decide)]
      omega
  have hhigh : value.natAbs * 2 / 2 ^ 32 = code value / 2 ^ 32 := by
    unfold code
    split <;> omega
  unfold encodeVarintInto
  rw [if_neg (by omega), hlow, hhigh]
  exact encodeLoop_eq 8 target offset (by omega) (by omega)

/-- **`encodeVarint`** returns the groups. -/
theorem encodeVarint_eq {v : ℤ} (h : v.natAbs * 2 ≤ Binary64.MAX_SAFE_INTEGER) :
    encodeVarint v = some (Leb128.encode (code v)) := by
  have hlt : code v < 128 ^ maxVarLen64 := by
    unfold Binary64.MAX_SAFE_INTEGER at h
    unfold code maxVarLen64
    split <;> omega
  have hlen := Leb128.length_encode_le (by decide) hlt
  have hpos := List.length_pos_iff.mpr (Leb128.encode_ne_nil (code v))
  unfold encodeVarint
  rw [encodeVarintInto_eq _ _ h]
  dsimp only
  rw [if_neg (by omega), Buffer.take_store (by rw [List.length_replicate]; omega)]
  rfl

/-! ## Reading -/

/-- A group behind the bits before it. -/
theorem or_shiftLeft {s : ℕ} (g : ℕ) (h : acc < 2 ^ s) :
    BitVec.ofNat 32 acc ||| (BitVec.ofNat 32 g <<< s) = BitVec.ofNat 32 (acc + g * 2 ^ s) := by
  have hadd : acc + g * 2 ^ s = g <<< s ||| acc := by
    rw [Nat.shiftLeft_eq, Nat.mul_comm, ← Nat.two_pow_add_eq_or_of_lt h, Nat.add_comm]
  have hshift : BitVec.ofNat 32 g <<< s = BitVec.ofNat 32 (g <<< s) := by
    apply BitVec.eq_of_toNat_eq
    simp [Nat.shiftLeft_eq]
  rw [hadd, BitVec.ofNat_or, BitVec.or_comm, hshift]

theorem orLow_eq {s : ℕ} (g : ℕ) (h : acc < 2 ^ s) :
    orLow (BitVec.ofNat 32 acc) g s = BitVec.ofNat 32 (acc + g * 2 ^ s) := by
  unfold orLow
  by_cases hs : s < 32
  · rw [if_pos hs]
    exact or_shiftLeft g h
  · have hpow : 2 ^ s = 2 ^ (s - 32) * 2 ^ 32 := by
      rw [← Nat.pow_add]
      congr 1
      omega
    rw [if_neg hs]
    apply BitVec.eq_of_toNat_eq
    rw [BitVec.toNat_ofNat, BitVec.toNat_ofNat, hpow, ← Nat.mul_assoc, Nat.add_mul_mod_self_right]

theorem orHigh_eq {s g : ℕ} (h : acc < 2 ^ s) (hg : g < 128) (hs : s ≠ 32) :
    orHigh (BitVec.ofNat 32 (acc / 2 ^ 32)) g s = BitVec.ofNat 32 ((acc + g * 2 ^ s) / 2 ^ 32) := by
  unfold orHigh
  rcases Nat.lt_or_ge 32 s with hlarge | hsmall
  · have hpow : 2 ^ s = 2 ^ (s - 32) * 2 ^ 32 := by
      rw [← Nat.pow_add]
      congr 1
      omega
    have hacc : acc / 2 ^ 32 < 2 ^ (s - 32) := by
      rw [Nat.div_lt_iff_lt_mul (by decide), ← hpow]
      exact h
    rw [if_pos (by omega), if_pos hlarge, or_shiftLeft g hacc, hpow, ← Nat.mul_assoc,
      Nat.add_mul_div_right _ _ (by decide)]
  · have hpow : 2 ^ 32 = 2 ^ s * 2 ^ (32 - s) := by
      rw [← Nat.pow_add]
      congr 1
      omega
    have hzero : acc / 2 ^ 32 = 0 := by
      refine Nat.div_eq_of_lt (lt_of_lt_of_le h ?_)
      exact Nat.pow_le_pow_right (by decide) hsmall
    have hsum : (acc + g * 2 ^ s) / 2 ^ 32 = g / 2 ^ (32 - s) := by
      rw [hpow, ← Nat.div_div_eq_div_mul, Nat.add_mul_div_right _ _ (Nat.two_pow_pos s),
        Nat.div_eq_of_lt h, Nat.zero_add]
    rw [hzero, hsum, if_neg (show ¬s > 32 by omega)]
    by_cases hpos : s > 0
    · rw [if_pos hpos]
      have hg' : g < 2 ^ 32 := lt_of_lt_of_le hg (by decide)
      apply BitVec.eq_of_toNat_eq
      rw [BitVec.toNat_or, BitVec.toNat_ushiftRight, BitVec.toNat_ofNat, BitVec.toNat_ofNat,
        BitVec.toNat_ofNat, Nat.zero_or, Nat.shiftRight_eq_div_pow,
        Nat.mod_eq_of_lt hg', Nat.mod_eq_of_lt (lt_of_le_of_lt (Nat.div_le_self g _) hg')]
    · have hsz : s = 0 := by omega
      subst hsz
      rw [if_neg hpos, Nat.div_eq_of_lt (lt_of_lt_of_le hg (by decide))]

/-- **The groups of a number** are read as its halves, behind the bits of the groups before. -/
theorem decodeLoop_append {i : ℕ} (rest : List UInt8) (hi : i < maxVarLen64)
    (hn : n < 128 ^ (maxVarLen64 - i)) (hacc : acc < 2 ^ (7 * i)) :
    decodeLoop i (7 * i) (BitVec.ofNat 32 acc) (BitVec.ofNat 32 (acc / 2 ^ 32))
        (Leb128.encode n ++ rest) =
      (some (BitVec.ofNat 32 (acc + n * 2 ^ (7 * i)),
        BitVec.ofNat 32 ((acc + n * 2 ^ (7 * i)) / 2 ^ 32)), rest) := by
  have hs : 7 * i ≠ 32 := by omega
  induction n using Leb128.encode.induct generalizing i acc with
  | case1 n h =>
    have hbyte : n.toUInt8.toNat = n := Leb128.toNat_toUInt8 (by omega)
    have hlast : n.toUInt8 < 0x80 := by
      rw [UInt8.lt_iff_toNat_lt, hbyte]
      exact h
    rw [Leb128.encode_of_lt h, List.singleton_append, decodeLoop, if_pos (Or.inl hlast), hbyte,
      orLow_eq n hacc, orHigh_eq hacc h hs]
  | case2 n h ih =>
    have hbyte : (n % 128 + 128).toUInt8.toNat = n % 128 + 128 := Leb128.toNat_toUInt8 (by omega)
    have hgroup : ((n % 128 + 128).toUInt8 &&& 0x7F).toNat = n % 128 := by
      rw [UInt8.toNat_and, hbyte]
      show (n % 128 + 128) &&& 2 ^ 7 - 1 = _
      rw [Nat.and_two_pow_sub_one_eq_mod]
      omega
    have hmore : ¬(n % 128 + 128).toUInt8 < 0x80 := by
      rw [UInt8.lt_iff_toNat_lt, hbyte]
      show ¬n % 128 + 128 < 128
      omega
    have hnext : i + 1 < maxVarLen64 := by
      by_contra hlast
      have hone : maxVarLen64 - i = 1 := by omega
      rw [hone] at hn
      exact h hn
    have hdiv : n / 128 < 128 ^ (maxVarLen64 - (i + 1)) := by
      have hexp : maxVarLen64 - (i + 1) + 1 = maxVarLen64 - i := by omega
      rw [Nat.div_lt_iff_lt_mul (by decide), ← Nat.pow_succ, Nat.succ_eq_add_one, hexp]
      exact hn
    have hpow : 2 ^ (7 * (i + 1)) = 128 * 2 ^ (7 * i) := by
      rw [Nat.mul_add, Nat.pow_add, Nat.mul_comm]
    have hacc' : acc + n % 128 * 2 ^ (7 * i) < 2 ^ (7 * (i + 1)) := by
      have hle : (n % 128 + 1) * 2 ^ (7 * i) ≤ 128 * 2 ^ (7 * i) :=
        Nat.mul_le_mul_right _ (by omega)
      rw [Nat.add_mul] at hle
      omega
    have htotal : acc + n % 128 * 2 ^ (7 * i) + n / 128 * 2 ^ (7 * (i + 1)) =
        acc + n * 2 ^ (7 * i) := by
      rw [hpow, ← Nat.mul_assoc, Nat.add_assoc, ← Nat.add_mul]
      congr 2
      omega
    rw [Leb128.encode_of_ge (by omega), List.cons_append, decodeLoop, if_neg (by
        rintro (hlt | hlast)
        · exact hmore hlt
        · omega),
      hgroup, orLow_eq _ hacc, orHigh_eq hacc (Nat.mod_lt n (by decide)) hs,
      ← htotal]
    exact ih hnext hdiv hacc' (by omega)

/-- **A loop reads a prefix**, or nothing is left. -/
theorem decodeLoop_prefix (i s : ℕ) (low high : BitVec 32) (bytes : List UInt8)
    (hi : i < maxVarLen64) :
    ((decodeLoop i s low high bytes).1 = none ∧ (decodeLoop i s low high bytes).2 = []) ∨
      ((decodeLoop i s low high bytes).1.isSome = true ∧ ∃ read, read ≠ [] ∧
        i + read.length ≤ maxVarLen64 ∧ bytes = read ++ (decodeLoop i s low high bytes).2) := by
  induction bytes generalizing i s low high with
  | nil => exact .inl ⟨rfl, rfl⟩
  | cons n bytes ih =>
    rw [decodeLoop]
    split
    · exact .inr ⟨rfl, [n], List.cons_ne_nil _ _, hi, rfl⟩
    · next hmore =>
      have hnext : i + 1 < maxVarLen64 := by
        omega
      rcases ih (i + 1) (s + 7) (orLow low (n &&& 0x7F).toNat s)
        (orHigh high (n &&& 0x7F).toNat s) hnext with hnone | ⟨hsome, read, -, hlen, heq⟩
      · exact .inl hnone
      · refine .inr ⟨hsome, n :: read, List.cons_ne_nil _ _, ?_, congrArg (n :: ·) heq⟩
        rw [List.length_cons]
        omega

/-- The number of the halves of a code. -/
theorem ofHalves_code {v : ℤ} (h : v.natAbs * 2 ≤ Binary64.MAX_SAFE_INTEGER) :
    ofHalves (BitVec.ofNat 32 (code v)) (BitVec.ofNat 32 (code v / 2 ^ 32)) = v := by
  have hlt : v.natAbs * 2 < 2 ^ 53 := by
    unfold Binary64.MAX_SAFE_INTEGER at h
    omega
  have hhalf : code v / 2 = v.natAbs := by
    unfold code
    split <;> omega
  have hsign : BitVec.ofNat 32 (code v) &&& 1 = 0 ↔ 0 ≤ v := by
    rw [← BitVec.toNat_inj, BitVec.toNat_and]
    show code v % 2 ^ 32 &&& 2 ^ 1 - 1 = 0 ↔ _
    rw [Nat.and_two_pow_sub_one_eq_mod]
    unfold code
    split <;> omega
  have habs : ((BitVec.ofNat 32 (code v) >>> 1).toNat : ℤ) +
      (BitVec.ofNat 32 (code v / 2 ^ 32)).toInt * 0x80000000 = v.natAbs := by
    rw [BitVec.toNat_ushiftRight, BitVec.toInt_eq_toNat_cond, BitVec.toNat_ofNat,
      BitVec.toNat_ofNat, if_pos (by omega)]
    omega
  unfold ofHalves
  simp only [habs, hsign, Binary64.nearest_eq_self (show (v.natAbs : ℤ).natAbs < 2 ^ 53 by omega)]
  split <;> omega

/-- **The groups of a code** are read as its integer. -/
theorem decodeVarint_code {v : ℤ} (h : v.natAbs * 2 ≤ Binary64.MAX_SAFE_INTEGER)
    (rest : List UInt8) : decodeVarint (Leb128.encode (code v) ++ rest) = (some v, rest) := by
  have hlt : code v < 128 ^ maxVarLen64 := by
    unfold Binary64.MAX_SAFE_INTEGER at h
    unfold code maxVarLen64
    split <;> omega
  have hread : decodeUvarint64 (Leb128.encode (code v) ++ rest) =
      (some (BitVec.ofNat 32 (0 + code v * 2 ^ (7 * 0)),
        BitVec.ofNat 32 ((0 + code v * 2 ^ (7 * 0)) / 2 ^ 32)), rest) :=
    decodeLoop_append rest (by decide) hlt (by decide)
  rw [Nat.pow_zero, Nat.mul_one, Nat.zero_add] at hread
  unfold decodeVarint
  rw [hread]
  dsimp only
  rw [ofHalves_code h]

/-- **A varint is read back in front of anything**, and of any bytes the reader takes a prefix of at
most nine, or reports that they end too early. -/
theorem decodeVarint_encodeVarint :
    (∀ v : ℤ, v.natAbs * 2 ≤ Binary64.MAX_SAFE_INTEGER → ∀ s : List UInt8,
      ∃ b, encodeVarint v = some b ∧ decodeVarint (b ++ s) = (some v, s)) ∧
    ∀ bytes : List UInt8, ((decodeVarint bytes).1 = none ∧ (decodeVarint bytes).2 = []) ∨
      ((decodeVarint bytes).1.isSome = true ∧ ∃ read, read ≠ [] ∧ read.length ≤ maxVarLen64 ∧
        bytes = read ++ (decodeVarint bytes).2) := by
  constructor
  · exact fun v h s => ⟨_, encodeVarint_eq h, decodeVarint_code h s⟩
  · intro bytes
    have hprefix := decodeLoop_prefix 0 0 0 0 bytes (by decide)
    unfold decodeVarint decodeUvarint64
    generalize decodeLoop 0 0 0 0 bytes = r at hprefix
    obtain ⟨halves, rest⟩ := r
    rcases hprefix with ⟨hnone, hrest⟩ | ⟨hsome, read, hne, hlen, heq⟩
    · subst hnone hrest
      exact .inl ⟨rfl, rfl⟩
    · obtain ⟨⟨low, high⟩, rfl⟩ := Option.isSome_iff_exists.mp hsome
      rw [Nat.zero_add] at hlen
      exact .inr ⟨rfl, read, hne, hlen, heq⟩

/-- Three hundred below zero, in front of a byte. -/
theorem decodeVarint_encodeVarint_negative :
    ∃ b, encodeVarint (-300) = some b ∧ decodeVarint (b ++ [1]) = (some (-300), [1]) :=
  decodeVarint_encodeVarint.1 (-300) (by decide) [1]

end DdTrace.Datastreams
