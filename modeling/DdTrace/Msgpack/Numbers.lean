import DdTrace.Msgpack.Chunk

/-!
# Numbers that are written in the shortest form

A number that is no integer is written as a float, and an integer in the shortest of the forms for
integers, of which the longest has 64 bits.  An integer beyond these is cut to them, without a
word.

* `Msgpack.bounds_of_int`: what the length of an integer's bytes says about it.
* `length_writeInt_le`: no other bytes of an integer are shorter.
* `faithful_iff`: **a finite number is read back, from the shortest bytes, exactly when it is no
  integer beyond 64 bits**.
-/

open Library

namespace Library.Msgpack

/-- The value of a number that is read, in units of `2 ^ -1074`. -/
def scaled : Msgpack → Option ℤ
  | .int z => some (z * Binary64.one)
  | .float d => if d.isFinite then some d.scaled else none
  | _ => none

/-- The widths of the formats for integers, and what fits into them. -/
theorem bounds_of_format {b : UInt8} {w n : ℕ} {k : ℕ → Head} {z : ℤ} (h : format b = some (w, k))
    (hk : k n = .leaf (.int z)) (hn : n < 256 ^ w) :
    (w = 1 ∧ -0x80 ≤ z ∧ z ≤ 0xFF) ∨ (w = 2 ∧ -0x8000 ≤ z ∧ z ≤ 0xFFFF) ∨
      (w = 4 ∧ -0x80000000 ≤ z ∧ z ≤ 0xFFFFFFFF) ∨ (w = 8 ∧ -2 ^ 63 ≤ z ∧ z < 2 ^ 64) := by
  have hbmod : ∀ m : ℕ, 0 < m → -((m : ℤ) / 2) ≤ (n : ℤ).bmod m ∧ (n : ℤ).bmod m < (m + 1) / 2 :=
    fun m hm => ⟨Int.le_bmod hm, Int.bmod_lt hm⟩
  have h8 := hbmod (2 ^ 8) (by decide)
  have h16 := hbmod (2 ^ 16) (by decide)
  have h32 := hbmod (2 ^ 32) (by decide)
  have h64 := hbmod (2 ^ 64) (by decide)
  unfold format at h
  split at h <;> cases h <;>
    simp only [Head.leaf.injEq, Msgpack.int.injEq, reduceCtorEq] at hk <;> omega

theorem decode_of_decodeAll {l : List UInt8} {v : Msgpack} (h : decodeAll l = some v) :
    decode l.length l = some (v, []) := by
  unfold decodeAll at h
  split at h
  · next hdecode =>
    rw [Option.some_inj] at h
    rw [hdecode, h]
  · cases h

/-- Only a leaf is read as an integer. -/
theorem readHead_of_decode_int {f : ℕ} {l r : List UInt8} {z : ℤ}
    (h : decode f l = some (.int z, r)) : readHead l = some (.leaf (.int z), r) := by
  cases f with
  | zero => cases h
  | succ f =>
    rw [decode] at h
    cases hr : readHead l with
    | none =>
      rw [hr] at h
      cases h
    | some x =>
      obtain ⟨head, rest⟩ := x
      rw [hr] at h
      cases head with
      | leaf v =>
        simp only [Option.some.injEq, Prod.mk.injEq] at h
        rw [h.1, h.2]
      | str n => simp [Option.bind_eq_some_iff] at h
      | bin n => simp at h
      | array n => simp at h
      | map n => simp at h

/-- **What the length of an integer's bytes says about it.** -/
theorem bounds_of_int {l : List UInt8} {z : ℤ} (h : decodeAll l = some (.int z)) :
    (l.length = 1 ∧ -0x20 ≤ z ∧ z ≤ 0x7F) ∨ (l.length = 2 ∧ -0x80 ≤ z ∧ z ≤ 0xFF) ∨
      (l.length = 3 ∧ -0x8000 ≤ z ∧ z ≤ 0xFFFF) ∨
      (l.length = 5 ∧ -0x80000000 ≤ z ∧ z ≤ 0xFFFFFFFF) ∨
      (l.length = 9 ∧ -2 ^ 63 ≤ z ∧ z < 2 ^ 64) := by
  have hhead := readHead_of_decode_int (decode_of_decodeAll h)
  cases l with
  | nil => cases hhead
  | cons b r =>
    have hb := b.toNat_lt
    simp only [readHead] at hhead
    split_ifs at hhead with h1 h2 h3 h4 h5
    · obtain ⟨hz, rfl⟩ := hhead
      rw [List.length_singleton]
      omega
    · simp at hhead
    · simp at hhead
    · simp at hhead
    · obtain ⟨hz, rfl⟩ := hhead
      rw [List.length_singleton]
      omega
    · obtain ⟨⟨w, k⟩, hformat, hnumber⟩ := Option.bind_eq_some_iff.mp hhead
      obtain ⟨⟨n, rest⟩, hn, heq⟩ := Option.map_eq_some_iff.mp hnumber
      simp only [Prod.mk.injEq] at heq
      obtain ⟨hk, rfl⟩ := heq
      unfold number bytes at hn
      split at hn
      · next hw =>
        simp only [Option.map_some, Option.some.injEq, Prod.mk.injEq, List.drop_eq_nil_iff] at hn
        obtain ⟨rfl, hdrop⟩ := hn
        have hlen : r.length = w := le_antisymm hdrop hw
        have hlt : Bytes.ofBytes (r.take w) < 256 ^ w := by
          have := Bytes.ofBytes_lt (r.take w)
          rwa [List.length_take, min_eq_left hw] at this
        have hbounds := bounds_of_format hformat hk hlt
        rw [List.length_cons]
        omega
      · cases hn

end Library.Msgpack

namespace DdTrace.MsgpackChunk

theorem length_int32 (value : ℤ) : (int32 value).length = 4 := rfl

theorem length_int64 (value : ℤ) : (int64 value).length = 8 := rfl

/-- **No other bytes of an integer are shorter.** -/
theorem length_writeInt_le {z : ℤ} {l : List UInt8} (h : Msgpack.decodeAll l = some (.int z)) :
    (writeInt z).length ≤ l.length := by
  have hbounds := Msgpack.bounds_of_int h
  unfold writeInt writeUnsigned writeSigned
  split_ifs <;> simp only [List.length_cons, List.length_nil, length_int32, length_int64] <;> omega

/-- What is written of a number is read as the same number, and there are no shorter bytes that are
read as the integer that it is. -/
structure Faithful (value : Binary64) (l : List UInt8) : Prop where
  equal : ∃ v, Msgpack.decodeAll l = some v ∧ v.scaled = some value.scaled
  shortest : value.isInteger = true → ∀ l', Msgpack.decodeAll l' = some (.int value.toInt) →
    l.length ≤ l'.length

variable {value : Binary64}

theorem scaled_of_isInteger (h : value.isInteger = true) :
    value.scaled = value.toInt * Binary64.one := by
  rw [Binary64.isInteger, Bool.and_eq_true, beq_iff_eq] at h
  have hmag : value.mag / Binary64.one * Binary64.one = value.mag :=
    Nat.div_mul_cancel (Nat.dvd_of_mod_eq_zero h.2)
  have hcast : ((value.mag / Binary64.one : ℕ) : ℤ) * (Binary64.one : ℤ) = (value.mag : ℤ) := by
    rw [← Nat.cast_mul, hmag]
  rw [Binary64.scaled, Binary64.toInt]
  split
  · rw [neg_mul, hcast]
  · exact hcast.symm

/-- A writer that writes an integer as `writeInt` does is faithful to the numbers that are no
integers beyond 64 bits. -/
theorem faithful_iff_of_reads {l : List UInt8} (hfinite : value.isFinite = true)
    (hreads : Msgpack.Reads (numberRead value) l)
    (hint : value.isInteger = true → l = writeInt value.toInt) :
    Faithful value l ↔ (value.isInteger = true → -2 ^ 63 ≤ value.toInt ∧ value.toInt < 2 ^ 64) := by
  have hdecode := Msgpack.decodeAll_of_reads hreads
  constructor
  · intro h hinteger
    obtain ⟨v, hv, hscaled⟩ := h.equal
    rw [hdecode, Option.some_inj] at hv
    rw [← hv, numberRead, if_pos hinteger, scaled_of_isInteger hinteger] at hscaled
    have hmul := Option.some.inj hscaled
    have hone : (Binary64.one : ℤ) ≠ 0 := by
      rw [Binary64.one]
      positivity
    exact wrap_eq_self_iff.mp (mul_right_cancel₀ hone hmul)
  · intro h
    refine ⟨⟨_, hdecode, ?_⟩, fun hinteger l' hl' => ?_⟩
    · unfold numberRead
      by_cases hinteger : value.isInteger = true
      · rw [if_pos hinteger, wrap_eq_self_iff.mpr (h hinteger), scaled_of_isInteger hinteger]
        rfl
      · rw [if_neg hinteger]
        exact if_pos hfinite
    · rw [hint hinteger]
      exact length_writeInt_le hl'

/-- The fast path writes what the slow one does. -/
theorem writeIntOrFloat_of_isInteger (h : value.isInteger = true) :
    writeIntOrFloat value = writeInt value.toInt := by
  unfold writeIntOrFloat
  by_cases hfix : isFixint value = true
  · rw [if_pos hfix]
    rw [isFixint, Bool.and_eq_true, beq_iff_eq] at hfix
    rw [writeInt, if_pos (by omega), writeUnsigned, if_pos (by omega)]
  · rw [if_neg hfix, if_pos h]

theorem isNaN_of_isFinite (h : value.isFinite = true) :
    value.isNaN = false := by
  rw [Binary64.isFinite, bne_iff_ne] at h
  simp [Binary64.isNaN, h]

/-- **A finite number is read back, from the shortest bytes, exactly when it is no integer beyond
64 bits.** -/
theorem faithful_iff {value : Binary64} (hfinite : value.isFinite = true) :
    (Faithful value (writeIntOrFloat value) ∧ Faithful value (writeNumber value)) ↔
      (value.isInteger = true → -2 ^ 63 ≤ value.toInt ∧ value.toInt < 2 ^ 64) := by
  have hnan := isNaN_of_isFinite hfinite
  have hreads := reads_writeNumber value
  rw [if_neg (by simp [hnan])] at hreads
  have hnumber : value.isInteger = true → writeNumber value = writeInt value.toInt := by
    intro h
    rw [writeNumber, if_neg (by simp [hnan]), if_pos h]
  rw [faithful_iff_of_reads hfinite (reads_writeIntOrFloat value) writeIntOrFloat_of_isInteger,
    faithful_iff_of_reads hfinite hreads hnumber]
  exact and_self_iff

/-- The number 256. -/
def twoBytes : Binary64 := .ofBits 0x4070000000000000

theorem faithful_twoBytes :
    (Faithful twoBytes (writeIntOrFloat twoBytes) ∧ Faithful twoBytes (writeNumber twoBytes)) ↔
      (twoBytes.isInteger = true → -2 ^ 63 ≤ twoBytes.toInt ∧ twoBytes.toInt < 2 ^ 64) :=
  faithful_iff (by decide)

/-- The number `2 ^ 64`. -/
def nineBytes : Binary64 := .ofBits 0x43F0000000000000

/-- **It is read as zero.** -/
theorem not_faithful_nineBytes : nineBytes.isFinite = true ∧ nineBytes.toInt = 2 ^ 64 ∧
    writeIntOrFloat nineBytes = [0xCF, 0, 0, 0, 0, 0, 0, 0, 0] ∧
    writeNumber nineBytes = [0xCF, 0, 0, 0, 0, 0, 0, 0, 0] ∧
    ¬ Faithful nineBytes (writeIntOrFloat nineBytes) := by
  have hwrite : writeIntOrFloat nineBytes = [0xCF, 0, 0, 0, 0, 0, 0, 0, 0] := by decide +kernel
  refine ⟨by decide, by decide +kernel, hwrite, by decide +kernel, fun h => ?_⟩
  obtain ⟨v, hv, hscaled⟩ := h.equal
  have hreads := Msgpack.decodeAll_of_reads (reads_writeIntOrFloat nineBytes)
  rw [hreads, Option.some_inj] at hv
  rw [← hv, numberRead, if_pos (by decide +kernel)] at hscaled
  exact absurd (Option.some.inj hscaled) (by decide +kernel)

end DdTrace.MsgpackChunk
