import DdTrace.Library.Msgpack

/-!
# `MsgpackChunk`

The writers of `msgpack/chunk.js`.  Each appends bytes that its argument determines, and is
modelled by these bytes; `append` puts them behind what the chunk holds, unless the chunk would
grow beyond `MAX_SIZE`.

A number reaches the buffer by shifts, and a buffer keeps the lowest eight bits of what is stored
in it.  What a writer writes is therefore the number modulo `2 ^ 64`, which is `wrap`, and the
number itself in the range of the format.

* `reads_writeUnsigned`, `reads_writeSigned`, `reads_writeBigInt`: what an integer is read as.
* `reads_writeNumber`, `reads_writeIntOrFloat`: what a number is read as, the former with `NaN`
  taken for zero.
* `isHead_writeArrayPrefix`, `isHead_writeMapPrefix`, `isHead_writeBin`: the prefixes.
-/

open Library

namespace DdTrace.MsgpackChunk

open Msgpack

/-! ## The chunk -/

/-- 50 MiB. -/
def MAX_SIZE : ℕ := 50 * 1024 * 1024

structure OverflowError where
  needed : ℕ
  deriving DecidableEq

/-- `reserve` and the write into the room it made.  The buffer itself never has more than
`MAX_SIZE` bytes, so that a refused growth is a size beyond it. -/
def append (chunk l : List UInt8) : Except OverflowError (List UInt8) :=
  if MAX_SIZE < chunk.length + l.length then .error ⟨chunk.length + l.length⟩
  else .ok (chunk ++ l)

/-! ## Integers -/

/-- `buffer[i] = value >> k`. -/
def byte (value : ℤ) (k : ℕ) : UInt8 := ((value >>> k) % 256).toNat.toUInt8

/-- The four assignments that write 32 bits. -/
def int32 (value : ℤ) : List UInt8 := [byte value 24, byte value 16, byte value 8, byte value 0]

def writeInteger (value : ℤ) : List UInt8 := 0xCE :: int32 value

/-- The halves of 64 bits: `value / 2 ** 32`, rounded down, and `value >>> 0`. -/
def int64 (value : ℤ) : List UInt8 := int32 (value / 2 ^ 32) ++ int32 (value % 2 ^ 32)

def writeLong (value : ℤ) : List UInt8 := 0xCF :: int64 value

def writeUnsigned (value : ℤ) : List UInt8 :=
  if value ≤ 0x7F then [byte value 0]
  else if value ≤ 0xFF then [0xCC, byte value 0]
  else if value ≤ 0xFFFF then [0xCD, byte value 8, byte value 0]
  else if value ≤ 0xFFFFFFFF then 0xCE :: int32 value
  else 0xCF :: int64 value

def writeSigned (value : ℤ) : List UInt8 :=
  if value ≥ -0x20 then [byte value 0]
  else if value ≥ -0x80 then [0xD0, byte value 0]
  else if value ≥ -0x8000 then [0xD1, byte value 8, byte value 0]
  else if value ≥ -0x80000000 then 0xD2 :: int32 value
  else 0xD3 :: int64 value

/-- `setBigUint64` and `setBigInt64` store a value modulo `2 ^ 64`. -/
def setBigInt64 (value : ℤ) : List UInt8 := Bytes.toBytes 8 (value % 2 ^ 64).toNat

def writeBigInt (value : ℤ) : List UInt8 :=
  if 0 ≤ value then 0xCF :: setBigInt64 value else 0xD3 :: setBigInt64 value

/-- What is left of an integer in 64 bits. -/
def wrap (value : ℤ) : ℤ := if 0 ≤ value then value % 2 ^ 64 else value.bmod (2 ^ 64)

variable {value : ℤ} {n : ℕ}

theorem wrap_eq_self_iff : wrap value = value ↔ -2 ^ 63 ≤ value ∧ value < 2 ^ 64 := by
  unfold wrap
  split
  · omega
  · rw [Int.bmod_eq_iff (by decide)]
    omega

/-! ### The bytes behind the shifts -/

theorem byte_eq_toUInt8 {k : ℕ} (h : value / 2 ^ k % 256 = (n : ℤ) % 256) :
    byte value k = n.toUInt8 := by
  apply UInt8.toNat_inj.mp
  show ((value >>> k) % 256).toNat % 256 = n % 256
  rw [Int.shiftRight_eq_div_pow, Nat.cast_pow, Nat.cast_ofNat]
  omega

theorem byte_zero_eq (value : ℤ) : [byte value 0] = Bytes.toBytes 1 (value % 2 ^ 8).toNat := by
  show [byte value 0] = [((value % 2 ^ 8).toNat).toUInt8]
  rw [byte_eq_toUInt8 (n := (value % 2 ^ 8).toNat) (by omega)]

theorem int16_eq (value : ℤ) :
    [byte value 8, byte value 0] = Bytes.toBytes 2 (value % 2 ^ 16).toNat := by
  show _ = [((value % 2 ^ 16).toNat / 256).toUInt8, ((value % 2 ^ 16).toNat).toUInt8]
  rw [byte_eq_toUInt8 (n := (value % 2 ^ 16).toNat / 256) (by omega),
    byte_eq_toUInt8 (n := (value % 2 ^ 16).toNat) (by omega)]

theorem int32_eq (value : ℤ) : int32 value = Bytes.toBytes 4 (value % 2 ^ 32).toNat := by
  show _ = [((value % 2 ^ 32).toNat / 256 / 256 / 256).toUInt8,
    ((value % 2 ^ 32).toNat / 256 / 256).toUInt8, ((value % 2 ^ 32).toNat / 256).toUInt8,
    ((value % 2 ^ 32).toNat).toUInt8]
  rw [int32, byte_eq_toUInt8 (n := (value % 2 ^ 32).toNat / 256 / 256 / 256) (by omega),
    byte_eq_toUInt8 (n := (value % 2 ^ 32).toNat / 256 / 256) (by omega),
    byte_eq_toUInt8 (n := (value % 2 ^ 32).toNat / 256) (by omega),
    byte_eq_toUInt8 (n := (value % 2 ^ 32).toNat) (by omega)]

theorem int64_eq (value : ℤ) : int64 value = setBigInt64 value := by
  have hhi : (value / 2 ^ 32 % 2 ^ 32).toNat = (value % 2 ^ 64).toNat / 256 ^ 4 := by omega
  have hlo : (value % 2 ^ 32 % 2 ^ 32).toNat = (value % 2 ^ 64).toNat % 256 ^ 4 := by omega
  rw [int64, int32_eq, int32_eq, hhi, hlo, Bytes.toBytes_mod, setBigInt64, ← Bytes.toBytes_add 4 4]

/-! ### What an integer is read as -/

/-- An integer of at most `w` bytes behind a head for unsigned numbers. -/
theorem reads_unsigned {b : UInt8} {w : ℕ} {v : ℤ}
    (h : Msgpack.format b = some (w, fun n => .leaf (.int n))) (hv : 0 ≤ v)
    (hw : v < 256 ^ w) : Msgpack.Reads (.int v) (b :: Bytes.toBytes w v.toNat) := by
  have hn : v.toNat < 256 ^ w := by
    have hcast : ((v.toNat : ℕ) : ℤ) < ((256 ^ w : ℕ) : ℤ) := by
      rw [Int.toNat_of_nonneg hv]
      exact hw
    exact Int.ofNat_lt.mp hcast
  have hr := reads_leaf (isHead_of_format h hn)
  rwa [Int.toNat_of_nonneg hv] at hr

/-- An integer modulo `2 ^ m` behind a head for signed numbers. -/
theorem reads_signed {b : UInt8} {w m : ℕ} (value : ℤ)
    (h : Msgpack.format b = some (w, fun n => .leaf (.int ((n : ℤ).bmod (2 ^ m)))))
    (hm : 256 ^ w = 2 ^ m) :
    Msgpack.Reads (.int (value.bmod (2 ^ m))) (b :: Bytes.toBytes w (value % 2 ^ m).toNat) := by
  have hpos : (0 : ℤ) < 2 ^ m := by positivity
  have hnonneg := Int.emod_nonneg value hpos.ne'
  have hn : (value % 2 ^ m).toNat < 256 ^ w := by
    have hlt := Int.emod_lt_of_pos value hpos
    have hcast : (((value % 2 ^ m).toNat : ℕ) : ℤ) < ((2 ^ m : ℕ) : ℤ) := by
      rw [Int.toNat_of_nonneg hnonneg, Nat.cast_pow]
      exact hlt
    rw [hm]
    exact Int.ofNat_lt.mp hcast
  have hr := reads_leaf (isHead_of_format h hn)
  have hmod : ((value % 2 ^ m).toNat : ℤ).bmod (2 ^ m) = value.bmod (2 ^ m) := by
    have hpow : (2 : ℤ) ^ m = ((2 ^ m : ℕ) : ℤ) := by rw [Nat.cast_pow, Nat.cast_ofNat]
    rw [Int.toNat_of_nonneg hnonneg, hpow, Int.emod_bmod]
  rwa [hmod] at hr

theorem reads_setBigInt64_of_nonneg (h : 0 ≤ value) :
    Msgpack.Reads (.int (wrap value)) (0xCF :: setBigInt64 value) := by
  rw [wrap, if_pos h]
  exact reads_unsigned rfl (by omega) (by omega)

theorem reads_setBigInt64_of_neg (h : value < 0) :
    Msgpack.Reads (.int (wrap value)) (0xD3 :: setBigInt64 value) := by
  rw [wrap, if_neg (by omega)]
  exact reads_signed value rfl (by norm_num)

theorem reads_writeBigInt (value : ℤ) : Msgpack.Reads (.int (wrap value)) (writeBigInt value) := by
  unfold writeBigInt
  by_cases h : 0 ≤ value
  · rw [if_pos h]
    exact reads_setBigInt64_of_nonneg h
  · rw [if_neg h]
    exact reads_setBigInt64_of_neg (by omega)

theorem reads_byte (h : 0 ≤ value) (hle : value ≤ 0x7F) :
    Msgpack.Reads (.int value) [byte value 0] := by
  have hb : byte value 0 = value.toNat.toUInt8 := byte_eq_toUInt8 (by omega)
  have hr := reads_leaf (isHead_fixint (n := value.toNat) (by omega))
  rw [hb]
  rwa [Int.toNat_of_nonneg h] at hr

/-- **`writeUnsigned`** writes a natural number modulo `2 ^ 64`. -/
theorem reads_writeUnsigned (h : 0 ≤ value) :
    Msgpack.Reads (.int (wrap value)) (writeUnsigned value) := by
  have hwrap : value < 2 ^ 64 → wrap value = value := fun hlt =>
    wrap_eq_self_iff.mpr ⟨by omega, hlt⟩
  unfold writeUnsigned
  by_cases h7 : value ≤ 0x7F
  · rw [if_pos h7, hwrap (by omega)]
    exact reads_byte h h7
  rw [if_neg h7]
  by_cases h8 : value ≤ 0xFF
  · rw [if_pos h8, hwrap (by omega), byte_zero_eq, Int.emod_eq_of_lt h (by omega)]
    exact reads_unsigned rfl h (by omega)
  rw [if_neg h8]
  by_cases h16 : value ≤ 0xFFFF
  · rw [if_pos h16, hwrap (by omega), int16_eq, Int.emod_eq_of_lt h (by omega)]
    exact reads_unsigned rfl h (by omega)
  rw [if_neg h16]
  by_cases h32 : value ≤ 0xFFFFFFFF
  · rw [if_pos h32, hwrap (by omega), int32_eq, Int.emod_eq_of_lt h (by omega)]
    exact reads_unsigned rfl h (by omega)
  rw [if_neg h32, int64_eq]
  exact reads_setBigInt64_of_nonneg h

/-- **`writeSigned`** writes a negative number modulo `2 ^ 64`. -/
theorem reads_writeSigned (h : value < 0) :
    Msgpack.Reads (.int (wrap value)) (writeSigned value) := by
  have hwrap : -2 ^ 63 ≤ value → wrap value = value := fun hle =>
    wrap_eq_self_iff.mpr ⟨hle, by omega⟩
  unfold writeSigned
  by_cases h5 : value ≥ -0x20
  · have hb : byte value 0 = (value + 0x100).toNat.toUInt8 := byte_eq_toUInt8 (by omega)
    rw [if_pos h5, hwrap (by omega), hb]
    exact reads_leaf (isHead_negative (by omega) h)
  rw [if_neg h5]
  by_cases h8 : value ≥ -0x80
  · have hmod : value.bmod (2 ^ 8) = value := (Int.bmod_eq_iff (by decide)).mpr (by omega)
    have hr := reads_signed (b := 0xD0) (w := 1) value rfl (by norm_num)
    rw [if_pos h8, hwrap (by omega), byte_zero_eq]
    rwa [hmod] at hr
  rw [if_neg h8]
  by_cases h16 : value ≥ -0x8000
  · have hmod : value.bmod (2 ^ 16) = value := (Int.bmod_eq_iff (by decide)).mpr (by omega)
    have hr := reads_signed (b := 0xD1) (w := 2) value rfl (by norm_num)
    rw [if_pos h16, hwrap (by omega), int16_eq]
    rwa [hmod] at hr
  rw [if_neg h16]
  by_cases h32 : value ≥ -0x80000000
  · have hmod : value.bmod (2 ^ 32) = value := (Int.bmod_eq_iff (by decide)).mpr (by omega)
    have hr := reads_signed (b := 0xD2) (w := 4) value rfl (by norm_num)
    rw [if_pos h32, hwrap (by omega), int32_eq]
    rwa [hmod] at hr
  rw [if_neg h32, int64_eq]
  exact reads_setBigInt64_of_neg h

/-! ## Floats and numbers -/

def writeFloat (value : Binary64) : List UInt8 := 0xCB :: Bytes.toBytes 8 value.bits

/-- An integer, by its sign. -/
def writeInt (value : ℤ) : List UInt8 :=
  if value ≥ 0 then writeUnsigned value else writeSigned value

def writeNumber (value : Binary64) : List UInt8 :=
  if value.isNaN then writeInt 0
  else if value.isInteger then writeInt value.toInt
  else writeFloat value

/-- `value === (value & 0x7F)`. -/
def isFixint (value : Binary64) : Bool := value.isInteger && value.toInt == value.toInt % 0x80

def writeIntOrFloat (value : Binary64) : List UInt8 :=
  if isFixint value then [byte value.toInt 0]
  else if value.isInteger then writeInt value.toInt
  else writeFloat value

/-- What a reader takes a number for. -/
def numberRead (value : Binary64) : Msgpack :=
  if value.isInteger then .int (wrap value.toInt) else .float value

theorem reads_writeFloat (value : Binary64) : Msgpack.Reads (.float value) (writeFloat value) := by
  have hn : value.bits < 256 ^ 8 := value.bits_lt
  have hr := reads_leaf (isHead_of_format (b := 0xCB) rfl hn)
  rwa [Binary64.ofBits_bits] at hr

theorem reads_writeInt (value : ℤ) : Msgpack.Reads (.int (wrap value)) (writeInt value) := by
  unfold writeInt
  by_cases h : value ≥ 0
  · rw [if_pos h]
    exact reads_writeUnsigned h
  · rw [if_neg h]
    exact reads_writeSigned (by omega)

theorem reads_writeNumber (value : Binary64) :
    Msgpack.Reads (if value.isNaN then .int 0 else numberRead value) (writeNumber value) := by
  unfold writeNumber numberRead
  by_cases hnan : value.isNaN = true
  · rw [if_pos hnan, if_pos hnan]
    exact reads_writeInt 0
  rw [if_neg hnan, if_neg hnan]
  by_cases hint : value.isInteger = true
  · rw [if_pos hint, if_pos hint]
    exact reads_writeInt value.toInt
  · rw [if_neg hint, if_neg hint]
    exact reads_writeFloat value

theorem reads_writeIntOrFloat (value : Binary64) :
    Msgpack.Reads (numberRead value) (writeIntOrFloat value) := by
  unfold writeIntOrFloat numberRead
  by_cases hfix : isFixint value = true
  · rw [if_pos hfix]
    rw [isFixint, Bool.and_eq_true, beq_iff_eq] at hfix
    obtain ⟨hint, hlow⟩ := hfix
    rw [if_pos hint, wrap_eq_self_iff.mpr (by omega)]
    exact reads_byte (by omega) (by omega)
  rw [if_neg hfix]
  by_cases hint : value.isInteger = true
  · rw [if_pos hint, if_pos hint]
    exact reads_writeInt value.toInt
  · rw [if_neg hint, if_neg hint]
    exact reads_writeFloat value

/-! ## Strings, byte strings and prefixes -/

/-- `fixstr` for fewer than 32 bytes, `str32` otherwise; no string has `2 ^ 32` bytes. -/
def write (value : Str) : List UInt8 :=
  let l := Unicode.encodeUtf8 value
  if l.length < 0x20 then (0xA0 + l.length).toUInt8 :: l
  else 0xDB :: int32 l.length ++ l

def writeNull : List UInt8 := [0xC0]

def writeBoolean (value : Bool) : List UInt8 := [if value then 0xC3 else 0xC2]

def writeFixArray (size : ℕ) : List UInt8 := [(0x90 + size).toUInt8]

def writeArrayPrefix (length : ℕ) : List UInt8 := 0xDD :: int32 length

def writeMapPrefix (keysLength : ℕ) : List UInt8 := 0xDF :: int32 keysLength

/-- The prefix that `writeBin` writes for so many bytes. -/
def binPrefix (byteLength : ℕ) : List UInt8 :=
  if byteLength < 256 then [0xC4, byte byteLength 0]
  else if byteLength < 65536 then [0xC5, byte byteLength 8, byte byteLength 0]
  else 0xC6 :: int32 byteLength

theorem int32_natCast (h : n < 2 ^ 32) : int32 n = Bytes.toBytes 4 n := by
  have hn : ((n : ℤ) % 2 ^ 32).toNat = n := by omega
  rw [int32_eq, hn]

theorem isHead_int32 {b : UInt8} {k : ℕ → Msgpack.Head}
    (h : Msgpack.format b = some (4, k)) (hn : n < 2 ^ 32) :
    Msgpack.IsHead (b :: int32 n) (k n) := by
  rw [int32_natCast hn]
  exact isHead_of_format h (by omega)

theorem isHead_writeArrayPrefix (h : n < 2 ^ 32) :
    Msgpack.IsHead (writeArrayPrefix n) (.array n) := isHead_int32 rfl h

theorem isHead_writeMapPrefix (h : n < 2 ^ 32) :
    Msgpack.IsHead (writeMapPrefix n) (.map n) := isHead_int32 rfl h

theorem isHead_writeFixArray (h : n < 16) :
    Msgpack.IsHead (writeFixArray n) (.array n) := isHead_fixarray h

theorem isHead_binPrefix (h : n < 2 ^ 32) : Msgpack.IsHead (binPrefix n) (.bin n) := by
  unfold binPrefix
  by_cases h8 : n < 256
  · have hn : ((n : ℤ) % 2 ^ 8).toNat = n := by omega
    rw [if_pos h8, byte_zero_eq, hn]
    exact isHead_of_format (b := 0xC4) rfl (by omega)
  rw [if_neg h8]
  by_cases h16 : n < 65536
  · have hn : ((n : ℤ) % 2 ^ 16).toNat = n := by omega
    rw [if_pos h16, int16_eq, hn]
    exact isHead_of_format (b := 0xC5) rfl (by omega)
  rw [if_neg h16]
  exact isHead_int32 rfl h

theorem reads_writeNull : Msgpack.Reads .nil writeNull :=
  reads_leaf (isHead_of_format (b := 0xC0) (n := 0) rfl (by decide))

theorem reads_writeBoolean (value : Bool) : Msgpack.Reads (.bool value) (writeBoolean value) := by
  cases value
  · exact reads_leaf (isHead_of_format (b := 0xC2) (n := 0) rfl (by decide))
  · exact reads_leaf (isHead_of_format (b := 0xC3) (n := 0) rfl (by decide))

/-- **A string** is read with its lone surrogates replaced. -/
theorem reads_write {value : Str} (h : (Unicode.encodeUtf8 value).length < 2 ^ 32) :
    Msgpack.Reads (.str (Unicode.toWellFormed value)) (write value) := by
  have hutf8 := Unicode.decodeUtf8_encodeUtf8_eq value
  unfold write
  by_cases h5 : (Unicode.encodeUtf8 value).length < 0x20
  · rw [if_pos h5]
    exact reads_str (isHead_fixstr h5) hutf8
  · rw [if_neg h5]
    exact reads_str (isHead_int32 (b := 0xDB) rfl h) hutf8

theorem encodes_write (value : Str) :
    Msgpack.Encodes Msgpack.decode (.str (Unicode.toWellFormed value)) (write value) := by
  have hlen : (Unicode.encodeUtf8 value).length < (write value).length := by
    unfold write
    dsimp only
    split
    · rw [List.length_cons]
      omega
    · rw [List.length_append, List.length_cons]
      omega
  exact ⟨by omega, fun h => reads_write (by omega)⟩

theorem reads_binPrefix {l : List UInt8} (h : l.length < 2 ^ 32) :
    Msgpack.Reads (.bin l) (binPrefix l.length ++ l) := reads_bin (isHead_binPrefix h)

end DdTrace.MsgpackChunk
