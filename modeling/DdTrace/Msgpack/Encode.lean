import DdTrace.Msgpack.Chunk

/-!
# `encode` of `msgpack/index.js`

A value is written by what it is: a prefix and then what it holds, in one pass.  The prefix of a
view is taken from its `byteLength`, while `set` makes room for and copies as many bytes as the
view has elements.  The two agree where an element is one byte.  Where it is wider the body is
shorter than the prefix says and each byte is the lowest one of its element; the elements of a
`BigInt64Array` or `BigUint64Array` are refused by `set`; and a `DataView` has no `length` at all,
so that the cursor of the chunk is not a number from there on and no byte is returned.

* `writes_writeValue`: what is written for a value whose views are well measured, as long as it
  fits into `MAX_SIZE`.
* `received_eq_meaning_iff`: where what is read is what was meant.
* `encode_iff`: the values that come back with all they hold.
-/

open Library

namespace DdTrace.MsgpackEncode

open MsgpackChunk List Msgpack Bool

/-! ## Values -/

/-- The element types of the typed arrays. -/
inductive ElementType where
  | int8 | uint8 | uint8Clamped | int16 | uint16 | int32 | uint32 | float16 | float32 | float64
  | bigInt64 | bigUint64
  deriving DecidableEq

/-- `BYTES_PER_ELEMENT`. -/
def ElementType.size : ElementType → ℕ
  | .int8 | .uint8 | .uint8Clamped => 1
  | .int16 | .uint16 | .float16 => 2
  | .int32 | .uint32 | .float32 => 4
  | .float64 | .bigInt64 | .bigUint64 => 8

def ElementType.isBigInt : ElementType → Bool
  | .bigInt64 | .bigUint64 => true
  | _ => false

/-- The views of an `ArrayBuffer`: the typed arrays, a whole number of elements each, and
`DataView`. -/
inductive View where
  | typed (t : ElementType) (bytes : List UInt8) (whole : t.size ∣ bytes.length)
  | dataView (bytes : List UInt8)
  deriving DecidableEq

/-- The bytes a view is of. -/
def View.bytes : View → List UInt8
  | .typed _ l _ => l
  | .dataView l => l

inductive Value where
  | null
  | boolean (b : Bool)
  | number (d : Binary64)
  | string (s : Str)
  | bigint (z : ℤ)
  | array (l : List Value)
  | object (l : List (Str × Value))
  | buffer (l : List UInt8)
  | view (v : View)

/-! ## `writeBin` -/

/-- `ToUint8` of an IEEE 754 number with exponents of `e` bits and fractions of `m` bits: the
integer part modulo 256, zero where there is none. -/
def floatToUint8 (e m n : ℕ) : UInt8 :=
  let frac := n % 2 ^ m
  let exp := n / 2 ^ m % 2 ^ e
  let sig := if exp = 0 then frac else 2 ^ m + frac
  let mag : ℤ := ((sig * 2 ^ (exp - 1) / 2 ^ (2 ^ (e - 1) - 2 + m) : ℕ) : ℤ)
  if exp = 2 ^ e - 1 then 0
  else ((if n / 2 ^ (m + e) % 2 = 1 then -mag else mag) % 256).toNat.toUInt8

/-- What a `Uint8Array` stores of an element, whose bytes are given least significant first. -/
def storeUint8 (t : ElementType) (l : List UInt8) : UInt8 :=
  match t with
  | .float16 => floatToUint8 5 10 (Bytes.ofBytes l.reverse)
  | .float32 => floatToUint8 8 23 (Bytes.ofBytes l.reverse)
  | .float64 => floatToUint8 11 52 (Bytes.ofBytes l.reverse)
  | _ => l.headD 0

/-- The elements of a typed array, each as its bytes. -/
def elements (t : ElementType) (l : List UInt8) : List (List UInt8) :=
  (List.range (l.length / t.size)).map fun i => (l.drop (i * t.size)).take t.size

/-- How a value is not written: the chunk is full, `set` refuses to store a bigint as a byte, or
the cursor is lost.  In the last case nothing that is written later counts, and what `encode`
returns in the end is empty, if a later view does not throw. -/
inductive Failure where
  | overflow (e : OverflowError)
  | mixedTypes
  | lostCursor
  deriving DecidableEq

def put (chunk l : List UInt8) : Except Failure (List UInt8) :=
  (append chunk l).mapError .overflow

/-- The prefix by `byteLength`, then `set`, which copies `length` elements. -/
def writeBin (chunk : List UInt8) (v : View) : Except Failure (List UInt8) := do
  let chunk ← put chunk (binPrefix v.bytes.length)
  match v with
  | .typed t l _ =>
    let copied ← put chunk ((elements t l).map (storeUint8 t))
    if t.isBigInt then .error .mixedTypes else .ok copied
  | .dataView _ => .error .lostCursor

theorem length_elements (t : ElementType) (l : List UInt8) :
    (elements t l).length = l.length / t.size := by
  rw [elements, length_map, length_range]

theorem one_dvd_length (l : List UInt8) : ElementType.uint8.size ∣ l.length := one_dvd _

/-- A `Buffer` is a `Uint8Array`. -/
def ofBuffer (l : List UInt8) : View := .typed .uint8 l (one_dvd_length l)

/-! ## `writeValue` -/

/-- The prefix of an array. -/
def arrayPrefix (length : ℕ) : List UInt8 :=
  if length < 16 then writeFixArray length else writeArrayPrefix length

mutual

def writeValue (chunk : List UInt8) : Value → Except Failure (List UInt8)
  | .string s => put chunk (write s)
  | .number d => put chunk (writeNumber d)
  | .null => put chunk writeNull
  | .array l => do
    let chunk ← put chunk (arrayPrefix l.length)
    writeArray chunk l
  | .buffer l => writeBin chunk (ofBuffer l)
  | .view v => writeBin chunk v
  | .object es => do
    let chunk ← put chunk (writeMapPrefix es.length)
    writeMap chunk es
  | .boolean b => put chunk (writeBoolean b)
  | .bigint z => put chunk (writeBigInt z)

/-- The items of an array. -/
def writeArray (chunk : List UInt8) : List Value → Except Failure (List UInt8)
  | [] => .ok chunk
  | v :: l => do
    let chunk ← writeValue chunk v
    writeArray chunk l

/-- The keys of an object with their values. -/
def writeMap (chunk : List UInt8) : List (Str × Value) → Except Failure (List UInt8)
  | [] => .ok chunk
  | (k, v) :: es => do
    let chunk ← put chunk (write k)
    let chunk ← writeValue chunk v
    writeMap chunk es

end

def encode (value : Value) : Except Failure (List UInt8) := writeValue [] value

/-! ## What is meant and what is read -/

mutual

/-- The msgpack value that a value is: an integer for a number that is one, the bytes for a
view. -/
def meaning : Value → Msgpack
  | .null => .nil
  | .boolean b => .bool b
  | .number d => if d.isInteger then .int d.toInt else .float d
  | .string s => .str s
  | .bigint z => .int z
  | .array l => .array (meanings l)
  | .object es => .map (entryMeanings es)
  | .buffer l => .bin l
  | .view v => .bin v.bytes

def meanings : List Value → List Msgpack
  | [] => []
  | v :: l => meaning v :: meanings l

def entryMeanings : List (Str × Value) → List (Msgpack × Msgpack)
  | [] => []
  | (k, v) :: es => (.str k, meaning v) :: entryMeanings es

end

mutual

/-- The msgpack value that is read: integers modulo `2 ^ 64`, zero for `NaN`, strings with their
lone surrogates replaced. -/
def received : Value → Msgpack
  | .null => .nil
  | .boolean b => .bool b
  | .number d => if d.isNaN then .int 0 else numberRead d
  | .string s => .str (Unicode.toWellFormed s)
  | .bigint z => .int (wrap z)
  | .array l => .array (receiveds l)
  | .object es => .map (entryReceiveds es)
  | .buffer l => .bin l
  | .view v => .bin v.bytes

def receiveds : List Value → List Msgpack
  | [] => []
  | v :: l => received v :: receiveds l

def entryReceiveds : List (Str × Value) → List (Msgpack × Msgpack)
  | [] => []
  | (k, v) :: es => (.str (Unicode.toWellFormed k), received v) :: entryReceiveds es

end

mutual

/-- A value and the values it holds. -/
def parts : Value → List Value
  | .array l => .array l :: partsOfItems l
  | .object es => .object es :: partsOfEntries es
  | v => [v]

def partsOfItems : List Value → List Value
  | [] => []
  | v :: l => parts v ++ partsOfItems l

def partsOfEntries : List (Str × Value) → List Value
  | [] => []
  | (_, v) :: es => parts v ++ partsOfEntries es

end

/-! ## Sizes -/

/-- The bytes of an integer in its shortest form. -/
def intSize (z : ℤ) : ℕ :=
  if -0x20 ≤ z ∧ z ≤ 0x7F then 1
  else if -0x80 ≤ z ∧ z ≤ 0xFF then 2
  else if -0x8000 ≤ z ∧ z ≤ 0xFFFF then 3
  else if -0x80000000 ≤ z ∧ z ≤ 0xFFFFFFFF then 5
  else 9

def stringSize (s : Str) : ℕ :=
  let n := (Unicode.encodeUtf8 s).length
  if n < 0x20 then n + 1 else n + 5

def binPrefixSize (n : ℕ) : ℕ := if n < 256 then 2 else if n < 65536 then 3 else 5

mutual

/-- The bytes of a value whose views have elements of one byte. -/
def size : Value → ℕ
  | .null => 1
  | .boolean _ => 1
  | .number d => if d.isNaN then 1 else if d.isInteger then intSize d.toInt else 9
  | .string s => stringSize s
  | .bigint _ => 9
  | .array l => (if l.length < 16 then 1 else 5) + sizeOfItems l
  | .object es => 5 + sizeOfEntries es
  | .buffer l => binPrefixSize l.length + l.length
  | .view v => binPrefixSize v.bytes.length + v.bytes.length

def sizeOfItems : List Value → ℕ
  | [] => 0
  | v :: l => size v + sizeOfItems l

def sizeOfEntries : List (Str × Value) → ℕ
  | [] => 0
  | (k, v) :: es => stringSize k + size v + sizeOfEntries es

end

/-! ## What each writer adds -/

variable {l : List UInt8} {P : List UInt8 → Prop} {n : ℕ} {r : Except Failure (List UInt8)}
  {chunk : List UInt8} {f : List UInt8 → Except Failure (List UInt8)}

theorem bind_eq_ok (h : r >>= f = .ok l) : ∃ c, r = .ok c ∧ f c = .ok l := by
  cases r with
  | error e => cases h
  | ok c => exact ⟨c, rfl, h⟩

theorem eq_append_of_put {d : List UInt8} (h : put chunk l = .ok d) :
    d = chunk ++ l ∧ (chunk ++ l).length ≤ MAX_SIZE := by
  unfold put append at h
  rw [length_append]
  split_ifs at h with hfull
  · cases h
  · cases h
    exact ⟨rfl, by omega⟩

/-- A writer that adds `n` bytes of which `P` holds, or refuses if they do not fit. -/
def Adds (P : List UInt8 → Prop) (n : ℕ) (chunk : List UInt8)
    (r : Except Failure (List UInt8)) : Prop :=
  (chunk.length + n ≤ MAX_SIZE → ∃ l, r = .ok (chunk ++ l) ∧ l.length = n ∧ P l) ∧
  (chunk.length ≤ MAX_SIZE → MAX_SIZE < chunk.length + n → ∃ e, r = .error (.overflow e))

theorem adds_put (hn : l.length = n)
    (h : n ≤ MAX_SIZE → P l) (chunk : List UInt8) : Adds P n chunk (put chunk l) := by
  subst hn
  unfold put append
  constructor
  · intro hfit
    rw [if_neg (by omega)]
    exact ⟨l, rfl, rfl, h (by omega)⟩
  · intro _ hfull
    rw [if_pos hfull]
    exact ⟨_, rfl⟩

theorem adds_nothing (h : P []) (chunk : List UInt8) : Adds P 0 chunk (.ok chunk) :=
  ⟨fun _ => ⟨[], by rw [append_nil], rfl, h⟩, fun hle hfull => absurd hfull (by omega)⟩

/-- **Two writers, one after the other.** -/
theorem adds_bind {Q R : List UInt8 → Prop} {k : ℕ} (hr : Adds P n chunk r)
    (hf : ∀ c, Adds Q k c (f c))
    (h : n + k ≤ MAX_SIZE → ∀ l m, P l → Q m → R (l ++ m)) :
    Adds R (n + k) chunk (r >>= f) := by
  constructor
  · intro hfit
    obtain ⟨l, rfl, hl, hP⟩ := hr.1 (by omega)
    obtain ⟨m, hm, hk, hQ⟩ := (hf (chunk ++ l)).1 (by rw [length_append]; omega)
    refine ⟨l ++ m, ?_, by rw [length_append]; omega, h (by omega) l m hP hQ⟩
    rw [← append_assoc]
    exact hm
  · intro hle hfull
    rcases le_or_gt (chunk.length + n) MAX_SIZE with hfit | hfirst
    · obtain ⟨l, rfl, hl, -⟩ := hr.1 hfit
      have hlen : (chunk ++ l).length = chunk.length + n := by rw [length_append, hl]
      exact (hf (chunk ++ l)).2 (by omega) (by omega)
    · obtain ⟨e, rfl⟩ := hr.2 hle hfirst
      exact ⟨e, rfl⟩

/-! ### Lengths -/

@[simp] theorem length_int32 (z : ℤ) : (int32 z).length = 4 := rfl

@[simp] theorem length_int64 (z : ℤ) : (int64 z).length = 8 := rfl

theorem length_writeInt (z : ℤ) : (writeInt z).length = intSize z := by
  unfold writeInt writeUnsigned writeSigned intSize
  split_ifs <;> first | rfl | omega

theorem length_writeNumber (d : Binary64) : (writeNumber d).length =
      if d.isNaN then 1 else if d.isInteger then intSize d.toInt else 9 := by
  unfold writeNumber
  split_ifs
  · rfl
  · exact length_writeInt d.toInt
  · rw [writeFloat, length_cons, Bytes.length_toBytes]

theorem length_write (s : Str) : (write s).length = stringSize s := by
  unfold write stringSize
  dsimp only
  split_ifs
  · rfl
  · rw [length_append, length_cons, length_int32]
    omega

theorem length_writeBigInt (z : ℤ) : (writeBigInt z).length = 9 := by
  unfold writeBigInt setBigInt64
  split_ifs <;> rw [length_cons, Bytes.length_toBytes]

theorem length_binPrefix (n : ℕ) : (binPrefix n).length = binPrefixSize n := by
  unfold binPrefix binPrefixSize
  split_ifs <;> rfl

theorem length_encodeUtf8_le (s : Str) : (Unicode.encodeUtf8 s).length ≤ stringSize s := by
  unfold stringSize
  dsimp only
  split_ifs <;> omega

theorem intSize_pos (z : ℤ) : 1 ≤ intSize z := by
  unfold intSize
  split_ifs <;> omega

theorem size_pos (v : Value) : 1 ≤ size v := by
  cases v with
  | null | boolean b => exact le_refl 1
  | number d =>
    have h := intSize_pos d.toInt
    unfold size
    split_ifs <;> omega
  | string s =>
    unfold size stringSize
    dsimp only
    split_ifs <;> omega
  | bigint z =>
    show 1 ≤ 9
    omega
  | array l =>
    unfold size
    split_ifs <;> omega
  | object es =>
    unfold size
    omega
  | buffer l | view v =>
    unfold size binPrefixSize
    split_ifs <;> omega

theorem length_le_sizeOfItems (l : List Value) : l.length ≤ sizeOfItems l := by
  induction l with
  | nil => exact le_refl 0
  | cons v l ih =>
    have hv := size_pos v
    rw [length_cons, sizeOfItems]
    omega

theorem length_le_sizeOfEntries (es : List (Str × Value)) : es.length ≤ sizeOfEntries es := by
  induction es with
  | nil => exact le_refl 0
  | cons e es ih =>
    obtain ⟨k, v⟩ := e
    have hv := size_pos v
    rw [length_cons, sizeOfEntries]
    omega

theorem length_receiveds (l : List Value) : (receiveds l).length = l.length := by
  induction l with
  | nil => rfl
  | cons v l ih => rw [receiveds, length_cons, ih, length_cons]

theorem length_entryReceiveds (es : List (Str × Value)) :
    (entryReceiveds es).length = es.length := by
  induction es with
  | nil => rfl
  | cons e es ih =>
    rw [entryReceiveds, length_cons, ih, length_cons]

/-! ### Views -/

/-- A view with as many elements as bytes, none of them a bigint. -/
def View.isBytes : View → Bool
  | .typed t l _ => t.size == 1 || l.isEmpty && !t.isBigInt
  | .dataView _ => false

theorem elements_one {t : ElementType} (ht : t.size = 1) (l : List UInt8) :
    (elements t l).map (storeUint8 t) = l := by
  have hstore : ∀ m, storeUint8 t m = m.headD 0 := by
    intro m
    cases t <;> first | rfl | cases ht
  rw [elements, ht, Nat.div_one, map_map]
  refine ext_getElem (by rw [length_map, length_range]) fun i hi hl => ?_
  rw [getElem_map, getElem_range, Function.comp_apply, hstore, Nat.mul_one, drop_eq_getElem_cons hl]
  rfl

theorem copied_of_isBytes {t : ElementType} {whole : t.size ∣ l.length}
    (h : (View.typed t l whole).isBytes = true) :
    (elements t l).map (storeUint8 t) = l ∧ t.isBigInt = false := by
  rw [View.isBytes, or_eq_true, beq_iff_eq, and_eq_true, List.isEmpty_iff] at h
  rcases h with ht | ⟨rfl, hbig⟩
  · refine ⟨elements_one ht l, ?_⟩
    cases t <;> first | rfl | cases ht
  · refine ⟨?_, by rwa [not_eq_true'] at hbig⟩
    rw [elements, length_nil, Nat.zero_div]
    rfl

/-- A view of bytes is written as these. -/
theorem adds_writeBin {v : View} (h : v.isBytes = true) (chunk : List UInt8) :
    Adds (Msgpack.Reads (.bin v.bytes)) (binPrefixSize v.bytes.length + v.bytes.length) chunk
      (writeBin chunk v) := by
  cases v with
  | dataView l => cases h
  | typed t l whole =>
    obtain ⟨hcopy, hbig⟩ := copied_of_isBytes h
    have hbody : ∀ c, Adds (· = l) l.length c (put c l) := fun c =>
      adds_put (P := (· = l)) rfl (fun _ => rfl) c
    have hadds : Adds (Msgpack.Reads (.bin l)) (binPrefixSize l.length + l.length) chunk
        (put chunk (binPrefix l.length) >>= fun c => put c l) := by
      refine adds_bind (adds_put (P := (· = binPrefix l.length)) (length_binPrefix _)
        (fun _ => rfl) chunk) hbody ?_
      rintro hfit _ _ rfl rfl
      unfold MAX_SIZE at hfit
      exact reads_binPrefix (by omega)
    have hbin : writeBin chunk (.typed t l whole) =
        put chunk (binPrefix l.length) >>= fun c => put c l := by
      unfold writeBin
      dsimp only [View.bytes]
      refine bind_congr fun c => ?_
      rw [hcopy, hbig]
      cases put c l <;> rfl
    rw [hbin]
    exact hadds

/-- **Where the elements are wider the body is short of what the prefix says.** -/
theorem decodeAll_of_writeBin {v : View} (h : v.isBytes = false) (hl : writeBin [] v = .ok l) :
    Msgpack.decodeAll l = none := by
  obtain ⟨c, hc, hl⟩ := bind_eq_ok hl
  obtain ⟨rfl, -⟩ := eq_append_of_put hc
  cases v with
  | dataView m => cases hl
  | typed t m whole =>
    obtain ⟨d, hd, hl⟩ := bind_eq_ok hl
    obtain ⟨rfl, hfit⟩ := eq_append_of_put hd
    by_cases hbig : t.isBigInt = true
    · rw [if_pos hbig] at hl
      cases hl
    rw [if_neg hbig] at hl
    cases hl
    rw [View.isBytes, or_eq_false_iff, beq_eq_false_iff_ne, and_eq_false_iff,
      isEmpty_eq_false_iff] at h
    have hm : m ≠ [] := by
      rcases h.2 with hm | hb
      · exact hm
      · rw [not_eq_eq_eq_not] at hb
        exact absurd hb hbig
    have hpos : 0 < m.length := length_pos_iff.mpr hm
    have hsize : 2 ≤ t.size ∧ t.size ≤ 8 := by
      have hne := h.1
      cases t <;> simp only [ElementType.size] at hne ⊢ <;> omega
    have hbody : ((elements t m).map (storeUint8 t)).length = m.length / t.size := by
      rw [length_map, length_elements]
    have hlt : m.length / t.size < m.length := Nat.div_lt_self hpos hsize.1
    have hbound : m.length / 8 ≤ m.length / t.size := Nat.div_le_div_left hsize.2 (by omega)
    rw [length_append] at hfit
    unfold MAX_SIZE at hfit
    exact decodeAll_short (isHead_binPrefix (n := m.length) (by omega)) (by omega)

/-! ## A whole value -/

/-- A value that nothing on its own level keeps from coming back: no `NaN`, no integer beyond 64
bits, no lone surrogate in a string or a key, no view of wider elements. -/
def isExact : Value → Bool
  | .number d => !d.isNaN && (!d.isInteger || -2 ^ 63 ≤ d.toInt && d.toInt < 2 ^ 64)
  | .string s => Unicode.isWellFormed s
  | .bigint z => -2 ^ 63 ≤ z && z < 2 ^ 64
  | .object es => es.all fun e => Unicode.isWellFormed e.1
  | .view v => v.isBytes
  | _ => true

/-- All its views are of bytes. -/
def viewsAreBytes (v : Value) : Prop := ∀ w, .view w ∈ parts v → w.isBytes = true

theorem adds_arrayPrefix (n : ℕ) (chunk : List UInt8) :
    Adds (· = arrayPrefix n) (if n < 16 then 1 else 5) chunk (put chunk (arrayPrefix n)) := by
  refine adds_put (P := (· = arrayPrefix n)) ?_ (fun _ => rfl) chunk
  unfold arrayPrefix
  split_ifs <;> rfl

theorem isHead_arrayPrefix (h : n < 2 ^ 32) : Msgpack.IsHead (arrayPrefix n) (.array n) := by
  unfold arrayPrefix
  by_cases h16 : n < 16
  · rw [if_pos h16]
    exact isHead_writeFixArray h16
  · rw [if_neg h16]
    exact isHead_writeArrayPrefix h

theorem adds_write (s : Str) (chunk : List UInt8) :
    Adds (Msgpack.Reads (.str (Unicode.toWellFormed s))) (stringSize s) chunk
      (put chunk (write s)) := by
  refine adds_put (length_write s) (fun hfit => reads_write ?_) chunk
  have hle := length_encodeUtf8_le s
  unfold MAX_SIZE at hfit
  omega

mutual

/-- **`writeValue`** adds the bytes of the value, if they fit. -/
theorem adds_writeValue : ∀ (v : Value), viewsAreBytes v → ∀ chunk,
    Adds (Msgpack.Reads (received v)) (size v) chunk (writeValue chunk v)
  | .null, _, chunk => adds_put rfl (fun _ => reads_writeNull) chunk
  | .boolean b, _, chunk => adds_put rfl (fun _ => reads_writeBoolean b) chunk
  | .number d, _, chunk => adds_put (length_writeNumber d) (fun _ => reads_writeNumber d) chunk
  | .string s, _, chunk => adds_write s chunk
  | .bigint z, _, chunk => adds_put (length_writeBigInt z) (fun _ => reads_writeBigInt z) chunk
  | .array l, h, chunk => by
    have hl : ∀ w, .view w ∈ partsOfItems l → w.isBytes = true := fun w hw =>
      h w (mem_cons_of_mem _ hw)
    refine adds_bind (adds_arrayPrefix l.length chunk) (adds_writeArray l hl) ?_
    rintro hfit _ m rfl hm
    have hlen := length_le_sizeOfItems l
    unfold MAX_SIZE at hfit
    have hhead := isHead_arrayPrefix (n := l.length) (by omega)
    rw [← length_receiveds] at hhead ⊢
    exact reads_array hhead hm
  | .object es, h, chunk => by
    have hes : ∀ w, .view w ∈ partsOfEntries es → w.isBytes = true := fun w hw =>
      h w (mem_cons_of_mem _ hw)
    refine adds_bind (adds_put (P := (· = writeMapPrefix es.length)) rfl (fun _ => rfl) chunk)
      (adds_writeMap es hes) ?_
    rintro hfit _ m rfl hm
    have hlen := length_le_sizeOfEntries es
    unfold MAX_SIZE at hfit
    have hhead := isHead_writeMapPrefix (n := es.length) (by omega)
    rw [← length_entryReceiveds] at hhead ⊢
    exact reads_map hhead hm
  | .buffer l, _, chunk => adds_writeBin (v := ofBuffer l) rfl chunk
  | .view v, h, chunk => adds_writeBin (h v (mem_singleton_self _)) chunk

theorem adds_writeArray : ∀ (l : List Value),
    (∀ w, .view w ∈ partsOfItems l → w.isBytes = true) → ∀ chunk,
      Adds (Msgpack.ParsesAll Msgpack.decode (receiveds l)) (sizeOfItems l) chunk
        (writeArray chunk l)
  | [], _, chunk => adds_nothing parsesAll_nil chunk
  | v :: l, h, chunk => by
    refine adds_bind (adds_writeValue v (fun w hw => h w (mem_append_left _ hw)) chunk)
      (adds_writeArray l fun w hw => h w (mem_append_right _ hw)) ?_
    intro _ m n hm hn
    exact parsesAll_cons hm hn

theorem adds_writeMap : ∀ (es : List (Str × Value)),
    (∀ w, .view w ∈ partsOfEntries es → w.isBytes = true) → ∀ chunk,
      Adds (Msgpack.ParsesAll Msgpack.entry (entryReceiveds es)) (sizeOfEntries es) chunk
        (writeMap chunk es)
  | [], _, chunk => adds_nothing parsesAll_nil chunk
  | (k, v) :: es, h, chunk => by
    have hentry : Adds (Msgpack.Parses Msgpack.entry (.str (Unicode.toWellFormed k), received v))
        (stringSize k + size v) chunk (put chunk (write k) >>= fun c => writeValue c v) :=
      adds_bind (adds_write k chunk) (adds_writeValue v fun w hw => h w (mem_append_left _ hw))
        fun _ _ _ hk hv => parses_entry hk hv
    rw [writeMap, ← bind_assoc]
    refine adds_bind hentry (adds_writeMap es fun w hw => h w (mem_append_right _ hw)) ?_
    intro _ m n hm hn
    exact parsesAll_cons hm hn

end

/-! ## What comes back -/

theorem numberRead_eq_iff (d : Binary64) : ((if d.isNaN then .int 0 else numberRead d : Msgpack) =
      if d.isInteger then .int d.toInt else .float d) ↔ isExact (.number d) = true := by
  rw [isExact, and_eq_true, or_eq_true, and_eq_true, decide_eq_true_eq]
  unfold numberRead
  by_cases hnan : d.isNaN = true
  · have hfin : d.isInteger = false := by
      rw [Binary64.isNaN, and_eq_true, beq_iff_eq] at hnan
      rw [Binary64.isInteger, Binary64.isFinite, hnan.1]
      rfl
    rw [hfin, hnan]
    simp
  rw [if_neg hnan]
  by_cases hint : d.isInteger = true
  · rw [if_pos hint, if_pos hint, Msgpack.int.injEq, wrap_eq_self_iff]
    simp [hint, hnan]
  · simp [hint, hnan]

mutual

/-- **What is read is what was meant** where each part of the value is exact. -/
theorem received_eq_meaning_iff : ∀ v : Value, viewsAreBytes v →
    (received v = meaning v ↔ ∀ w ∈ parts v, isExact w = true)
  | .null, _ | .boolean b, _ => ⟨fun _ w hw => by rw [mem_singleton.mp hw]; rfl, fun _ => rfl⟩
  | .number d, _ => by
    show _ ↔ ∀ w ∈ [Value.number d], isExact w = true
    rw [forall_mem_singleton]
    exact numberRead_eq_iff d
  | .string s, _ => by
    show _ ↔ ∀ w ∈ [Value.string s], isExact w = true
    rw [forall_mem_singleton, received, meaning, Msgpack.str.injEq,
      Unicode.toWellFormed_eq_self_iff]
    rfl
  | .bigint z, _ => by
    show _ ↔ ∀ w ∈ [Value.bigint z], isExact w = true
    rw [forall_mem_singleton, received, meaning, Msgpack.int.injEq, wrap_eq_self_iff,
      isExact, and_eq_true, decide_eq_true_eq, decide_eq_true_eq]
  | .array l, h => by
    rw [parts, forall_mem_cons, received, meaning, Msgpack.array.injEq,
      receiveds_eq_meanings_iff l fun w hw => h w (mem_cons_of_mem _ hw)]
    exact ⟨fun hl => ⟨rfl, hl⟩, fun hl => hl.2⟩
  | .object es, h => by
    rw [parts, forall_mem_cons, received, meaning, Msgpack.map.injEq, isExact, all_eq_true]
    exact entryReceiveds_eq_iff es fun w hw => h w (mem_cons_of_mem _ hw)
  | .buffer l, _ => ⟨fun _ w hw => by rw [mem_singleton.mp hw]; rfl, fun _ => rfl⟩
  | .view v, h => ⟨fun _ w hw => by
      rw [mem_singleton.mp hw]
      exact h v (mem_singleton_self _), fun _ => rfl⟩

theorem receiveds_eq_meanings_iff : ∀ l : List Value,
    (∀ w, .view w ∈ partsOfItems l → w.isBytes = true) →
      (receiveds l = meanings l ↔ ∀ w ∈ partsOfItems l, isExact w = true)
  | [], _ => ⟨fun _ _ hw => absurd hw not_mem_nil, fun _ => rfl⟩
  | v :: l, h => by
    rw [partsOfItems, forall_mem_append, receiveds, meanings, List.cons.injEq,
      received_eq_meaning_iff v fun w hw => h w (mem_append_left _ hw),
      receiveds_eq_meanings_iff l fun w hw => h w (mem_append_right _ hw)]

theorem entryReceiveds_eq_iff : ∀ es : List (Str × Value),
    (∀ w, .view w ∈ partsOfEntries es → w.isBytes = true) → (entryReceiveds es = entryMeanings es ↔
        (∀ e ∈ es, Unicode.isWellFormed e.1 = true) ∧ ∀ w ∈ partsOfEntries es, isExact w = true)
  | [], _ => ⟨fun _ => ⟨fun _ he => absurd he not_mem_nil,
      fun _ hw => absurd hw not_mem_nil⟩, fun _ => rfl⟩
  | (k, v) :: es, h => by
    rw [partsOfEntries, forall_mem_append, forall_mem_cons, entryReceiveds,
      entryMeanings, List.cons.injEq, Prod.mk.injEq, Msgpack.str.injEq,
      Unicode.toWellFormed_eq_self_iff,
      received_eq_meaning_iff v fun w hw => h w (mem_append_left _ hw),
      entryReceiveds_eq_iff es fun w hw => h w (mem_append_right _ hw)]
    tauto

end

theorem self_mem_parts (v : Value) : v ∈ parts v := by
  cases v <;> exact mem_cons_self

mutual

theorem parts_subset : ∀ {v w : Value}, w ∈ parts v → parts w ⊆ parts v ∧ size w ≤ size v
  | .null, w, h => by rw [mem_singleton.mp h]; exact ⟨List.Subset.refl _, le_refl _⟩
  | .boolean b, w, h => by rw [mem_singleton.mp h]; exact ⟨List.Subset.refl _, le_refl _⟩
  | .number d, w, h => by rw [mem_singleton.mp h]; exact ⟨List.Subset.refl _, le_refl _⟩
  | .string s, w, h => by rw [mem_singleton.mp h]; exact ⟨List.Subset.refl _, le_refl _⟩
  | .bigint z, w, h => by rw [mem_singleton.mp h]; exact ⟨List.Subset.refl _, le_refl _⟩
  | .buffer l, w, h => by rw [mem_singleton.mp h]; exact ⟨List.Subset.refl _, le_refl _⟩
  | .view u, w, h => by rw [mem_singleton.mp h]; exact ⟨List.Subset.refl _, le_refl _⟩
  | .array l, w, h => by
    rcases mem_cons.mp h with rfl | hw
    · exact ⟨List.Subset.refl _, le_refl _⟩
    · obtain ⟨hsub, hle⟩ := parts_subset_items hw
      exact ⟨fun u hu => mem_cons_of_mem _ (hsub hu), by rw [size]; omega⟩
  | .object es, w, h => by
    rcases mem_cons.mp h with rfl | hw
    · exact ⟨List.Subset.refl _, le_refl _⟩
    · obtain ⟨hsub, hle⟩ := parts_subset_entries hw
      exact ⟨fun u hu => mem_cons_of_mem _ (hsub hu), by rw [size]; omega⟩

theorem parts_subset_items : ∀ {l : List Value} {w : Value}, w ∈ partsOfItems l →
    parts w ⊆ partsOfItems l ∧ size w ≤ sizeOfItems l
  | [], _, h => absurd h not_mem_nil
  | v :: l, w, h => by
    rw [sizeOfItems]
    rcases mem_append.mp h with hv | hl
    · obtain ⟨hsub, hle⟩ := parts_subset hv
      exact ⟨fun u hu => mem_append_left _ (hsub hu), by omega⟩
    · obtain ⟨hsub, hle⟩ := parts_subset_items hl
      exact ⟨fun u hu => mem_append_right _ (hsub hu), by omega⟩

theorem parts_subset_entries : ∀ {es : List (Str × Value)} {w : Value}, w ∈ partsOfEntries es →
    parts w ⊆ partsOfEntries es ∧ size w ≤ sizeOfEntries es
  | [], _, h => absurd h not_mem_nil
  | (k, v) :: es, w, h => by
    rw [sizeOfEntries]
    rcases mem_append.mp h with hv | hes
    · obtain ⟨hsub, hle⟩ := parts_subset hv
      exact ⟨fun u hu => mem_append_left _ (hsub hu), by omega⟩
    · obtain ⟨hsub, hle⟩ := parts_subset_entries hes
      exact ⟨fun u hu => mem_append_right _ (hsub hu), by omega⟩

end

/-- `encode` returns the bytes of one msgpack value, which is the one that was meant. -/
def DecodesBack (v : Value) : Prop :=
  ∃ l, encode v = .ok l ∧ Msgpack.decodeAll l = some (meaning v)

/-- The values that can be written: no larger than a chunk may be, and exact in every part. -/
def Encodable (v : Value) : Prop := size v ≤ MAX_SIZE ∧ ∀ w ∈ parts v, isExact w = true

theorem decodesBack_iff_of_views {v : Value} (h : viewsAreBytes v) :
    DecodesBack v ↔ Encodable v := by
  have hadds := adds_writeValue v h []
  rw [Encodable, ← received_eq_meaning_iff v h]
  by_cases hfit : size v ≤ MAX_SIZE
  · obtain ⟨l, hl, -, hreads⟩ := hadds.1 (by rw [length_nil]; omega)
    constructor
    · rintro ⟨l', hl', hdec⟩
      obtain rfl : l = l' := Except.ok.inj (hl.symm.trans hl')
      rw [decodeAll_of_reads hreads, Option.some_inj] at hdec
      exact ⟨hfit, hdec⟩
    · rintro ⟨-, heq⟩
      refine ⟨l, hl, ?_⟩
      rw [decodeAll_of_reads hreads, heq]
  · constructor
    · rintro ⟨l, hl, -⟩
      obtain ⟨e, he⟩ := hadds.2 (Nat.zero_le _) (by omega)
      rw [encode, he] at hl
      cases hl
    · rintro ⟨hle, -⟩
      exact absurd hle hfit

/-- **What `encode` writes comes back**, of a value and of all it holds, exactly where the value is
not too large and holds no integer beyond 64 bits, no lone surrogate and no view of elements wider
than a byte.  For a value all of whose views are of bytes the same is true of the value alone. -/
theorem encode_iff (v : Value) : ((∀ w ∈ parts v, DecodesBack w) ↔ Encodable v) ∧
      (viewsAreBytes v → (DecodesBack v ↔ Encodable v)) := by
  refine ⟨⟨fun hall => ?_, fun henc w hw => ?_⟩, decodesBack_iff_of_views⟩
  · -- a view of wider elements is itself a part, and does not come back
    have hviews : viewsAreBytes v := by
      intro w hw
      by_contra hne
      obtain ⟨l, hl, hdec⟩ := hall _ hw
      rw [decodeAll_of_writeBin (not_eq_true _ ▸ hne) hl] at hdec
      cases hdec
    exact (decodesBack_iff_of_views hviews).mp (hall v (self_mem_parts v))
  · obtain ⟨hsub, hle⟩ := parts_subset hw
    have henc' : Encodable w := ⟨hle.trans henc.1, fun u hu => henc.2 u (hsub hu)⟩
    have hviews : viewsAreBytes w := fun u hu => henc'.2 _ hu
    exact (decodesBack_iff_of_views hviews).mpr henc'

/-- A `Uint16Array` of the number one. -/
def uint16One : Value := .view (.typed .uint16 [1, 0] (by decide))

/-- Two bytes are announced and one is written. -/
theorem not_decodesBack : encode uint16One = .ok [0xC4, 2, 1] ∧ ¬ DecodesBack uint16One := by
  refine ⟨by decide, ?_⟩
  rintro ⟨l, hl, hdec⟩
  rw [decodeAll_of_writeBin rfl hl] at hdec
  cases hdec

end DdTrace.MsgpackEncode
