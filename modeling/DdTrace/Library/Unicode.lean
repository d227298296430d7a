import DdTrace.Library.Bytes

/-!
# Code points, UTF-16 and UTF-8

A string of UTF-16 code units as a list of code points, and the bytes that stand for it.  A lone
surrogate is a code point of its own, which no encoding form of Unicode has a place for; a string
without one is well formed.

* `units_chars`: every string is the code units of its code points.
* `decodeUtf8`: the strict decoder, one byte after the other; `decodeLossy`, which puts U+FFFD
  where bytes cannot be continued.
* `encodeUtf8_of_ascii`, `decodeLossy_of_ascii`: a string of ASCII characters, byte for byte.
* `toWellFormed`: a string with U+FFFD for its lone surrogates, which is what the bytes of any
  string are read as.
-/

namespace Library.Unicode

open List Bool

/-! ## Code points -/

def isHigh (u : UInt16) : Bool := 0xD800 ≤ u.toNat && u.toNat < 0xDC00

def isLow (u : UInt16) : Bool := 0xDC00 ≤ u.toNat && u.toNat < 0xE000

/-- The code points of a string, lone surrogates among them. -/
def chars : Str → List ℕ
  | [] => []
  | [u] => [u.toNat]
  | u :: w :: s =>
    if isHigh u && isLow w then
      (0x10000 + (u.toNat - 0xD800) * 0x400 + (w.toNat - 0xDC00)) :: chars s
    else u.toNat :: chars (w :: s)

/-- The code units of a code point. -/
def units (c : ℕ) : Str :=
  if c < 0x10000 then [c.toUInt16]
  else [((c - 0x10000) / 0x400 + 0xD800).toUInt16, ((c - 0x10000) % 0x400 + 0xDC00).toUInt16]

/-- A code point that is no surrogate. -/
def isScalar (c : ℕ) : Bool := c < 0xD800 || 0xE000 ≤ c && c < 0x110000

/-- `isWellFormed`: no lone surrogate. -/
def isWellFormed (s : Str) : Bool := (chars s).all isScalar

theorem toUInt16_toNat (u : UInt16) : u.toNat.toUInt16 = u := by
  apply UInt16.toNat_inj.mp
  exact Nat.mod_eq_of_lt u.toNat_lt

theorem toNat_toUInt16 {n : ℕ} (h : n < 0x10000) : n.toUInt16.toNat = n := Nat.mod_eq_of_lt h

theorem units_of_unit (u : UInt16) : units u.toNat = [u] := by
  rw [units, if_pos u.toNat_lt, toUInt16_toNat]

theorem units_of_pair {u w : UInt16} (hu : isHigh u = true) (hw : isLow w = true) :
    units (0x10000 + (u.toNat - 0xD800) * 0x400 + (w.toNat - 0xDC00)) = [u, w] := by
  simp only [isHigh, isLow, and_eq_true, decide_eq_true_eq] at hu hw
  have hhigh : (0x10000 + (u.toNat - 0xD800) * 0x400 + (w.toNat - 0xDC00) - 0x10000) / 0x400 +
      0xD800 = u.toNat := by omega
  have hlow : (0x10000 + (u.toNat - 0xD800) * 0x400 + (w.toNat - 0xDC00) - 0x10000) % 0x400 +
      0xDC00 = w.toNat := by omega
  rw [units, if_neg (by omega), hhigh, hlow, toUInt16_toNat, toUInt16_toNat]

/-- **A string is the code units of its code points.** -/
theorem units_chars (s : Str) : (chars s).flatMap units = s := by
  induction s using chars.induct with
  | case1 => rfl
  | case2 u => rw [chars, flatMap_cons, units_of_unit, flatMap_nil, append_nil]
  | case3 u w s hpair ih =>
    rw [and_eq_true] at hpair
    rw [chars, if_pos (by rw [hpair.1, hpair.2]; rfl), flatMap_cons, ih,
      units_of_pair hpair.1 hpair.2]
    rfl
  | case4 u w s hpair ih =>
    rw [chars, if_neg hpair, flatMap_cons, ih, units_of_unit]
    rfl

variable {s : Str}

/-- Where a string does not end in the first half of a pair, what follows is read on its own. -/
theorem chars_append (h : ∀ u ∈ s.getLast?, isHigh u = false) (t : Str) :
    chars (s ++ t) = chars s ++ chars t := by
  induction s using chars.induct with
  | case1 => rfl
  | case2 u =>
    have hu : isHigh u = false := h u rfl
    cases t with
    | nil => rfl
    | cons w t =>
      show chars (u :: w :: t) = [u.toNat] ++ chars (w :: t)
      rw [chars, hu, Bool.false_and, if_neg Bool.false_ne_true, singleton_append]
  | case3 u w s hpair ih =>
    have hs : ∀ v ∈ s.getLast?, isHigh v = false := by
      intro v hv
      cases s with
      | nil => cases hv
      | cons x s => exact h v (by rwa [getLast?_cons_cons, getLast?_cons_cons])
    show chars (u :: w :: (s ++ t)) = _
    rw [chars, if_pos hpair, chars, if_pos hpair, ih hs, cons_append]
  | case4 u w s hpair ih =>
    have hs : ∀ v ∈ (w :: s).getLast?, isHigh v = false := fun v hv =>
      h v (by rwa [getLast?_cons_cons])
    show chars (u :: w :: (s ++ t)) = _
    rw [chars, if_neg hpair, chars, if_neg hpair, cons_append, ← ih hs, cons_append]

/-! ## UTF-8 -/

/-- The bytes of a code point. -/
def utf8Char (c : ℕ) : List UInt8 :=
  if c < 0x80 then [c.toUInt8]
  else if c < 0x800 then [(0xC0 + c / 64).toUInt8, (0x80 + c % 64).toUInt8]
  else if c < 0x10000 then
    [(0xE0 + c / 4096).toUInt8, (0x80 + c / 64 % 64).toUInt8, (0x80 + c % 64).toUInt8]
  else
    [(0xF0 + c / 262144).toUInt8, (0x80 + c / 4096 % 64).toUInt8, (0x80 + c / 64 % 64).toUInt8,
      (0x80 + c % 64).toUInt8]

/-- U+FFFD. -/
def replacement : ℕ := 0xFFFD

/-- The bytes of a string, with U+FFFD for each lone surrogate. -/
def encodeUtf8 (s : Str) : List UInt8 :=
  (chars s).flatMap fun c => utf8Char (if isScalar c then c else replacement)

theorem encodeUtf8_append (h : ∀ u ∈ s.getLast?, isHigh u = false) (t : Str) :
    encodeUtf8 (s ++ t) = encodeUtf8 s ++ encodeUtf8 t := by
  rw [encodeUtf8, chars_append h, flatMap_append]
  rfl

/-- `Buffer.byteLength`. -/
def byteLength (s : Str) : ℕ := (encodeUtf8 s).length

theorem byteLength_append (h : ∀ u ∈ s.getLast?, isHigh u = false) (t : Str) :
    byteLength (s ++ t) = byteLength s + byteLength t := by
  rw [byteLength, encodeUtf8_append h, length_append]
  rfl

theorem utf8Char_ne_nil (c : ℕ) : utf8Char c ≠ [] := by
  unfold utf8Char
  split_ifs <;> exact cons_ne_nil _ _

/-- A code point has no more code units than bytes. -/
theorem length_units_le (c : ℕ) :
    (units c).length ≤ (utf8Char (if isScalar c then c else replacement)).length := by
  unfold units utf8Char
  by_cases hc : isScalar c = true
  · split_ifs <;> simp
    all_goals omega
  · rw [replacement]
    split_ifs <;> simp
    all_goals omega

/-- **A string has no more code units than bytes.** -/
theorem length_le_byteLength (s : Str) : s.length ≤ byteLength s := by
  have hle : ∀ cs : List ℕ, (cs.flatMap units).length ≤
      (cs.flatMap fun c => utf8Char (if isScalar c then c else replacement)).length := by
    intro cs
    induction cs with
    | nil => exact Nat.le_refl 0
    | cons c cs ih =>
      rw [flatMap_cons, flatMap_cons, length_append, length_append]
      exact Nat.add_le_add (length_units_le c) ih
  have h := hle (chars s)
  rwa [units_chars] at h

/-- Only the empty string has no bytes. -/
theorem byteLength_pos (h : s ≠ []) : 0 < byteLength s := by
  have hpos : ∀ c cs, 0 < ((c :: cs).flatMap fun c : ℕ =>
      utf8Char (if isScalar c then c else replacement)).length := by
    intro c cs
    rw [flatMap_cons, length_append]
    exact Nat.add_pos_left (length_pos_iff.mpr (utf8Char_ne_nil _)) _
  rw [byteLength, encodeUtf8]
  cases s using chars.induct with
  | case1 => exact absurd rfl h
  | case2 u => exact hpos _ _
  | case3 u w s hpair _ =>
    rw [chars, if_pos hpair]
    exact hpos _ _
  | case4 u w s hpair _ =>
    rw [chars, if_neg hpair]
    exact hpos _ _

/-- A code point that is not complete: how many bytes it lacks, the range of the next one, and the
bits of the ones that were read. -/
structure Pending where
  need : ℕ
  lower : ℕ
  upper : ℕ
  acc : ℕ

/-- What the first byte of a code point says. -/
inductive Lead where
  | char (c : ℕ)
  | more (p : Pending)
  | invalid

def lead (b : UInt8) : Lead :=
  let n := b.toNat
  if n < 0x80 then .char n
  else if n < 0xC2 then .invalid
  else if n < 0xE0 then .more ⟨1, 0x80, 0xBF, n - 0xC0⟩
  else if n < 0xF0 then
    .more ⟨2, if n = 0xE0 then 0xA0 else 0x80, if n = 0xED then 0x9F else 0xBF, n - 0xE0⟩
  else if n < 0xF5 then
    .more ⟨3, if n = 0xF0 then 0x90 else 0x80, if n = 0xF4 then 0x8F else 0xBF, n - 0xF0⟩
  else .invalid

/-- The byte continues the code point. -/
def Pending.accepts (p : Pending) (b : UInt8) : Bool :=
  p.lower ≤ b.toNat && b.toNat ≤ p.upper

/-- The code point with one more byte. -/
def Pending.next (p : Pending) (b : UInt8) : Lead :=
  let acc := p.acc * 64 + b.toNat % 64
  if p.need ≤ 1 then .char acc else .more ⟨p.need - 1, 0x80, 0xBF, acc⟩

/-- The code points of bytes, when all of them belong to one. -/
def decodeStrict : Option Pending → List UInt8 → Option (List ℕ)
  | none, [] => some []
  | some _, [] => none
  | none, b :: l =>
    match lead b with
    | .char c => (decodeStrict none l).map (c :: ·)
    | .more p => decodeStrict (some p) l
    | .invalid => none
  | some p, b :: l =>
    if p.accepts b then
      match p.next b with
      | .char c => (decodeStrict none l).map (c :: ·)
      | .more q => decodeStrict (some q) l
      | .invalid => none
    else none

/-- The strict decoder. -/
def decodeUtf8 (l : List UInt8) : Option Str := (decodeStrict none l).map (List.flatMap units)

/-- The code points of bytes, with U+FFFD for every longest part that no code point starts with. -/
def decodeReplacing : Option Pending → List UInt8 → List ℕ
  | none, [] => []
  | some _, [] => [replacement]
  | none, b :: l =>
    match lead b with
    | .char c => c :: decodeReplacing none l
    | .more p => decodeReplacing (some p) l
    | .invalid => replacement :: decodeReplacing none l
  | some p, b :: l =>
    if p.accepts b then
      match p.next b with
      | .char c => c :: decodeReplacing none l
      | .more q => decodeReplacing (some q) l
      | .invalid => replacement :: decodeReplacing none l
    else
      -- the byte may start the next code point
      match lead b with
      | .char c => replacement :: c :: decodeReplacing none l
      | .more q => replacement :: decodeReplacing (some q) l
      | .invalid => replacement :: replacement :: decodeReplacing none l

/-- The decoder of `Buffer.prototype.toString`. -/
def decodeLossy (l : List UInt8) : Str := (decodeReplacing none l).flatMap units

theorem toNat_toUInt8 {n : ℕ} (h : n < 256) : n.toUInt8.toNat = n := Nat.mod_eq_of_lt h

theorem decodeStrict_lead {b : UInt8} {p : Pending} (h : lead b = .more p) (l : List UInt8) :
    decodeStrict none (b :: l) = decodeStrict (some p) l := by
  rw [decodeStrict, h]

/-- A byte between the first and the last of a code point. -/
theorem decodeStrict_more {p : Pending} {b : UInt8} (hneed : 1 < p.need)
    (hb : p.lower ≤ b.toNat ∧ b.toNat ≤ p.upper) (l : List UInt8) :
    decodeStrict (some p) (b :: l) =
      decodeStrict (some ⟨p.need - 1, 0x80, 0xBF, p.acc * 64 + b.toNat % 64⟩) l := by
  rw [decodeStrict, Pending.accepts, if_pos (by simpa using hb), Pending.next, if_neg (by omega)]

/-- The last byte of a code point. -/
theorem decodeStrict_last {p : Pending} {b : UInt8} (hneed : p.need ≤ 1)
    (hb : p.lower ≤ b.toNat ∧ b.toNat ≤ p.upper) (l : List UInt8) :
    decodeStrict (some p) (b :: l) =
      (decodeStrict none l).map ((p.acc * 64 + b.toNat % 64) :: ·) := by
  rw [decodeStrict, Pending.accepts, if_pos (by simpa using hb), Pending.next, if_pos hneed]

/-- **The bytes of a code point are read back**, whatever follows them. -/
theorem decodeStrict_utf8Char {c : ℕ} (hc : isScalar c = true) (l : List UInt8) :
    decodeStrict none (utf8Char c ++ l) = (decodeStrict none l).map (c :: ·) := by
  simp only [isScalar, or_eq_true, and_eq_true, decide_eq_true_eq] at hc
  unfold utf8Char
  by_cases h1 : c < 0x80
  · have hb : c.toUInt8.toNat = c := toNat_toUInt8 (by omega)
    have hlead : lead c.toUInt8 = .char c := by
      simp only [lead, hb]
      rw [if_pos h1]
    rw [if_pos h1, singleton_append, decodeStrict, hlead]
  rw [if_neg h1]
  have hlast : (0x80 + c % 64).toUInt8.toNat = 0x80 + c % 64 := toNat_toUInt8 (by omega)
  by_cases h2 : c < 0x800
  · have hb : (0xC0 + c / 64).toUInt8.toNat = 0xC0 + c / 64 := toNat_toUInt8 (by omega)
    have hlead : lead (0xC0 + c / 64).toUInt8 = .more ⟨1, 0x80, 0xBF, c / 64⟩ := by
      simp only [lead, hb]
      rw [if_neg (by omega), if_neg (by omega), if_pos (by omega), Nat.add_sub_cancel_left]
    have hacc : c / 64 * 64 + (0x80 + c % 64) % 64 = c := by omega
    rw [if_pos h2, cons_append, decodeStrict_lead hlead, singleton_append,
      decodeStrict_last (le_refl 1) (by constructor <;> dsimp only <;> omega), hlast,
      hacc]
  rw [if_neg h2]
  have hmiddle : (0x80 + c / 64 % 64).toUInt8.toNat = 0x80 + c / 64 % 64 :=
    toNat_toUInt8 (by omega)
  by_cases h3 : c < 0x10000
  · have hb : (0xE0 + c / 4096).toUInt8.toNat = 0xE0 + c / 4096 := toNat_toUInt8 (by omega)
    have hlead : lead (0xE0 + c / 4096).toUInt8 =
        .more ⟨2, if 0xE0 + c / 4096 = 0xE0 then 0xA0 else 0x80,
          if 0xE0 + c / 4096 = 0xED then 0x9F else 0xBF, c / 4096⟩ := by
      simp only [lead, hb]
      rw [if_neg (by omega), if_neg (by omega), if_neg (by omega), if_pos (by omega),
        Nat.add_sub_cancel_left]
    have hacc : (c / 4096 * 64 + (0x80 + c / 64 % 64) % 64) * 64 + (0x80 + c % 64) % 64 = c := by
      omega
    rw [if_pos h3, cons_append, decodeStrict_lead hlead, cons_append,
      decodeStrict_more (by dsimp only; omega) (by dsimp only; constructor <;> split <;> omega),
      singleton_append,
      decodeStrict_last (by dsimp only; omega)
        (by constructor <;> dsimp only <;> omega), hmiddle, hlast]
    rw [hacc]
  rw [if_neg h3]
  have hsecond : (0x80 + c / 4096 % 64).toUInt8.toNat = 0x80 + c / 4096 % 64 :=
    toNat_toUInt8 (by omega)
  have hb : (0xF0 + c / 262144).toUInt8.toNat = 0xF0 + c / 262144 := toNat_toUInt8 (by omega)
  have hlead : lead (0xF0 + c / 262144).toUInt8 =
      .more ⟨3, if 0xF0 + c / 262144 = 0xF0 then 0x90 else 0x80,
        if 0xF0 + c / 262144 = 0xF4 then 0x8F else 0xBF, c / 262144⟩ := by
    simp only [lead, hb]
    rw [if_neg (by omega), if_neg (by omega), if_neg (by omega), if_neg (by omega),
      if_pos (by omega), Nat.add_sub_cancel_left]
  have hacc : ((c / 262144 * 64 + (0x80 + c / 4096 % 64) % 64) * 64 +
      (0x80 + c / 64 % 64) % 64) * 64 + (0x80 + c % 64) % 64 = c := by
    omega
  rw [cons_append, decodeStrict_lead hlead, cons_append, decodeStrict_more (by dsimp only; omega)
      (by dsimp only; constructor <;> split <;> omega),
    cons_append,
    decodeStrict_more (by dsimp only; omega) (by constructor <;> dsimp only <;> omega),
    singleton_append,
    decodeStrict_last (by dsimp only; omega)
      (by constructor <;> dsimp only <;> omega), hsecond, hmiddle, hlast]
  rw [hacc]

/-- The bytes of code points are read back. -/
theorem decodeStrict_flatMap {l : List ℕ} (h : ∀ c ∈ l, isScalar c = true) :
    decodeStrict none (l.flatMap utf8Char) = some l := by
  induction l with
  | nil => rfl
  | cons c l ih =>
    rw [flatMap_cons, decodeStrict_utf8Char (h c mem_cons_self),
      ih (forall_mem_cons.mp h).2]
    rfl

theorem isScalar_of_isWellFormed (h : isWellFormed s = true) :
    ∀ c ∈ chars s, isScalar c = true := all_eq_true.mp h

/-! ## Lone surrogates replaced -/

/-- `toWellFormed`: U+FFFD for each lone surrogate. -/
def toWellFormed (s : Str) : Str :=
  (chars s).flatMap fun c => units (if isScalar c then c else replacement)

theorem isScalar_replacement : isScalar replacement = true := by decide

theorem isScalar_ite (c : ℕ) : isScalar (if isScalar c then c else replacement) = true := by
  split
  · assumption
  · exact isScalar_replacement

/-- The code units of a code point that is no surrogate are read as that code point. -/
theorem chars_units_append {c : ℕ} (h : isScalar c = true) (s : Str) :
    chars (units c ++ s) = c :: chars s := by
  simp only [isScalar, or_eq_true, and_eq_true, decide_eq_true_eq] at h
  unfold units
  by_cases hc : c < 0x10000
  · have hval : c.toUInt16.toNat = c := toNat_toUInt16 hc
    have hhigh : isHigh c.toUInt16 = false := by
      rw [isHigh, and_eq_false_iff, decide_eq_false_iff_not, decide_eq_false_iff_not]
      omega
    rw [if_pos hc, singleton_append]
    cases s with
    | nil =>
      show [c.toUInt16.toNat] = [c]
      rw [hval]
    | cons w s => rw [chars, hhigh, Bool.false_and, if_neg Bool.false_ne_true, hval]
  · have hu : ((c - 0x10000) / 0x400 + 0xD800).toUInt16.toNat = (c - 0x10000) / 0x400 + 0xD800 :=
      toNat_toUInt16 (by omega)
    have hw : ((c - 0x10000) % 0x400 + 0xDC00).toUInt16.toNat = (c - 0x10000) % 0x400 + 0xDC00 :=
      toNat_toUInt16 (by omega)
    have hhigh : isHigh ((c - 0x10000) / 0x400 + 0xD800).toUInt16 = true := by
      rw [isHigh, and_eq_true, decide_eq_true_eq, decide_eq_true_eq]
      omega
    have hlow : isLow ((c - 0x10000) % 0x400 + 0xDC00).toUInt16 = true := by
      rw [isLow, and_eq_true, decide_eq_true_eq, decide_eq_true_eq]
      omega
    have hsum : 0x10000 + ((c - 0x10000) / 0x400 + 0xD800 - 0xD800) * 0x400 +
        ((c - 0x10000) % 0x400 + 0xDC00 - 0xDC00) = c := by omega
    rw [if_neg hc]
    show chars (_ :: _ :: s) = _
    rw [chars, hhigh, hlow, Bool.and_self, if_pos rfl, hu, hw, hsum]

theorem chars_flatMap_units {l : List ℕ} (h : ∀ c ∈ l, isScalar c = true) :
    chars (l.flatMap units) = l := by
  induction l with
  | nil => rfl
  | cons c l ih =>
    rw [flatMap_cons, chars_units_append (h c mem_cons_self),
      ih (forall_mem_cons.mp h).2]

/-- **The bytes of any string** are read as the string with its lone surrogates replaced. -/
theorem decodeUtf8_encodeUtf8_eq (s : Str) : decodeUtf8 (encodeUtf8 s) = some (toWellFormed s) := by
  have hmap : encodeUtf8 s =
      ((chars s).map fun c => if isScalar c then c else replacement).flatMap utf8Char := by
    rw [encodeUtf8, flatMap_map]
  have hscalar : ∀ c ∈ (chars s).map fun c => if isScalar c then c else replacement,
      isScalar c = true := by
    intro c hc
    obtain ⟨d, _, rfl⟩ := mem_map.mp hc
    exact isScalar_ite d
  rw [hmap, decodeUtf8, decodeStrict_flatMap hscalar, Option.map_some, flatMap_map, toWellFormed]

/-- What is left of a string is well formed, and all of it where it was well formed before. -/
theorem toWellFormed_eq_self_iff : toWellFormed s = s ↔ isWellFormed s = true := by
  constructor
  · intro h
    have hchars : chars s = (chars s).map fun c => if isScalar c then c else replacement := by
      have hflat : s = ((chars s).map fun c =>
          if isScalar c then c else replacement).flatMap units := by
        rw [flatMap_map]
        exact h.symm
      conv_lhs => rw [hflat]
      refine chars_flatMap_units fun c hc => ?_
      obtain ⟨d, _, rfl⟩ := mem_map.mp hc
      exact isScalar_ite d
    rw [isWellFormed, hchars, all_eq_true]
    intro c hc
    obtain ⟨d, _, rfl⟩ := mem_map.mp hc
    exact isScalar_ite d
  · intro h
    conv_rhs => rw [← units_chars s]
    refine flatMap_congr fun c hc => ?_
    rw [if_pos (isScalar_of_isWellFormed h c hc)]

/-- A text in which no surrogate had to be replaced is the string itself. -/
theorem toWellFormed_eq_self_of_notMem (h : replacement.toUInt16 ∉ toWellFormed s) :
    toWellFormed s = s := by
  rw [toWellFormed_eq_self_iff, isWellFormed, all_eq_true]
  intro c hc
  by_contra hscalar
  refine h (mem_flatMap.mpr ⟨c, hc, ?_⟩)
  rw [if_neg hscalar]
  exact mem_singleton_self _

/-- Two strings are told apart if the text of one of them has no replacement in it. -/
theorem eq_of_toWellFormed_eq {t : Str} (h : toWellFormed s = t)
    (ht : replacement.toUInt16 ∉ t) : s = t := by
  rw [← h] at ht
  exact (toWellFormed_eq_self_of_notMem ht).symm.trans h

/-! ## ASCII -/

/-- Every character is one byte. -/
def IsAscii (s : Str) : Prop := ∀ u ∈ s, u.toNat < 0x80

theorem encodeUtf8_of_ascii (h : IsAscii s) :
    encodeUtf8 s = s.map fun u => u.toNat.toUInt8 := by
  induction s with
  | nil => rfl
  | cons u s ih =>
    have hu : u.toNat < 0x80 := h u mem_cons_self
    have hlast : ∀ v ∈ [u].getLast?, isHigh v = false := by
      intro v hv
      obtain rfl : u = v := Option.some.inj hv
      simp only [isHigh, and_eq_false_iff, decide_eq_false_iff_not]
      omega
    have hone : encodeUtf8 [u] = [u.toNat.toUInt8] := by
      have hscalar : isScalar u.toNat = true := by
        simp only [isScalar, or_eq_true, decide_eq_true_eq]
        omega
      rw [encodeUtf8, chars, flatMap_singleton, if_pos hscalar, utf8Char, if_pos hu]
    rw [← singleton_append, encodeUtf8_append hlast, hone,
      ih (forall_mem_cons.mp h).2]
    rfl

theorem decodeLossy_of_ascii (h : IsAscii s) :
    decodeLossy (s.map fun u => u.toNat.toUInt8) = s := by
  unfold decodeLossy
  induction s with
  | nil => rfl
  | cons u s ih =>
    have hu : u.toNat < 0x80 := h u mem_cons_self
    have hlead : lead u.toNat.toUInt8 = .char u.toNat := by
      rw [lead, toNat_toUInt8 (by omega)]
      exact if_pos hu
    rw [map_cons, decodeReplacing, hlead]
    rw [flatMap_cons, ih (forall_mem_cons.mp h).2, units_of_unit]
    rfl

end Library.Unicode
