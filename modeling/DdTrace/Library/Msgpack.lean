import DdTrace.Library.Binary64
import DdTrace.Library.Unicode

/-!
# MessagePack

The values of the format and a reader for it.  A value starts with one byte, its head, which is
either the whole value, or says how many bytes a number takes that follows; the number is a value, or
the length of a string or of a byte string, or the number of the elements or entries to come.

The reader takes a bound on the nesting.  No bytes can nest deeper than they are long, so that
`decodeAll` bounds it by the length.  It knows every form but single-precision floats and
extension types.

What a writer has to show is `Reads v l`: wherever the bytes `l` stand, the reader takes them for
`v` and stops behind them.  The rules below build it from the inside out.

* `isHead_of_format`, `isHead_fixmap` and the like: the heads, one rule for all that are followed by
  a number.
* `reads_leaf`, `reads_str`, `reads_bin`, `reads_array`, `reads_map`: a value from its head and the
  bytes behind it.
* `parsesAll_cons`, `parsesAll_append`: elements or entries, one after another.
* `decodeAll_of_reads`: bytes that `Reads` holds for are that one value.
-/

namespace Library

open List Option

inductive Msgpack where
  | nil
  | bool (b : Bool)
  | int (z : ℤ)
  | float (d : Binary64)
  | str (s : Str)
  | bin (l : List UInt8)
  | array (l : List Msgpack)
  | map (l : List (Msgpack × Msgpack))

namespace Msgpack

/-! ## The reader -/

/-- What the first byte of a value and the number behind it say. -/
inductive Head where
  | leaf (v : Msgpack)
  | str (n : ℕ)
  | bin (n : ℕ)
  | array (n : ℕ)
  | map (n : ℕ)

/-- The next `n` bytes. -/
def bytes (n : ℕ) (l : List UInt8) : Option (List UInt8 × List UInt8) :=
  if n ≤ l.length then some (l.take n, l.drop n) else none

/-- The next `w` bytes as a number. -/
def number (w : ℕ) (l : List UInt8) : Option (ℕ × List UInt8) :=
  (bytes w l).map fun x => (Bytes.ofBytes x.1, x.2)

/-- The heads that a number of a fixed width follows, with that width and the use of the number. -/
def format (b : UInt8) : Option (ℕ × (ℕ → Head)) :=
  match b.toNat with
  | 0xC0 => some (0, fun _ => .leaf .nil)
  | 0xC2 => some (0, fun _ => .leaf (.bool false))
  | 0xC3 => some (0, fun _ => .leaf (.bool true))
  | 0xC4 => some (1, .bin)
  | 0xC5 => some (2, .bin)
  | 0xC6 => some (4, .bin)
  | 0xCB => some (8, fun n => .leaf (.float (Binary64.ofBits n)))
  | 0xCC => some (1, fun n => .leaf (.int n))
  | 0xCD => some (2, fun n => .leaf (.int n))
  | 0xCE => some (4, fun n => .leaf (.int n))
  | 0xCF => some (8, fun n => .leaf (.int n))
  | 0xD0 => some (1, fun n => .leaf (.int ((n : ℤ).bmod (2 ^ 8))))
  | 0xD1 => some (2, fun n => .leaf (.int ((n : ℤ).bmod (2 ^ 16))))
  | 0xD2 => some (4, fun n => .leaf (.int ((n : ℤ).bmod (2 ^ 32))))
  | 0xD3 => some (8, fun n => .leaf (.int ((n : ℤ).bmod (2 ^ 64))))
  | 0xD9 => some (1, .str)
  | 0xDA => some (2, .str)
  | 0xDB => some (4, .str)
  | 0xDC => some (2, .array)
  | 0xDD => some (4, .array)
  | 0xDE => some (2, .map)
  | 0xDF => some (4, .map)
  | _ => none

def readHead : List UInt8 → Option (Head × List UInt8)
  | [] => none
  | b :: l =>
    if b.toNat < 0x80 then some (.leaf (.int b.toNat), l)
    else if b.toNat < 0x90 then some (.map (b.toNat - 0x80), l)
    else if b.toNat < 0xA0 then some (.array (b.toNat - 0x90), l)
    else if b.toNat < 0xC0 then some (.str (b.toNat - 0xA0), l)
    else if 0xE0 ≤ b.toNat then some (.leaf (.int (b.toNat - 0x100)), l)
    else (format b).bind fun x => (number x.1 l).map fun y => (x.2 y.1, y.2)

section Times

variable {α : Type*}

/-- A reader applied `n` times. -/
def times (p : List UInt8 → Option (α × List UInt8)) : ℕ → List UInt8 → Option (List α × List UInt8)
  | 0, l => some ([], l)
  | n + 1, l => (p l).bind fun x => (times p n x.2).map fun y => (x.1 :: y.1, y.2)

/-- A reader applied to a key and then to a value. -/
def pair (p : List UInt8 → Option (α × List UInt8)) (l : List UInt8) :
    Option ((α × α) × List UInt8) :=
  (p l).bind fun x => (p x.2).map fun y => ((x.1, y.1), y.2)

end Times

/-- The value that bytes start with, nested at most so deep, and the bytes behind it. -/
def decode : ℕ → List UInt8 → Option (Msgpack × List UInt8)
  | 0, _ => none
  | f + 1, l =>
    match readHead l with
    | none => none
    | some (.leaf v, r) => some (v, r)
    | some (.str n, r) =>
      (bytes n r).bind fun x => (Unicode.decodeUtf8 x.1).map fun s => (.str s, x.2)
    | some (.bin n, r) => (bytes n r).map fun x => (.bin x.1, x.2)
    | some (.array n, r) => (times (decode f) n r).map fun x => (.array x.1, x.2)
    | some (.map n, r) => (times (pair (decode f)) n r).map fun x => (.map x.1, x.2)

/-- The value that bytes are, with nothing behind it. -/
def decodeAll (l : List UInt8) : Option Msgpack :=
  match decode l.length l with
  | some (v, []) => some v
  | _ => none

/-! ## Parsers that stop where a writer did -/

section Parses

variable {α : Type*} {p : ℕ → List UInt8 → Option (α × List UInt8)}

/-- Whatever follows the bytes `l`, the parser takes them for `x` and leaves the rest, if only its
bound is no less than their length. -/
def Parses (p : ℕ → List UInt8 → Option (α × List UInt8)) (x : α) (l : List UInt8) : Prop :=
  ∀ f, l.length ≤ f → ∀ r, p f (l ++ r) = some (x, r)

/-- The same for as many values as there are in a list. -/
def ParsesAll (p : ℕ → List UInt8 → Option (α × List UInt8)) (xs : List α) (l : List UInt8) :
    Prop :=
  ∀ f, l.length ≤ f → ∀ r, times (p f) xs.length (l ++ r) = some (xs, r)

theorem parsesAll_nil : ParsesAll p [] [] := fun _ _ _ => rfl

theorem parsesAll_cons {x : α} {xs : List α} {l m : List UInt8} (hx : Parses p x l)
    (hxs : ParsesAll p xs m) : ParsesAll p (x :: xs) (l ++ m) := by
  intro f hf r
  rw [length_append] at hf
  rw [append_assoc, length_cons, times, hx f (by omega), bind_some, hxs f (by omega)]
  rfl

theorem parsesAll_append {xs ys : List α} {l m : List UInt8} (hxs : ParsesAll p xs l)
    (hys : ParsesAll p ys m) : ParsesAll p (xs ++ ys) (l ++ m) := by
  have happend : ∀ (q : List UInt8 → Option (α × List UInt8)) (n k : ℕ) (t u : List UInt8)
      (zs : List α), times q n t = some (zs, u) →
        times q (n + k) t = (times q k u).map fun y => (zs ++ y.1, y.2) := by
    intro q n k
    induction n with
    | zero =>
      intro t u zs h
      obtain ⟨rfl, rfl⟩ := h
      simp
    | succ n ih =>
      intro t u zs h
      rw [times, bind_eq_some_iff] at h
      obtain ⟨x, hx, h⟩ := h
      rw [map_eq_some_iff] at h
      obtain ⟨⟨ws, v⟩, hws, h⟩ := h
      obtain ⟨rfl, rfl⟩ := h
      rw [Nat.succ_add, times, hx, bind_some, ih _ _ _ hws, Option.map_map]
      rfl
  intro f hf r
  rw [length_append] at hf
  rw [length_append, append_assoc, happend (p f) _ _ _ _ _ (hxs f (by omega) (m ++ r)),
    hys f (by omega), map_some]

theorem parsesAll_singleton {x : α} {l : List UInt8} (h : Parses p x l) : ParsesAll p [x] l := by
  have h' := parsesAll_cons h parsesAll_nil
  rwa [append_nil] at h'

end Parses

/-- **Bytes that are read as a value**, wherever they stand. -/
abbrev Reads (v : Msgpack) (l : List UInt8) : Prop := Parses decode v l

/-- A parser of a key and its value. -/
def entry (f : ℕ) : List UInt8 → Option ((Msgpack × Msgpack) × List UInt8) := pair (decode f)

variable {l : List UInt8} {n : ℕ} {hd : List UInt8} {v : Msgpack} {es : List (Msgpack × Msgpack)}

theorem parses_entry {k : Msgpack} {m : List UInt8} (hk : Reads k l) (hv : Reads v m) :
    Parses entry (k, v) (l ++ m) := by
  intro f hf r
  rw [length_append] at hf
  rw [append_assoc, entry, pair, hk f (by omega), bind_some, hv f (by omega)]
  rfl

theorem decodeAll_of_reads (h : Reads v l) :
    decodeAll l = some v := by
  have hd := h l.length (le_refl _) []
  rw [append_nil] at hd
  rw [decodeAll, hd]

/-! ## Heads -/

/-- Bytes that are read as a head, wherever they stand. -/
def IsHead (l : List UInt8) (h : Head) : Prop := ∀ r, readHead (l ++ r) = some (h, r)

theorem IsHead.length_pos {h : Head} (hh : IsHead l h) : 0 < l.length := by
  rw [length_pos_iff]
  rintro rfl
  cases hh []

theorem bytes_append (l r : List UInt8) : bytes l.length (l ++ r) = some (l, r) := by
  rw [bytes, if_pos (by rw [length_append]; omega), take_left, drop_left]

theorem bytes_eq_none (h : l.length < n) : bytes n l = none :=
  if_neg (by omega)

theorem number_toBytes {w : ℕ} (h : n < 256 ^ w) (r : List UInt8) :
    number w (Bytes.toBytes w n ++ r) = some (n, r) := by
  have hb := bytes_append (Bytes.toBytes w n) r
  rw [Bytes.length_toBytes] at hb
  rw [number, hb, map_some, Bytes.ofBytes_toBytes_of_lt h]

/-- **Every head that a number follows.** -/
theorem isHead_of_format {b : UInt8} {w : ℕ} {k : ℕ → Head} (h : format b = some (w, k))
    (hn : n < 256 ^ w) : IsHead (b :: Bytes.toBytes w n) (k n) := by
  intro r
  have hb : 0xC0 ≤ b.toNat ∧ b.toNat < 0xE0 := by
    constructor
    all_goals
      unfold format at h
      split at h <;> first | omega | cases h
  rw [cons_append, readHead, if_neg (by omega), if_neg (by omega), if_neg (by omega),
    if_neg (by omega), if_neg (by omega), h, bind_some, number_toBytes hn]
  rfl

theorem toNat_toUInt8 (h : n < 256) : n.toUInt8.toNat = n := Nat.mod_eq_of_lt h

theorem isHead_fixint (h : n < 0x80) : IsHead [n.toUInt8] (.leaf (.int n)) := by
  intro r
  have hb : n.toUInt8.toNat = n := toNat_toUInt8 (by omega)
  rw [singleton_append, readHead, hb, if_pos h]

theorem isHead_fixmap (h : n < 0x10) : IsHead [(0x80 + n).toUInt8] (.map n) := by
  intro r
  have hb : (0x80 + n).toUInt8.toNat = 0x80 + n := toNat_toUInt8 (by omega)
  rw [singleton_append, readHead, hb, if_neg (by omega), if_pos (by omega), Nat.add_sub_cancel_left]

theorem isHead_fixarray (h : n < 0x10) : IsHead [(0x90 + n).toUInt8] (.array n) := by
  intro r
  have hb : (0x90 + n).toUInt8.toNat = 0x90 + n := toNat_toUInt8 (by omega)
  rw [singleton_append, readHead, hb, if_neg (by omega), if_neg (by omega),
    if_pos (by omega), Nat.add_sub_cancel_left]

theorem isHead_fixstr (h : n < 0x20) : IsHead [(0xA0 + n).toUInt8] (.str n) := by
  intro r
  have hb : (0xA0 + n).toUInt8.toNat = 0xA0 + n := toNat_toUInt8 (by omega)
  rw [singleton_append, readHead, hb, if_neg (by omega), if_neg (by omega),
    if_neg (by omega), if_pos (by omega), Nat.add_sub_cancel_left]

/-- A negative number of five bits is its own head. -/
theorem isHead_negative {z : ℤ} (h : -0x20 ≤ z) (hz : z < 0) :
    IsHead [(z + 0x100).toNat.toUInt8] (.leaf (.int z)) := by
  intro r
  have hb : (z + 0x100).toNat.toUInt8.toNat = (z + 0x100).toNat := toNat_toUInt8 (by omega)
  have hval : (((z + 0x100).toNat : ℕ) : ℤ) - 0x100 = z := by omega
  rw [singleton_append, readHead, hb, if_neg (by omega), if_neg (by omega),
    if_neg (by omega), if_neg (by omega), if_pos (by omega), hval]

/-! ## Values from their heads -/

theorem decode_of_isHead {h : Head} (hh : IsHead hd h) (l : List UInt8) {f : ℕ}
    (hf : (hd ++ l).length ≤ f) (r : List UInt8) :
    ∃ g, l.length ≤ g ∧ f = g + 1 ∧ readHead ((hd ++ l) ++ r) = some (h, l ++ r) := by
  have hpos := hh.length_pos
  rw [length_append] at hf
  exact ⟨f - 1, by omega, by omega, by rw [append_assoc, hh]⟩

theorem reads_leaf (h : IsHead hd (.leaf v)) : Reads v hd := by
  intro f hf r
  rw [← append_nil hd] at hf
  obtain ⟨g, -, rfl, hread⟩ := decode_of_isHead h [] hf r
  rw [append_nil, List.nil_append] at hread
  rw [decode, hread]

theorem reads_str {s : Str} (h : IsHead hd (.str l.length))
    (hs : Unicode.decodeUtf8 l = some s) : Reads (.str s) (hd ++ l) := by
  intro f hf r
  obtain ⟨g, -, rfl, hread⟩ := decode_of_isHead h l hf r
  rw [decode, hread]
  dsimp only
  rw [bytes_append, bind_some, hs, map_some]

theorem reads_bin (h : IsHead hd (.bin l.length)) : Reads (.bin l) (hd ++ l) := by
  intro f hf r
  obtain ⟨g, -, rfl, hread⟩ := decode_of_isHead h l hf r
  rw [decode, hread]
  dsimp only
  rw [bytes_append, map_some]

theorem reads_array {vs : List Msgpack} (h : IsHead hd (.array vs.length))
    (hvs : ParsesAll decode vs l) : Reads (.array vs) (hd ++ l) := by
  intro f hf r
  obtain ⟨g, hg, rfl, hread⟩ := decode_of_isHead h l hf r
  rw [decode, hread]
  dsimp only
  rw [hvs g hg, map_some]

theorem reads_map (h : IsHead hd (.map es.length)) (hes : ParsesAll entry es l) :
    Reads (.map es) (hd ++ l) := by
  intro f hf r
  obtain ⟨g, hg, rfl, hread⟩ := decode_of_isHead h l hf r
  have hes' : times (pair (decode g)) es.length (l ++ r) = some (es, r) := hes g hg r
  rw [decode, hread]
  dsimp only
  rw [hes', map_some]

/-- **A head that announces more bytes than follow** is no value. -/
theorem decodeAll_short (h : IsHead hd (.bin n)) (hl : l.length < n) :
    decodeAll (hd ++ l) = none := by
  obtain ⟨g, -, hf, hread⟩ := decode_of_isHead h l (le_refl _) []
  rw [append_nil, append_nil] at hread
  rw [decodeAll, hf, decode, hread]
  dsimp only
  rw [bytes_eq_none hl, map_none]

/-! ## Writers that need not count

The number of elements and the number of bytes both have to fit into the 32 bits of a head.  Every
value takes a byte, so that fewer than `2 ^ 32` bytes in all is enough for either, and a writer can
be specified by what its bytes are read as if they are no more than that. -/

section Encodes

variable {α : Type*} {p : ℕ → List UInt8 → Option (α × List UInt8)}

/-- The bytes are not none, and read as `x` if they are fewer than `2 ^ 32`. -/
def Encodes (p : ℕ → List UInt8 → Option (α × List UInt8)) (x : α) (l : List UInt8) : Prop :=
  0 < l.length ∧ (l.length < 2 ^ 32 → Parses p x l)

/-- The same for values one after another, with at least a byte for each. -/
def EncodesAll (p : ℕ → List UInt8 → Option (α × List UInt8)) (xs : List α) (l : List UInt8) :
    Prop :=
  xs.length ≤ l.length ∧ (l.length < 2 ^ 32 → ParsesAll p xs l)

theorem encodesAll_nil : EncodesAll p [] [] := ⟨le_refl 0, fun _ => parsesAll_nil⟩

theorem encodesAll_cons {x : α} {xs : List α} {l m : List UInt8} (hx : Encodes p x l)
    (hxs : EncodesAll p xs m) : EncodesAll p (x :: xs) (l ++ m) := by
  have hpos := hx.1
  have hlen := hxs.1
  constructor
  · rw [length_cons, length_append]
    omega
  · intro h
    rw [length_append] at h
    exact parsesAll_cons (hx.2 (by omega)) (hxs.2 (by omega))

theorem encodesAll_append {xs ys : List α} {l m : List UInt8} (hxs : EncodesAll p xs l)
    (hys : EncodesAll p ys m) : EncodesAll p (xs ++ ys) (l ++ m) := by
  have hx := hxs.1
  have hy := hys.1
  constructor
  · rw [length_append, length_append]
    omega
  · intro h
    rw [length_append] at h
    exact parsesAll_append (hxs.2 (by omega)) (hys.2 (by omega))

theorem encodesAll_singleton {x : α} {l : List UInt8} (h : Encodes p x l) : EncodesAll p [x] l :=
  ⟨h.1, fun hlt => parsesAll_singleton (h.2 hlt)⟩

end Encodes

theorem length_pos_of_reads (h : Reads v l) : 0 < l.length := by
  rw [length_pos_iff]
  rintro rfl
  cases h 0 (le_refl 0) []

theorem encodes_of_reads (h : Reads v l) : Encodes decode v l :=
  ⟨length_pos_of_reads h, fun _ => h⟩

theorem encodes_entry {k : Msgpack} {m : List UInt8} (hk : Encodes decode k l)
    (hv : Encodes decode v m) : Encodes entry (k, v) (l ++ m) := by
  have hpos := hk.1
  constructor
  · rw [length_append]
    omega
  · intro h
    rw [length_append] at h
    exact parses_entry (hk.2 (by omega)) (hv.2 (by omega))

theorem encodes_array {d : List UInt8} {vs : List Msgpack}
    (h : vs.length < 2 ^ 32 → IsHead d (.array vs.length)) (hd : 0 < d.length)
    (hvs : EncodesAll decode vs l) : Encodes decode (.array vs) (d ++ l) := by
  have hlen := hvs.1
  constructor
  · rw [length_append]
    omega
  · intro hlt
    rw [length_append] at hlt
    exact reads_array (h (by omega)) (hvs.2 (by omega))

theorem encodes_map {d : List UInt8} (h : es.length < 2 ^ 32 → IsHead d (.map es.length))
    (hd : 0 < d.length)
    (hes : EncodesAll entry es l) : Encodes decode (.map es) (d ++ l) := by
  have hlen := hes.1
  constructor
  · rw [length_append]
    omega
  · intro hlt
    rw [length_append] at hlt
    exact reads_map (h (by omega)) (hes.2 (by omega))

theorem encodes_bin (h : l.length < 2 ^ 32 → IsHead hd (.bin l.length))
    (hhd : 0 < hd.length) : Encodes decode (.bin l) (hd ++ l) := by
  constructor
  · rw [length_append]
    omega
  · intro hlt
    rw [length_append] at hlt
    exact reads_bin (h (by omega))

theorem decodeAll_of_encodes (h : Encodes decode v l)
    (hlt : l.length < 2 ^ 32) : decodeAll l = some v := decodeAll_of_reads (h.2 hlt)

end Msgpack
end Library
