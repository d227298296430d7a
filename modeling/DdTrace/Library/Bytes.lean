import DdTrace.Library.Text
import Mathlib.Data.Nat.Bitwise

/-!
# Big-endian bytes

A number on `w` bytes, most significant first, and back.

* `ofBytes_toBytes`: the bytes of a number give it back modulo `256 ^ w`.
* `toBytes_ofBytes`: every byte string is the bytes of the number it stands for.
* `toBytes_add`: the bytes of a wide number are the bytes of its halves.
* `hex`: a byte string in hexadecimal, two digits a byte, and `unhex`, its inverse on hexadecimal
  text of either case.
-/

namespace Library.Bytes

open List Option

/-- The lowest `w` bytes of a number, most significant first. -/
def toBytes : ℕ → ℕ → List UInt8
  | 0, _ => []
  | w + 1, n => toBytes w (n / 256) ++ [n.toUInt8]

/-- The number a byte string stands for, most significant byte first. -/
def ofBytes (l : List UInt8) : ℕ := l.foldl (fun n b => n * 256 + b.toNat) 0

@[simp] theorem length_toBytes (w n : ℕ) : (toBytes w n).length = w := by
  induction w generalizing n with
  | zero => rfl
  | succ w ih => rw [toBytes, length_append, ih, length_singleton]

@[simp] theorem ofBytes_nil : ofBytes [] = 0 := rfl

variable (l : List UInt8)

theorem ofBytes_append_singleton (b : UInt8) : ofBytes (l ++ [b]) = ofBytes l * 256 + b.toNat := by
  rw [ofBytes, foldl_append]
  rfl

theorem ofBytes_append (l m : List UInt8) :
    ofBytes (l ++ m) = ofBytes l * 256 ^ m.length + ofBytes m := by
  induction m using List.reverseRecOn with
  | nil => simp
  | append_singleton m b ih =>
    rw [← append_assoc, ofBytes_append_singleton, ofBytes_append_singleton, ih,
      length_append, length_singleton]
    ring

theorem ofBytes_lt : ofBytes l < 256 ^ l.length := by
  induction l using List.reverseRecOn with
  | nil => simp
  | append_singleton l b ih =>
    have hb := b.toNat_lt
    rw [ofBytes_append_singleton, length_append, length_singleton]
    omega

/-- **The bytes of a number** give it back modulo `256 ^ w`. -/
theorem ofBytes_toBytes (w n : ℕ) : ofBytes (toBytes w n) = n % 256 ^ w := by
  induction w generalizing n with
  | zero => simp [toBytes, Nat.mod_one]
  | succ w ih =>
    have hb : n.toUInt8.toNat = n % 256 := rfl
    rw [toBytes, ofBytes_append_singleton, ih, hb, pow_succ, Nat.mul_comm (256 ^ w) 256,
      Nat.mod_mul]
    ring

theorem ofBytes_toBytes_of_lt {w n : ℕ} (h : n < 256 ^ w) : ofBytes (toBytes w n) = n := by
  rw [ofBytes_toBytes, Nat.mod_eq_of_lt h]

/-- Every byte string is the bytes of the number it stands for. -/
theorem toBytes_ofBytes : toBytes l.length (ofBytes l) = l := by
  induction l using List.reverseRecOn with
  | nil => rfl
  | append_singleton l b ih =>
    have hb := b.toNat_lt
    have hdiv : (ofBytes l * 256 + b.toNat) / 256 = ofBytes l := by omega
    have hmod : (ofBytes l * 256 + b.toNat).toUInt8 = b := by
      apply UInt8.toNat_inj.mp
      show (ofBytes l * 256 + b.toNat) % 256 = b.toNat
      omega
    rw [length_append, length_singleton, ofBytes_append_singleton, toBytes, hdiv, hmod, ih]

theorem ofBytes_injective {l m : List UInt8} (hlen : l.length = m.length)
    (h : ofBytes l = ofBytes m) : l = m := by
  rw [← toBytes_ofBytes l, ← toBytes_ofBytes m, hlen, h]

theorem toBytes_mod (w n : ℕ) : toBytes w (n % 256 ^ w) = toBytes w n := by
  refine ofBytes_injective (by rw [length_toBytes, length_toBytes]) ?_
  rw [ofBytes_toBytes, ofBytes_toBytes, Nat.mod_mod]

/-- The bytes of a wide number are the bytes of its halves. -/
theorem toBytes_add (v w n : ℕ) : toBytes (v + w) n = toBytes v (n / 256 ^ w) ++ toBytes w n := by
  refine ofBytes_injective (by simp) ?_
  rw [ofBytes_append, length_toBytes, ofBytes_toBytes, ofBytes_toBytes, ofBytes_toBytes,
    Nat.add_comm v w, pow_add, Nat.mod_mul]
  ring

/-! ## Hexadecimal -/

/-- Two lower-case digits. -/
def hexByte (b : UInt8) : Str :=
  [unit (b.toNat / 16).digitChar, unit (b.toNat % 16).digitChar]

/-- A byte string in hexadecimal. -/
def hex (l : List UInt8) : Str := l.flatMap hexByte

/-- Hexadecimal text of an even number of digits, in either case. -/
def unhex : Str → Option (List UInt8)
  | [] => some []
  | [_] => none
  | u :: w :: s =>
    match Str.digit? 16 u, Str.digit? 16 w, unhex s with
    | some x, some y, some l => some ((x * 16 + y).toUInt8 :: l)
    | _, _, _ => none

@[simp] theorem hex_nil : hex [] = [] := rfl

theorem hex_cons (b : UInt8) (l : List UInt8) : hex (b :: l) = hexByte b ++ hex l := rfl

theorem hex_append (l m : List UInt8) : hex (l ++ m) = hex l ++ hex m := flatMap_append

@[simp] theorem length_hex : (hex l).length = 2 * l.length := by
  induction l with
  | nil => rfl
  | cons b l ih =>
    rw [hex_cons, length_append, hexByte]
    simp only [length_cons, length_nil]
    omega

/-- **Hexadecimal text is read back**, whatever follows it. -/
theorem unhex_hex_append (s : Str) : unhex (hex l ++ s) = (unhex s).map (l ++ ·) := by
  induction l with
  | nil =>
    rw [hex_nil, List.nil_append]
    cases unhex s <;> rfl
  | cons b l ih =>
    have hb := b.toNat_lt
    have hx : Str.digit? 16 (unit (b.toNat / 16).digitChar) = some (b.toNat / 16) :=
      Str.digit?_digitChar (le_refl 16) (by omega)
    have hy : Str.digit? 16 (unit (b.toNat % 16).digitChar) = some (b.toNat % 16) :=
      Str.digit?_digitChar (le_refl 16) (by omega)
    have hxy : (b.toNat / 16 * 16 + b.toNat % 16).toUInt8 = b := by
      apply UInt8.toNat_inj.mp
      show (b.toNat / 16 * 16 + b.toNat % 16) % 256 = b.toNat
      omega
    show unhex (_ :: _ :: (hex l ++ s)) = _
    rw [unhex, hx, hy, ih]
    cases unhex s with
    | none => rfl
    | some m =>
      show some _ = some _
      rw [hxy]
      rfl

theorem unhex_hex : unhex (hex l) = some l := by
  have h := unhex_hex_append l []
  rwa [append_nil, unhex, map_some, append_nil] at h

theorem length_of_unhex {s : Str} {l : List UInt8} (h : unhex s = some l) :
    s.length = 2 * l.length := by
  induction s using unhex.induct generalizing l with
  | case1 =>
    rw [unhex, some_inj] at h
    rw [← h]
    rfl
  | case2 u => cases h
  | case3 u w s x y l' hl' hy hx ih =>
    rw [unhex, hx, hy, hl', some_inj] at h
    rw [← h, length_cons, length_cons, length_cons, ih hl']
    omega
  | case4 u w s hnone =>
    rw [unhex] at h
    split at h
    · next hx hy hl => exact absurd hl (hnone _ _ _ hx hy)
    · cases h

/-- Text of hexadecimal digits, two for each byte, is read. -/
theorem exists_unhex {s : Str} {n : ℕ} (hs : ∀ u ∈ s, (Str.digit? 16 u).isSome = true)
    (hlen : s.length = 2 * n) : ∃ l, unhex s = some l ∧ l.length = n := by
  induction n generalizing s with
  | zero => exact ⟨[], by rw [length_eq_zero_iff.mp hlen]; rfl, rfl⟩
  | succ n ih =>
    obtain ⟨u, s, rfl⟩ := exists_cons_of_length_eq_add_one (n := 2 * n + 1) (by omega)
    rw [length_cons] at hlen
    obtain ⟨w, s, rfl⟩ := exists_cons_of_length_eq_add_one (n := 2 * n) (l := s) (by omega)
    rw [length_cons] at hlen
    obtain ⟨x, hx⟩ := isSome_iff_exists.mp (hs u (by simp))
    obtain ⟨y, hy⟩ := isSome_iff_exists.mp (hs w (by simp))
    have hs' : ∀ c ∈ s, (Str.digit? 16 c).isSome = true := fun c hc => hs c (by simp [hc])
    obtain ⟨l, hl, hn⟩ := ih hs' (by omega)
    refine ⟨(x * 16 + y).toUInt8 :: l, ?_, by rw [length_cons, hn]⟩
    rw [unhex, hx, hy, hl]

/-- The number that hexadecimal text stands for is that of its bytes. -/
theorem readDigits_of_unhex {s : Str} {l : List UInt8} (h : unhex s = some l) :
    Str.readDigits 16 0 s = ofBytes l := by
  suffices hacc : ∀ acc, Str.readDigits 16 acc s = acc * 256 ^ l.length + ofBytes l by
    rw [hacc, Nat.zero_mul, Nat.zero_add]
  induction s using unhex.induct generalizing l with
  | case1 =>
    rw [unhex, some_inj] at h
    rw [← h]
    simp [Str.readDigits]
  | case2 u => cases h
  | case3 u w s x y l' hl' hy hx ih =>
    rw [unhex, hx, hy, hl', some_inj] at h
    intro acc
    have hxlt := Str.digit?_lt hx
    have hylt := Str.digit?_lt hy
    have hbyte : ofBytes [(x * 16 + y).toUInt8] = x * 16 + y := by
      show 0 * 256 + (x * 16 + y) % 256 = x * 16 + y
      omega
    have hcons : ofBytes l = (x * 16 + y) * 256 ^ l'.length + ofBytes l' := by
      rw [← h, ← singleton_append, ofBytes_append, hbyte]
    have hlen : l.length = l'.length + 1 := by rw [← h, length_cons]
    rw [Str.readDigits, hx]
    dsimp only
    rw [Str.readDigits, hy]
    dsimp only
    rw [ih hl', hcons, hlen]
    ring
  | case4 u w s hnone =>
    rw [unhex] at h
    split at h
    · next hx hy hl => exact absurd hl (hnone _ _ _ hx hy)
    · cases h

end Library.Bytes
