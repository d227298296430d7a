import DdTrace.Library.Unicode

/-!
# Percent-encoding

`encodeURIComponent` and `decodeURIComponent` of ECMAScript.  Both can fail: the encoder at a lone
surrogate, which has no UTF-8, and the decoder at a `%` that no two digits follow and at escaped
bytes that are not UTF-8.

* `Token`: a string is read as code units and escaped bytes.  The bytes between two code units are
  decoded together.
* `decode_encode`: what the encoder writes is read back.
* `encode_isSome_iff`, `encode_eq_nil_iff`: where the encoder fails, and where it writes nothing.
-/

namespace Library.PercentEncoding

open Unicode List Option

def percent : UInt16 := unit '%'

/-! ## Encoding -/

/-- What `encodeURIComponent` leaves as it is: letters, digits and the marks `-_.!~*'()`. -/
def isKept (u : UInt16) : Bool :=
  let n := u.toNat
  (0x30 ≤ n && n ≤ 0x39) || (0x41 ≤ n && n ≤ 0x5A) || (0x61 ≤ n && n ≤ 0x7A) || n == 0x21 ||
    (0x27 ≤ n && n ≤ 0x2A) || n == 0x2D || n == 0x2E || n == 0x5F || n == 0x7E

/-- A digit in upper case. -/
def upperDigit (n : ℕ) : UInt16 := (if n < 10 then 48 + n else 55 + n).toUInt16

/-- An escaped byte. -/
def escapeByte (b : UInt8) : Str :=
  [percent, upperDigit (b.toNat / 16), upperDigit (b.toNat % 16)]

def encodeChar (c : ℕ) : Str :=
  if c < 0x80 ∧ isKept c.toUInt16 = true then [c.toUInt16] else (utf8Char c).flatMap escapeByte

/-- `encodeURIComponent`. -/
def encodeURIComponent (s : Str) : Option Str :=
  if isWellFormed s then some ((chars s).flatMap encodeChar) else none

/-! ## Decoding -/

/-- The smallest parts of percent-encoded text. -/
inductive Token where
  | unit (u : UInt16)
  | escape (b : UInt8)
  deriving DecidableEq

/-- The byte that three code units stand for. -/
def readEscape (u x y : UInt16) : Option UInt8 :=
  match Str.digit? 16 x, Str.digit? 16 y with
  | some m, some n => if u = percent then some (m * 16 + n).toUInt8 else none
  | _, _ => none

def tokens : Str → List Token
  | u :: x :: y :: s =>
    match readEscape u x y with
    | some b => .escape b :: tokens s
    | none => .unit u :: tokens (x :: y :: s)
  | s => s.map .unit

/-- The text of tokens, where `run` holds the bytes since the last code unit. -/
def decodeTokens : List UInt8 → List Token → Option Str
  | run, [] => decodeUtf8 run
  | run, .escape b :: l => decodeTokens (run ++ [b]) l
  | run, .unit u :: l =>
    if u = percent then none
    else
      match decodeUtf8 run, decodeTokens [] l with
      | some s, some t => some (s ++ u :: t)
      | _, _ => none

/-- `decodeURIComponent`. -/
def decodeURIComponent (s : Str) : Option Str := decodeTokens [] (tokens s)

/-- The byte of a token when it is taken for Latin-1. -/
def Token.latin1 : Token → UInt8
  | .unit u => u.toNat.toUInt8
  | .escape b => b

/-! ## The tokens of what the encoder writes -/

@[simp] theorem tokens_nil : tokens [] = [] := rfl

theorem tokens_unit {u : UInt16} (h : u ≠ percent) (s : Str) :
    tokens (u :: s) = .unit u :: tokens s := by
  rcases s with _ | ⟨x, _ | ⟨y, s⟩⟩
  · rfl
  · rfl
  · have hnone : readEscape u x y = none := by
      unfold readEscape
      split
      · rw [if_neg h]
      · rfl
    rw [tokens, hnone]

theorem digit?_upperDigit {n : ℕ} (h : n < 16) : Str.digit? 16 (upperDigit n) = some n := by
  have hall : ∀ n < 16, Str.digit? 16 (upperDigit n) = some n := by decide
  exact hall n h

theorem tokens_escapeByte (b : UInt8) (s : Str) :
    tokens (escapeByte b ++ s) = .escape b :: tokens s := by
  have hb := b.toNat_lt
  have hread : readEscape percent (upperDigit (b.toNat / 16)) (upperDigit (b.toNat % 16)) =
      some b := by
    rw [readEscape, digit?_upperDigit (by omega), digit?_upperDigit (by omega)]
    dsimp only
    rw [Nat.div_add_mod' b.toNat 16]
    exact congrArg some (UInt8.toNat_inj.mp (Nat.mod_eq_of_lt hb))
  rw [escapeByte, cons_append, cons_append, singleton_append, tokens, hread]

theorem tokens_flatMap_escapeByte (l : List UInt8) (s : Str) :
    tokens (l.flatMap escapeByte ++ s) = l.map .escape ++ tokens s := by
  induction l with
  | nil => rfl
  | cons b l ih =>
    rw [flatMap_cons, append_assoc, tokens_escapeByte, ih]
    rfl

theorem decodeTokens_escapes (l run : List UInt8) (t : List Token) :
    decodeTokens run (l.map .escape ++ t) = decodeTokens (run ++ l) t := by
  induction l generalizing run with
  | nil => rw [map_nil, List.nil_append, append_nil]
  | cons b l ih =>
    rw [map_cons, cons_append, decodeTokens, ih, append_assoc]
    rfl

/-! ## The round trip -/

theorem ne_percent_of_isKept {u : UInt16} (h : isKept u = true) : u ≠ percent := by
  rintro rfl
  revert h
  decide

/-- The code points `ds` are in the run, the code points `cs` are still to be read. -/
theorem decodeTokens_flatMap {ds cs : List ℕ} (hd : ∀ d ∈ ds, isScalar d = true)
    (hc : ∀ c ∈ cs, isScalar c = true) :
    decodeTokens (ds.flatMap utf8Char) (tokens (cs.flatMap encodeChar)) =
      some (ds.flatMap units ++ cs.flatMap units) := by
  induction cs generalizing ds with
  | nil =>
    rw [flatMap_nil, flatMap_nil, append_nil, tokens_nil, decodeTokens, decodeUtf8,
      decodeStrict_flatMap hd, map_some]
  | cons c cs ih =>
    have hrest : ∀ d ∈ cs, isScalar d = true := (forall_mem_cons.mp hc).2
    rw [flatMap_cons, flatMap_cons, encodeChar]
    by_cases hkept : c < 0x80 ∧ isKept c.toUInt16 = true
    · have hne := ne_percent_of_isKept hkept.2
      have hih := ih (forall_mem_nil _) hrest
      rw [flatMap_nil] at hih
      rw [if_pos hkept, singleton_append, tokens_unit hne, decodeTokens, if_neg hne, hih,
        decodeUtf8, decodeStrict_flatMap hd, units,
        if_pos (Nat.lt_trans hkept.1 (by omega))]
      rfl
    · have hmore : ∀ d ∈ ds ++ [c], isScalar d = true := by
        intro d hmem
        rcases mem_append.mp hmem with hmem | hmem
        · exact hd d hmem
        · rw [mem_singleton.mp hmem]
          exact hc c mem_cons_self
      have hih := ih hmore hrest
      rw [flatMap_append, flatMap_singleton, flatMap_append, flatMap_singleton, append_assoc] at hih
      rw [if_neg hkept, tokens_flatMap_escapeByte, decodeTokens_escapes, hih]

/-- **What the encoder writes is read back.** -/
theorem decode_encode {s e : Str} (h : encodeURIComponent s = some e) :
    decodeURIComponent e = some s := by
  rw [encodeURIComponent, ite_none_right_eq_some, some_inj] at h
  obtain ⟨hwf, rfl⟩ := h
  have hrun := decodeTokens_flatMap (forall_mem_nil _) (isScalar_of_isWellFormed hwf)
  rw [units_chars] at hrun
  exact hrun

/-- Text without `%` stands for itself. -/
theorem decode_of_notMem {s : Str} (h : percent ∉ s) : decodeURIComponent s = some s := by
  rw [decodeURIComponent]
  induction s with
  | nil => rfl
  | cons u s ih =>
    rw [mem_cons, not_or] at h
    have hne : u ≠ percent := fun he => h.1 he.symm
    rw [tokens_unit hne, decodeTokens, if_neg hne, ih h.2]
    rfl

/-! ## What the encoder writes -/

theorem encode_isSome_iff (s : Str) :
    (encodeURIComponent s).isSome = true ↔ isWellFormed s = true := by
  rw [encodeURIComponent]
  split
  · next h => simp [h]
  · next h => simp [h]

theorem encode_eq_nil_iff {s e : Str} (h : encodeURIComponent s = some e) : e = [] ↔ s = [] := by
  have hback := decode_encode h
  constructor
  · rintro rfl
    exact (some_inj.mp hback).symm
  · rintro rfl
    exact (some_inj.mp h).symm

theorem upperDigit_isKept {n : ℕ} (h : n < 16) : isKept (upperDigit n) = true := by
  have hall : ∀ n < 16, isKept (upperDigit n) = true := by decide
  exact hall n h

/-- It writes kept code units and `%`. -/
theorem isKept_or_percent_of_encode {s e : Str} (h : encodeURIComponent s = some e) :
    ∀ u ∈ e, isKept u = true ∨ u = percent := by
  rw [encodeURIComponent, ite_none_right_eq_some, some_inj] at h
  obtain ⟨-, rfl⟩ := h
  intro u hu
  obtain ⟨c, -, hu⟩ := mem_flatMap.mp hu
  rw [encodeChar] at hu
  split at hu
  · next hkept =>
    rw [mem_singleton] at hu
    subst hu
    exact .inl hkept.2
  · obtain ⟨b, -, hu⟩ := mem_flatMap.mp hu
    have hb := b.toNat_lt
    rw [escapeByte, mem_cons, mem_cons, mem_singleton] at hu
    rcases hu with rfl | rfl | rfl
    · exact .inr rfl
    all_goals exact .inl (upperDigit_isKept (by omega))

end Library.PercentEncoding
