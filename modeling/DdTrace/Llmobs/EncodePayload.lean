import DdTrace.Library.JsonReader

/-!
# The text of an LLMObs payload

`_encode` of `llmobs/writers/base.js` writes a payload as JSON in which the strings are ASCII.  The
strings are rewritten before `JSON.stringify` sees them: a code unit above 127 becomes the six
characters `\uXXXX`.  `JSON.stringify` doubles their backslash, and at the end every `\\u` of the text
is replaced by `\u`.

But a text of the user can hold a backslash in front of a `u`, and then its `\\u` is replaced, too; and
a backslash in front of a control character, whose own escape `\uXXXX` then stands behind two
backslashes.

* `Piece`, `valuePieces`, `keyPieces`: the inside of a literal, piece by piece.
* `readPieces`: what is read of the pieces after the replacement; `readChars_pieces`.
* `readPieces_eq_iff`: **it is the string that was written exactly when no backslash stands directly in
  front of a `u` or of a unit that is escaped** (`safe`).
* `parse_encode`, `parse_encode_iff`: the whole payload.
-/

namespace DdTrace.Llmobs

open Library Unicode List

/-! ## The code -/

/-- `encodeUnicode` of `llmobs/util.js`: the text up to the first code unit above 127 as it is, and the
rest unit by unit. -/
def encodeUnicode (str : Str) : Str :=
  match str.dropWhile fun u => decide (u.toNat ≤ 127) with
  | [] => str
  | u :: rest => (str.takeWhile fun u => decide (u.toNat ≤ 127)) ++
      (u :: rest).flatMap fun u => if 127 < u.toNat then unicodeEscape u else [u]

/-- `replaceAll('\\\\u', '\\u')` -/
def removeDoubleEscaping : Str → Str
  | a :: b :: c :: s =>
    if a = unit '\\' ∧ b = unit '\\' ∧ c = unit 'u' then
      unit '\\' :: unit 'u' :: removeDoubleEscaping s
    else a :: removeDoubleEscaping (b :: c :: s)
  | s => s

mutual

/-- The replacer of `JSON.stringify`, on every string that is a value. -/
def encodeStrings : Json → Json
  | .str s => .str (encodeUnicode s)
  | .arr items => .arr (encodeItems items)
  | .obj members => .obj (encodeMembers members)
  | .null => .null
  | .bool b => .bool b
  | .num n => .num n

def encodeItems : List Json → List Json
  | [] => []
  | item :: items => encodeStrings item :: encodeItems items

def encodeMembers : List (Str × Json) → List (Str × Json)
  | [] => []
  | (k, value) :: members => (k, encodeStrings value) :: encodeMembers members

end

/-- `_encode` -/
def encode (payload : Json) : Str := removeDoubleEscaping (encodeStrings payload).stringify

example : encode (.str (lit "\\" ++ [233])) = lit "\"\\\\\\u00e9\"" := by decide

/-! ## The replacement, unit by unit -/

/-- An escape of four digits follows. -/
def followedByEscape : Str → Bool
  | a :: b :: _ => a == unit '\\' && b == unit 'u'
  | _ => false

theorem followedByEscape_cons (a b : UInt16) (s : Str) :
    followedByEscape (a :: b :: s) = (a == unit '\\' && b == unit 'u') := rfl

variable {s : Str} {w u a : UInt16} {payload : Json}

theorem removeDoubleEscaping_of_ne (h : a ≠ unit '\\') (s : Str) :
    removeDoubleEscaping (a :: s) = a :: removeDoubleEscaping s := by
  match s with
  | [] => rfl
  | [b] => rfl
  | b :: c :: s =>
    rw [removeDoubleEscaping, if_neg fun hc => h hc.1]

/-- **The replacement drops the backslashes in front of an escape**, and nothing else. -/
theorem removeDoubleEscaping_cons (a : UInt16) (s : Str) : removeDoubleEscaping (a :: s) =
    if a = unit '\\' ∧ followedByEscape s = true then removeDoubleEscaping s
    else a :: removeDoubleEscaping s := by
  match s with
  | [] | [b] => exact (if_neg fun h => Bool.false_ne_true h.2).symm
  | b :: c :: s =>
    have hfollowed : followedByEscape (b :: c :: s) = true ↔ b = unit '\\' ∧ c = unit 'u' := by
      rw [followedByEscape, Bool.and_eq_true, beq_iff_eq, beq_iff_eq]
    rw [removeDoubleEscaping]
    by_cases h : a = unit '\\' ∧ b = unit '\\' ∧ c = unit 'u'
    · rw [if_pos h, if_pos ⟨h.1, hfollowed.mpr h.2⟩]
      obtain ⟨rfl, rfl, rfl⟩ := h
      have hkeep : removeDoubleEscaping (unit '\\' :: unit 'u' :: s) =
          unit '\\' :: removeDoubleEscaping (unit 'u' :: s) := by
        cases s with
        | nil => rfl
        | cons w s => rw [removeDoubleEscaping, if_neg fun hc => absurd hc.2.1 (by decide)]
      rw [hkeep, removeDoubleEscaping_of_ne (by decide)]
    · rw [if_neg h, if_neg fun hc => h ⟨hc.1, hfollowed.mp hc.2⟩]

/-- Behind anything but a backslash the replacement starts anew. -/
theorem removeDoubleEscaping_append (h : ∀ u ∈ s.getLast?, u ≠ unit '\\') (t : Str) :
    removeDoubleEscaping (s ++ t) = removeDoubleEscaping s ++ removeDoubleEscaping t := by
  induction s with
  | nil => rfl
  | cons a s ih =>
    cases s with
    | nil =>
      have ha : a ≠ unit '\\' := h a rfl
      rw [cons_append, removeDoubleEscaping_of_ne ha]
      rfl
    | cons b s =>
      have hrest := ih (by exact h)
      have hsame : followedByEscape (b :: s ++ t) = followedByEscape (b :: s) := by
        cases s with
        | cons c s => rfl
        | nil =>
          have hb : b ≠ unit '\\' := h b rfl
          cases t with
          | nil => rfl
          | cons c t =>
            show (b == unit '\\' && _) = false
            rw [beq_false_of_ne hb, Bool.false_and]
      rw [cons_append, removeDoubleEscaping_cons, removeDoubleEscaping_cons a, hsame, hrest]
      split
      · rfl
      · rfl

/-- Every text is what the replacement makes of some text. -/
theorem exists_removeDoubleEscaping_eq (t : Str) : ∃ s, removeDoubleEscaping s = t := by
  induction t with
  | nil => exact ⟨[], rfl⟩
  | cons a t ih =>
    obtain ⟨s, rfl⟩ := ih
    by_cases ha : a = unit '\\' ∧ followedByEscape s = true
    · obtain ⟨rfl, hs⟩ := ha
      refine ⟨unit '\\' :: unit '\\' :: s, ?_⟩
      have hfirst : followedByEscape (unit '\\' :: s) = false := by
        cases s with
        | nil => cases hs
        | cons b s =>
          have hb : b ≠ unit 'u' := by
            rintro rfl
            cases s with
            | nil => cases hs
            | cons c s =>
              rw [followedByEscape_cons, Bool.and_eq_true] at hs
              exact absurd hs.1 (by decide)
          rw [followedByEscape_cons, beq_false_of_ne hb, Bool.and_false]
      rw [removeDoubleEscaping_cons, hfirst, if_neg fun h => Bool.false_ne_true h.2,
        removeDoubleEscaping_cons, if_pos ⟨rfl, hs⟩]
    · refine ⟨a :: s, ?_⟩
      rw [removeDoubleEscaping_cons, if_neg ha]

theorem removeDoubleEscaping_of_notMem (h : unit '\\' ∉ s) :
    removeDoubleEscaping s = s := by
  induction s with
  | nil => rfl
  | cons a s ih =>
    rw [removeDoubleEscaping_of_ne (fun ha => h (ha ▸ mem_cons_self)),
      ih fun hs => h (mem_cons_of_mem _ hs)]

theorem mem_of_mem_removeDoubleEscaping (h : u ∈ removeDoubleEscaping s) :
    u ∈ s := by
  induction s with
  | nil => exact h
  | cons a s ih =>
    rw [removeDoubleEscaping_cons] at h
    split at h
    · exact mem_cons_of_mem _ (ih h)
    · rcases mem_cons.mp h with rfl | h
      · exact mem_cons_self
      · exact mem_cons_of_mem _ (ih h)

/-! ## Pieces of a literal -/

/-- How a code unit stands in a literal before the replacement: by itself, as an escape of one
character, as a backslash, as an escape of four digits, or as such an escape behind the backslash that
`JSON.stringify` doubled. -/
inductive Piece where
  | plain (u : UInt16)
  | simple (x : UInt16 × UInt16)
  | slash
  | long (u : UInt16)
  | doubled (u : UInt16)
  deriving DecidableEq

namespace Piece

def text : Piece → Str
  | plain u => [u]
  | simple x => [unit '\\', x.1]
  | slash => [unit '\\', unit '\\']
  | long u => unicodeEscape u
  | doubled u => unit '\\' :: unicodeEscape u

/-- The code unit that the piece is for. -/
def of : Piece → UInt16
  | plain u | long u | doubled u => u
  | simple x => x.2
  | slash => unit '\\'

/-- The piece is one that `JSON.stringify` writes. -/
def Valid : Piece → Prop
  | plain u => IsPlain u
  | simple x => x ∈ simpleEscapes ∧ x.1 ≠ unit '\\'
  | slash => True
  | long u => u.toNat < 32 ∨ isHigh u = true ∨ isLow u = true
  | doubled _ => True

end Piece

/-- The piece of a code unit other than a lone surrogate. -/
def pieceOf (u : UInt16) : Piece :=
  match simpleEscapes.find? fun e => e.2 = u with
  | some x => if u = unit '\\' then .slash else .simple x
  | none => if u < 32 then .long u else .plain u

/-- The pieces of a key. -/
def keyPieces : Str → List Piece
  | [] => []
  | [u] => [if isHigh u || isLow u then .long u else pieceOf u]
  | u :: w :: s =>
    if isHigh u && isLow w then .plain u :: .plain w :: keyPieces s
    else (if isHigh u || isLow u then .long u else pieceOf u) :: keyPieces (w :: s)

/-- The pieces of a string that `encodeUnicode` has rewritten. -/
def valuePieces (s : Str) : List Piece :=
  s.map fun u => if 127 < u.toNat then .doubled u else pieceOf u

/-- No backslash stands directly in front of a `u` or of an escape of four digits. -/
def safe : List Piece → Bool
  | [] => true
  | .slash :: .plain w :: ps => w != unit 'u' && safe (.plain w :: ps)
  | .slash :: .long _ :: _ => false
  | _ :: ps => safe ps

theorem text_pieceOf (u : UInt16) : (pieceOf u).text = escapeUnit u := by
  unfold pieceOf escapeUnit
  cases hfind : simpleEscapes.find? fun e => e.2 = u with
  | none =>
    dsimp only
    split
    · rfl
    · rfl
  | some x =>
    dsimp only
    split
    · next hu =>
      subst hu
      have hx : x = (unit '\\', unit '\\') := by
        exact (Option.some.inj hfind).symm
      rw [hx]
      rfl
    · rfl

theorem of_pieceOf (u : UInt16) : (pieceOf u).of = u := by
  unfold pieceOf
  cases hfind : simpleEscapes.find? fun e => e.2 = u with
  | none =>
    dsimp only
    split
    · rfl
    · rfl
  | some x =>
    have hx : x.2 = u := by simpa using find?_some hfind
    dsimp only
    split
    · next hu => exact hu.symm
    · exact hx

theorem valid_pieceOf (u : UInt16) : (pieceOf u).Valid := by
  unfold pieceOf
  cases hfind : simpleEscapes.find? fun e => e.2 = u with
  | none =>
    have hother : ∀ e ∈ simpleEscapes, e.2 ≠ u := by simpa using hfind
    dsimp only
    split
    · next hu => exact Or.inl (UInt16.lt_iff_toNat_lt.mp hu)
    · next hu =>
      exact ⟨hu, Ne.symm (hother (unit '"', unit '"') (by decide)),
        Ne.symm (hother (unit '\\', unit '\\') (by decide))⟩
  | some x =>
    have hx : x.2 = u := by simpa using find?_some hfind
    have hmem := mem_of_find?_eq_some hfind
    dsimp only
    split
    · trivial
    · next hu =>
      refine ⟨hmem, fun hslash => hu ?_⟩
      have hall : (simpleEscapes.all fun e =>
          decide (e.1 = unit '\\' → e.2 = unit '\\')) = true := by decide
      rw [← hx]
      exact of_decide_eq_true (all_eq_true.mp hall x hmem) hslash

/-- Half of a pair stands for itself. -/
theorem isPlain_surrogate (h : 0xD800 ≤ u.toNat) : IsPlain u := by
  refine ⟨fun hlt => ?_, ?_, ?_⟩
  · have hlt' := UInt16.lt_iff_toNat_lt.mp hlt
    have hthirty : (32 : UInt16).toNat = 32 := rfl
    omega
  all_goals
    rintro rfl
    exact absurd h (by decide)

/-- The piece of a code unit that is not the first half of a pair. -/
theorem loneOr_spec (u : UInt16) : (if isHigh u || isLow u then Piece.long u else pieceOf u).text =
        (if isHigh u || isLow u then unicodeEscape u else escapeUnit u) ∧
      (if isHigh u || isLow u then Piece.long u else pieceOf u).of = u ∧
      (if isHigh u || isLow u then Piece.long u else pieceOf u).Valid := by
  by_cases h : (isHigh u || isLow u) = true
  · rw [if_pos h, if_pos h]
    exact ⟨rfl, rfl, Or.inr (Bool.or_eq_true_iff.mp h)⟩
  · rw [if_neg h, if_neg h]
    exact ⟨text_pieceOf u, of_pieceOf u, valid_pieceOf u⟩

/-- **The pieces of a key.** -/
theorem keyPieces_spec (s : Str) : (keyPieces s).flatMap Piece.text = quoteBody s ∧
    (keyPieces s).map Piece.of = s ∧ ∀ p ∈ keyPieces s, p.Valid := by
  induction s using quoteBody.induct with
  | case1 => exact ⟨rfl, rfl, fun p hp => absurd hp not_mem_nil⟩
  | case2 u h | case3 u h =>
    obtain ⟨htext, hof, hvalid⟩ := loneOr_spec u
    rw [keyPieces, flatMap_singleton, map_singleton, htext, hof]
    exact ⟨rfl, rfl, fun p hp => by rw [mem_singleton.mp hp]; exact hvalid⟩
  | case4 u w s hpair ih =>
    obtain ⟨htext, hof, hvalid⟩ := ih
    obtain ⟨hu, hw⟩ := Bool.and_eq_true_iff.mp hpair
    have hu' : 0xD800 ≤ u.toNat := by
      simp only [isHigh, Bool.and_eq_true, decide_eq_true_eq] at hu
      exact hu.1
    have hw' : 0xD800 ≤ w.toNat := by
      simp only [isLow, Bool.and_eq_true, decide_eq_true_eq] at hw
      omega
    rw [keyPieces, quoteBody, if_pos hpair, if_pos hpair, flatMap_cons, flatMap_cons, htext,
      map_cons, map_cons, hof]
    refine ⟨rfl, rfl, fun p hp => ?_⟩
    rcases mem_cons.mp hp with rfl | hp
    · exact isPlain_surrogate hu'
    · rcases mem_cons.mp hp with rfl | hp
      · exact isPlain_surrogate hw'
      · exact hvalid p hp
  | case5 u w s hpair ih =>
    obtain ⟨htext, hof, hvalid⟩ := ih
    obtain ⟨htext', hof', hvalid'⟩ := loneOr_spec u
    rw [keyPieces, quoteBody, if_neg hpair, if_neg hpair, flatMap_cons, htext, htext',
      map_cons, hof, hof']
    refine ⟨rfl, rfl, fun p hp => ?_⟩
    rcases mem_cons.mp hp with rfl | hp
    · exact hvalid'
    · exact hvalid p hp

/-! ## The pieces of a value -/

theorem encodeUnicode_eq (s : Str) : encodeUnicode s =
    s.flatMap fun u => if 127 < u.toNat then unicodeEscape u else [u] := by
  have hascii : ∀ l : Str, (∀ u ∈ l, u.toNat ≤ 127) →
      l.flatMap (fun u => if 127 < u.toNat then unicodeEscape u else [u]) = l := by
    intro l hl
    induction l with
    | nil => rfl
    | cons u l ih =>
      have hu := hl u mem_cons_self
      rw [flatMap_cons, if_neg (by omega), ih (forall_mem_cons.mp hl).2]
      rfl
  have htake : ∀ u ∈ s.takeWhile (fun u => decide (u.toNat ≤ 127)), u.toNat ≤ 127 :=
    fun u hu => of_decide_eq_true (all_eq_true.mp all_takeWhile u hu)
  have hsplit := takeWhile_append_dropWhile (p := fun u => decide (u.toNat ≤ 127)) (l := s)
  unfold encodeUnicode
  cases hdrop : s.dropWhile fun u => decide (u.toNat ≤ 127) with
  | nil =>
    rw [hdrop, append_nil] at hsplit
    rw [hsplit] at htake
    exact (hascii s htake).symm
  | cons u rest =>
    rw [hdrop] at hsplit
    conv_rhs => rw [← hsplit, flatMap_append, hascii _ htake]

theorem isSurrogate_of_ascii (h : u.toNat ≤ 127) : (isHigh u || isLow u) = false := by
  unfold isHigh isLow
  rw [Bool.or_eq_false_iff, Bool.and_eq_false_iff, Bool.and_eq_false_iff]
  exact ⟨Or.inl (decide_eq_false (by omega)), Or.inl (decide_eq_false (by omega))⟩

/-- A text of ASCII is escaped unit by unit. -/
theorem quoteBody_of_ascii (h : ∀ u ∈ s, u.toNat ≤ 127) :
    quoteBody s = s.flatMap escapeUnit := by
  induction s using quoteBody.induct with
  | case1 => rfl
  | case2 u hu =>
    rw [isSurrogate_of_ascii (h u mem_cons_self)] at hu
    cases hu
  | case3 u hu =>
    rw [quoteBody, if_neg hu, flatMap_singleton]
  | case4 u w s hpair ih =>
    have hu := isSurrogate_of_ascii (h u mem_cons_self)
    rw [(Bool.or_eq_false_iff.mp hu).1] at hpair
    cases hpair
  | case5 u w s hpair ih =>
    rw [quoteBody, if_neg hpair, isSurrogate_of_ascii (h u mem_cons_self),
      if_neg Bool.false_ne_true, flatMap_cons, ih (forall_mem_cons.mp h).2]

theorem lowerDigit_spec {n : ℕ} (h : n < 16) : escapeUnit (lowerDigit n) = [lowerDigit n] ∧
    (lowerDigit n).toNat ≤ 127 ∧ IsPlain (lowerDigit n) := by
  have hall : ∀ n < 16, escapeUnit (lowerDigit n) = [lowerDigit n] ∧
      (lowerDigit n).toNat ≤ 127 ∧ IsPlain (lowerDigit n) := by decide
  exact hall n h

theorem mem_unicodeEscape (h : w ∈ unicodeEscape u) :
    w = unit '\\' ∨ w = unit 'u' ∨ ∃ n < 16, w = lowerDigit n := by
  have hu := u.toNat_lt
  unfold unicodeEscape at h
  simp only [mem_cons, not_mem_nil, or_false] at h
  rcases h with rfl | rfl | rfl | rfl | rfl | rfl
  · exact Or.inl rfl
  · exact Or.inr (Or.inl rfl)
  all_goals exact Or.inr (Or.inr ⟨_, by omega, rfl⟩)

theorem ascii_unicodeEscape (h : w ∈ unicodeEscape u) : w.toNat ≤ 127 := by
  rcases mem_unicodeEscape h with rfl | rfl | ⟨n, hn, rfl⟩
  · decide
  · decide
  · exact (lowerDigit_spec hn).2.1

/-- `JSON.stringify` doubles the backslash of an escape. -/
theorem flatMap_escapeUnit_unicodeEscape (u : UInt16) :
    (unicodeEscape u).flatMap escapeUnit = unit '\\' :: unicodeEscape u := by
  have hu := u.toNat_lt
  have hslash : escapeUnit (unit '\\') = [unit '\\', unit '\\'] := by decide
  have hletter : escapeUnit (unit 'u') = [unit 'u'] := by decide
  unfold unicodeEscape
  simp only [flatMap_cons, flatMap_nil, hslash, hletter,
    (lowerDigit_spec (show u.toNat / 4096 < 16 by omega)).1,
    (lowerDigit_spec (show u.toNat / 256 % 16 < 16 by omega)).1,
    (lowerDigit_spec (show u.toNat / 16 % 16 < 16 by omega)).1,
    (lowerDigit_spec (show u.toNat % 16 < 16 by omega)).1]
  rfl

theorem ascii_encodeUnicode (h : w ∈ encodeUnicode s) : w.toNat ≤ 127 := by
  rw [encodeUnicode_eq, mem_flatMap] at h
  obtain ⟨u, -, hw⟩ := h
  split at hw
  · exact ascii_unicodeEscape hw
  · rw [mem_singleton.mp hw]
    omega

/-- **The pieces of a value.** -/
theorem valuePieces_spec (s : Str) :
    (valuePieces s).flatMap Piece.text = quoteBody (encodeUnicode s) ∧
    (valuePieces s).map Piece.of = s ∧ ∀ p ∈ valuePieces s, p.Valid := by
  rw [quoteBody_of_ascii fun u hu => ascii_encodeUnicode hu, encodeUnicode_eq, flatMap_assoc]
  unfold valuePieces
  induction s with
  | nil => exact ⟨rfl, rfl, fun p hp => absurd hp not_mem_nil⟩
  | cons u s ih =>
    obtain ⟨htext, hof, hvalid⟩ := ih
    rw [map_cons, flatMap_cons, flatMap_cons, htext, map_cons, hof]
    by_cases hu : 127 < u.toNat
    · rw [if_pos hu, if_pos hu, flatMap_escapeUnit_unicodeEscape]
      refine ⟨rfl, rfl, fun p hp => ?_⟩
      rcases mem_cons.mp hp with rfl | hp
      · trivial
      · exact hvalid p hp
    · rw [if_neg hu, if_neg hu, text_pieceOf, of_pieceOf, flatMap_singleton]
      refine ⟨rfl, rfl, fun p hp => ?_⟩
      rcases mem_cons.mp hp with rfl | hp
      · exact valid_pieceOf u
      · exact hvalid p hp

/-! ## Reading the pieces -/

/-- What is read of the pieces after the replacement.  A backslash in front of a `u` makes an escape
of what follows; one in front of an escape takes the place of the backslash that it loses. -/
def readPieces : List Piece → Option Str
  | [] => some []
  | .slash :: .plain w :: ps =>
    if w = unit 'u' then
      match ps with
      | .plain a :: .plain b :: .plain c :: .plain d :: ps =>
        (readHex a b c d).bind fun u => (readPieces ps).map fun x => u :: x
      | _ => none
    else (readPieces ps).map fun x => unit '\\' :: w :: x
  | .slash :: .long u :: ps => (readPieces ps).map fun x => unicodeEscape u ++ x
  | p :: ps => (readPieces ps).map fun x => p.of :: x

theorem readPieces_plain (hw : w ≠ unit 'u') (ps : List Piece) :
    readPieces (.slash :: .plain w :: ps) = (readPieces ps).map fun x => unit '\\' :: w :: x := by
  rw [readPieces.eq_def]
  dsimp only
  rw [if_neg hw]

/-- The text of some pieces and of what follows the string. -/
def textBefore (ps : List Piece) (t : Str) : Str := ps.flatMap Piece.text ++ unit '"' :: t

theorem textBefore_cons (p : Piece) (ps : List Piece) (t : Str) :
    textBefore (p :: ps) t = p.text ++ textBefore ps t := by
  unfold textBefore
  rw [flatMap_cons, append_assoc]

theorem removeDoubleEscaping_unicodeEscape (u : UInt16) (s : Str) :
    removeDoubleEscaping (unicodeEscape u ++ s) = unicodeEscape u ++ removeDoubleEscaping s := by
  have hu := u.toNat_lt
  have hdigit : ∀ n < 16, lowerDigit n ≠ unit '\\' := by decide
  unfold unicodeEscape
  simp only [cons_append, List.nil_append]
  rw [removeDoubleEscaping_cons, if_neg fun h => absurd h.2 (by
      rw [followedByEscape_cons, Bool.and_eq_true]
      exact fun hc => absurd hc.1 (by decide)),
    removeDoubleEscaping_of_ne (by decide), removeDoubleEscaping_of_ne (hdigit _ (by omega)),
    removeDoubleEscaping_of_ne (hdigit _ (by omega)), removeDoubleEscaping_of_ne (hdigit _ (by omega)),
    removeDoubleEscaping_of_ne (hdigit _ (by omega))]

theorem followedByEscape_unicodeEscape (u : UInt16) (s : Str) :
    followedByEscape (unicodeEscape u ++ s) = true := by
  unfold unicodeEscape
  simp only [cons_append, List.nil_append]
  rw [followedByEscape_cons]
  decide

/-- A piece other than a backslash is read as what it stands for. -/
theorem readChars_piece {p : Piece} (hp : p.Valid) (hslash : p ≠ .slash) (s : Str) :
    readChars (removeDoubleEscaping (p.text ++ s)) =
      (readChars (removeDoubleEscaping s)).map fun q => (p.of :: q.1, q.2) := by
  cases p with
  | plain u =>
    show readChars (removeDoubleEscaping (u :: s)) = _
    rw [removeDoubleEscaping_of_ne hp.2.2, readChars_plain hp]
    rfl
  | simple x =>
    obtain ⟨hmem, hne⟩ := hp
    have hown : (jsonEscapes.find? fun y => y.1 = x.1) = some x := by
      have hall : (simpleEscapes.all fun e =>
          decide ((jsonEscapes.find? fun y => y.1 = e.1) = some e)) = true := by decide
      exact of_decide_eq_true (all_eq_true.mp hall x hmem)
    have hnot : ¬ (unit '\\' = unit '\\' ∧ followedByEscape (x.1 :: s) = true) := by
      intro h
      cases s with
      | nil => exact Bool.false_ne_true h.2
      | cons b s =>
        have h2 := h.2
        rw [followedByEscape_cons, Bool.and_eq_true, beq_iff_eq] at h2
        exact hne h2.1
    show readChars (removeDoubleEscaping (unit '\\' :: x.1 :: s)) = _
    rw [removeDoubleEscaping_cons, if_neg hnot, removeDoubleEscaping_of_ne hne, readChars_simple hown]
    rfl
  | slash => exact absurd rfl hslash
  | long u =>
    show readChars (removeDoubleEscaping (unicodeEscape u ++ s)) = _
    rw [removeDoubleEscaping_unicodeEscape, readChars_unicodeEscape]
    rfl
  | doubled u =>
    show readChars (removeDoubleEscaping (unit '\\' :: (unicodeEscape u ++ s))) = _
    rw [removeDoubleEscaping_cons, if_pos ⟨rfl, followedByEscape_unicodeEscape u s⟩,
      removeDoubleEscaping_unicodeEscape, readChars_unicodeEscape]
    rfl

/-- Two backslashes of which neither is dropped. -/
theorem readChars_slash (hfirst : ∀ u ∈ s.head?, u ≠ unit 'u')
    (hsecond : followedByEscape s = false) :
    readChars (removeDoubleEscaping (Piece.slash.text ++ s)) =
      (readChars (removeDoubleEscaping s)).map fun q => (unit '\\' :: q.1, q.2) := by
  have hnot : followedByEscape (unit '\\' :: s) = false := by
    cases s with
    | nil => rfl
    | cons b s =>
      rw [followedByEscape_cons, beq_false_of_ne (hfirst b rfl), Bool.and_false]
  have hown : (jsonEscapes.find? fun y => y.1 = unit '\\') = some (unit '\\', unit '\\') := by decide
  show readChars (removeDoubleEscaping (unit '\\' :: unit '\\' :: s)) = _
  rw [removeDoubleEscaping_cons, hnot, if_neg (fun h => Bool.false_ne_true h.2),
    removeDoubleEscaping_cons, hsecond, if_neg (fun h => Bool.false_ne_true h.2),
    readChars_simple hown]

/-- A backslash in front of a `u`: the first one is dropped. -/
theorem slash_before_u (s : Str) : removeDoubleEscaping (Piece.slash.text ++ unit 'u' :: s) =
      unit '\\' :: unit 'u' :: removeDoubleEscaping s := by
  have hfirst : followedByEscape (unit '\\' :: unit 'u' :: s) = true := by
    rw [followedByEscape_cons]
    decide
  have hsecond : followedByEscape (unit 'u' :: s) = false := by
    cases s with
    | nil => rfl
    | cons b s =>
      have hne : unit 'u' ≠ unit '\\' := by decide
      rw [followedByEscape_cons, beq_false_of_ne hne, Bool.false_and]
  show removeDoubleEscaping (unit '\\' :: unit '\\' :: unit 'u' :: s) = _
  rw [removeDoubleEscaping_cons, if_pos ⟨rfl, hfirst⟩, removeDoubleEscaping_cons, hsecond,
    if_neg (fun h => Bool.false_ne_true h.2), removeDoubleEscaping_of_ne (by decide)]

/-- A backslash in front of an escape: the second one is dropped, and the escape is read as text. -/
theorem readChars_slash_long (u : UInt16) (s : Str) :
    readChars (removeDoubleEscaping (Piece.slash.text ++ (unicodeEscape u ++ s))) =
      (readChars (removeDoubleEscaping s)).map fun q => (unicodeEscape u ++ q.1, q.2) := by
  have hu := u.toNat_lt
  have hfirst : followedByEscape (unit '\\' :: (unicodeEscape u ++ s)) = false := by
    unfold unicodeEscape
    simp only [cons_append]
    rw [followedByEscape_cons]
    decide
  have hown : (jsonEscapes.find? fun y => y.1 = unit '\\') = some (unit '\\', unit '\\') := by decide
  have hletter : IsPlain (unit 'u') := by decide
  show readChars (removeDoubleEscaping (unit '\\' :: unit '\\' :: (unicodeEscape u ++ s))) = _
  rw [removeDoubleEscaping_cons, if_neg (fun h => Bool.false_ne_true h.2),
    removeDoubleEscaping_cons, if_pos ⟨rfl, followedByEscape_unicodeEscape u s⟩,
    removeDoubleEscaping_unicodeEscape]
  unfold unicodeEscape
  simp only [cons_append, List.nil_append]
  rw [readChars_simple hown, readChars_plain hletter,
    readChars_plain (lowerDigit_spec (show u.toNat / 4096 < 16 by omega)).2.2,
    readChars_plain (lowerDigit_spec (show u.toNat / 256 % 16 < 16 by omega)).2.2,
    readChars_plain (lowerDigit_spec (show u.toNat / 16 % 16 < 16 by omega)).2.2,
    readChars_plain (lowerDigit_spec (show u.toNat % 16 < 16 by omega)).2.2]
  simp only [Option.map_map]
  rfl

/-- A backslash is never dropped without leaving another one. -/
theorem exists_removeDoubleEscaping_slash (s : Str) :
    ∃ r, removeDoubleEscaping (unit '\\' :: s) = unit '\\' :: r := by
  rw [removeDoubleEscaping_cons]
  by_cases h : unit '\\' = unit '\\' ∧ followedByEscape s = true
  · rw [if_pos h]
    obtain ⟨-, h⟩ := h
    cases s with
    | nil => cases h
    | cons a s =>
      cases s with
      | nil => cases h
      | cons b s =>
        rw [followedByEscape_cons, Bool.and_eq_true, beq_iff_eq, beq_iff_eq] at h
        obtain ⟨rfl, rfl⟩ := h
        have hnot : followedByEscape (unit 'u' :: s) = false := by
          cases s with
          | nil => rfl
          | cons c s =>
            have hne : unit 'u' ≠ unit '\\' := by decide
            rw [followedByEscape_cons, beq_false_of_ne hne, Bool.false_and]
        rw [removeDoubleEscaping_cons, hnot]
        exact ⟨_, rfl⟩
  · rw [if_neg h]
    exact ⟨_, rfl⟩

/-- What begins neither with a backslash nor with a quote is the text of a plain piece. -/
theorem exists_plain_of_head {ps : List Piece} {t : Str} (hps : ∀ p ∈ ps, p.Valid)
    (h : removeDoubleEscaping (textBefore ps t) = a :: s)
    (hslash : a ≠ unit '\\') (hquote : a ≠ unit '"') :
    ∃ ps', ps = .plain a :: ps' ∧ s = removeDoubleEscaping (textBefore ps' t) := by
  cases ps with
  | nil =>
    have hhead : removeDoubleEscaping (textBefore [] t) = unit '"' :: removeDoubleEscaping t :=
      removeDoubleEscaping_of_ne (by decide) t
    rw [hhead] at h
    cases h
    exact absurd rfl hquote
  | cons p ps =>
    have hother : ∀ r : Str, textBefore (p :: ps) t = unit '\\' :: r → False := by
      intro r hr
      obtain ⟨r', hr'⟩ := exists_removeDoubleEscaping_slash r
      rw [hr, hr'] at h
      cases h
      exact hslash rfl
    rw [textBefore_cons] at hother h
    cases p with
    | plain u =>
      have hu := hps (.plain u) mem_cons_self
      have hhead : removeDoubleEscaping ((Piece.plain u).text ++ textBefore ps t) =
          u :: removeDoubleEscaping (textBefore ps t) := removeDoubleEscaping_of_ne hu.2.2 _
      rw [hhead] at h
      cases h
      exact ⟨ps, rfl, rfl⟩
    | simple x | slash | long u | doubled u => exact absurd rfl (hother _)

theorem ne_of_digit {n : ℕ} (h : Str.digit? 16 a = some n) :
    a ≠ unit '\\' ∧ a ≠ unit '"' := by
  constructor
  · rintro rfl
    cases h
  · rintro rfl
    cases h

theorem digits_of_readHex {b c d : UInt16} (h : readHex a b c d = some u) :
    (∃ n, Str.digit? 16 a = some n) ∧ (∃ n, Str.digit? 16 b = some n) ∧
      (∃ n, Str.digit? 16 c = some n) ∧ ∃ n, Str.digit? 16 d = some n := by
  unfold readHex at h
  split at h
  · next ha hb hc hd => exact ⟨⟨_, ha⟩, ⟨_, hb⟩, ⟨_, hc⟩, ⟨_, hd⟩⟩
  · cases h

/-- **What is read of the pieces**, and what follows the string. -/
theorem readChars_pieces (ps : List Piece) (hps : ∀ p ∈ ps, p.Valid) (t : Str) :
    readChars (removeDoubleEscaping (textBefore ps t)) =
      (readPieces ps).map fun x => (x, removeDoubleEscaping t) := by
  induction ps using readPieces.induct with
  | case1 =>
    have hhead : removeDoubleEscaping (textBefore [] t) = unit '"' :: removeDoubleEscaping t :=
      removeDoubleEscaping_of_ne (by decide) t
    rw [hhead, readChars_end]
    rfl
  | case2 a b c d ps ih =>
    have hplain : ∀ u, Piece.plain u ∈ [Piece.plain a, .plain b, .plain c, .plain d] →
        u ≠ unit '\\' := fun u hu =>
      (hps (.plain u) (by simp only [mem_cons] at hu ⊢; tauto)).2.2
    have ih' := ih fun p hp => hps p (by simp only [mem_cons]; tauto)
    show readChars (removeDoubleEscaping (Piece.slash.text ++
      unit 'u' :: a :: b :: c :: d :: textBefore ps t)) = _
    rw [slash_before_u, removeDoubleEscaping_of_ne (hplain a (by simp)),
      removeDoubleEscaping_of_ne (hplain b (by simp)), removeDoubleEscaping_of_ne (hplain c (by simp)),
      removeDoubleEscaping_of_ne (hplain d (by simp)), readChars_hex, ih', readPieces]
    cases readHex a b c d with
    | none => rfl
    | some u => simp [Option.map_map, Function.comp_def]
  | case3 ps hnot =>
    have hps' : ∀ p ∈ ps, p.Valid := fun p hp => hps p (by tauto)
    show readChars (removeDoubleEscaping (Piece.slash.text ++ unit 'u' :: textBefore ps t)) = _
    rw [readPieces]
    · refine readChars_hex_eq_none fun a b c d r htext => ?_
      by_contra hsome
      obtain ⟨u, hu⟩ := Option.ne_none_iff_exists'.mp hsome
      obtain ⟨⟨_, ha⟩, ⟨_, hb⟩, ⟨_, hc⟩, ⟨_, hd⟩⟩ := digits_of_readHex hu
      obtain ⟨ps₁, rfl, h₁⟩ := exists_plain_of_head hps' htext (ne_of_digit ha).1 (ne_of_digit ha).2
      obtain ⟨ps₂, rfl, h₂⟩ := exists_plain_of_head
        (forall_mem_cons.mp hps').2 h₁.symm (ne_of_digit hb).1 (ne_of_digit hb).2
      obtain ⟨ps₃, rfl, h₃⟩ := exists_plain_of_head
        (fun p hp => hps' p (mem_cons_of_mem _ (mem_cons_of_mem _ hp))) h₂.symm
        (ne_of_digit hc).1 (ne_of_digit hc).2
      obtain ⟨ps₄, rfl, -⟩ := exists_plain_of_head (fun p hp => hps' p (by tauto)) h₃.symm
        (ne_of_digit hd).1 (ne_of_digit hd).2
      exact hnot a b c d ps₄ rfl
    · exact hnot
  | case4 w ps hw ih =>
    have hplain : (Piece.plain w).Valid := hps (.plain w) (by simp)
    have hsecond : followedByEscape (textBefore (.plain w :: ps) t) = false := by
      show followedByEscape (w :: textBefore ps t) = false
      cases textBefore ps t with
      | nil => rfl
      | cons b s => rw [followedByEscape_cons, beq_false_of_ne hplain.2.2, Bool.false_and]
    have hfirst : ∀ u ∈ (textBefore (.plain w :: ps) t).head?, u ≠ unit 'u' := by
      intro u hu
      cases hu
      exact hw
    rw [textBefore_cons, readChars_slash hfirst hsecond, textBefore_cons,
      readChars_piece hplain (fun h => by cases h), ih fun p hp => hps p (by
        tauto), readPieces_plain hw]
    simp only [Option.map_map]
    rfl
  | case5 u ps ih =>
    rw [textBefore_cons, textBefore_cons]
    show readChars (removeDoubleEscaping (Piece.slash.text ++ (unicodeEscape u ++ _))) = _
    rw [readChars_slash_long, ih fun p hp => hps p (by tauto), readPieces]
    simp only [Option.map_map]
    rfl
  | case6 p ps hplain hlong ih =>
    have hps' : ∀ q ∈ ps, q.Valid := (forall_mem_cons.mp hps).2
    rw [textBefore_cons, readPieces]
    · by_cases hslash : p = .slash
      · subst hslash
        -- What follows is neither a plain piece nor a long one.
        have hnext : (∀ u ∈ (textBefore ps t).head?, u ≠ unit 'u') ∧
            followedByEscape (textBefore ps t) = false := by
          cases ps with
          | nil =>
            refine ⟨fun u hu => ?_, ?_⟩
            · cases hu
              decide
            · show followedByEscape (unit '"' :: t) = false
              have hne : unit '"' ≠ unit '\\' := by decide
              cases t with
              | nil => rfl
              | cons b t => rw [followedByEscape_cons, beq_false_of_ne hne, Bool.false_and]
          | cons q ps =>
            have hfollowed : ∀ (b : UInt16) (r : Str), b ≠ unit 'u' →
                (∀ u ∈ (unit '\\' :: b :: r).head?, u ≠ unit 'u') ∧
                  followedByEscape (unit '\\' :: b :: r) = false := by
              intro b r hb
              refine ⟨fun u hu => ?_, ?_⟩
              · cases hu
                decide
              · rw [followedByEscape_cons, beq_false_of_ne hb, Bool.and_false]
            cases q with
            | plain w => exact absurd rfl fun h => hplain w ps rfl h
            | long w => exact absurd rfl fun h => hlong w ps rfl h
            | slash | doubled w => exact hfollowed _ _ (by decide)
            | simple x =>
              refine hfollowed x.1 _ ?_
              have hx := (hps' (.simple x) mem_cons_self).1
              have hall : (simpleEscapes.all fun e => decide (e.1 ≠ unit 'u')) = true := by decide
              exact of_decide_eq_true (all_eq_true.mp hall x hx)
        rw [readChars_slash hnext.1 hnext.2, ih hps']
        simp only [Option.map_map]
        rfl
      · rw [readChars_piece (hps p mem_cons_self) hslash, ih hps']
        simp only [Option.map_map]
        rfl
    · exact hplain
    · exact hlong

/-! ## When the string is read back -/

/-- A code unit that may need an escape of four digits weighs as much as the text of the escape. -/
def unitWeight (u : UInt16) : ℕ := if u.toNat < 32 ∨ isHigh u = true ∨ isLow u = true then 6 else 1

def weight : Str → ℕ
  | [] => 0
  | u :: s => unitWeight u + weight s

theorem one_le_unitWeight (u : UInt16) : 1 ≤ unitWeight u ∧ unitWeight u ≤ 6 := by
  unfold unitWeight
  split
  all_goals exact ⟨by decide, by decide⟩

theorem weight_unicodeEscape_append (u : UInt16) (s : Str) :
    weight (unicodeEscape u ++ s) = 6 + weight s := by
  have hu := u.toNat_lt
  have hdigit : ∀ n < 16, unitWeight (lowerDigit n) = 1 := by decide
  have hslash : unitWeight (unit '\\') = 1 := by decide
  have hletter : unitWeight (unit 'u') = 1 := by decide
  unfold unicodeEscape
  simp only [cons_append, List.nil_append, weight]
  rw [hdigit _ (by omega), hdigit _ (by omega), hdigit _ (by omega), hdigit _ (by omega)]
  omega

/-- One text is lighter than another, or as heavy and shorter. -/
def Less (x y : Str) : Prop := weight x < weight y ∨ (weight x ≤ weight y ∧ x.length < y.length)

theorem Less.ne {x y : Str} (h : Less x y) : x ≠ y := by
  rintro rfl
  rcases h with h | ⟨-, h⟩
  · exact Nat.lt_irrefl _ h
  · exact Nat.lt_irrefl _ h

theorem Less.cons {x y : Str} (h : Less x y) (u : UInt16) : Less (u :: x) (u :: y) := by
  unfold Less at h ⊢
  rw [weight, weight, length_cons, length_cons]
  omega

/-- What is read is lighter, or as heavy and shorter, unless the pieces are safe. -/
theorem less_of_readPieces (ps : List Piece) (hps : ∀ p ∈ ps, p.Valid) {x : Str}
    (h : readPieces ps = some x) :
    (safe ps = true ∧ x = ps.map Piece.of) ∨ Less x (ps.map Piece.of) := by
  induction ps using readPieces.induct generalizing x with
  | case1 =>
    cases h
    exact Or.inl ⟨rfl, rfl⟩
  | case2 a b c d ps ih =>
    obtain ⟨u, -, h⟩ := Option.bind_eq_some_iff.mp h
    obtain ⟨y, hy, rfl⟩ := Option.map_eq_some_iff.mp h
    have ih' := ih (fun p hp => hps p (by simp only [mem_cons]; tauto)) hy
    have hle : weight y ≤ weight (ps.map Piece.of) ∧
        (weight y < weight (ps.map Piece.of) ∨ y.length ≤ (ps.map Piece.of).length) := by
      rcases ih' with ⟨-, rfl⟩ | h' | ⟨h', hlen⟩
      · exact ⟨Nat.le_refl _, Or.inr (Nat.le_refl _)⟩
      · exact ⟨Nat.le_of_lt h', Or.inl h'⟩
      · exact ⟨h', Or.inr (Nat.le_of_lt hlen)⟩
    have hu := one_le_unitWeight u
    have ha := one_le_unitWeight a
    have hb := one_le_unitWeight b
    have hc := one_le_unitWeight c
    have hd := one_le_unitWeight d
    have hletter := one_le_unitWeight (unit 'u')
    have hslash := one_le_unitWeight (unit '\\')
    unfold Less
    simp only [map_cons, weight, Piece.of, length_cons]
    omega
  | case3 ps hnot =>
    rw [readPieces] at h
    · cases h
    · exact hnot
  | case4 w ps hw ih =>
    rw [readPieces_plain hw] at h
    obtain ⟨y, hy, rfl⟩ := Option.map_eq_some_iff.mp h
    rcases ih (fun p hp => hps p (by tauto)) hy with ⟨hsafe, rfl⟩ | hless
    · refine Or.inl ⟨?_, rfl⟩
      have hplain : safe (.plain w :: ps) = safe ps := rfl
      rw [safe, hplain, hsafe, Bool.and_true, bne_iff_ne]
      exact hw
    · exact Or.inr ((hless.cons w).cons (unit '\\'))
  | case5 u ps ih =>
    obtain ⟨y, hy, rfl⟩ := Option.map_eq_some_iff.mp h
    have ih' := ih (fun p hp => hps p (by tauto)) hy
    have hle : weight y ≤ weight (ps.map Piece.of) := by
      rcases ih' with ⟨-, rfl⟩ | h' | ⟨h', -⟩
      · exact Nat.le_refl _
      · exact Nat.le_of_lt h'
      · exact h'
    have hlong : unitWeight u = 6 := if_pos (hps (.long u) (by simp))
    have hslash := one_le_unitWeight (unit '\\')
    unfold Less
    rw [weight_unicodeEscape_append]
    simp only [map_cons, weight, Piece.of]
    omega
  | case6 p ps hplain hlong ih =>
    rw [readPieces] at h
    · obtain ⟨y, hy, rfl⟩ := Option.map_eq_some_iff.mp h
      rcases ih (forall_mem_cons.mp hps).2 hy with ⟨hsafe, rfl⟩ | hless
      · refine Or.inl ⟨?_, rfl⟩
        rw [safe]
        · exact hsafe
        · exact hplain
        · exact hlong
      · exact Or.inr (hless.cons p.of)
    · exact hplain
    · exact hlong

theorem readPieces_of_safe (ps : List Piece) (h : safe ps = true) :
    readPieces ps = some (ps.map Piece.of) := by
  induction ps using readPieces.induct with
  | case1 => rfl
  | case2 a b c d ps ih =>
    cases h
  | case3 ps hnot =>
    cases h
  | case4 w ps hw ih =>
    have hplain : safe (.plain w :: ps) = safe ps := rfl
    rw [safe, Bool.and_eq_true] at h
    rw [readPieces_plain hw, ih h.2]
    rfl
  | case5 u ps ih =>
    cases h
  | case6 p ps hplain hlong ih =>
    rw [safe] at h
    · rw [readPieces]
      · rw [ih h]
        rfl
      · exact hplain
      · exact hlong
    · exact hplain
    · exact hlong

/-- **The string is read back exactly when its pieces are safe.** -/
theorem readPieces_eq_iff {ps : List Piece} (hps : ∀ p ∈ ps, p.Valid) :
    readPieces ps = some (ps.map Piece.of) ↔ safe ps = true := by
  refine ⟨fun h => ?_, readPieces_of_safe ps⟩
  rcases less_of_readPieces ps hps h with ⟨hsafe, -⟩ | hless
  · exact hsafe
  · exact absurd rfl hless.ne

/-! ## The payload -/

/-- The text of a literal after the replacement. -/
def replaced (s : Str) : Str := removeDoubleEscaping (quote s)

theorem replaced_append (s t : Str) :
    removeDoubleEscaping (quote s ++ t) = replaced s ++ removeDoubleEscaping t := by
  refine removeDoubleEscaping_append (fun u hu => ?_) t
  rw [quote, ← cons_append, getLast?_concat] at hu
  cases hu
  decide

theorem readsAs_pieces (text : Str → Str) {pieces : Str → List Piece}
    (h : ∀ s, (pieces s).flatMap Piece.text = quoteBody (text s))
    (hvalid : ∀ s, ∀ p ∈ pieces s, p.Valid) :
    ReadsAs (fun s => replaced (text s)) fun s => readPieces (pieces s) := by
  intro s
  have hquote : replaced (text s) = unit '"' ::
      removeDoubleEscaping (quoteBody (text s) ++ [unit '"']) :=
    removeDoubleEscaping_of_ne (by decide) _
  refine ⟨_, hquote, fun t => ?_⟩
  obtain ⟨t', rfl⟩ := exists_removeDoubleEscaping_eq t
  have hlast : ∀ u ∈ (quoteBody (text s) ++ [unit '"']).getLast?, u ≠ unit '\\' := by
    intro u hu
    rw [getLast?_concat] at hu
    cases hu
    decide
  rw [← removeDoubleEscaping_append hlast, append_assoc, ← h s]
  exact readChars_pieces (pieces s) (hvalid s) t'

mutual

theorem write_encodeStrings (key str : Str → Str) : ∀ v : Json,
    Json.write key str (encodeStrings v) = Json.write key (fun s => str (encodeUnicode s)) v
  | .null | .bool _ | .num _ | .str _ | .arr [] | .obj [] => rfl
  | .arr (item :: items) => by
    have hitem := write_encodeStrings key str item
    have hitems := write_encodeItems key str items
    rw [encodeStrings, encodeItems, Json.write, Json.write, hitem, hitems]
  | .obj ((k, value) :: members) => by
    have hvalue := write_encodeStrings key str value
    have hmembers := write_encodeMembers key str members
    rw [encodeStrings, encodeMembers, Json.write, Json.write, hvalue, hmembers]

theorem write_encodeItems (key str : Str → Str) : ∀ items : List Json,
    Json.writeItems key str (encodeItems items) =
      Json.writeItems key (fun s => str (encodeUnicode s)) items
  | [] => rfl
  | item :: items => by
    have hitem := write_encodeStrings key str item
    have hitems := write_encodeItems key str items
    rw [encodeItems, Json.writeItems, Json.writeItems, hitem, hitems]

theorem write_encodeMembers (key str : Str → Str) : ∀ members : List (Str × Json),
    Json.writeMembers key str (encodeMembers members) =
      Json.writeMembers key (fun s => str (encodeUnicode s)) members
  | [] => rfl
  | (k, value) :: members => by
    have hvalue := write_encodeStrings key str value
    have hmembers := write_encodeMembers key str members
    rw [encodeMembers, Json.writeMembers, Json.writeMembers, hvalue, hmembers]

end

mutual

theorem numerals_encodeStrings : ∀ v : Json, (encodeStrings v).numerals = v.numerals
  | .null | .bool _ | .num _ | .str _ => rfl
  | .arr items => numerals_encodeItems items
  | .obj members => numerals_encodeMembers members

theorem numerals_encodeItems : ∀ items : List Json,
    Json.numeralsOfItems (encodeItems items) = Json.numeralsOfItems items
  | [] => rfl
  | item :: items => by
    rw [encodeItems, Json.numeralsOfItems, Json.numeralsOfItems, numerals_encodeStrings item,
      numerals_encodeItems items]

theorem numerals_encodeMembers : ∀ members : List (Str × Json),
    Json.numeralsOfMembers (encodeMembers members) = Json.numeralsOfMembers members
  | [] => rfl
  | (k, value) :: members => by
    rw [encodeMembers, Json.numeralsOfMembers, Json.numeralsOfMembers, numerals_encodeStrings value,
      numerals_encodeMembers members]

end

/-- The text of a number holds no backslash. -/
theorem notMem_slash {n : Numeral} (h : n.isFinite = true) : unit '\\' ∉ n.text := by
  intro hmem
  have hunit := all_eq_true.mp (Numeral.text_of_isFinite h).1 _ hmem
  exact absurd hunit (by decide)

section Replace

variable (str : Str → Str)

theorem ne_of_getLast? {s : Str} {w : UInt16} (hlast : s.getLast? = some w) (hw : w ≠ unit '\\') :
    ∀ u ∈ s.getLast?, u ≠ unit '\\' := by
  intro u hu
  rw [hlast] at hu
  exact Option.some.inj hu ▸ hw

mutual

/-- **The replacement goes through the text of a value** to the keys and strings in it. -/
theorem replace_write : ∀ (v : Json) (t : Str), (∀ n ∈ v.numerals, n.isFinite = true) →
    removeDoubleEscaping (Json.write quote (fun s => quote (str s)) v ++ t) =
      Json.write replaced (fun s => replaced (str s)) v ++ removeDoubleEscaping t
  | .null, t, _ => removeDoubleEscaping_append (s := lit "null")
      (ne_of_getLast? (w := unit 'l') rfl (by decide)) t
  | .bool true, t, _ => removeDoubleEscaping_append (s := lit "true")
      (ne_of_getLast? (w := unit 'e') rfl (by decide)) t
  | .bool false, t, _ => removeDoubleEscaping_append (s := lit "false")
      (ne_of_getLast? (w := unit 'e') rfl (by decide)) t
  | .num n, t, hn => by
    have hslash := notMem_slash (hn n (mem_singleton.mpr rfl))
    show removeDoubleEscaping (n.text ++ t) = n.text ++ removeDoubleEscaping t
    rw [removeDoubleEscaping_append (fun u hu he => hslash (he ▸ mem_of_mem_getLast? hu)),
      removeDoubleEscaping_of_notMem hslash]
  | .str s, t, _ => replaced_append (str s) t
  | .arr [], t, _ => removeDoubleEscaping_append (s := [91, 93])
      (ne_of_getLast? (w := 93) rfl (by decide)) t
  | .arr (item :: items), t, hn => by
    have hitem := replace_write item (Json.writeItems quote (fun s => quote (str s)) items ++ t)
      (forall_mem_append.mp hn).1
    have hitems := replace_writeItems items t (forall_mem_append.mp hn).2
    rw [Json.write, Json.write, cons_append, append_assoc, removeDoubleEscaping_of_ne (by decide), hitem,
      hitems, cons_append, append_assoc]
  | .obj [], t, _ => removeDoubleEscaping_append (s := [123, 125])
      (ne_of_getLast? (w := 125) rfl (by decide)) t
  | .obj ((k, value) :: members), t, hn => by
    have hvalue := replace_write value (Json.writeMembers quote (fun s => quote (str s)) members ++ t)
      (forall_mem_append.mp hn).1
    have hmembers := replace_writeMembers members t (forall_mem_append.mp hn).2
    rw [Json.write, Json.write]
    simp only [cons_append, append_assoc]
    rw [removeDoubleEscaping_of_ne (by decide), replaced_append, removeDoubleEscaping_of_ne (by decide), hvalue, hmembers]

theorem replace_writeItems : ∀ (items : List Json) (t : Str),
    (∀ n ∈ Json.numeralsOfItems items, n.isFinite = true) →
    removeDoubleEscaping (Json.writeItems quote (fun s => quote (str s)) items ++ t) =
      Json.writeItems replaced (fun s => replaced (str s)) items ++ removeDoubleEscaping t
  | [], t, _ => removeDoubleEscaping_append (s := [93]) (ne_of_getLast? (w := 93) rfl (by decide)) t
  | item :: items, t, hn => by
    have hitem := replace_write item (Json.writeItems quote (fun s => quote (str s)) items ++ t)
      (forall_mem_append.mp hn).1
    have hitems := replace_writeItems items t (forall_mem_append.mp hn).2
    rw [Json.writeItems, Json.writeItems, cons_append, append_assoc,
      removeDoubleEscaping_of_ne (by decide), hitem, hitems, cons_append, append_assoc]

theorem replace_writeMembers : ∀ (members : List (Str × Json)) (t : Str),
    (∀ n ∈ Json.numeralsOfMembers members, n.isFinite = true) →
    removeDoubleEscaping (Json.writeMembers quote (fun s => quote (str s)) members ++ t) =
      Json.writeMembers replaced (fun s => replaced (str s)) members ++ removeDoubleEscaping t
  | [], t, _ => removeDoubleEscaping_append (s := [125])
      (ne_of_getLast? (w := 125) rfl (by decide)) t
  | (k, value) :: members, t, hn => by
    have hvalue := replace_write value (Json.writeMembers quote (fun s => quote (str s)) members ++ t)
      (forall_mem_append.mp hn).1
    have hmembers := replace_writeMembers members t (forall_mem_append.mp hn).2
    rw [Json.writeMembers, Json.writeMembers]
    simp only [cons_append, append_assoc]
    rw [removeDoubleEscaping_of_ne (by decide), replaced_append, removeDoubleEscaping_of_ne (by decide), hvalue, hmembers]

end

end Replace

/-- The numbers of a payload are numbers of JSON. -/
def IsPayload (payload : Json) : Prop := ∀ n ∈ payload.numerals, n.isJson = true

theorem encode_eq_write (h : IsPayload payload) :
    encode payload = Json.write replaced (fun s => replaced (encodeUnicode s)) payload := by
  have hfinite : ∀ n ∈ payload.numerals, n.isFinite = true := by
    intro n hn
    have hjson := h n hn
    exact (Bool.and_eq_true_iff.mp hjson).1
  have htext := replace_write encodeUnicode payload [] hfinite
  rw [append_nil, show removeDoubleEscaping [] = [] from rfl, append_nil] at htext
  rw [encode, Json.stringify_eq_write _ (by rw [numerals_encodeStrings]; exact hfinite),
    write_encodeStrings, htext]

/-- **What is read of the payload**: its keys and strings as they are read, and all else as it
was. -/
theorem parse_encode (h : IsPayload payload) : Json.parse (encode payload) =
      Json.decode (fun k => readPieces (keyPieces k)) (fun s => readPieces (valuePieces s)) payload := by
  rw [encode_eq_write h]
  refine Json.parse_write ?_ ?_ h
  · exact readsAs_pieces (fun k => k) (fun k => (keyPieces_spec k).1)
      fun k => (keyPieces_spec k).2.2
  · exact readsAs_pieces encodeUnicode (fun s => (valuePieces_spec s).1)
      fun s => (valuePieces_spec s).2.2

/-! ## ASCII -/

theorem mem_escapeUnit (h : w ∈ escapeUnit u) : w.toNat ≤ 127 ∨ w = u := by
  unfold escapeUnit at h
  split at h
  · next e he =>
    have hall : (simpleEscapes.all fun e => decide (e.1.toNat ≤ 127)) = true := by decide
    have hmem := mem_of_find?_eq_some he
    simp only [mem_cons, not_mem_nil, or_false] at h
    rcases h with rfl | rfl
    · exact Or.inl (by decide)
    · exact Or.inl (of_decide_eq_true (all_eq_true.mp hall e hmem))
  · split at h
    · exact Or.inl (ascii_unicodeEscape h)
    · exact Or.inr (mem_singleton.mp h)

theorem mem_quoteBody (h : w ∈ quoteBody s) : w.toNat ≤ 127 ∨ w ∈ s := by
  have hunit : ∀ u, w ∈ (if isHigh u || isLow u then unicodeEscape u else escapeUnit u) →
      w.toNat ≤ 127 ∨ w = u := by
    intro u hw
    split at hw
    · exact Or.inl (ascii_unicodeEscape hw)
    · exact mem_escapeUnit hw
  induction s using quoteBody.induct with
  | case1 => exact absurd h not_mem_nil
  | case2 u hu | case3 u hu =>
    exact (hunit u h).imp_right fun he => mem_singleton.mpr he
  | case4 u x s hpair ih =>
    rw [quoteBody, if_pos hpair, mem_cons, mem_cons] at h
    rcases h with rfl | rfl | h
    · exact Or.inr mem_cons_self
    · exact Or.inr (mem_cons_of_mem _ mem_cons_self)
    · exact (ih h).imp_right fun hs => mem_cons_of_mem _ (mem_cons_of_mem _ hs)
  | case5 u x s hpair ih =>
    rw [quoteBody, if_neg hpair, mem_append] at h
    rcases h with h | h
    · exact (hunit u h).imp_right fun he => by rw [he]; exact mem_cons_self
    · exact (ih h).imp_right fun hs => mem_cons_of_mem _ hs

theorem mem_replaced (h : w ∈ replaced s) : w.toNat ≤ 127 ∨ w ∈ s := by
  have hquote := mem_of_mem_removeDoubleEscaping h
  rw [quote, mem_cons, mem_append, mem_singleton] at hquote
  rcases hquote with rfl | hbody | rfl
  · exact Or.inl (by decide)
  · exact mem_quoteBody hbody
  · exact Or.inl (by decide)

theorem ascii_number {n : Numeral} (h : n.isJson = true) (hw : w ∈ n.text) :
    w.toNat ≤ 127 := by
  have hunit := all_eq_true.mp (Numeral.text_of_isFinite (Bool.and_eq_true_iff.mp h).1).1 w hw
  unfold isNumberUnit isDecimalDigit at hunit
  simp only [Bool.or_eq_true, Bool.and_eq_true, decide_eq_true_eq, beq_iff_eq] at hunit
  rcases hunit with (((⟨-, h⟩ | rfl) | rfl) | rfl) | rfl
  · have hnine : (unit '9').toNat = 57 := by decide
    have hle := UInt16.le_iff_toNat_le.mp h
    omega
  all_goals decide

section Mem

variable {key str : Str → Str} {w : UInt16}

/-- A code unit above 127 comes from one of the keys. -/
def FromKeys (w : UInt16) (s : Str) (keys : List Str) : Prop :=
  w ∈ s → w.toNat ≤ 127 ∨ ∃ k ∈ keys, w ∈ k

theorem FromKeys.cons_append {c : UInt16} {s t : Str} {keys keys' : List Str}
    (hc : c.toNat ≤ 127) (hs : FromKeys w s keys) (ht : FromKeys w t keys') :
    FromKeys w (c :: (s ++ t)) (keys ++ keys') := by
  intro h
  rcases mem_cons.mp h with rfl | h
  · exact Or.inl hc
  rcases mem_append.mp h with h | h
  · exact (hs h).imp_right fun ⟨k, hk, hw⟩ => ⟨k, mem_append_left _ hk, hw⟩
  · exact (ht h).imp_right fun ⟨k, hk, hw⟩ => ⟨k, mem_append_right _ hk, hw⟩

theorem fromKeys_of_all {s : Str} {keys : List Str}
    (h : (s.all fun u => decide (u.toNat ≤ 127)) = true) : FromKeys w s keys :=
  fun hw => Or.inl (of_decide_eq_true (all_eq_true.mp h w hw))

mutual

/-- Where a code unit above 127 comes from. -/
theorem mem_write (hkey : ∀ k, FromKeys w (key k) [k]) (hstr : ∀ s, w ∈ str s → w.toNat ≤ 127) :
    ∀ v : Json, IsPayload v → FromKeys w (Json.write key str v) v.keys
  | .null, _ => fromKeys_of_all (s := lit "null") (by decide)
  | .bool true, _ => fromKeys_of_all (s := lit "true") (by decide)
  | .bool false, _ => fromKeys_of_all (s := lit "false") (by decide)
  | .num n, hn => fun h => Or.inl (ascii_number (hn n (mem_singleton.mpr rfl)) h)
  | .str s, _ => fun h => Or.inl (hstr s h)
  | .arr [], _ => fromKeys_of_all (s := [91, 93]) (by decide)
  | .arr (item :: items), hn =>
    .cons_append (by decide) (mem_write hkey hstr item (forall_mem_append.mp hn).1)
      (mem_writeItems hkey hstr items (forall_mem_append.mp hn).2)
  | .obj [], _ => fromKeys_of_all (s := [123, 125]) (by decide)
  | .obj ((k, value) :: members), hn =>
    .cons_append (by decide) (hkey k) (.cons_append (by decide)
      (mem_write hkey hstr value (forall_mem_append.mp hn).1)
      (mem_writeMembers hkey hstr members (forall_mem_append.mp hn).2))

theorem mem_writeItems (hkey : ∀ k, FromKeys w (key k) [k])
    (hstr : ∀ s, w ∈ str s → w.toNat ≤ 127) : ∀ items : List Json,
    (∀ n ∈ Json.numeralsOfItems items, n.isJson = true) →
    FromKeys w (Json.writeItems key str items) (Json.keysOfItems items)
  | [], _ => fromKeys_of_all (s := [93]) (by decide)
  | item :: items, hn =>
    .cons_append (by decide) (mem_write hkey hstr item (forall_mem_append.mp hn).1)
      (mem_writeItems hkey hstr items (forall_mem_append.mp hn).2)

theorem mem_writeMembers (hkey : ∀ k, FromKeys w (key k) [k])
    (hstr : ∀ s, w ∈ str s → w.toNat ≤ 127) : ∀ members : List (Str × Json),
    (∀ n ∈ Json.numeralsOfMembers members, n.isJson = true) →
    FromKeys w (Json.writeMembers key str members) (Json.keysOfMembers members)
  | [], _ => fromKeys_of_all (s := [125]) (by decide)
  | (k, value) :: members, hn =>
    .cons_append (by decide) (hkey k) (.cons_append (by decide)
      (mem_write hkey hstr value (forall_mem_append.mp hn).1)
      (mem_writeMembers hkey hstr members (forall_mem_append.mp hn).2))

end

end Mem

/-- **No string puts a code unit above 127 into the text**; only a key can. -/
theorem ascii_encode (h : IsPayload payload) :
    ∀ u ∈ encode payload, u.toNat ≤ 127 ∨ ∃ k ∈ payload.keys, u ∈ k := by
  intro u hu
  rw [encode_eq_write h] at hu
  refine mem_write (fun k hk => (mem_replaced hk).imp_right fun hw => ⟨k, mem_cons_self, hw⟩)
    (fun s hs => ?_) payload h hu
  rcases mem_replaced hs with hascii | hmem
  · exact hascii
  · exact ascii_encodeUnicode hmem

/-- **The text of a payload.**  It is ASCII apart from the keys, and it is read back as the payload
exactly when in no key and in no string a backslash stands directly in front of a `u` or of a unit
that `JSON.stringify` writes as an escape of four digits. -/
theorem parse_encode_iff (payload : Json) (h : IsPayload payload) :
    ((∀ u ∈ encode payload, u.toNat ≤ 127 ∨ ∃ k ∈ payload.keys, u ∈ k) ∧
        Json.parse (encode payload) = some payload) ↔
      (∀ k ∈ payload.keys, safe (keyPieces k) = true) ∧
        ∀ s ∈ payload.strings, safe (valuePieces s) = true := by
  have hkey : ∀ k, readPieces (keyPieces k) = some k ↔ safe (keyPieces k) = true := by
    intro k
    obtain ⟨-, hof, hvalid⟩ := keyPieces_spec k
    have hiff := readPieces_eq_iff hvalid
    rwa [hof] at hiff
  have hvalue : ∀ s, readPieces (valuePieces s) = some s ↔ safe (valuePieces s) = true := by
    intro s
    obtain ⟨-, hof, hvalid⟩ := valuePieces_spec s
    have hiff := readPieces_eq_iff hvalid
    rwa [hof] at hiff
  rw [and_iff_right (ascii_encode h), parse_encode h, Json.decode_eq_self_iff]
  simp only [hkey, hvalue]

/-- A payload with an accent, and a backslash in front of a blank. -/
def accentPayload : Json := .obj [(lit "input", .str (lit "caf\u00e9 \\ 1"))]

/-- `parse_encode_iff` at a payload. -/
theorem encode_accent :
    ((∀ u ∈ encode accentPayload, u.toNat ≤ 127 ∨ ∃ k ∈ accentPayload.keys, u ∈ k) ∧
        Json.parse (encode accentPayload) = some accentPayload) ↔
      (∀ k ∈ accentPayload.keys, safe (keyPieces k) = true) ∧
        ∀ s ∈ accentPayload.strings, safe (valuePieces s) = true :=
  parse_encode_iff accentPayload fun _ hn => absurd hn not_mem_nil

/-- A path with a directory whose name begins with `u`. -/
def pathPayload : Json := .arr [.str (lit "C:\\users")]

/-- Behind the backslash there is no escape of JSON any more. -/
theorem parse_encode_path : IsPayload pathPayload ∧ encode pathPayload = lit "[\"C:\\users\"]" ∧
      Json.parse (encode pathPayload) ≠ some pathPayload := by
  have hpayload : IsPayload pathPayload := fun _ hn => absurd hn not_mem_nil
  refine ⟨hpayload, by decide, fun h => ?_⟩
  rw [parse_encode hpayload, Json.decode_eq_self_iff] at h
  obtain ⟨-, hof, hvalid⟩ := valuePieces_spec (lit "C:\\users")
  have hread : readPieces (valuePieces (lit "C:\\users")) =
      some ((valuePieces (lit "C:\\users")).map Piece.of) := by
    exact h.2 (lit "C:\\users") mem_cons_self
  exact absurd ((readPieces_eq_iff hvalid).mp hread) (by decide)

end DdTrace.Llmobs
