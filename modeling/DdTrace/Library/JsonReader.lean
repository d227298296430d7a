import DdTrace.Library.Json

/-!
# Reading JSON

A reader of JSON text, and what it makes of a text whose strings are written in any way.

The reader follows the grammar of `JSON.parse`: white space between tokens, no control character in a
string.  Numbers are read in the form in which they are written, so the text is kept; the members of
an object are kept as they stand.

`write` writes a value with a text of one's own for its keys and for its strings, and `decode` puts
what is read of them in their place.

* `parse`: the reader.
* `stringify_eq_write`: `JSON.stringify` writes keys and strings as literals.
* `readValue_write`, `parse_write`: **a value is read back with its keys and strings replaced by what
  is read of their texts**.
* `decode_eq_self_iff`: it is the value itself when every key and every string is read back.
-/

namespace Library

open Unicode List Option

/-! ## Characters of a string -/

/-- The escapes of JSON: those that `JSON.stringify` writes, and `\/`. -/
def jsonEscapes : List (UInt16 × UInt16) := simpleEscapes ++ [(unit '/', unit '/')]

/-- The rest of a string after its opening quote: the string, and what follows the closing one. -/
def readChars : Str → Option (Str × Str)
  | [] => none
  | u :: s =>
    if u = unit '"' then some ([], s)
    else if u < 32 then none
    else if u = unit '\\' then
      match s with
      | [] => none
      | e :: s =>
        match jsonEscapes.find? fun x => x.1 = e with
        | some x => (readChars s).map fun p => (x.2 :: p.1, p.2)
        | none =>
          if e = unit 'u' then
            match s with
            | a :: b :: c :: d :: s =>
              (readHex a b c d).bind fun u => (readChars s).map fun p => (u :: p.1, p.2)
            | _ => none
          else none
    else (readChars s).map fun p => (u :: p.1, p.2)

theorem readChars_end (s : Str) : readChars (unit '"' :: s) = some ([], s) := by
  rw [readChars.eq_def]
  dsimp only
  rw [if_pos rfl]

/-- A code unit that stands for itself. -/
def IsPlain (u : UInt16) : Prop := ¬ u < 32 ∧ u ≠ unit '"' ∧ u ≠ unit '\\'

instance (u : UInt16) : Decidable (IsPlain u) := inferInstanceAs (Decidable (_ ∧ _ ∧ _))

theorem readChars_plain {u : UInt16} (h : IsPlain u) (s : Str) :
    readChars (u :: s) = (readChars s).map fun p => (u :: p.1, p.2) := by
  rw [readChars.eq_def]
  dsimp only
  rw [if_neg h.2.1, if_neg h.1, if_neg h.2.2]

theorem readChars_simple {e : UInt16} {x : UInt16 × UInt16}
    (h : (jsonEscapes.find? fun x => x.1 = e) = some x) (s : Str) :
    readChars (unit '\\' :: e :: s) = (readChars s).map fun p => (x.2 :: p.1, p.2) := by
  have hquote : unit '\\' ≠ unit '"' := by decide
  have hcontrol : ¬ unit '\\' < 32 := by decide
  rw [readChars.eq_def]
  dsimp only
  rw [if_neg hquote, if_neg hcontrol, if_pos rfl, h]

theorem readChars_hex (a b c d : UInt16) (s : Str) :
    readChars (unit '\\' :: unit 'u' :: a :: b :: c :: d :: s) =
      (readHex a b c d).bind fun u => (readChars s).map fun p => (u :: p.1, p.2) := by
  have hquote : unit '\\' ≠ unit '"' := by decide
  have hcontrol : ¬ unit '\\' < 32 := by decide
  have hfind : (jsonEscapes.find? fun x => x.1 = unit 'u') = none := by decide
  rw [readChars.eq_def]
  dsimp only
  rw [if_neg hquote, if_neg hcontrol, if_pos rfl, hfind]
  rw [if_pos rfl]

variable {s : Str}

/-- No escape without four digits. -/
theorem readChars_hex_eq_none
    (h : ∀ a b c d r, s = a :: b :: c :: d :: r → readHex a b c d = none) :
    readChars (unit '\\' :: unit 'u' :: s) = none := by
  have hquote : unit '\\' ≠ unit '"' := by decide
  have hcontrol : ¬ unit '\\' < 32 := by decide
  have hfind : (jsonEscapes.find? fun x => x.1 = unit 'u') = none := by decide
  rw [readChars.eq_def]
  dsimp only
  rw [if_neg hquote, if_neg hcontrol, if_pos rfl, hfind]
  dsimp only
  rw [if_pos rfl]
  split
  · next a b c d r =>
    rw [h a b c d r rfl]
    rfl
  · rfl

theorem readHex_unicodeEscape (u : UInt16) :
    readHex (lowerDigit (u.toNat / 4096)) (lowerDigit (u.toNat / 256 % 16))
      (lowerDigit (u.toNat / 16 % 16)) (lowerDigit (u.toNat % 16)) = some u := by
  have hu := u.toNat_lt
  rw [readHex, digit?_lowerDigit (by omega), digit?_lowerDigit (by omega),
    digit?_lowerDigit (by omega), digit?_lowerDigit (by omega)]
  dsimp only
  rw [show u.toNat / 4096 * 4096 + u.toNat / 256 % 16 * 256 + u.toNat / 16 % 16 * 16 +
    u.toNat % 16 = u.toNat by omega, toUInt16_toNat]

theorem readChars_unicodeEscape (u : UInt16) (s : Str) :
    readChars (unicodeEscape u ++ s) = (readChars s).map fun p => (u :: p.1, p.2) := by
  rw [unicodeEscape]
  simp only [cons_append, List.nil_append]
  rw [readChars_hex, readHex_unicodeEscape, bind_some]

/-! ## Numbers -/

/-- What the text of a number is made of. -/
def isNumberUnit (u : UInt16) : Bool :=
  isDecimalDigit u || u == unit '-' || u == unit '+' || u == unit '.' || u == unit 'e'

/-- The text without its sign. -/
def magnitude (s : Str) : Str := if s.headD 0 = unit '-' then s.drop 1 else s

/-- The text of the number is JSON: it is finite, and has no leading zero. -/
def Numeral.isJson (n : Numeral) : Bool :=
  n.isFinite && !((magnitude n.text).headD 0 == unit '0' &&
    isDecimalDigit (((magnitude n.text).drop 1).headD 0))

/-- The number at the start of a text. -/
def readNumber (s : Str) : Option (Numeral × Str) :=
  if h : isMagnitude (magnitude (s.takeWhile isNumberUnit)) = true then
    let n : Numeral := ⟨s.takeWhile isNumberUnit, h⟩
    if n.isJson then some (n, s.dropWhile isNumberUnit) else none
  else none

/-- No number goes on. -/
def Ends (t : Str) : Prop := ∀ u ∈ t.head?, isNumberUnit u = false

theorem isNumberUnit_of_isDecimalDigit {u : UInt16} (h : isDecimalDigit u = true) :
    isNumberUnit u = true := by
  unfold isNumberUnit
  rw [h]
  rfl

theorem all_isNumberUnit_of_digits (h : s.all isDecimalDigit = true) :
    s.all isNumberUnit = true := by
  rw [List.all_eq_true] at h ⊢
  exact fun u hu => isNumberUnit_of_isDecimalDigit (h u hu)

theorem all_isNumberUnit_of_isExponent (h : isExponent s = true) :
    s.all isNumberUnit = true := by
  unfold isExponent at h
  cases s with
  | nil => rfl
  | cons u s =>
    rw [Bool.and_eq_true] at h
    obtain ⟨he, h⟩ := h
    have hu : isNumberUnit u = true := by
      rw [beq_iff_eq.mp he]
      decide
    rw [all_cons, hu]
    cases s with
    | nil => cases h
    | cons w s =>
      dsimp only at h
      rw [all_cons]
      split at h
      · next hw =>
        rw [Bool.and_eq_true] at h
        have hw' : isNumberUnit w = true := by
          rcases hw with rfl | rfl
          · decide
          · decide
        rw [hw']
        exact all_isNumberUnit_of_digits h.2
      · rw [Bool.and_eq_true] at h
        rw [isNumberUnit_of_isDecimalDigit h.1]
        exact all_isNumberUnit_of_digits h.2

/-- The digits at the start, and what follows them. -/
theorem all_isNumberUnit_of_dropWhile (h : (s.dropWhile isDecimalDigit).all isNumberUnit = true) :
    s.all isNumberUnit = true := by
  rw [← takeWhile_append_dropWhile (p := isDecimalDigit) (l := s), all_append, h, Bool.and_true]
  exact all_isNumberUnit_of_digits (all_takeWhile)

theorem all_isNumberUnit_of_isFraction (h : isFraction s = true) :
    s.all isNumberUnit = true := by
  unfold isFraction at h
  cases s with
  | nil => rfl
  | cons u s =>
    dsimp only at h
    split at h
    · next hu =>
      rw [Bool.and_eq_true] at h
      have hu' : isNumberUnit u = true := by
        rw [hu]
        decide
      rw [all_cons, hu']
      exact all_isNumberUnit_of_dropWhile (all_isNumberUnit_of_isExponent h.2)
    · exact all_isNumberUnit_of_isExponent h

/-- A finite number begins with a sign or a digit, and all of its text is that of a number. -/
theorem Numeral.text_of_isFinite {n : Numeral} (h : n.isFinite = true) :
    n.text.all isNumberUnit = true ∧ ∃ u s, n.text = u :: s ∧
      (u = unit '-' ∨ isDecimalDigit u = true) := by
  unfold Numeral.isFinite at h
  rw [Bool.and_eq_true, bne_iff_ne, bne_iff_ne] at h
  have hmagnitude := n.isNumber
  have hdigits : ∀ {m : Str}, isMagnitude m = true → m ≠ lit "Infinity" →
      isDecimalDigit (m.headD 0) = true ∧ m.all isNumberUnit = true := by
    intro m hm hne
    unfold isMagnitude at hm
    rw [Bool.or_eq_true, beq_iff_eq, Bool.and_eq_true] at hm
    rcases hm with hm | ⟨hd, hf⟩
    · exact absurd hm hne
    · exact ⟨hd, all_isNumberUnit_of_dropWhile (all_isNumberUnit_of_isFraction hf)⟩
  cases htext : n.text with
  | nil =>
    rw [htext] at hmagnitude
    exact absurd hmagnitude (by decide)
  | cons u s =>
    rw [htext] at hmagnitude h
    by_cases hu : u = unit '-'
    · subst hu
      have hs : isMagnitude s = true := hmagnitude
      have hne : s ≠ lit "Infinity" := by
        rintro rfl
        exact h.2 (by decide)
      refine ⟨?_, _, _, rfl, Or.inl rfl⟩
      rw [all_cons, (hdigits hs hne).2]
      rfl
    · have hs : isMagnitude (u :: s) = true := by
        rwa [headD_cons, if_neg hu] at hmagnitude
      obtain ⟨hd, hall⟩ := hdigits hs h.1
      exact ⟨hall, _, _, rfl, Or.inr hd⟩

theorem readNumber_text {n : Numeral} (h : n.isJson = true) {t : Str} (ht : Ends t) :
    readNumber (n.text ++ t) = some (n, t) := by
  have hfinite : n.isFinite = true := by
    exact (Bool.and_eq_true_iff.mp h).1
  obtain ⟨hall, -⟩ := Numeral.text_of_isFinite hfinite
  have hunits : ∀ u ∈ n.text, isNumberUnit u = true := List.all_eq_true.mp hall
  have htake : (n.text ++ t).takeWhile isNumberUnit = n.text := by
    rw [takeWhile_append_of_pos hunits]
    cases t with
    | nil => rw [takeWhile_nil, append_nil]
    | cons u t =>
      rw [takeWhile_cons_of_neg (by rw [ht u rfl]; exact Bool.false_ne_true), append_nil]
  have hdrop : (n.text ++ t).dropWhile isNumberUnit = t := by
    rw [dropWhile_append_of_pos hunits]
    cases t with
    | nil => rfl
    | cons u t => rw [dropWhile_cons_of_neg (by rw [ht u rfl]; exact Bool.false_ne_true)]
  have hnumber : isMagnitude (magnitude ((n.text ++ t).takeWhile isNumberUnit)) = true := by
    rw [htake]
    exact n.isNumber
  have hsame : (⟨(n.text ++ t).takeWhile isNumberUnit, hnumber⟩ : Numeral) = n := by
    congr
  unfold readNumber
  rw [dif_pos hnumber, hsame, hdrop]
  rw [if_pos h]

/-! ## Values -/

namespace Json

/-- White space between tokens. -/
def isWhite (u : UInt16) : Bool := u == 32 || u == 9 || u == 10 || u == 13

def skipWhite (s : Str) : Str := s.dropWhile isWhite

/-- A value that is neither a string nor an array nor an object. -/
def readAtom (s : Str) : Option (Json × Str) :=
  if (lit "null").isPrefixOf s then some (null, s.drop 4)
  else if (lit "true").isPrefixOf s then some (bool true, s.drop 4)
  else if (lit "false").isPrefixOf s then some (bool false, s.drop 5)
  else (readNumber s).map fun p => (num p.1, p.2)

mutual

/-- The value at the start of a text, and what follows it. -/
def readValue : ℕ → Str → Option (Json × Str)
  | 0, _ => none
  | fuel + 1, s =>
    match skipWhite s with
    | [] => none
    | u :: s =>
      if u = unit '"' then (readChars s).map fun p => (str p.1, p.2)
      else if u = 91 then
        match skipWhite s with
        | [] => none
        | w :: rest =>
          if w = 93 then some (arr [], rest)
          else (readValue fuel (w :: rest)).bind fun p =>
            (readItems fuel p.2).map fun q => (arr (p.1 :: q.1), q.2)
      else if u = 123 then
        match skipWhite s with
        | [] => none
        | w :: rest =>
          if w = 125 then some (obj [], rest)
          else (readMember fuel (w :: rest)).bind fun p =>
            (readMembers fuel p.2).map fun q => (obj (p.1 :: q.1), q.2)
      else readAtom (u :: s)

/-- The items behind one of an array. -/
def readItems : ℕ → Str → Option (List Json × Str)
  | 0, _ => none
  | fuel + 1, s =>
    match skipWhite s with
    | [] => none
    | u :: s =>
      if u = 93 then some ([], s)
      else if u = unit ',' then (readValue fuel s).bind fun p =>
        (readItems fuel p.2).map fun q => (p.1 :: q.1, q.2)
      else none

/-- A member of an object. -/
def readMember : ℕ → Str → Option ((Str × Json) × Str)
  | 0, _ => none
  | fuel + 1, s =>
    match skipWhite s with
    | [] => none
    | u :: s =>
      if u = unit '"' then (readChars s).bind fun k =>
        match skipWhite k.2 with
        | [] => none
        | w :: rest => if w = unit ':' then (readValue fuel rest).map fun p => ((k.1, p.1), p.2)
          else none
      else none

/-- The members behind one of an object. -/
def readMembers : ℕ → Str → Option (List (Str × Json) × Str)
  | 0, _ => none
  | fuel + 1, s =>
    match skipWhite s with
    | [] => none
    | u :: s =>
      if u = 125 then some ([], s)
      else if u = unit ',' then (readMember fuel s).bind fun p =>
        (readMembers fuel p.2).map fun q => (p.1 :: q.1, q.2)
      else none

end

/-- `JSON.parse` -/
def parse (s : Str) : Option Json :=
  (readValue (s.length + 1) s).bind fun p => if skipWhite p.2 = [] then some p.1 else none

/-! ## Writing with any strings -/

mutual

/-- The text of a value whose keys and strings are written in a way of their own. -/
def write (key str : Str → Str) : Json → Str
  | null => lit "null"
  | bool b => if b then lit "true" else lit "false"
  | num n => n.text
  | .str s => str s
  | arr [] => [91, 93]
  | arr (item :: items) => 91 :: (write key str item ++ writeItems key str items)
  | obj [] => [123, 125]
  | obj ((k, value) :: members) =>
    123 :: (key k ++ unit ':' :: (write key str value ++ writeMembers key str members))

def writeItems (key str : Str → Str) : List Json → Str
  | [] => [93]
  | item :: items => unit ',' :: (write key str item ++ writeItems key str items)

def writeMembers (key str : Str → Str) : List (Str × Json) → Str
  | [] => [125]
  | (k, value) :: members =>
    unit ',' :: (key k ++ unit ':' :: (write key str value ++ writeMembers key str members))

end

mutual

/-- The value with what is read of its keys and strings. -/
def decode (key str : Str → Option Str) : Json → Option Json
  | null => some null
  | bool b => some (bool b)
  | num n => some (num n)
  | .str s => (str s).map Json.str
  | arr items => (decodeItems key str items).map arr
  | obj members => (decodeMembers key str members).map obj

def decodeItems (key str : Str → Option Str) : List Json → Option (List Json)
  | [] => some []
  | item :: items => (decode key str item).bind fun x =>
    (decodeItems key str items).map fun xs => x :: xs

def decodeMembers (key str : Str → Option Str) : List (Str × Json) → Option (List (Str × Json))
  | [] => some []
  | (k, value) :: members => (key k).bind fun j => (decode key str value).bind fun x =>
    (decodeMembers key str members).map fun xs => (j, x) :: xs

end

mutual

/-- The numbers in a value. -/
def numerals : Json → List Numeral
  | num n => [n]
  | arr items => numeralsOfItems items
  | obj members => numeralsOfMembers members
  | null | bool _ | str _ => []

def numeralsOfItems : List Json → List Numeral
  | [] => []
  | item :: items => numerals item ++ numeralsOfItems items

def numeralsOfMembers : List (Str × Json) → List Numeral
  | [] => []
  | (_, value) :: members => numerals value ++ numeralsOfMembers members

end

mutual

/-- The strings in a value, keys apart. -/
def strings : Json → List Str
  | str s => [s]
  | arr items => stringsOfItems items
  | obj members => stringsOfMembers members
  | null | bool _ | num _ => []

def stringsOfItems : List Json → List Str
  | [] => []
  | item :: items => strings item ++ stringsOfItems items

def stringsOfMembers : List (Str × Json) → List Str
  | [] => []
  | (_, value) :: members => strings value ++ stringsOfMembers members

end

mutual

/-- The keys in a value. -/
def keys : Json → List Str
  | arr items => keysOfItems items
  | obj members => keysOfMembers members
  | null | bool _ | num _ | str _ => []

def keysOfItems : List Json → List Str
  | [] => []
  | item :: items => keys item ++ keysOfItems items

def keysOfMembers : List (Str × Json) → List Str
  | [] => []
  | (k, value) :: members => k :: (keys value ++ keysOfMembers members)

end

mutual

/-- How deep the reader goes. -/
def size : Json → ℕ
  | arr (item :: items) => 1 + size item + sizeItems items
  | obj ((_, value) :: members) => 2 + size value + sizeMembers members
  | null | bool _ | num _ | str _ | arr [] | obj [] => 1

def sizeItems : List Json → ℕ
  | [] => 1
  | item :: items => 1 + size item + sizeItems items

def sizeMembers : List (Str × Json) → ℕ
  | [] => 1
  | (_, value) :: members => 2 + size value + sizeMembers members

end

end Json

/-! ## Reading what was written -/

/-- What is read of the texts of strings: a text begins with a quote, and behind it the reader finds
the string and stops at the end of the text. -/
def ReadsAs (text : Str → Str) (read : Str → Option Str) : Prop :=
  ∀ s, ∃ body, text s = unit '"' :: body ∧ ∀ t, readChars (body ++ t) = (read s).map fun x => (x, t)

namespace Json

variable {u : UInt16}

theorem skipWhite_cons (h : isWhite u = false) (s : Str) : skipWhite (u :: s) = u :: s := by
  rw [skipWhite, dropWhile_cons_of_neg (by rw [h]; exact Bool.false_ne_true)]

theorem ends_cons (h : isNumberUnit u = false) (s : Str) : Ends (u :: s) := by
  intro w hw
  cases hw
  exact h

/-- The first code unit of a number. -/
theorem numberStart (h : u = unit '-' ∨ isDecimalDigit u = true) :
    isWhite u = false ∧ u ≠ unit '"' ∧ u ≠ 91 ∧ u ≠ 93 ∧ u ≠ 123 ∧ u ≠ unit 'n' ∧ u ≠ unit 't' ∧
      u ≠ unit 'f' := by
  rcases h with rfl | h
  · decide
  · have hrange : 48 ≤ u.toNat ∧ u.toNat ≤ 57 := by
      unfold isDecimalDigit at h
      rw [Bool.and_eq_true, decide_eq_true_iff, decide_eq_true_iff] at h
      exact h
    have hne : ∀ w : UInt16, w.toNat < 48 ∨ 57 < w.toNat → u ≠ w := by
      rintro w hw rfl
      omega
    refine ⟨?_, hne _ (by decide), hne _ (by decide), hne _ (by decide), hne _ (by decide),
      hne _ (by decide), hne _ (by decide), hne _ (by decide)⟩
    unfold isWhite
    rw [beq_false_of_ne (hne 32 (by decide)), beq_false_of_ne (hne 9 (by decide)),
      beq_false_of_ne (hne 10 (by decide)), beq_false_of_ne (hne 13 (by decide))]
    rfl

theorem readAtom_num {n : Numeral} (h : n.isJson = true) {t : Str} (ht : Ends t) :
    readAtom (n.text ++ t) = some (num n, t) := by
  have hfinite : n.isFinite = true := by
    exact (Bool.and_eq_true_iff.mp h).1
  obtain ⟨-, u, s, htext, hstart⟩ := Numeral.text_of_isFinite hfinite
  obtain ⟨-, -, -, -, -, hn, ht', hf⟩ := numberStart hstart
  have hnull : (lit "null").isPrefixOf (u :: (s ++ t)) = false := by
    show ((unit 'n' == u) && _) = false
    rw [beq_false_of_ne hn.symm, Bool.false_and]
  have htrue : (lit "true").isPrefixOf (u :: (s ++ t)) = false := by
    show ((unit 't' == u) && _) = false
    rw [beq_false_of_ne ht'.symm, Bool.false_and]
  have hfalse : (lit "false").isPrefixOf (u :: (s ++ t)) = false := by
    show ((unit 'f' == u) && _) = false
    rw [beq_false_of_ne hf.symm, Bool.false_and]
  have hread := readNumber_text h ht
  rw [htext] at hread
  unfold readAtom
  rw [htext]
  rw [cons_append] at hread ⊢
  rw [hnull, htrue, hfalse, hread]
  rfl

/-- A value begins with a code unit that is neither white space nor a closing bracket. -/
theorem write_eq_cons (key : Str → Str) {str : Str → Str} {ss : Str → Option Str}
    (hstr : ReadsAs str ss)
    {v : Json} (hn : ∀ n ∈ v.numerals, n.isJson = true) :
    ∃ u s, write key str v = u :: s ∧ isWhite u = false ∧ u ≠ 93 := by
  cases v with
  | null => exact ⟨unit 'n', lit "ull", rfl, by decide, by decide⟩
  | bool b =>
    cases b with
    | true => exact ⟨unit 't', lit "rue", rfl, by decide, by decide⟩
    | false => exact ⟨unit 'f', lit "alse", rfl, by decide, by decide⟩
  | num n =>
    have hfinite : n.isFinite = true := by
      have hjson := hn n (mem_singleton.mpr rfl)
      exact (Bool.and_eq_true_iff.mp hjson).1
    obtain ⟨-, u, s, htext, hstart⟩ := Numeral.text_of_isFinite hfinite
    obtain ⟨hwhite, -, -, hbracket, -⟩ := numberStart hstart
    exact ⟨u, s, htext, hwhite, hbracket⟩
  | str s =>
    obtain ⟨body, hbody, -⟩ := hstr s
    exact ⟨unit '"', body, hbody, by decide, by decide⟩
  | arr items =>
    cases items with
    | nil => exact ⟨91, [93], rfl, by decide, by decide⟩
    | cons item items => exact ⟨91, _, rfl, by decide, by decide⟩
  | obj members =>
    cases members with
    | nil => exact ⟨123, [125], rfl, by decide, by decide⟩
    | cons m members =>
      exact ⟨123, _, rfl, by decide, by decide⟩

variable (n : ℕ)

theorem readValue_quote (s : Str) :
    readValue (n + 1) (unit '"' :: s) = (readChars s).map fun p => (str p.1, p.2) := by
  unfold readValue
  rw [skipWhite_cons (by decide)]
  dsimp only
  rw [if_pos rfl]

theorem readValue_arr_nil (s : Str) : readValue (n + 1) (91 :: 93 :: s) = some (arr [], s) := by
  unfold readValue
  rw [skipWhite_cons (by decide)]
  dsimp only
  rw [if_neg (by decide), if_pos rfl, skipWhite_cons (by decide)]
  dsimp only
  rw [if_pos rfl]

theorem readValue_arr (hwhite : isWhite u = false) (hu : u ≠ 93) (s : Str) :
    readValue (n + 1) (91 :: u :: s) = (readValue n (u :: s)).bind fun p =>
      (readItems n p.2).map fun q => (arr (p.1 :: q.1), q.2) := by
  conv_lhs => unfold readValue
  rw [skipWhite_cons (by decide)]
  dsimp only
  rw [if_neg (by decide), if_pos rfl, skipWhite_cons hwhite]
  dsimp only
  rw [if_neg hu]

theorem readValue_obj_nil (s : Str) : readValue (n + 1) (123 :: 125 :: s) = some (obj [], s) := by
  unfold readValue
  rw [skipWhite_cons (by decide)]
  dsimp only
  rw [if_neg (by decide), if_neg (by decide), if_pos rfl, skipWhite_cons (by decide)]
  dsimp only
  rw [if_pos rfl]

theorem readValue_obj (s : Str) :
    readValue (n + 1) (123 :: unit '"' :: s) = (readMember n (unit '"' :: s)).bind fun p =>
      (readMembers n p.2).map fun q => (obj (p.1 :: q.1), q.2) := by
  conv_lhs => unfold readValue
  rw [skipWhite_cons (by decide)]
  dsimp only
  rw [if_neg (by decide), if_neg (by decide), if_pos rfl, skipWhite_cons (by decide)]
  dsimp only
  rw [if_neg (by decide)]

theorem readValue_atom (hwhite : isWhite u = false) (hquote : u ≠ unit '"')
    (hbracket : u ≠ 91) (hbrace : u ≠ 123) (s : Str) :
    readValue (n + 1) (u :: s) = readAtom (u :: s) := by
  unfold readValue
  rw [skipWhite_cons hwhite]
  dsimp only
  rw [if_neg hquote, if_neg hbracket, if_neg hbrace]

theorem readItems_nil (s : Str) : readItems (n + 1) (93 :: s) = some ([], s) := by
  unfold readItems
  rw [skipWhite_cons (by decide)]
  dsimp only
  rw [if_pos rfl]

theorem readItems_cons (s : Str) : readItems (n + 1) (unit ',' :: s) =
    (readValue n s).bind fun p => (readItems n p.2).map fun q => (p.1 :: q.1, q.2) := by
  conv_lhs => unfold readItems
  rw [skipWhite_cons (by decide)]
  dsimp only
  rw [if_neg (by decide), if_pos rfl]

theorem readMembers_nil (s : Str) : readMembers (n + 1) (125 :: s) = some ([], s) := by
  unfold readMembers
  rw [skipWhite_cons (by decide)]
  dsimp only
  rw [if_pos rfl]

theorem readMembers_cons (s : Str) : readMembers (n + 1) (unit ',' :: s) =
    (readMember n s).bind fun p => (readMembers n p.2).map fun q => (p.1 :: q.1, q.2) := by
  conv_lhs => unfold readMembers
  rw [skipWhite_cons (by decide)]
  dsimp only
  rw [if_neg (by decide), if_pos rfl]

/-- A member whose key and value were written. -/
theorem readMember_write {key : Str → Str} {ks : Str → Option Str} (hkey : ReadsAs key ks) (n : ℕ)
    (k : Str) (s : Str) : readMember (n + 1) (key k ++ unit ':' :: s) =
      (ks k).bind fun j => (readValue n s).map fun p => ((j, p.1), p.2) := by
  obtain ⟨body, hbody, hread⟩ := hkey k
  rw [hbody, cons_append]
  unfold readMember
  rw [skipWhite_cons (by decide)]
  dsimp only
  rw [if_pos rfl, hread]
  cases ks k with
  | none => rfl
  | some j =>
    rw [map_some, bind_some, bind_some]
    rw [skipWhite_cons (by decide)]
    dsimp only
    rw [if_pos rfl]

section Write

variable {key str : Str → Str} {ks ss : Str → Option Str}

variable (key str) in
theorem ends_writeItems (items : List Json) (t : Str) : Ends (writeItems key str items ++ t) := by
  cases items <;> exact ends_cons (by decide) _

variable (key str) in
theorem ends_writeMembers (members : List (Str × Json)) (t : Str) :
    Ends (writeMembers key str members ++ t) := by
  cases members <;> exact ends_cons (by decide) _

mutual

/-- **Reading what was written.**  A value is read back with its keys and its strings replaced by what
is read of their texts. -/
theorem readValue_write (hkey : ReadsAs key ks) (hstr : ReadsAs str ss) :
    ∀ (v : Json) (n : ℕ) (t : Str),
    v.size ≤ n → Ends t → (∀ n ∈ v.numerals, n.isJson = true) →
    readValue n (write key str v ++ t) = (decode ks ss v).map fun x => (x, t)
  | null, n + 1, t, _, _, _ => by
    rfl
  | bool true, n + 1, t, _, _, _ => by
    rfl
  | bool false, n + 1, t, _, _, _ => by
    rfl
  | num m, n + 1, t, _, ht, hn => by
    have hjson := hn m (mem_singleton.mpr rfl)
    have hfinite : m.isFinite = true := by
      exact (Bool.and_eq_true_iff.mp hjson).1
    obtain ⟨-, u, s, htext, hstart⟩ := Numeral.text_of_isFinite hfinite
    obtain ⟨hwhite, hquote, hbracket, -, hbrace, -⟩ := numberStart hstart
    have hread := readAtom_num hjson ht
    show readValue (n + 1) (m.text ++ t) = some (num m, t)
    rw [htext, cons_append] at hread ⊢
    rw [readValue_atom n hwhite hquote hbracket hbrace, hread]
  | .str s, n + 1, t, _, _, _ => by
    obtain ⟨body, hbody, hread⟩ := hstr s
    show readValue (n + 1) (str s ++ t) = ((ss s).map Json.str).map fun x => (x, t)
    rw [hbody, cons_append, readValue_quote, hread, Option.map_map, Option.map_map]
    rfl
  | arr [], n + 1, t, _, _, _ => readValue_arr_nil n t
  | arr (item :: items), n + 1, t, hsize, _, hn => by
    have hsize' : 1 + size item + sizeItems items ≤ n + 1 := hsize
    obtain ⟨hitem, hitems⟩ := forall_mem_append.mp hn
    obtain ⟨u, s, hwrite, hwhite, hbracket⟩ := write_eq_cons key hstr hitem
    have hvalue := readValue_write hkey hstr item n _ (by omega) (ends_writeItems key str items t) hitem
    have hrest := readItems_write hkey hstr items n t (by omega) hitems
    show readValue (n + 1) (91 :: (write key str item ++ writeItems key str items ++ t)) = _
    rw [append_assoc]
    rw [hwrite, cons_append] at hvalue ⊢
    rw [readValue_arr n hwhite hbracket, hvalue]
    show _ = (((decode ks ss item).bind fun x =>
      (decodeItems ks ss items).map fun xs => x :: xs).map arr).map fun x => (x, t)
    cases decode ks ss item with
    | none => rfl
    | some x =>
      rw [map_some, bind_some, bind_some]
      rw [hrest, Option.map_map, Option.map_map, Option.map_map]
      rfl
  | obj [], n + 1, t, _, _, _ => readValue_obj_nil n t
  | obj ((k, value) :: members), n + 1, t, hsize, _, hn => by
    have hsize' : 2 + size value + sizeMembers members ≤ n + 1 := hsize
    obtain ⟨hitem, hitems⟩ := forall_mem_append.mp hn
    obtain ⟨m, rfl⟩ := Nat.exists_eq_add_of_le' (show 1 ≤ n by omega)
    have hvalue := readValue_write hkey hstr value m _ (by omega)
      (ends_writeMembers key str members t) hitem
    have hrest := readMembers_write hkey hstr members (m + 1) t (by omega) hitems
    show readValue (m + 1 + 1) (123 :: (key k ++ unit ':' ::
      (write key str value ++ writeMembers key str members) ++ t)) = _
    rw [append_assoc, cons_append, append_assoc]
    have hmember := readMember_write hkey m k
      (write key str value ++ (writeMembers key str members ++ t))
    obtain ⟨body, hbody, -⟩ := hkey k
    rw [hbody, cons_append] at hmember ⊢
    rw [readValue_obj, hmember, hvalue]
    show _ = (((ks k).bind fun j => (decode ks ss value).bind fun x =>
      (decodeMembers ks ss members).map fun xs => (j, x) :: xs).map obj).map fun x => (x, t)
    cases ks k with
    | none => rfl
    | some j =>
      cases decode ks ss value with
      | none => rfl
      | some x =>
        simp only [map_some, bind_some]
        rw [hrest, Option.map_map, Option.map_map, Option.map_map]
        rfl
  | null, 0, _, h, _, _ => absurd h (by decide)
  | bool _, 0, _, h, _, _ | num _, 0, _, h, _, _ => absurd h (Nat.not_succ_le_zero 0)
  | .str _, 0, _, h, _, _ => absurd h (Nat.not_succ_le_zero 0)
  | arr [], 0, _, h, _, _ => absurd h (by decide)
  | arr (_ :: _), 0, _, h, _, _ | obj ((_, _) :: _), 0, _, h, _, _ => by
    unfold size at h
    omega
  | obj [], 0, _, h, _, _ => absurd h (by decide)

theorem readItems_write (hkey : ReadsAs key ks) (hstr : ReadsAs str ss) :
    ∀ (items : List Json) (n : ℕ) (t : Str),
    sizeItems items ≤ n → (∀ n ∈ numeralsOfItems items, n.isJson = true) →
    readItems n (writeItems key str items ++ t) = (decodeItems ks ss items).map fun x => (x, t)
  | [], n + 1, t, _, _ => readItems_nil n t
  | item :: items, n + 1, t, hsize, hn => by
    have hsize' : 1 + size item + sizeItems items ≤ n + 1 := hsize
    obtain ⟨hitem, hitems⟩ := forall_mem_append.mp hn
    have hvalue := readValue_write hkey hstr item n _ (by omega) (ends_writeItems key str items t) hitem
    have hrest := readItems_write hkey hstr items n t (by omega) hitems
    show readItems (n + 1) (unit ',' :: (write key str item ++ writeItems key str items ++ t)) = _
    rw [append_assoc, readItems_cons, hvalue]
    show _ = ((decode ks ss item).bind fun x =>
      (decodeItems ks ss items).map fun xs => x :: xs).map fun x => (x, t)
    cases decode ks ss item with
    | none => rfl
    | some x =>
      rw [map_some, bind_some, bind_some]
      rw [hrest, Option.map_map, Option.map_map]
      rfl
  | [], 0, _, h, _ => absurd h (by decide)
  | _ :: _, 0, _, h, _ => by
    unfold sizeItems at h
    omega

theorem readMembers_write (hkey : ReadsAs key ks) (hstr : ReadsAs str ss) :
    ∀ (members : List (Str × Json)) (n : ℕ) (t : Str),
    sizeMembers members ≤ n → (∀ n ∈ numeralsOfMembers members, n.isJson = true) →
    readMembers n (writeMembers key str members ++ t) =
      (decodeMembers ks ss members).map fun x => (x, t)
  | [], n + 1, t, _, _ => readMembers_nil n t
  | (k, value) :: members, n + 1, t, hsize, hn => by
    have hsize' : 2 + size value + sizeMembers members ≤ n + 1 := hsize
    obtain ⟨hitem, hitems⟩ := forall_mem_append.mp hn
    obtain ⟨m, rfl⟩ := Nat.exists_eq_add_of_le' (show 1 ≤ n by omega)
    have hvalue := readValue_write hkey hstr value m _ (by omega)
      (ends_writeMembers key str members t) hitem
    have hrest := readMembers_write hkey hstr members (m + 1) t (by omega) hitems
    show readMembers (m + 1 + 1) (unit ',' :: (key k ++ unit ':' ::
      (write key str value ++ writeMembers key str members) ++ t)) = _
    rw [append_assoc, cons_append, append_assoc, readMembers_cons,
      readMember_write hkey m k, hvalue]
    show _ = ((ks k).bind fun j => (decode ks ss value).bind fun x =>
      (decodeMembers ks ss members).map fun xs => (j, x) :: xs).map fun x => (x, t)
    cases ks k with
    | none => rfl
    | some j =>
      cases decode ks ss value with
      | none => rfl
      | some x =>
        simp only [map_some, bind_some]
        rw [hrest, Option.map_map, Option.map_map]
        rfl
  | [], 0, _, h, _ => absurd h (by decide)
  | (_, _) :: _, 0, _, h, _ => by
    unfold sizeMembers at h
    omega

end

mutual

theorem size_le_length (hkey : ReadsAs key ks) (hstr : ReadsAs str ss) : ∀ (v : Json),
    (∀ n ∈ v.numerals, n.isJson = true) → v.size ≤ (write key str v).length
  | null, _ | bool true, _ | bool false, _ | arr [], _ => Nat.succ_le_succ (Nat.zero_le _)
  | num n, hn => by
    obtain ⟨u, s, hwrite, -⟩ := write_eq_cons key hstr (v := num n) hn
    rw [hwrite]
    exact Nat.succ_le_succ (Nat.zero_le _)
  | .str s, hn => by
    obtain ⟨u, s, hwrite, -⟩ := write_eq_cons key hstr (v := .str s) hn
    rw [hwrite]
    exact Nat.succ_le_succ (Nat.zero_le _)
  | arr (item :: items), hn => by
    have hitem := size_le_length hkey hstr item (forall_mem_append.mp hn).1
    have hitems := sizeItems_le_length hkey hstr items (forall_mem_append.mp hn).2
    show 1 + size item + sizeItems items ≤ _
    rw [write, length_cons, length_append]
    omega
  | obj [], _ => Nat.succ_le_succ (Nat.zero_le _)
  | obj ((k, value) :: members), hn => by
    have hitem := size_le_length hkey hstr value (forall_mem_append.mp hn).1
    have hitems := sizeMembers_le_length hkey hstr members (forall_mem_append.mp hn).2
    show 2 + size value + sizeMembers members ≤ _
    rw [write, length_cons, length_append, length_cons, length_append]
    omega

theorem sizeItems_le_length (hkey : ReadsAs key ks) (hstr : ReadsAs str ss) : ∀ (items : List Json),
    (∀ n ∈ numeralsOfItems items, n.isJson = true) →
    sizeItems items ≤ (writeItems key str items).length
  | [], _ => Nat.le_refl _
  | item :: items, hn => by
    have hitem := size_le_length hkey hstr item (forall_mem_append.mp hn).1
    have hitems := sizeItems_le_length hkey hstr items (forall_mem_append.mp hn).2
    rw [sizeItems, writeItems, length_cons, length_append]
    omega

theorem sizeMembers_le_length (hkey : ReadsAs key ks) (hstr : ReadsAs str ss) :
    ∀ (members : List (Str × Json)), (∀ n ∈ numeralsOfMembers members, n.isJson = true) →
    sizeMembers members ≤ (writeMembers key str members).length
  | [], _ => Nat.le_refl _
  | (k, value) :: members, hn => by
    have hitem := size_le_length hkey hstr value (forall_mem_append.mp hn).1
    have hitems := sizeMembers_le_length hkey hstr members (forall_mem_append.mp hn).2
    rw [sizeMembers, writeMembers, length_cons, length_append, length_cons, length_append]
    omega

end

/-- **The whole text.** -/
theorem parse_write (hkey : ReadsAs key ks) (hstr : ReadsAs str ss) {v : Json}
    (hn : ∀ n ∈ v.numerals, n.isJson = true) : parse (write key str v) = decode ks ss v := by
  have hread := readValue_write hkey hstr v ((write key str v).length + 1) []
    (Nat.le_succ_of_le (size_le_length hkey hstr v hn)) (fun u hu => by cases hu) hn
  rw [append_nil] at hread
  unfold parse
  rw [hread]
  cases decode ks ss v with
  | none => rfl
  | some x =>
    rw [map_some, bind_some]
    exact if_pos rfl

end Write

/-! ## What is read back -/

section Decode

variable {ks ss : Str → Option Str}

mutual

/-- **A value is read back when every key and every string is.** -/
theorem decode_eq_self_iff : ∀ v : Json, decode ks ss v = some v ↔
    (∀ k ∈ v.keys, ks k = some k) ∧ ∀ s ∈ v.strings, ss s = some s
  | null | bool _ | num _ => by simp [decode, keys, strings]
  | .str s => by
    rw [decode, map_eq_some_iff]
    constructor
    · rintro ⟨t, ht, he⟩
      cases he
      exact ⟨fun k hk => absurd hk not_mem_nil, fun u hu => by
        rw [mem_singleton.mp hu]
        exact ht⟩
    · exact fun h => ⟨s, h.2 s (mem_singleton.mpr rfl), rfl⟩
  | arr items => by
    rw [decode, keys, strings, ← decodeItems_eq_self_iff items, map_eq_some_iff]
    constructor
    · rintro ⟨xs, hxs, he⟩
      cases he
      exact hxs
    · exact fun h => ⟨items, h, rfl⟩
  | obj members => by
    rw [decode, keys, strings, ← decodeMembers_eq_self_iff members, map_eq_some_iff]
    constructor
    · rintro ⟨xs, hxs, he⟩
      cases he
      exact hxs
    · exact fun h => ⟨members, h, rfl⟩

theorem decodeItems_eq_self_iff : ∀ items : List Json, decodeItems ks ss items = some items ↔
    (∀ k ∈ keysOfItems items, ks k = some k) ∧ ∀ s ∈ stringsOfItems items, ss s = some s
  | [] => by simp [decodeItems, keysOfItems, stringsOfItems]
  | item :: items => by
    have hitem := decode_eq_self_iff item
    have hitems := decodeItems_eq_self_iff items
    rw [decodeItems, keysOfItems, stringsOfItems, forall_mem_append, forall_mem_append,
      and_and_and_comm, ← hitem, ← hitems, bind_eq_some_iff]
    constructor
    · rintro ⟨x, hx, h⟩
      obtain ⟨xs, hxs, he⟩ := map_eq_some_iff.mp h
      cases he
      exact ⟨hx, hxs⟩
    · rintro ⟨hx, hxs⟩
      exact ⟨item, hx, map_eq_some_iff.mpr ⟨items, hxs, rfl⟩⟩

theorem decodeMembers_eq_self_iff : ∀ members : List (Str × Json),
    decodeMembers ks ss members = some members ↔
    (∀ k ∈ keysOfMembers members, ks k = some k) ∧ ∀ s ∈ stringsOfMembers members, ss s = some s
  | [] => by simp [decodeMembers, keysOfMembers, stringsOfMembers]
  | (k, value) :: members => by
    have hvalue := decode_eq_self_iff value
    have hmembers := decodeMembers_eq_self_iff members
    rw [decodeMembers, keysOfMembers, stringsOfMembers, forall_mem_cons, forall_mem_append,
      forall_mem_append, and_assoc, and_and_and_comm, ← hvalue, ← hmembers, bind_eq_some_iff]
    constructor
    · rintro ⟨j, hj, h⟩
      obtain ⟨x, hx, h⟩ := bind_eq_some_iff.mp h
      obtain ⟨xs, hxs, he⟩ := map_eq_some_iff.mp h
      cases he
      exact ⟨hj, hx, hxs⟩
    · rintro ⟨hj, hx, hxs⟩
      exact ⟨k, hj, bind_eq_some_iff.mpr ⟨value, hx, map_eq_some_iff.mpr ⟨members, hxs, rfl⟩⟩⟩

end

end Decode

/-! ## `JSON.stringify` -/

mutual

/-- `JSON.stringify` writes keys and strings as literals. -/
theorem stringify_eq_write : ∀ v : Json, (∀ n ∈ v.numerals, n.isFinite = true) →
    stringify v = write quote quote v
  | null, _ => rfl
  | bool _, _ => rfl
  | num n, hn => by
    rw [stringify, write, if_pos (hn n (mem_singleton.mpr rfl))]
  | str _, _ => rfl
  | arr [], _ => by decide
  | arr (item :: items), hn => by
    have hitems := stringifyItems_eq_write (item :: items) (cons_ne_nil _ _) hn
    rw [write, ← (List.cons.inj hitems).2]
    rfl
  | obj [], _ => by decide
  | obj ((k, value) :: members), hn => by
    have hmembers := stringifyMembers_eq_write ((k, value) :: members) (cons_ne_nil _ _) hn
    rw [write, ← (List.cons.inj hmembers).2]
    rfl

theorem stringifyItems_eq_write : ∀ items : List Json, items ≠ [] →
    (∀ n ∈ numeralsOfItems items, n.isFinite = true) →
    unit ',' :: (stringifyItems items ++ lit "]") = writeItems quote quote items
  | [], h, _ => absurd rfl h
  | [item], _, hn => by
    have hitem := stringify_eq_write item (forall_mem_append.mp hn).1
    rw [stringifyItems, hitem]
    rfl
  | item :: next :: items, _, hn => by
    have hitem := stringify_eq_write item (forall_mem_append.mp hn).1
    have hitems := stringifyItems_eq_write (next :: items) (cons_ne_nil _ _) fun n h =>
      hn n (mem_append_right _ h)
    rw [stringifyItems, writeItems, ← hitems, hitem]
    · simp only [append_assoc]
      rfl
    · exact fun h => by cases h

theorem stringifyMembers_eq_write : ∀ members : List (Str × Json), members ≠ [] →
    (∀ n ∈ numeralsOfMembers members, n.isFinite = true) →
    unit ',' :: (stringifyMembers members ++ lit "\x7d") = writeMembers quote quote members
  | [], h, _ => absurd rfl h
  | [(k, value)], _, hn => by
    have hvalue := stringify_eq_write value (forall_mem_append.mp hn).1
    rw [stringifyMembers, hvalue]
    simp only [append_assoc]
    rfl
  | (k, value) :: next :: members, _, hn => by
    have hvalue := stringify_eq_write value (forall_mem_append.mp hn).1
    have hmembers := stringifyMembers_eq_write (next :: members) (cons_ne_nil _ _) fun n h =>
      hn n (mem_append_right _ h)
    rw [stringifyMembers, writeMembers, ← hmembers, hvalue]
    · simp only [append_assoc]
      rfl
    · exact fun h => by cases h

end

end Json

end Library
