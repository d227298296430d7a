import DdTrace.Library.JsonReader

/-!
# Two writers of JSON

`Json.write` writes a value with keys and strings in a way of their own.  Where one way never writes
more than another, and as much only if it writes the same, the texts of a whole value can be told
apart by their length: they are the same exactly when the two ways agree on every key and every
string in it.  Nothing can be lost in one place and made up for in another.

* `Shorter`: a way to write strings that is no longer than another.
* `write_eq_iff`: **two texts of a value are the same exactly when they agree on its keys and
  strings**.
* `readsAs_quote`, `parse_stringify`: the literals of `JSON.stringify` are read back, and so is the whole
  text.
* `shorter_quote`: a string between quotes is no longer than its literal, and is as long only where
  the literal is just that.
-/

namespace Library

open Unicode List

/-- No text is longer than that of `text'`, and one that is as long is the same. -/
def Shorter (text text' : Str → Str) : Prop :=
  ∀ s, (text s).length ≤ (text' s).length ∧ ((text' s).length ≤ (text s).length → text s = text' s)

namespace Json

/-! ## Whole values -/

section Writers

variable {key str key' str' : Str → Str}

mutual

/-- Writers that agree on the keys and strings of a value write the same. -/
theorem write_congr : ∀ v : Json, (∀ k ∈ v.keys, key k = key' k) →
    (∀ s ∈ v.strings, str s = str' s) → write key str v = write key' str' v
  | null, _, _ => rfl
  | bool _, _, _ => rfl
  | num _, _, _ => rfl
  | .str s, _, hs => hs s (mem_singleton.mpr rfl)
  | arr [], _, _ => rfl
  | arr (item :: items), hk, hs => by
    have hitems := writeItems_congr (item :: items) hk hs
    rw [write, write, (List.cons.inj hitems).2]
  | obj [], _, _ => rfl
  | obj ((k, value) :: members), hk, hs => by
    have hmembers := writeMembers_congr ((k, value) :: members) hk hs
    rw [write, write, (List.cons.inj hmembers).2]

theorem writeItems_congr : ∀ items : List Json, (∀ k ∈ keysOfItems items, key k = key' k) →
    (∀ s ∈ stringsOfItems items, str s = str' s) →
    writeItems key str items = writeItems key' str' items
  | [], _, _ => rfl
  | item :: items, hk, hs => by
    rw [keysOfItems, forall_mem_append] at hk
    rw [stringsOfItems, forall_mem_append] at hs
    rw [writeItems, writeItems, write_congr item hk.1 hs.1, writeItems_congr items hk.2 hs.2]

theorem writeMembers_congr : ∀ members : List (Str × Json),
    (∀ k ∈ keysOfMembers members, key k = key' k) →
    (∀ s ∈ stringsOfMembers members, str s = str' s) →
    writeMembers key str members = writeMembers key' str' members
  | [], _, _ => rfl
  | (k, value) :: members, hk, hs => by
    rw [keysOfMembers, forall_mem_cons, forall_mem_append] at hk
    rw [stringsOfMembers, forall_mem_append] at hs
    rw [writeMembers, writeMembers, hk.1, write_congr value hk.2.1 hs.1,
      writeMembers_congr members hk.2.2 hs.2]

end

mutual

/-- A text that is not shorter is made of texts that are not. -/
theorem length_write (hkey : Shorter key key') (hstr : Shorter str str') : ∀ v : Json,
    (write key str v).length ≤ (write key' str' v).length ∧
    ((write key' str' v).length ≤ (write key str v).length →
      (∀ k ∈ v.keys, key k = key' k) ∧ ∀ s ∈ v.strings, str s = str' s)
  | null | bool _ | num _ => by simp [write, keys, strings]
  | .str s => by simpa [write, keys, strings] using hstr s
  | arr [] => by simp [write, keys, strings, keysOfItems, stringsOfItems]
  | arr (item :: items) => by
    have hitems := length_writeItems hkey hstr (item :: items)
    rw [writeItems, writeItems] at hitems
    simpa [write, keys, strings] using hitems
  | obj [] => by simp [write, keys, strings, keysOfMembers, stringsOfMembers]
  | obj ((k, value) :: members) => by
    have hmembers := length_writeMembers hkey hstr ((k, value) :: members)
    rw [writeMembers, writeMembers] at hmembers
    simpa [write, keys, strings] using hmembers

theorem length_writeItems (hkey : Shorter key key') (hstr : Shorter str str') : ∀ items : List Json,
    (writeItems key str items).length ≤ (writeItems key' str' items).length ∧
    ((writeItems key' str' items).length ≤ (writeItems key str items).length →
      (∀ k ∈ keysOfItems items, key k = key' k) ∧ ∀ s ∈ stringsOfItems items, str s = str' s)
  | [] => by simp [writeItems, keysOfItems, stringsOfItems]
  | item :: items => by
    obtain ⟨hle, hitem⟩ := length_write hkey hstr item
    obtain ⟨hles, hitems⟩ := length_writeItems hkey hstr items
    simp only [writeItems, length_cons, length_append]
    refine ⟨by omega, fun h => ?_⟩
    obtain ⟨hk, hs⟩ := hitem (by omega)
    obtain ⟨hks, hss⟩ := hitems (by omega)
    rw [keysOfItems, stringsOfItems, forall_mem_append, forall_mem_append]
    exact ⟨⟨hk, hks⟩, hs, hss⟩

theorem length_writeMembers (hkey : Shorter key key') (hstr : Shorter str str') :
    ∀ members : List (Str × Json),
    (writeMembers key str members).length ≤ (writeMembers key' str' members).length ∧
    ((writeMembers key' str' members).length ≤ (writeMembers key str members).length →
      (∀ k ∈ keysOfMembers members, key k = key' k) ∧
        ∀ s ∈ stringsOfMembers members, str s = str' s)
  | [] => by simp [writeMembers, keysOfMembers, stringsOfMembers]
  | (k, value) :: members => by
    obtain ⟨hle, hvalue⟩ := length_write hkey hstr value
    obtain ⟨hles, hmembers⟩ := length_writeMembers hkey hstr members
    obtain ⟨hlek, hk⟩ := hkey k
    simp only [writeMembers, length_cons, length_append]
    refine ⟨by omega, fun h => ?_⟩
    obtain ⟨hkv, hsv⟩ := hvalue (by omega)
    obtain ⟨hks, hss⟩ := hmembers (by omega)
    rw [keysOfMembers, stringsOfMembers, forall_mem_cons, forall_mem_append, forall_mem_append]
    exact ⟨⟨hk (by omega), hkv, hks⟩, hsv, hss⟩

end

/-- **Two texts of a value are the same exactly when they agree on its keys and strings.** -/
theorem write_eq_iff (hkey : Shorter key key') (hstr : Shorter str str') (v : Json) :
    write key str v = write key' str' v ↔
      (∀ k ∈ v.keys, key k = key' k) ∧ ∀ s ∈ v.strings, str s = str' s := by
  constructor
  · intro h
    exact (length_write hkey hstr v).2 (congrArg List.length h).ge
  · rintro ⟨hk, hs⟩
    exact write_congr v hk hs

end Writers

/-! ## Everything in a value -/

/-- All keys and strings of a value satisfy `P`. -/
def AllStrings (P : Str → Prop) (v : Json) : Prop := (∀ k ∈ v.keys, P k) ∧ ∀ s ∈ v.strings, P s

/-- All numbers of a value satisfy `Q`. -/
def AllNumerals (Q : Numeral → Prop) (v : Json) : Prop := ∀ n ∈ v.numerals, Q n

variable {P : Str → Prop} {Q : Numeral → Prop}

theorem allStrings_str {s : Str} : AllStrings P (.str s) ↔ P s := by
  simp [AllStrings, keys, strings]

theorem allStrings_arr {items : List Json} :
    AllStrings P (.arr items) ↔ ∀ v ∈ items, AllStrings P v := by
  unfold AllStrings
  rw [keys, strings]
  induction items with
  | nil => simp [keysOfItems, stringsOfItems]
  | cons item items ih =>
    rw [keysOfItems, stringsOfItems, forall_mem_append, forall_mem_append,
      and_and_and_comm, ih, forall_mem_cons]

theorem allStrings_obj {members : List (Str × Json)} :
    AllStrings P (.obj members) ↔ ∀ m ∈ members, P m.1 ∧ AllStrings P m.2 := by
  unfold AllStrings
  rw [keys, strings]
  induction members with
  | nil => simp [keysOfMembers, stringsOfMembers]
  | cons m members ih =>
    rw [keysOfMembers, stringsOfMembers, forall_mem_cons, forall_mem_append,
      forall_mem_append, and_assoc, and_and_and_comm, ih, forall_mem_cons]
    simp only [and_assoc]

theorem allNumerals_arr {items : List Json} :
    AllNumerals Q (.arr items) ↔ ∀ v ∈ items, AllNumerals Q v := by
  unfold AllNumerals
  rw [numerals]
  induction items with
  | nil => simp [numeralsOfItems]
  | cons item items ih =>
    rw [numeralsOfItems, forall_mem_append, ih, forall_mem_cons]

theorem allNumerals_obj {members : List (Str × Json)} :
    AllNumerals Q (.obj members) ↔ ∀ m ∈ members, AllNumerals Q m.2 := by
  unfold AllNumerals
  rw [numerals]
  induction members with
  | nil => simp [numeralsOfMembers]
  | cons m members ih =>
    rw [numeralsOfMembers, forall_mem_append, ih, forall_mem_cons]

end Json

/-! ## The literals of `JSON.stringify` -/

theorem readChars_escapeUnit (u : UInt16) (s : Str) :
    readChars (escapeUnit u ++ s) = (readChars s).map fun p => (u :: p.1, p.2) := by
  have hown : ∀ e ∈ simpleEscapes, (jsonEscapes.find? fun x => x.1 = e.1) = some e := by
    have hall : (simpleEscapes.all fun e =>
        decide ((jsonEscapes.find? fun x => x.1 = e.1) = some e)) = true := by
      decide
    exact fun e he => of_decide_eq_true (all_eq_true.mp hall e he)
  unfold escapeUnit
  split
  · next e he =>
    have hu : e.2 = u := by simpa using find?_some he
    rw [cons_append, cons_append, List.nil_append,
      readChars_simple (hown e (mem_of_find?_eq_some he)), ← hu]
  · next hnone =>
    have hother : ∀ e ∈ simpleEscapes, e.2 ≠ u := by simpa using hnone
    split
    · exact readChars_unicodeEscape u s
    · next hle =>
      exact readChars_plain ⟨hle, Ne.symm (hother (unit '"', unit '"') (by decide)),
        Ne.symm (hother (unit '\\', unit '\\') (by decide))⟩ s

/-- Half of a pair stands for itself. -/
theorem isPlain_surrogate {u : UInt16} (h : isHigh u = true ∨ isLow u = true) : IsPlain u := by
  have hu : 0xD800 ≤ u.toNat := by
    simp only [isHigh, isLow, Bool.and_eq_true, decide_eq_true_eq] at h
    omega
  refine ⟨?_, ?_, ?_⟩
  · exact fun hlt => absurd (hu.trans_lt hlt) (by decide)
  all_goals
    rintro rfl
    exact absurd hu (by decide)

/-- A code unit that is not the first half of a pair, in a literal. -/
theorem readChars_unit (u : UInt16) (s : Str) :
    readChars ((if isHigh u || isLow u then unicodeEscape u else escapeUnit u) ++ s) =
      (readChars s).map fun p => (u :: p.1, p.2) := by
  split
  · exact readChars_unicodeEscape u s
  · exact readChars_escapeUnit u s

theorem readChars_quoteBody (s t : Str) :
    readChars (quoteBody s ++ unit '"' :: t) = some (s, t) := by
  induction s using quoteBody.induct with
  | case1 => exact readChars_end t
  | case2 u h | case3 u h =>
    rw [quoteBody, readChars_unit, readChars_end]
    rfl
  | case4 u w s hpair ih =>
    obtain ⟨hu, hw⟩ := Bool.and_eq_true_iff.mp hpair
    rw [quoteBody, if_pos hpair, cons_append, cons_append,
      readChars_plain (isPlain_surrogate (.inl hu)), readChars_plain (isPlain_surrogate (.inr hw)),
      ih]
    rfl
  | case5 u w s hpair ih =>
    rw [quoteBody, if_neg hpair, append_assoc, readChars_unit, ih]
    rfl

/-- **A literal is read back.** -/
theorem readsAs_quote : ReadsAs quote some := by
  intro s
  refine ⟨quoteBody s ++ [unit '"'], rfl, fun t => ?_⟩
  rw [append_assoc]
  exact readChars_quoteBody s t

/-- **What `JSON.stringify` writes is read back**, with white space behind it. -/
theorem Json.parse_stringify {v : Json} (h : v.AllNumerals fun n => n.isJson = true) {t : Str}
    (ht : ∀ u ∈ t, Json.isWhite u = true) : Json.parse (v.stringify ++ t) = some v := by
  have hfinite : ∀ n ∈ v.numerals, n.isFinite = true := fun n hn =>
    (Bool.and_eq_true_iff.mp (h n hn)).1
  have hends : Ends t := by
    intro u hu
    have hwhite := ht u (mem_of_mem_head? hu)
    simp only [Json.isWhite, Bool.or_eq_true, beq_iff_eq] at hwhite
    rcases hwhite with ((rfl | rfl) | rfl) | rfl <;> rfl
  have hskip : Json.skipWhite t = [] := dropWhile_eq_nil_iff.mpr ht
  have hsize := Json.size_le_length readsAs_quote readsAs_quote v h
  have hdecode : Json.decode some some v = some v :=
    (Json.decode_eq_self_iff v).mpr ⟨fun _ _ => rfl, fun _ _ => rfl⟩
  rw [Json.parse, Json.stringify_eq_write v hfinite,
    Json.readValue_write readsAs_quote readsAs_quote v _ t
      (by rw [length_append]; omega) hends h, hdecode]
  exact if_pos hskip

/-! ## Strings that need no escape -/

/-- A string between quotes. -/
def between (s : Str) : Str := unit '"' :: (s ++ [unit '"'])

variable {s : Str}

theorem readChars_between (hs : ∀ u ∈ s, IsPlain u) (t : Str) :
    readChars (s ++ unit '"' :: t) = some (s, t) := by
  induction s with
  | nil => exact readChars_end t
  | cons u s ih =>
    obtain ⟨hu, hs⟩ := forall_mem_cons.mp hs
    rw [cons_append, readChars_plain hu, ih hs]
    rfl

theorem escapeUnit_of_isPlain {u : UInt16} (h : IsPlain u) : escapeUnit u = [u] := by
  have hfind : (simpleEscapes.find? fun e => e.2 = u) = none := by
    rw [find?_eq_none]
    intro e he
    rw [decide_eq_true_eq]
    rintro rfl
    revert he
    obtain ⟨hcontrol, hquote, hslash⟩ := h
    simp only [simpleEscapes, mem_cons, not_mem_nil, or_false]
    rintro (rfl | rfl | rfl | rfl | rfl | rfl | rfl)
    · exact hquote rfl
    · exact hslash rfl
    all_goals exact hcontrol (by decide)
  rw [escapeUnit, hfind]
  exact if_neg h.1

/-- **A literal of plain code units** is as long as the string exactly when no surrogate is alone in
it, and is then the string. -/
theorem quoteBody_of_isPlain (hs : ∀ u ∈ s, IsPlain u) : (isWellFormed s = true ∧ quoteBody s = s) ∨
      (isWellFormed s = false ∧ s.length < (quoteBody s).length) := by
  have hunit : ∀ u : UInt16, IsPlain u → ((isHigh u || isLow u) = false ∧ isScalar u.toNat = true ∧
        (if isHigh u || isLow u then unicodeEscape u else escapeUnit u) = [u]) ∨
      ((isHigh u || isLow u) = true ∧ isScalar u.toNat = false ∧
        (if isHigh u || isLow u then unicodeEscape u else escapeUnit u).length = 6) := by
    intro u hu
    have hlt := u.toNat_lt
    by_cases hsurrogate : (isHigh u || isLow u) = true
    · refine .inr ⟨hsurrogate, ?_, by rw [if_pos hsurrogate]; rfl⟩
      rw [Bool.or_eq_true] at hsurrogate
      simp only [isHigh, isLow, Bool.and_eq_true, decide_eq_true_eq] at hsurrogate
      simp only [isScalar, Bool.or_eq_false_iff, Bool.and_eq_false_iff, decide_eq_false_iff_not]
      omega
    · refine .inl ⟨Bool.eq_false_iff.mpr hsurrogate, ?_, ?_⟩
      · rw [Bool.or_eq_true] at hsurrogate
        simp only [isHigh, isLow, Bool.and_eq_true, decide_eq_true_eq] at hsurrogate
        simp only [isScalar, Bool.or_eq_true, Bool.and_eq_true, decide_eq_true_eq]
        omega
      · rw [if_neg hsurrogate, escapeUnit_of_isPlain hu]
  induction s using quoteBody.induct with
  | case1 => exact .inl ⟨rfl, rfl⟩
  | case2 u h | case3 u h =>
    rcases hunit u (hs u mem_cons_self) with ⟨-, hscalar, htext⟩ | ⟨-, hscalar, hlen⟩
    · exact .inl ⟨by simp [isWellFormed, chars, hscalar], by rw [quoteBody, htext]⟩
    · exact .inr ⟨by simp [isWellFormed, chars, hscalar],
        by rw [quoteBody, length_singleton]; omega⟩
  | case4 u w s hpair ih =>
    have hs' : ∀ v ∈ s, IsPlain v := fun v hv => hs v (by simp [hv])
    have hwell : isWellFormed (u :: w :: s) = isWellFormed s := by
      have hpair' := hpair
      simp only [isHigh, isLow, Bool.and_eq_true, decide_eq_true_eq] at hpair'
      have hscalar : isScalar (0x10000 + (u.toNat - 0xD800) * 0x400 + (w.toNat - 0xDC00)) =
          true := by
        simp only [isScalar, Bool.or_eq_true, Bool.and_eq_true, decide_eq_true_eq]
        omega
      rw [isWellFormed, chars, if_pos hpair, all_cons, hscalar]
      rfl
    rw [hwell, quoteBody, if_pos hpair]
    rcases ih hs' with ⟨h, heq⟩ | ⟨h, hlen⟩
    · exact .inl ⟨h, by rw [heq]⟩
    · exact .inr ⟨h, by simp only [length_cons]; omega⟩
  | case5 u w s hpair ih =>
    have hs' : ∀ v ∈ w :: s, IsPlain v := fun v hv => hs v (mem_cons_of_mem u hv)
    have hwell : isWellFormed (u :: w :: s) = (isScalar u.toNat && isWellFormed (w :: s)) := by
      rw [isWellFormed, chars, if_neg hpair]
      rfl
    rw [hwell, quoteBody, if_neg hpair, length_append]
    rcases hunit u (hs u mem_cons_self) with ⟨-, hscalar, htext⟩ | ⟨-, hscalar, hlen⟩
    · rw [hscalar, htext]
      rcases ih hs' with ⟨h, heq⟩ | ⟨h, hlt⟩
      · exact .inl ⟨h, by rw [heq]; rfl⟩
      · exact .inr ⟨h, by simp only [length_cons, length_nil] at hlt ⊢; omega⟩
    · refine .inr ⟨by rw [hscalar, Bool.false_and], ?_⟩
      rcases ih hs' with ⟨-, heq⟩ | ⟨-, hlt⟩
      · rw [heq]
        simp only [length_cons]
        omega
      · simp only [length_cons] at hlt ⊢
        omega

theorem between_eq_quote_iff (hs : ∀ u ∈ s, IsPlain u) :
    between s = quote s ↔ isWellFormed s = true := by
  unfold between quote
  rcases quoteBody_of_isPlain hs with ⟨h, heq⟩ | ⟨h, hlen⟩
  · simp [h, heq]
  · rw [h]
    constructor
    · intro heq
      have := congrArg List.length heq
      simp only [length_cons, length_append, length_nil] at this
      omega
    · exact fun hfalse => absurd hfalse Bool.false_ne_true

theorem length_between_le (hs : ∀ u ∈ s, IsPlain u) : (between s).length ≤ (quote s).length ∧
      ((quote s).length ≤ (between s).length → between s = quote s) := by
  unfold between quote
  rcases quoteBody_of_isPlain hs with ⟨h, heq⟩ | ⟨h, hlen⟩
  · rw [heq]
    exact ⟨Nat.le_refl _, fun _ => rfl⟩
  · simp only [length_cons, length_append, length_nil]
    exact ⟨by omega, fun hle => absurd hle (by omega)⟩

end Library
