import DdTrace.Library.OrderedMap
import DdTrace.Library.Substring
import DdTrace.Library.Text

/-!
# Tags from a string

`add` of `tagger.js` and `parsers.MAP` of the configuration read tags from one string.  A single
scan keeps where the current entry starts and where its value does; zero says that no separator has
been found.

An entry is parted at its first separator, and both parts are trimmed.  One whose key is empty is
left out; one without a separator, or with nothing behind it, is kept with an empty value.  A
separator at the very start of the string is taken for one that has not been found, as its position
is zero.

* `finish_loop`: the scan, from the start of any entry, does what the list of entries says.
* `kept_commaSpaces`: a white space that is replaced by commas is a separator of entries.
* `tags_eq_reference`: **both parsers yield the mapping of their entries**, of a string that does
  not begin with the separator.
-/

open Library

namespace DdTrace.Config

open List Option Str

/-! ## The source -/

/-- An assignment to a plain object.  The prototype is not set to a string. -/
def assign (carrier : OrderedMap Str Str) (key value : Str) : OrderedMap Str Str :=
  if key = lit "__proto__" then carrier else carrier.set key value

def addNonEmpty (carrier : OrderedMap Str Str) (key value : Str) : OrderedMap Str Str :=
  if key ≠ [] then assign carrier key value else carrier

structure Scan where
  carrier : OrderedMap Str Str
  valueStart : ℕ
  keyStart : ℕ

/-- The entry that ends at `i`, with `valueStart ||= i`. -/
def Scan.flush (s : Scan) (keyValuePairs : Str) (i : ℕ) : OrderedMap Str Str :=
  let valueStart := if s.valueStart = 0 then i else s.valueStart
  addNonEmpty s.carrier (Str.trim (slice keyValuePairs s.keyStart valueStart))
    (Str.trim (slice keyValuePairs (valueStart + 1) i))

/-- The body of the loop of `add`. -/
def Scan.visit (keyValuePairs : Str) (valueSeparator : UInt16) (s : Scan) (i : ℕ)
    (char : UInt16) : Scan :=
  if char = valueSeparator then
    if s.valueStart = 0 then { s with valueStart := i } else s
  else if char = unit ',' then
    { carrier := s.flush keyValuePairs i
      keyStart := i + 1
      valueStart := 0 }
  else s

/-- The loop from position `i` on, where `chars` is what is left. -/
def loop (keyValuePairs : Str) (valueSeparator : UInt16) : ℕ → Str → Scan → Scan
  | _, [], s => s
  | i, char :: chars, s =>
    loop keyValuePairs valueSeparator (i + 1) chars (s.visit keyValuePairs valueSeparator i char)

/-- What follows the loop. -/
def finish (keyValuePairs : Str) (s : Scan) : OrderedMap Str Str :=
  if keyValuePairs.getLast? ≠ some (unit ',') then s.flush keyValuePairs keyValuePairs.length
  else s.carrier

/-- `add` of a string. -/
def add (carrier : OrderedMap Str Str) (keyValuePairs : Str) (valueSeparator : UInt16) :
    OrderedMap Str Str :=
  finish keyValuePairs (loop keyValuePairs valueSeparator 0 keyValuePairs ⟨carrier, 0, 0⟩)

/-- `replaceAll(/\s+/g, ',')`, behind a white space or not. -/
def commaSpaces : Bool → Str → Str
  | _, [] => []
  | inSpace, u :: s =>
    if Str.isSpace u then
      if inSpace then commaSpaces true s else unit ',' :: commaSpaces true s
    else u :: commaSpaces false s

def isOtel (optionName : Str) : Bool := (lit "OTEL_").isPrefixOf optionName

/-- A map may be parted by spaces: that of `DD_TAGS` without a comma. -/
def isSpaced (raw optionName : Str) : Bool :=
  !isOtel optionName && decide (optionName = lit "DD_TAGS") && !includes raw (unit ',')

def separatorOf (optionName : Str) : UInt16 := if isOtel optionName then unit '=' else unit ':'

/-- `parsers.MAP` -/
def MAP (raw optionName : Str) : OrderedMap Str Str :=
  if raw = [] then OrderedMap.empty
  else add OrderedMap.empty (if isSpaced raw optionName then commaSpaces false raw else raw)
    (separatorOf optionName)

/-! ## The grammar -/

/-- The key and the value of an entry. -/
def pair (valueSeparator : UInt16) (entry : Str) : Str × Str :=
  match Str.cut valueSeparator entry with
  | some (key, value) => (Str.trim key, Str.trim value)
  | none => (Str.trim entry, [])

/-- The entries of a map. -/
def entriesOf (raw optionName : Str) : List Str :=
  if isSpaced raw optionName then raw.splitOnP Str.isSpace else Str.split (unit ',') raw

/-- What is kept of the entries. -/
def kept (valueSeparator : UInt16) (entries : List Str) : List (Str × Str) :=
  (entries.map (pair valueSeparator)).filter fun e => e.1 ≠ [] ∧ e.1 ≠ lit "__proto__"

/-- The entries that have a value, too. -/
def keptWithValue (valueSeparator : UInt16) (entries : List Str) : List (Str × Str) :=
  (kept valueSeparator entries).filter fun e => e.2 ≠ []

/-- The carrier with tags, of which later ones win. -/
def withTags (carrier : OrderedMap Str Str) (tags : List (Str × Str)) : OrderedMap Str Str :=
  tags.foldl (fun m e => m.set e.1 e.2) carrier

theorem get?_withTags (carrier : OrderedMap Str Str) (tags : List (Str × Str)) (key : Str) :
    (withTags carrier tags).get? key = (OrderedMap.lastValue tags key).or (carrier.get? key) :=
  OrderedMap.get?_foldl_set tags carrier key

theorem kept_append (valueSeparator : UInt16) (l l' : List Str) :
    kept valueSeparator (l ++ l') = kept valueSeparator l ++ kept valueSeparator l' := by
  unfold kept
  rw [map_append, filter_append]

theorem addNonEmpty_pair (carrier : OrderedMap Str Str) (valueSeparator : UInt16) (entry : Str) :
    addNonEmpty carrier (pair valueSeparator entry).1 (pair valueSeparator entry).2 =
      withTags carrier (kept valueSeparator [entry]) := by
  unfold addNonEmpty assign kept
  by_cases hkey : (pair valueSeparator entry).1 = []
  · simp [hkey, withTags]
  · by_cases hproto : (pair valueSeparator entry).1 = lit "__proto__"
    · simp [hproto, withTags]
    · simp [hkey, hproto, withTags]

/-! ## The scan -/

/-- Where the value of the entry starts that begins at `start`. -/
def valueStartOf (valueSeparator : UInt16) (start : ℕ) (entry : Str) : ℕ :=
  ((Str.cut valueSeparator entry).map fun p => start + p.1.length).getD 0

variable {valueSeparator : UInt16} {entry keyValuePairs : Str}

theorem cut_concat_of_some {u : UInt16} {key value : Str}
    (h : Str.cut valueSeparator entry = some (key, value)) :
    Str.cut valueSeparator (entry ++ [u]) = some (key, value ++ [u]) := by
  obtain ⟨rfl, hkey⟩ := cut_eq_some h
  rw [append_assoc]
  exact cut_append hkey (value ++ [u])

/-- The value starts at the first separator, which is not at zero. -/
theorem valueStartOf_eq_zero_iff {start : ℕ} (h : start = 0 → entry.head? ≠ some valueSeparator) :
    valueStartOf valueSeparator start entry = 0 ↔ valueSeparator ∉ entry := by
  rw [← cut_eq_none_iff]
  unfold valueStartOf
  cases hcut : Str.cut valueSeparator entry with
  | none => simp
  | some p =>
    obtain ⟨key, value⟩ := p
    obtain ⟨rfl, -⟩ := cut_eq_some hcut
    simp only [map_some, getD_some, Nat.add_eq_zero_iff, length_eq_zero_iff,
      reduceCtorEq, iff_false, not_and]
    rintro rfl rfl
    exact h rfl rfl

/-- **One more character** of an entry. -/
theorem valueStartOf_concat {start : ℕ} (h : start = 0 → entry.head? ≠ some valueSeparator)
    (u : UInt16) :
    valueStartOf valueSeparator start (entry ++ [u]) =
      if u = valueSeparator ∧ valueStartOf valueSeparator start entry = 0 then
        start + entry.length
      else valueStartOf valueSeparator start entry := by
  have hzero := valueStartOf_eq_zero_iff h
  rw [← cut_eq_none_iff] at hzero
  cases hcut : Str.cut valueSeparator entry with
  | some p =>
    rw [hcut] at hzero
    rw [if_neg fun h => absurd (hzero.mp h.2) (some_ne_none _)]
    unfold valueStartOf
    rw [cut_concat_of_some hcut, hcut]
    rfl
  | none =>
    have hmem : valueSeparator ∉ entry := cut_eq_none_iff.mp hcut
    by_cases hu : u = valueSeparator
    · rw [if_pos ⟨hu, hzero.mpr hcut⟩, hu, valueStartOf, cut_append hmem]
      rfl
    · have hnone : Str.cut valueSeparator (entry ++ [u]) = none := by
        rw [cut_eq_none_iff, mem_append, mem_singleton, not_or]
        exact ⟨hmem, Ne.symm hu⟩
      rw [if_neg fun h => hu h.1, valueStartOf, valueStartOf, hnone, hcut]

/-- **An entry is flushed** as its pair. -/
theorem flush_eq {carrier : OrderedMap Str Str} {done rest : Str}
    (h : done.length = 0 → entry.head? ≠ some valueSeparator) :
    Scan.flush ⟨carrier, valueStartOf valueSeparator done.length entry, done.length⟩
        (done ++ entry ++ rest) (done.length + entry.length) =
      withTags carrier (kept valueSeparator [entry]) := by
  rw [← addNonEmpty_pair]
  unfold Scan.flush pair
  dsimp only
  have hslice : ∀ a, slice (done ++ entry ++ rest) a (done.length + entry.length) =
      (done ++ entry).drop a := by
    intro a
    rw [slice, ← length_append, take_left]
  have hend : slice (done ++ entry ++ rest) done.length (done.length + entry.length) = entry := by
    rw [hslice, drop_left]
  cases hcut : Str.cut valueSeparator entry with
  | none =>
    have hnil : slice (done ++ entry ++ rest) (done.length + entry.length + 1)
        (done.length + entry.length) = [] := by
      rw [hslice, drop_eq_nil_iff, length_append]
      exact Nat.le_succ _
    rw [if_pos ((valueStartOf_eq_zero_iff h).mpr (cut_eq_none_iff.mp hcut)), hend, hnil]
    rfl
  | some p =>
    obtain ⟨key, value⟩ := p
    have hmem : ¬valueSeparator ∉ entry := by
      rw [← cut_eq_none_iff, hcut]
      exact some_ne_none _
    have hstart : valueStartOf valueSeparator done.length entry = done.length + key.length := by
      rw [valueStartOf, hcut]
      rfl
    rw [if_neg fun hzero => hmem ((valueStartOf_eq_zero_iff h).mp hzero), hstart]
    obtain ⟨rfl, -⟩ := cut_eq_some hcut
    have hkey : slice (done ++ (key ++ valueSeparator :: value) ++ rest) done.length
        (done.length + key.length) = key := by
      rw [slice, ← length_append, ← append_assoc, append_assoc, take_left, drop_left]
    have hvalue : slice (done ++ (key ++ valueSeparator :: value) ++ rest)
        (done.length + key.length + 1)
        (done.length + (key ++ valueSeparator :: value).length) = value := by
      rw [hslice, ← append_assoc, append_cons]
      refine drop_left' ?_
      rw [length_append, length_append]
      rfl
    rw [hkey, hvalue]

/-- **The scan,** from the start of any entry, does what the list of entries says. -/
theorem finish_loop (hseparator : valueSeparator ≠ unit ',')
    (hhead : keyValuePairs.head? ≠ some valueSeparator) (rest : Str) :
    ∀ (carrier : OrderedMap Str Str) (done entry : Str),
      keyValuePairs = done ++ entry ++ rest → unit ',' ∉ entry →
        finish keyValuePairs (loop keyValuePairs valueSeparator (done.length + entry.length) rest
            ⟨carrier, valueStartOf valueSeparator done.length entry, done.length⟩) =
          withTags carrier (kept valueSeparator (Str.split (unit ',') (entry ++ rest))) := by
  have hfirst : ∀ done entry rest : Str, keyValuePairs = done ++ entry ++ rest →
      done.length = 0 → entry.head? ≠ some valueSeparator := by
    intro done entry rest heq hdone hentry
    rw [length_eq_zero_iff] at hdone
    rw [heq, hdone, List.nil_append, head?_append, hentry] at hhead
    exact hhead rfl
  induction rest with
  | nil =>
    intro carrier done entry heq hcomma
    rw [append_nil, split_of_notMem hcomma, loop]
    unfold finish
    have hlength : keyValuePairs.length = done.length + entry.length := by
      rw [heq, append_nil, length_append]
    have hflush : Scan.flush ⟨carrier, valueStartOf valueSeparator done.length entry, done.length⟩
        keyValuePairs keyValuePairs.length = withTags carrier (kept valueSeparator [entry]) := by
      rw [hlength, heq, flush_eq (hfirst done entry [] heq)]
    by_cases hlast : keyValuePairs.getLast? = some (unit ',')
    · -- a last comma is behind the entries before, and no entry follows it
      have hentry : entry = [] := by
        rcases eq_nil_or_concat entry with h | ⟨l, u, h⟩
        · exact h
        · rw [h, concat_eq_append] at heq hcomma
          rw [heq, append_nil, ← append_assoc, getLast?_append] at hlast
          refine absurd (mem_append_right l ?_) hcomma
          rw [mem_singleton]
          exact (some.inj hlast).symm
      rw [if_neg fun h => h hlast, hentry]
      rfl
    · rw [if_pos hlast, hflush]
  | cons u rest ih =>
    intro carrier done entry heq hcomma
    have hstart := valueStartOf_concat (hfirst done entry (u :: rest) heq) u
    have hnext : keyValuePairs = done ++ (entry ++ [u]) ++ rest := by
      rw [heq, append_assoc, append_assoc, append_assoc]
      rfl
    have hlength : done.length + (entry ++ [u]).length = done.length + entry.length + 1 := by
      rw [length_append]
      rfl
    have hconcat : u ≠ unit ',' →
        finish keyValuePairs (loop keyValuePairs valueSeparator (done.length + entry.length + 1)
            rest ⟨carrier, valueStartOf valueSeparator done.length (entry ++ [u]), done.length⟩) =
          withTags carrier (kept valueSeparator (Str.split (unit ',') (entry ++ u :: rest))) := by
      intro hu
      have hmem : unit ',' ∉ entry ++ [u] := by
        rw [mem_append, mem_singleton, not_or]
        exact ⟨hcomma, Ne.symm hu⟩
      rw [← hlength, ih carrier done (entry ++ [u]) hnext hmem, append_assoc]
      rfl
    rw [loop]
    unfold Scan.visit
    by_cases hsep : u = valueSeparator
    · rw [if_pos hsep, ← hconcat (fun hu => hseparator (hsep.symm.trans hu)), hstart]
      by_cases hzero : valueStartOf valueSeparator done.length entry = 0
      · rw [if_pos hzero, if_pos ⟨hsep, hzero⟩]
      · rw [if_neg hzero, if_neg fun h => hzero h.2]
    · rw [if_neg hsep]
      rw [if_neg fun h => hsep h.1] at hstart
      by_cases hu : u = unit ','
      · have hflush : Scan.flush
            ⟨carrier, valueStartOf valueSeparator done.length entry, done.length⟩ keyValuePairs
            (done.length + entry.length) = withTags carrier (kept valueSeparator [entry]) := by
          rw [heq, flush_eq (hfirst done entry (u :: rest) heq)]
        have hdone : keyValuePairs = (done ++ entry ++ [u]) ++ [] ++ rest := by
          rw [hnext, append_nil, ← append_assoc done]
        have hcount : (done ++ entry ++ [u]).length = done.length + entry.length + 1 := by
          rw [length_append, length_append]
          rfl
        have hrest := ih (withTags carrier (kept valueSeparator [entry])) (done ++ entry ++ [u]) []
          hdone not_mem_nil
        rw [hcount] at hrest
        rw [hu, split_append_cons hcomma, ← singleton_append, kept_append, withTags, foldl_append]
        rw [hflush]
        exact hrest
      · rw [if_neg hu, ← hconcat hu, hstart]

theorem add_eq (hseparator : valueSeparator ≠ unit ',')
    (hhead : keyValuePairs.head? ≠ some valueSeparator)
    (carrier : OrderedMap Str Str) :
    add carrier keyValuePairs valueSeparator =
      withTags carrier (kept valueSeparator (Str.split (unit ',') keyValuePairs)) :=
  finish_loop hseparator hhead keyValuePairs carrier [] [] rfl not_mem_nil

/-! ## White space -/

theorem kept_nil_cons (valueSeparator : UInt16) (entries : List Str) :
    kept valueSeparator ([] :: entries) = kept valueSeparator entries := by
  rfl

/-- **A white space that is replaced by commas** is a separator of entries. -/
theorem kept_commaSpaces (valueSeparator : UInt16) {raw : Str} (h : unit ',' ∉ raw) :
    kept valueSeparator (Str.split (unit ',') (commaSpaces false raw)) =
      kept valueSeparator (raw.splitOnP Str.isSpace) := by
  -- behind a word, and behind a white space
  have hboth : (∀ word : Str, unit ',' ∉ word → (∀ u ∈ word, Str.isSpace u = false) →
      kept valueSeparator (Str.split (unit ',') (word ++ commaSpaces false raw)) =
        kept valueSeparator ((word ++ raw).splitOnP Str.isSpace)) ∧
      kept valueSeparator (Str.split (unit ',') (commaSpaces true raw)) =
        kept valueSeparator (raw.splitOnP Str.isSpace) := by
    induction raw with
    | nil =>
      refine ⟨fun word hcomma hspace => ?_, rfl⟩
      rw [commaSpaces, append_nil, split_of_notMem hcomma, splitOnP_eq_singleton hspace]
    | cons u raw ih =>
      rw [mem_cons, not_or] at h
      obtain ⟨hword, hspace⟩ := ih h.2
      cases hu : Str.isSpace u with
      | true =>
        constructor
        · intro word hcomma hwordSpace
          rw [commaSpaces, if_pos hu, if_neg Bool.false_ne_true, split_append_cons hcomma,
            splitOnP_append_cons_of_forall_mem hwordSpace u hu, ← singleton_append,
            kept_append, hspace, ← kept_append]
          rfl
        · have hsplit : ([] ++ u :: raw).splitOnP Str.isSpace = [] :: raw.splitOnP Str.isSpace :=
            splitOnP_append_cons_of_forall_mem (fun _ h => absurd h not_mem_nil) u hu raw
          rw [List.nil_append] at hsplit
          rw [commaSpaces, if_pos hu, if_pos rfl, hspace, hsplit, kept_nil_cons]
      | false =>
        have hne : ¬Str.isSpace u = true := by rw [hu]; exact Bool.false_ne_true
        constructor
        · intro word hcomma hwordSpace
          rw [commaSpaces, if_neg hne, append_cons, append_cons word u raw]
          refine hword (word ++ [u]) ?_ ?_
          · rw [mem_append, mem_singleton, not_or]
            exact ⟨hcomma, h.1⟩
          · intro w hw
            rw [mem_append, mem_singleton] at hw
            rcases hw with hw | rfl
            · exact hwordSpace w hw
            · exact hu
        · rw [commaSpaces, if_neg hne]
          refine hword [u] ?_ ?_
          · rw [mem_singleton]
            exact h.1
          · intro w hw
            rw [mem_singleton] at hw
            rw [hw, hu]
  exact hboth.1 [] not_mem_nil fun u hu => absurd hu not_mem_nil

theorem separatorOf_ne (optionName : Str) : separatorOf optionName ≠ unit ',' := by
  unfold separatorOf
  split <;> decide

/-- **The map of an option** is that of its entries. -/
theorem MAP_eq {raw optionName : Str} (hhead : raw.head? ≠ some (separatorOf optionName)) :
    MAP raw optionName =
      withTags OrderedMap.empty (kept (separatorOf optionName) (entriesOf raw optionName)) := by
  unfold MAP entriesOf
  by_cases hraw : raw = []
  · rw [if_pos hraw, hraw]
    split <;> rfl
  rw [if_neg hraw]
  cases hspaced : isSpaced raw optionName with
  | false =>
    rw [if_neg Bool.false_ne_true, if_neg Bool.false_ne_true, add_eq (separatorOf_ne _) hhead]
  | true =>
    have hcomma : unit ',' ∉ raw := by
      unfold isSpaced at hspaced
      rw [Bool.and_eq_true, Bool.not_eq_true', includes_eq_false_iff] at hspaced
      exact hspaced.2
    have hfirst : (commaSpaces false raw).head? ≠ some (separatorOf optionName) := by
      cases raw with
      | nil => exact absurd rfl hraw
      | cons u raw =>
        rw [commaSpaces]
        split
        · exact fun h => separatorOf_ne optionName (some.inj h).symm
        · exact hhead
    rw [if_pos rfl, if_pos rfl, add_eq (separatorOf_ne _) hfirst, kept_commaSpaces _ hcomma]

/-! ## The mapping -/

/-- **Both parsers yield the mapping of their entries.** -/
theorem tags_eq_reference {valueSeparator : UInt16}
    (hseparator : valueSeparator = unit ':' ∨ valueSeparator = unit '=') {keyValuePairs : Str}
    (hhead : keyValuePairs.head? ≠ some valueSeparator) (carrier : OrderedMap Str Str)
    {raw optionName : Str} (hraw : raw.head? ≠ some (separatorOf optionName)) (key : Str) :
    (add carrier keyValuePairs valueSeparator).get? key =
        (OrderedMap.lastValue (kept valueSeparator (Str.split (unit ',') keyValuePairs)) key).or
          (carrier.get? key) ∧
      (MAP raw optionName).get? key =
        OrderedMap.lastValue (kept (separatorOf optionName) (entriesOf raw optionName)) key := by
  have hcomma : valueSeparator ≠ unit ',' := by
    rcases hseparator with rfl | rfl <;> decide
  constructor
  · rw [add_eq hcomma hhead, get?_withTags]
  · rw [MAP_eq hraw, get?_withTags, OrderedMap.get?_empty, or_none]

/-- The theorem for `a: b,c` and for `a:b c` of `DD_TAGS`. -/
theorem tags_eq_reference_spaced :
    (add OrderedMap.empty (lit "a: b,c") (unit ':')).get? (lit "a") = some (lit "b") ∧
      (MAP (lit "a:b c") (lit "DD_TAGS")).get? (lit "c") = some [] := by
  have hread := fun key => @tags_eq_reference (unit ':') (.inl rfl) (lit "a: b,c") (by decide)
    OrderedMap.empty (lit "a:b c") (lit "DD_TAGS") (by decide) key
  exact ⟨(hread (lit "a")).1.trans (by decide), (hread (lit "c")).2.trans (by decide)⟩

/-- **An entry without a value** is kept, and a separator at the start is taken for none. -/
theorem not_tags_eq_withValue : (add OrderedMap.empty (lit "a") (unit ':')).get? (lit "a") ≠
        OrderedMap.lastValue (keptWithValue (unit ':') (Str.split (unit ',') (lit "a"))) (lit "a") ∧
      (add OrderedMap.empty (lit ":a:b") (unit ':')).get? (lit ":a") ≠
        OrderedMap.lastValue (keptWithValue (unit ':') (Str.split (unit ',') (lit ":a:b")))
          (lit ":a") := by
  decide

end DdTrace.Config
