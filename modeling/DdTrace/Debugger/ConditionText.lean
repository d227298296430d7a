import DdTrace.Debugger.Condition

/-!
# What an expression can put into the source

The source that `compile` returns is evaluated in the application, and the expression it is made of
comes over the network.  `Written` says that a text is the compiler's own but for what it may take
from an expression: string literals as `JSON.stringify` writes them, numbers, booleans and
identifiers that the test of `assertIdentifier` accepts.

The own texts are a fixed list, so this bounds the source: whatever the expression is, nothing of it
stands there in another form.  A string literal ends where `readString_quote` of the library says,
at the quote that was written to close it.

* `written_compile`, `written_compileSegments`: every result is so written.  The induction is on the
  expression, with one lemma for each template.
-/

namespace DdTrace.Debugger

open Library List Option

/-! ## Pieces -/

/-- The texts of the compiler itself, up to the next hole of a template. -/
def ownTexts : List Str :=
  primitiveTypes ++
    [lit "null", lit "undefined", lit "(", lit ")", lit ", ", lit ",", lit ":", lit "[", lit "]",
      lit "\x7b", lit "\x7d", lit "!(", lit " === 0", lit "(typeof ", lit " === '", lit "')",
      lit "Function.prototype[Symbol.hasInstance].call(", lit ") === (", lit ") !== (", lit " > ",
      lit " >= ", lit " < ", lit " <= ", lit ") && (", lit ") || (",
      lit "String.prototype.startsWith.call(", lit "String.prototype.endsWith.call(", sizeFunction,
      coercionGuard, stringAssertion, containsFunction, matchesFunction, accessFunction true,
      accessFunction false, isDefinedHead, isDefinedTail, iterateHead (lit "some"),
      iterateHead (lit "every"), iterateMiddle (lit "some"), iterateMiddle (lit "every"),
      iterateTail, filterHead, filterMiddle, filterTail, substringHead, substringTail, segmentHead,
      segmentMiddle, segmentTail]

/-- A piece of source. -/
inductive Piece where
  | own (t : Str) (isOwn : t ∈ ownTexts)
  | string (s : Str)
  | number (n : Numeral)
  | boolean (b : Bool)
  | identifier (s : Str) (accepted : isIdentifier s = true)

namespace Piece

def text : Piece → Str
  | own t _ => t
  | string s => quote s
  | number n => n.text
  | boolean b => if b then lit "true" else lit "false"
  | identifier s _ => s

end Piece

/-- The text is made of such pieces. -/
def Written (s : Str) : Prop := ∃ pieces : List Piece, s = pieces.flatMap Piece.text

theorem written_piece (p : Piece) : Written p.text := ⟨[p], by simp⟩

variable {t s : Str}

theorem written_own (h : t ∈ ownTexts) : Written t := written_piece (.own t h)

theorem written_null : Written (lit "null") := written_own (by simp [ownTexts])

theorem written_nil : Written [] := ⟨[], rfl⟩

theorem Written.append (hs : Written s) (ht : Written t) : Written (s ++ t) := by
  obtain ⟨ps, rfl⟩ := hs
  obtain ⟨qs, rfl⟩ := ht
  exact ⟨ps ++ qs, by rw [flatMap_append]⟩

/-- Texts with an own text between any two of them. -/
theorem written_intercalate {sep : Str} (hsep : sep ∈ ownTexts) {l : List Str}
    (h : ∀ s ∈ l, Written s) : Written (sep.intercalate l) := by
  induction l with
  | nil => exact written_nil
  | cons s l ih =>
    have hs := h s mem_cons_self
    have hl := ih (forall_mem_cons.mp h).2
    cases l with
    | nil => simpa [List.intercalate] using hs
    | cons t l =>
      have hcons : sep.intercalate (s :: t :: l) = s ++ sep ++ sep.intercalate (t :: l) := by
        simp [List.intercalate]
      rw [hcons]
      exact (hs.append (written_own hsep)).append hl

/-- An own text on either side. -/
theorem written_between {l r : Str} (hl : l ∈ ownTexts) (hs : Written s) (hr : r ∈ ownTexts) :
    Written (l ++ s ++ r) :=
  ((written_own hl).append hs).append (written_own hr)

/-! ## Values -/

theorem written_boolean (b : Bool) : Written (if b then lit "true" else lit "false") :=
  written_piece (.boolean b)

mutual

theorem written_stringify : ∀ j : Json, Written j.stringify
  | .null => written_null
  | .bool b => written_boolean b
  | .num n => by
    rw [Json.stringify]
    split
    · exact written_piece (.number n)
    · exact written_null
  | .str s => written_piece (.string s)
  | .arr items =>
    written_between (by simp [ownTexts]) (written_stringifyItems items) (by simp [ownTexts])
  | .obj members =>
    written_between (by simp [ownTexts]) (written_stringifyMembers members) (by simp [ownTexts])

theorem written_stringifyItems : ∀ l : List Json, Written (Json.stringifyItems l)
  | [] => written_nil
  | [item] => written_stringify item
  | item :: next :: items =>
    ((written_stringify item).append (written_own (by simp [ownTexts]))).append
      (written_stringifyItems (next :: items))

theorem written_stringifyMembers : ∀ l : List (Str × Json), Written (Json.stringifyMembers l)
  | [] => written_nil
  | [(key, value)] =>
    ((written_piece (.string key)).append (written_own (by simp [ownTexts]))).append
      (written_stringify value)
  | (key, value) :: next :: members =>
    ((((written_piece (.string key)).append (written_own (by simp [ownTexts]))).append
      (written_stringify value)).append (written_own (by simp [ownTexts]))).append
        (written_stringifyMembers (next :: members))

end

/-! ## Identifiers -/

theorem isIdentifier_of_assertIdentifier {value : Option Json}
    (h : assertIdentifier value = some t) : isIdentifier t = true := by
  rcases value with _ | value
  · cases h
    decide
  · have hother : ∀ s : Str, (if isIdentifier s then some s else none) = some t →
        isIdentifier t = true := by
      intro s hs
      split at hs
      · next hid =>
        cases hs
        exact hid
      · cases hs
    cases value with
    | str s =>
      rw [assertIdentifier] at h
      split at h
      · next hid =>
        cases h
        exact (Bool.and_eq_true_iff.mp hid).1
      · cases h
    | null | bool b | num n | arr items | obj members => exact hother _ h

theorem written_assertIdentifier {value : Option Json} (h : assertIdentifier value = some t) :
    Written t :=
  written_piece (.identifier t (isIdentifier_of_assertIdentifier h))

/-- The name of a special variable is an identifier of its own. -/
theorem written_reference {value : Json} (h : reference value = some t) : Written t := by
  cases value with
  | str s =>
    obtain ⟨refValue, href, rfl⟩ := map_eq_some_iff.mp h
    have hid := isIdentifier_of_assertIdentifier href
    split
    · next hat =>
      have hname : isIdentifier (lit "$dd_" ++ refValue.drop 1) = true := by
        cases refValue with
        | nil => cases hid
        | cons u s =>
          have hu : u = unit '@' := hat
          rw [isIdentifier, if_pos hu, Bool.and_eq_true_iff] at hid
          show isIdentifier (unit '$' :: (lit "dd_" ++ s)) = true
          have hstart : isIdentifierStart (unit '$') = true := by decide
          have hdollar : (lit "dd_").all isIdentifierPart = true := by decide
          rw [isIdentifier, all_append, hid.2]
          rfl
      exact written_piece (.identifier _ hname)
    · exact written_assertIdentifier href
  | null => cases h
  | bool b => cases h
  | num n => cases h
  | arr items => cases h
  | obj members => cases h

/-! ## Templates -/

section Templates

variable {args : List Code}

theorem written_argText (h : ∀ c ∈ args, Written c.text) (i : ℕ) : Written (argText args i) := by
  rw [argText]
  split
  · next c hc => exact h c (mem_of_getElem? hc)
  · exact written_own (by simp [ownTexts])

theorem written_call {f v : Str} (hf : f ∈ ownTexts) (hv : Written v) :
    Written (f ++ lit "(" ++ v ++ lit ")") :=
  (((written_own hf).append (written_own (by simp [ownTexts]))).append hv).append
    (written_own (by simp [ownTexts]))

theorem written_call_two {f v w : Str} (hf : f ∈ ownTexts) (hv : Written v) (hw : Written w) :
    Written (f ++ lit "(" ++ v ++ lit ", " ++ w ++ lit ")") :=
  (((((written_own hf).append (written_own (by simp [ownTexts]))).append hv).append
    (written_own (by simp [ownTexts]))).append hw).append (written_own (by simp [ownTexts]))

theorem written_guard (h : ∀ c ∈ args, Written c.text) (i : ℕ) :
    Written (guardAgainstCoercionSideEffects args i) := by
  rw [guardAgainstCoercionSideEffects]
  split
  · next n _ => exact written_piece (.number n)
  · exact written_call (by simp [ownTexts]) (written_argText h i)

/-- Two operands around an operator. -/
theorem written_infix {v w op : Str} (hv : Written v) (hop : op ∈ ownTexts) (hw : Written w) :
    Written (v ++ op ++ w) :=
  (hv.append (written_own hop)).append hw

theorem written_joinArgs {separator : Str} (hsep : separator ∈ ownTexts)
    (h : ∀ c ∈ args, Written c.text) : Written (joinArgs separator args) := by
  refine written_between (by simp [ownTexts]) (written_intercalate hsep ?_) (by simp [ownTexts])
  intro s hs
  obtain ⟨c, hc, rfl⟩ := List.mem_map.mp hs
  cases c with
  | null => exact written_nil
  | num n | bool b | source s => exact h _ hc

theorem written_instanceOf {value : Json} {first : Option Code} {s : Str}
    (hfirst : ∀ c, first = some c → Written c.text) (h : instanceOf value first = some s) :
    Written s := by
  obtain ⟨type, -, h⟩ := bind_eq_some_iff.mp h
  split at h
  · next word hword =>
    obtain ⟨a, ha, rfl⟩ := map_eq_some_iff.mp h
    have hmem : word ∈ ownTexts := by
      refine mem_append_left _ ?_
      unfold isPrimitiveType at hword
      split at hword
      · split at hword
        · next hin =>
          cases hword
          exact includes_eq_true_iff.mp hin
        · cases hword
      · cases hword
    exact written_infix (written_between (by simp [ownTexts]) (hfirst a ha) (by simp [ownTexts]))
      hmem (written_own (by simp [ownTexts]))
  · obtain ⟨name, hname, h⟩ := bind_eq_some_iff.mp h
    obtain ⟨a, ha, rfl⟩ := map_eq_some_iff.mp h
    exact ((written_between (by simp [ownTexts]) (written_assertIdentifier hname)
      (by simp [ownTexts])).append (hfirst a ha)).append (written_own (by simp [ownTexts]))

theorem written_iterateOn {fnName v callback : Str} (hhead : iterateHead fnName ∈ ownTexts)
    (hmiddle : iterateMiddle fnName ∈ ownTexts) (hv : Written v) (hcallback : Written callback) :
    Written (iterateOn fnName v callback) :=
  (((written_between hhead hcallback hmiddle).append hcallback).append
    (written_own (by simp [ownTexts]))).append hv |>.append (written_own (by simp [ownTexts]))

theorem written_filterOn {v callback : Str} (hv : Written v) (hcallback : Written callback) :
    Written (filterOn v callback) :=
  ((((written_between (by simp [ownTexts]) hcallback (by simp [ownTexts])).append
    hcallback).append (written_own (by simp [ownTexts]))).append hv).append
      (written_own (by simp [ownTexts]))

theorem written_substringOf {v start stop : Str} (hv : Written v) (hstart : Written start)
    (hstop : Written stop) : Written (substringOf v start stop) :=
  ((((written_between (by simp [ownTexts]) hstart (by simp [ownTexts])).append hstop).append
    (written_own (by simp [ownTexts]))).append hv).append (written_own (by simp [ownTexts]))

theorem written_compileList {type : NodeType} {s : Str} (h : ∀ c ∈ args, Written c.text)
    (hs : compileList type args = some s) : Written s := by
  have harg := written_argText h
  have hguard := written_guard h
  have hstring : ∀ i, Written (assertString (argText args i)) := fun i =>
    written_call (by simp [ownTexts]) (harg i)
  cases type with
  | eq | ne =>
    cases hs
    exact ((written_between (by simp [ownTexts]) (harg 0) (by simp [ownTexts])).append
      (harg 1)).append (written_own (by simp [ownTexts]))
  | gt | ge | lt | le =>
    cases hs
    exact written_infix (hguard 0) (by simp [ownTexts]) (hguard 1)
  | any | all =>
    cases hs
    exact written_iterateOn (by simp [ownTexts]) (by simp [ownTexts]) (harg 0) (harg 1)
  | and | or =>
    cases hs
    exact written_joinArgs (by simp [ownTexts]) h
  | startsWith | endsWith =>
    cases hs
    exact ((written_between (by simp [ownTexts]) (hstring 0) (by simp [ownTexts])).append
      (hstring 1)).append (written_own (by simp [ownTexts]))
  | contains | «matches» | getmember | index =>
    cases hs
    exact written_call_two (by simp [ownTexts]) (harg 0) (harg 1)
  | filter =>
    cases hs
    exact written_filterOn (harg 0) (harg 1)
  | substring =>
    cases hs
    exact written_substringOf (harg 0) (harg 1) (harg 2)
  | not => cases hs
  | len => cases hs
  | count => cases hs
  | isEmpty => cases hs
  | isDefined => cases hs
  | «instanceof» => cases hs
  | ref => cases hs

theorem written_compileNode {type : NodeType} {value : Json} {whole first : Option Code}
    {items : Option (List Code)} {s : Str} (hwhole : ∀ c, whole = some c → Written c.text)
    (hfirst : ∀ c, first = some c → Written c.text)
    (hitems : ∀ args, items = some args → ∀ c ∈ args, Written c.text)
    (hs : compileNode type value whole first items = some s) : Written s := by
  have hlist : items.bind (compileList type) = some s → Written s := by
    intro hs
    obtain ⟨args, hargs, hs⟩ := bind_eq_some_iff.mp hs
    exact written_compileList (hitems args hargs) hs
  cases type with
  | not | isDefined =>
    obtain ⟨a, ha, rfl⟩ := map_eq_some_iff.mp hs
    exact written_between (by simp [ownTexts]) (hwhole a ha) (by simp [ownTexts])
  | len | count =>
    obtain ⟨a, ha, rfl⟩ := map_eq_some_iff.mp hs
    exact written_call (by simp [ownTexts]) (hwhole a ha)
  | isEmpty =>
    obtain ⟨a, ha, rfl⟩ := map_eq_some_iff.mp hs
    exact (written_call (by simp [ownTexts]) (hwhole a ha)).append
      (written_own (by simp [ownTexts]))
  | «instanceof» => exact written_instanceOf hfirst hs
  | ref => exact written_reference hs
  | _ => exact hlist hs

end Templates

/-! ## Every expression -/

mutual

theorem written_code : ∀ (node : Json) (c : Code), compile node = some c → Written c.text
  | .null, c, h => by
    cases h
    exact written_null
  | .num n, c, h => by
    cases h
    exact written_piece (.number n)
  | .bool b, c, h => by
    cases h
    exact written_boolean b
  | .str s, c, h => by
    cases h
    exact written_piece (.string s)
  | .arr _, c, h => by cases h
  | .obj [], c, h => by cases h
  | .obj ((name, value) :: _), c, h => by
    obtain ⟨type, -, h⟩ := bind_eq_some_iff.mp h
    obtain ⟨s, hs, rfl⟩ := map_eq_some_iff.mp h
    exact written_compileNode (written_code value) (written_codeFirst value)
      (written_codeItems value) hs

theorem written_codeFirst : ∀ (value : Json) (c : Code), compileFirst value = some c →
    Written c.text
  | .arr (item :: _), c, h => written_code item c h
  | .str (u :: _), c, h => by
    cases h
    exact written_piece (.string [u])
  | .obj members, c, h => written_codeMember members c h
  | .null, c, h => by cases h
  | .bool _, c, h => by cases h
  | .num _, c, h => by cases h
  | .arr [], c, h => by cases h
  | .str [], c, h => by cases h

theorem written_codeItems : ∀ (value : Json) (args : List Code), compileItems value = some args →
    ∀ c ∈ args, Written c.text
  | .arr items, args, h => written_codeAll items args h
  | .null, args, h => by cases h
  | .bool _, args, h => by cases h
  | .num _, args, h => by cases h
  | .str _, args, h => by cases h
  | .obj _, args, h => by cases h

theorem written_codeAll : ∀ (items : List Json) (args : List Code), compileAll items = some args →
    ∀ c ∈ args, Written c.text
  | [], args, h => by
    cases h
    exact fun c hc => absurd hc not_mem_nil
  | item :: items, args, h => by
    obtain ⟨first, hfirst, h⟩ := bind_eq_some_iff.mp h
    obtain ⟨rest, hrest, rfl⟩ := map_eq_some_iff.mp h
    intro c hc
    rcases mem_cons.mp hc with rfl | hc
    · exact written_code item c hfirst
    · exact written_codeAll items rest hrest c hc

theorem written_codeMember : ∀ (members : List (Str × Json)) (c : Code),
    compileMember (lit "0") members = some c → Written c.text
  | [], c, h => by cases h
  | (name, value) :: members, c, h => by
    rw [compileMember] at h
    split at h
    · exact written_code value c h
    · exact written_codeMember members c h

end

theorem written_compileSegment {segment : Json} (h : compileSegment segment = some s) :
    Written s := by
  cases segment with
  | obj members =>
    rw [compileSegment] at h
    split at h
    · cases h
      exact written_stringify _
    · obtain ⟨json, -, h⟩ := bind_eq_some_iff.mp h
      obtain ⟨c, hc, rfl⟩ := map_eq_some_iff.mp h
      have hdsl : Written (stringifyText (Json.member (lit "dsl") members)) := by
        cases Json.member (lit "dsl") members with
        | none => exact written_own (by simp [ownTexts, stringifyText])
        | some dsl => exact written_stringify dsl
      exact ((written_between (by simp [ownTexts]) (written_code json c hc)
        (by simp [ownTexts])).append hdsl).append (written_own (by simp [ownTexts]))
  | null => cases h
  | bool b => cases h
  | num n => cases h
  | str s => cases h
  | arr items => cases h

theorem written_segmentTexts {segments : List Json} {texts : List Str}
    (h : segmentTexts segments = some texts) : ∀ t ∈ texts, Written t := by
  induction segments generalizing texts with
  | nil =>
    cases h
    exact fun t ht => absurd ht not_mem_nil
  | cons segment segments ih =>
    obtain ⟨first, hfirst, h⟩ := bind_eq_some_iff.mp h
    obtain ⟨rest, hrest, rfl⟩ := map_eq_some_iff.mp h
    intro t ht
    rcases mem_cons.mp ht with rfl | ht
    · exact written_compileSegment hfirst
    · exact ih hrest t ht

/-- The segments of a template. -/
theorem written_segments {segments : List Json} (h : compileSegments segments = some s) :
    Written s := by
  obtain ⟨texts, htexts, rfl⟩ := map_eq_some_iff.mp h
  refine written_between (by simp [ownTexts]) (written_intercalate (by simp [ownTexts]) ?_)
    (by simp [ownTexts])
  intro t ht
  exact written_segmentTexts htexts t ht

end DdTrace.Debugger
