import DdTrace.Library.OrderedMap
import DdTrace.Library.PercentEncoding

/-!
# Baggage

The store of `baggage.js`, and the `baggage` header of `opentracing/propagation/text_map.js`.  The
header is a list of `key=value` members, where the key is a token of RFC 7230 and stands for itself,
and the value is percent-encoded.  Injection counts items and bytes and stops at the first item that
exceeds a limit; extraction counts the same way.

Extraction takes an empty value for a malformed member, and with one malformed member it drops the
whole header.  Injection writes such members, and `encodeURIComponent` throws at a lone surrogate.
Items are collected in an object, which has no own property `__proto__` after an assignment.  Apart
from these three a store comes back:

* `injectBaggageItems_eq`, `injectBaggageItems_eq_none`: the header of a store within the limits.
* `readItems_members`, `readItems_malformed`: the loop of extraction over such a header.
* `comesBack_iff`: a store comes back exactly when no value is empty or has a lone surrogate, and
  no key is `__proto__`.
-/

namespace DdTrace

open Library List Option

namespace Baggage

open PercentEncoding Unicode

/-! ## The store -/

/-- The items, in the order of `Object.keys`. -/
abbrev Store := OrderedMap Str Str

/-- `setBaggageItem`, of two strings. -/
def setBaggageItem (store : Store) (key value : Str) : Store :=
  if key = [] then store else store.set key value

def removeAllBaggageItems : Store := .empty

/-- What the functions below read from the configuration. -/
structure Config where
  /-- `baggage` is among the styles of injection. -/
  injects : Bool := true
  extracts : Bool := true
  baggageMaxItems : ℕ := 64
  baggageMaxBytes : ℕ := 8192
  baggageTagKeys : List Str := [lit "user.id", lit "session.id", lit "account.id"]

/-! ## Injection -/

/-- `tchar` of RFC 7230. -/
def isTokenUnit (u : UInt16) : Bool :=
  let n := u.toNat
  n == 0x21 || (0x23 ≤ n && n ≤ 0x27) || n == 0x2A || n == 0x2B || n == 0x2D || n == 0x2E ||
    (0x30 ≤ n && n ≤ 0x39) || (0x41 ≤ n && n ≤ 0x5A) || (0x5E ≤ n && n ≤ 0x7A) || n == 0x7C ||
    n == 0x7E

def baggageTokenExpr (s : Str) : Bool := s != [] && s.all isTokenUnit

/-- The loop over the items.  It throws where `encodeURIComponent` does. -/
def injectItems (config : Config) (baggage : Str) (itemCounter byteCounter : ℕ) :
    List (Str × Str) → Option Str
  | [] => some baggage
  | e :: l =>
    let baggageKey := Str.trim e.1
    if baggageTokenExpr baggageKey then
      match encodeURIComponent e.2 with
      | none => none
      | some encoded =>
        let item := baggageKey ++ unit '=' :: encoded ++ [unit ',']
        if itemCounter + 1 > config.baggageMaxItems then some baggage
        else if byteCounter + item.length > config.baggageMaxBytes then some baggage
        else injectItems config (baggage ++ item) (itemCounter + 1) (byteCounter + item.length) l
    else injectItems config baggage itemCounter byteCounter l

/-- `_injectBaggageItems`: the header, when one is written. -/
def injectBaggageItems (config : Config) (store : Store) : Option (Option Str) :=
  if config.injects then
    (injectItems config [] 0 0 store.entries).map fun baggage =>
      if baggage.dropLast = [] then none else some baggage.dropLast
  else some none

/-! ## Extraction -/

/-- What extraction makes of one member. -/
inductive Member where
  | skip
  | malformed
  | item (key value : Str)
  deriving DecidableEq

/-- The text of a value.  Bytes that are not UTF-8 come out as U+FFFD. -/
def decodeValue (value : Str) : Str :=
  if includes value percent then
    (decodeURIComponent value).getD (decodeLossy ((tokens value).map Token.latin1))
  else value

/-- A member without its properties. -/
def readMember (keyValue : Str) : Member :=
  let member := Str.trim (((Str.cut (unit ';') keyValue).map Prod.fst).getD keyValue)
  if member = [] then .skip
  else
    match Str.cut (unit '=') member with
    | none => .malformed
    | some (key, value) =>
      if baggageTokenExpr (Str.trim key) = false ∨ Str.trim value = [] then .malformed
      else .item (Str.trim key) (decodeValue (Str.trim value))

/-- `items[key] = value`.  The setter of `__proto__` ignores a string. -/
def assign (items : Store) (key value : Str) : Store :=
  if key = lit "__proto__" then items else items.set key value

/-- The variables of the loop, with the tags of the trace when there is a context. -/
structure Reading where
  items : Option Store := none
  itemCount : ℕ := 0
  byteCount : ℕ := 0
  tags : Option (OrderedMap Str Str) := none

/-- What the keys of the tags of baggage begin with. -/
def tagPrefix : Str := lit "baggage."

/-- An item is kept, and its tag written. -/
def Reading.keep (config : Config) (r : Reading) (key value : Str) : Reading :=
  { r with
    items := some (assign (r.items.getD .empty) key value)
    itemCount := r.itemCount + 1
    tags := r.tags.map fun tags =>
      if includes config.baggageTagKeys (lit "*") || includes config.baggageTagKeys key then
        tags.set (tagPrefix ++ key) value
      else tags }

/-- The loop over the members.  It leaves no items when it returns at a malformed one. -/
def readItems (config : Config) (r : Reading) : List Str → Reading
  | [] => r
  | keyValue :: l =>
    if r.itemCount ≥ config.baggageMaxItems then r
    else if r.byteCount + (keyValue.length + 1) > config.baggageMaxBytes then r
    else
      let r := { r with byteCount := r.byteCount + (keyValue.length + 1) }
      match readMember keyValue with
      | .skip => readItems config r l
      | .malformed => { r with items := none }
      | .item key value => readItems config (r.keep config key value) l

/-- `_extractBaggageItems`: the new store, and the tags of the trace. -/
def extractBaggageItems (config : Config) (header : Option Str)
    (tags : Option (OrderedMap Str Str)) : Store × Option (OrderedMap Str Str) :=
  match header with
  | none => (removeAllBaggageItems, tags)
  | some header =>
    if config.extracts = false ∨ header = [] then (removeAllBaggageItems, tags)
    else
      let r := readItems config { tags := tags } (Str.split (unit ',') header)
      (r.items.getD removeAllBaggageItems, r.tags)

/-! ## The header of a store -/

/-- The text of an item, with nothing for a value that cannot be encoded. -/
def memberText (e : Str × Str) : Str := e.1 ++ unit '=' :: (encodeURIComponent e.2).getD []

/-- The length of an item with its comma. -/
def itemLength (e : Str × Str) : ℕ := (memberText e).length + 1

/-- The items do not exceed the limits. -/
structure Fits (config : Config) (l : List (Str × Str)) : Prop where
  items : l.length ≤ config.baggageMaxItems
  bytes : (l.map itemLength).sum ≤ config.baggageMaxBytes

/-- Neither white space nor a separator of members or properties. -/
def IsPlain (u : UInt16) : Prop := Str.isSpace u = false ∧ u ≠ unit ',' ∧ u ≠ unit ';'

instance (u : UInt16) : Decidable (IsPlain u) := inferInstanceAs (Decidable (_ ∧ _))

theorem isPlain_of_lt {u : UInt16} (h : u.toNat < 0x7F)
    (h' : isTokenUnit u = true ∨ isKept u = true) : IsPlain u := by
  have hall : ∀ n < 0x7F, isTokenUnit n.toUInt16 = true ∨ isKept n.toUInt16 = true →
      IsPlain n.toUInt16 := by decide
  have hu := hall u.toNat h
  rw [toUInt16_toNat] at hu
  exact hu h'

theorem isPlain_of_isTokenUnit {u : UInt16} (h : isTokenUnit u = true) : IsPlain u := by
  refine isPlain_of_lt ?_ (.inl h)
  simp only [isTokenUnit, Bool.or_eq_true, Bool.and_eq_true, beq_iff_eq, decide_eq_true_eq] at h
  omega

theorem isPlain_of_isKept {u : UInt16} (h : isKept u = true) : IsPlain u := by
  refine isPlain_of_lt ?_ (.inr h)
  simp only [isKept, Bool.or_eq_true, Bool.and_eq_true, beq_iff_eq, decide_eq_true_eq] at h
  omega

theorem baggageTokenExpr_iff {k : Str} :
    baggageTokenExpr k = true ↔ k ≠ [] ∧ ∀ u ∈ k, isTokenUnit u = true := by
  rw [baggageTokenExpr, Bool.and_eq_true, bne_iff_ne, List.all_eq_true]

theorem trim_token {k : Str} (h : baggageTokenExpr k = true) : Str.trim k = k := by
  have hall := (baggageTokenExpr_iff.mp h).2
  exact Str.trim_of_ends (fun u hu => (isPlain_of_isTokenUnit (hall u (mem_of_head? hu))).1)
    (fun u hu => (isPlain_of_isTokenUnit (hall u (mem_of_getLast? hu))).1)

variable {config : Config} {l : List (Str × Str)} {e : Str × Str} {r : Reading} {encoded : Str}

theorem length_memberText (h : encodeURIComponent e.2 = some encoded) :
    (e.1 ++ unit '=' :: encoded ++ [unit ',']).length = itemLength e := by
  rw [length_append, itemLength, memberText, h]
  rfl

/-- The loop writes every item, when the counters leave room for all of them. -/
theorem injectItems_eq (hkeys : ∀ e ∈ l, baggageTokenExpr e.1 = true)
    (hvalues : ∀ e ∈ l, isWellFormed e.2 = true)
    {items bytes : ℕ} (hitems : items + l.length ≤ config.baggageMaxItems)
    (hbytes : bytes + (l.map itemLength).sum ≤ config.baggageMaxBytes) (baggage : Str) :
    injectItems config baggage items bytes l =
      some (baggage ++ l.flatMap fun e => memberText e ++ [unit ',']) := by
  induction l generalizing items bytes baggage with
  | nil => rw [injectItems, flatMap_nil, append_nil]
  | cons e l ih =>
    have hkey := hkeys e mem_cons_self
    obtain ⟨encoded, henc⟩ := isSome_iff_exists.mp
      ((encode_isSome_iff e.2).mpr (hvalues e mem_cons_self))
    rw [length_cons] at hitems
    rw [map_cons, sum_cons] at hbytes
    have htext : memberText e = e.1 ++ unit '=' :: encoded := by rw [memberText, henc]; rfl
    rw [injectItems, trim_token hkey, if_pos hkey, henc]
    dsimp only
    rw [length_memberText henc, if_neg (by omega), if_neg (by omega),
      ih (forall_mem_cons.mp hkeys).2
        (forall_mem_cons.mp hvalues).2 (by omega) (by omega),
      flatMap_cons, htext, append_assoc]

/-- The loop throws at a value with a lone surrogate, when it gets there. -/
theorem injectItems_eq_none (hkeys : ∀ e ∈ l, baggageTokenExpr e.1 = true) (he : e ∈ l)
    (hvalue : isWellFormed e.2 = false)
    {items bytes : ℕ} (hitems : items + l.length ≤ config.baggageMaxItems)
    (hbytes : bytes + (l.map itemLength).sum ≤ config.baggageMaxBytes) (baggage : Str) :
    injectItems config baggage items bytes l = none := by
  induction l generalizing items bytes baggage with
  | nil => exact absurd he not_mem_nil
  | cons f l ih =>
    have hkey := hkeys f mem_cons_self
    rw [length_cons] at hitems
    rw [map_cons, sum_cons] at hbytes
    rw [injectItems, trim_token hkey, if_pos hkey]
    rcases henc : encodeURIComponent f.2 with _ | encoded
    · rfl
    · have hne : e ≠ f := by
        rintro rfl
        have hwf := (encode_isSome_iff e.2).mp (isSome_iff_exists.mpr ⟨encoded, henc⟩)
        rw [hvalue] at hwf
        cases hwf
      dsimp only
      rw [length_memberText henc, if_neg (by omega), if_neg (by omega),
        ih (forall_mem_cons.mp hkeys).2 ((mem_cons.mp he).resolve_left hne)
          (by omega) (by omega)]

/-- The last comma is cut off. -/
theorem dropLast_members (l : List (Str × Str)) :
    (l.flatMap fun e => memberText e ++ [unit ',']).dropLast =
      Str.join (unit ',') (l.map memberText) := by
  induction l with
  | nil => rfl
  | cons e l ih =>
    rcases l with _ | ⟨f, l⟩
    · rw [flatMap_singleton, dropLast_concat, map_singleton, Str.join_singleton]
    · have hne : ((f :: l).flatMap fun e => memberText e ++ [unit ',']) ≠ [] := by
        simp
      have hjoin : Str.join (unit ',') ((e :: f :: l).map memberText) =
          memberText e ++ unit ',' :: Str.join (unit ',') ((f :: l).map memberText) :=
        Str.join_cons _ _ (by simp)
      rw [flatMap_cons, dropLast_append_of_ne_nil hne, ih, hjoin, append_assoc, singleton_append]

theorem memberText_ne_nil (e : Str × Str) : memberText e ≠ [] := by
  simp [memberText]

/-- **The header of a store within the limits.** -/
theorem injectBaggageItems_eq (hinjects : config.injects = true) {store : Store}
    (hkeys : ∀ e ∈ store.entries, baggageTokenExpr e.1 = true)
    (hvalues : ∀ e ∈ store.entries, isWellFormed e.2 = true) (hfits : Fits config store.entries) :
    injectBaggageItems config store = some (if store.entries = [] then none
      else some (Str.join (unit ',') (store.entries.map memberText))) := by
  rw [injectBaggageItems, if_pos hinjects,
    injectItems_eq hkeys hvalues (by rw [Nat.zero_add]; exact hfits.items)
      (by rw [Nat.zero_add]; exact hfits.bytes), map_some, List.nil_append,
    dropLast_members]
  rcases hl : store.entries with _ | ⟨e, l⟩
  · rfl
  · rw [map_cons, if_neg (fun h => memberText_ne_nil e (Str.join_eq_nil_iff.mp h).1),
      if_neg (cons_ne_nil _ _)]

theorem injectBaggageItems_eq_none (hinjects : config.injects = true)
    {store : Store} (hkeys : ∀ e ∈ store.entries, baggageTokenExpr e.1 = true)
    (he : e ∈ store.entries) (hvalue : isWellFormed e.2 = false)
    (hfits : Fits config store.entries) : injectBaggageItems config store = none := by
  rw [injectBaggageItems, if_pos hinjects,
    injectItems_eq_none hkeys he hvalue (by rw [Nat.zero_add]; exact hfits.items)
      (by rw [Nat.zero_add]; exact hfits.bytes)]
  rfl

/-! ## Reading the header -/

theorem trim_of_isPlain {s : Str} (h : ∀ u ∈ s, IsPlain u) : Str.trim s = s :=
  Str.trim_of_ends (fun u hu => (h u (mem_of_head? hu)).1)
    (fun u hu => (h u (mem_of_getLast? hu)).1)

theorem isPlain_of_encode {s : Str} (h : encodeURIComponent s = some encoded) :
    ∀ u ∈ encoded, IsPlain u := by
  intro u hu
  rcases isKept_or_percent_of_encode h u hu with hkept | rfl
  · exact isPlain_of_isKept hkept
  · decide

theorem isPlain_of_memberText (hkey : baggageTokenExpr e.1 = true) :
    ∀ u ∈ memberText e, IsPlain u := by
  intro u hu
  rw [memberText, mem_append, mem_cons] at hu
  rcases hu with hu | rfl | hu
  · exact isPlain_of_isTokenUnit ((baggageTokenExpr_iff.mp hkey).2 u hu)
  · decide
  · rcases henc : encodeURIComponent e.2 with _ | encoded
    · rw [henc] at hu
      exact absurd hu not_mem_nil
    · rw [henc] at hu
      exact isPlain_of_encode henc u hu

/-- The guard of the decoder changes nothing: text without `%` stands for itself. -/
theorem decodeValue_of_encode {s : Str} (h : encodeURIComponent s = some encoded) :
    decodeValue encoded = s := by
  have hback := decode_encode h
  rw [decodeValue]
  split
  · rw [hback, getD_some]
  · next hnone =>
    rw [includes_eq_true_iff] at hnone
    rw [decode_of_notMem hnone] at hback
    exact some_inj.mp hback

/-- A member is the item it was written for, unless its value is empty. -/
theorem readMember_memberText (hkey : baggageTokenExpr e.1 = true)
    (hvalue : isWellFormed e.2 = true) :
    readMember (memberText e) = if e.2 = [] then .malformed else .item e.1 e.2 := by
  have hplain := isPlain_of_memberText hkey
  have hsemicolon : unit ';' ∉ memberText e := fun h => (hplain _ h).2.2 rfl
  have hequals : unit '=' ∉ e.1 := by
    intro h
    have hunit := (baggageTokenExpr_iff.mp hkey).2 _ h
    revert hunit
    decide
  obtain ⟨encoded, henc⟩ := isSome_iff_exists.mp ((encode_isSome_iff e.2).mpr hvalue)
  have htext : memberText e = e.1 ++ unit '=' :: encoded := by rw [memberText, henc]; rfl
  rw [readMember, Str.cut_eq_none_iff.mpr hsemicolon, map_none, getD_none, trim_of_isPlain hplain]
  rw [if_neg (memberText_ne_nil e), htext, Str.cut_append hequals]
  dsimp only
  rw [trim_token hkey, trim_of_isPlain (isPlain_of_encode henc), decodeValue_of_encode henc, hkey]
  by_cases hempty : e.2 = []
  · rw [if_pos (.inr ((encode_eq_nil_iff henc).mpr hempty)), if_pos hempty]
  · rw [if_neg (by simpa using fun h => hempty ((encode_eq_nil_iff henc).mp h)), if_neg hempty]

@[simp] theorem itemCount_keep (config : Config) (r : Reading) (key value : Str) :
    (r.keep config key value).itemCount = r.itemCount + 1 := rfl

@[simp] theorem byteCount_keep (config : Config) (r : Reading) (key value : Str) :
    (r.keep config key value).byteCount = r.byteCount := rfl

/-- The items of a list of entries, assigned one after the other. -/
def assignAll (items : Store) (l : List (Str × Str)) : Store :=
  l.foldl (fun items e => assign items e.1 e.2) items

/-- The loop collects every item, when no value is empty. -/
theorem readItems_members (hkeys : ∀ e ∈ l, baggageTokenExpr e.1 = true)
    (hvalues : ∀ e ∈ l, isWellFormed e.2 = true)
    (hempty : ∀ e ∈ l, e.2 ≠ []) (hitems : r.itemCount + l.length ≤ config.baggageMaxItems)
    (hbytes : r.byteCount + (l.map itemLength).sum ≤ config.baggageMaxBytes) :
    (readItems config r (l.map memberText)).items.getD .empty =
      assignAll (r.items.getD .empty) l := by
  induction l generalizing r with
  | nil => rfl
  | cons e l ih =>
    rw [length_cons] at hitems
    rw [map_cons, sum_cons, itemLength] at hbytes
    rw [map_cons, readItems, if_neg (by omega), if_neg (by omega),
      readMember_memberText (hkeys e mem_cons_self) (hvalues e mem_cons_self),
      if_neg (hempty e mem_cons_self)]
    rw [ih (forall_mem_cons.mp hkeys).2
      (forall_mem_cons.mp hvalues).2
      (forall_mem_cons.mp hempty).2
      (by rw [itemCount_keep]; dsimp only; omega) (by rw [byteCount_keep]; dsimp only; omega)]
    rfl

/-- The loop leaves no items, when a value is empty. -/
theorem readItems_malformed (hkeys : ∀ e ∈ l, baggageTokenExpr e.1 = true)
    (hvalues : ∀ e ∈ l, isWellFormed e.2 = true)
    (hempty : ∃ e ∈ l, e.2 = []) (hitems : r.itemCount + l.length ≤ config.baggageMaxItems)
    (hbytes : r.byteCount + (l.map itemLength).sum ≤ config.baggageMaxBytes) :
    (readItems config r (l.map memberText)).items = none := by
  induction l generalizing r with
  | nil =>
    obtain ⟨e, he, -⟩ := hempty
    exact absurd he not_mem_nil
  | cons e l ih =>
    rw [length_cons] at hitems
    rw [map_cons, sum_cons, itemLength] at hbytes
    rw [map_cons, readItems, if_neg (by omega), if_neg (by omega),
      readMember_memberText (hkeys e mem_cons_self) (hvalues e mem_cons_self)]
    by_cases he : e.2 = []
    · rw [if_pos he]
    · rw [if_neg he]
      refine ih (forall_mem_cons.mp hkeys).2
        (forall_mem_cons.mp hvalues).2 ?_
        (by rw [itemCount_keep]; dsimp only; omega) (by rw [byteCount_keep]; dsimp only; omega)
      obtain ⟨f, hf, hvalue⟩ := hempty
      rcases mem_cons.mp hf with rfl | hf
      · exact absurd hvalue he
      · exact ⟨f, hf, hvalue⟩

theorem notMem_keys_assignAll {items : Store}
    (h : lit "__proto__" ∉ items.keys) : lit "__proto__" ∉ (assignAll items l).keys := by
  induction l generalizing items with
  | nil => exact h
  | cons e l ih =>
    refine ih ?_
    change lit "__proto__" ∉ (assign items e.1 e.2).keys
    unfold assign
    split
    · exact h
    · next hne =>
      rw [OrderedMap.mem_keys_set, not_or]
      exact ⟨fun he => hne he.symm, h⟩

theorem assignAll_eq (h : ∀ e ∈ l, e.1 ≠ lit "__proto__") (items : Store) :
    assignAll items l = l.foldl (fun m e => m.set e.1 e.2) items := by
  induction l generalizing items with
  | nil => rfl
  | cons e l ih =>
    have he : assign items e.1 e.2 = items.set e.1 e.2 := if_neg (h e mem_cons_self)
    rw [foldl_cons, ← he]
    exact ih (forall_mem_cons.mp h).2 _

/-- Extraction splits the header into the members it was joined from. -/
theorem extractBaggageItems_members (hextracts : config.extracts = true)
    (hkeys : ∀ e ∈ l, baggageTokenExpr e.1 = true) (hl : l ≠ [])
    (tags : Option (OrderedMap Str Str)) :
    (extractBaggageItems config (some (Str.join (unit ',') (l.map memberText))) tags).1 =
      (readItems config { tags := tags } (l.map memberText)).items.getD .empty := by
  have hcomma : ∀ s ∈ l.map memberText, unit ',' ∉ s := by
    intro s hs hmem
    obtain ⟨e, he, rfl⟩ := List.mem_map.mp hs
    exact (isPlain_of_memberText (hkeys e he) _ hmem).2.1 rfl
  have hne : Str.join (unit ',') (l.map memberText) ≠ [] := by
    obtain ⟨e, l, rfl⟩ := exists_cons_of_ne_nil hl
    exact fun h => memberText_ne_nil e (Str.join_eq_nil_iff.mp h).1
  rw [extractBaggageItems, if_neg (by simp [hextracts, hne]),
    Str.split_join hcomma (by rw [Ne, map_eq_nil_iff]; exact hl)]
  rfl

/-! ## The tags -/

/-- An item writes no tags but its own. -/
theorem exists_tags_keep (config : Config) {tags : OrderedMap Str Str}
    (h : r.tags = some tags) (key value : Str) :
    ∃ tags', (r.keep config key value).tags = some tags' ∧
      ∀ k, tagPrefix.isPrefixOf k = false → tags'.get? k = tags.get? k := by
  rw [Reading.keep, h]
  split
  · refine ⟨_, rfl, fun k hk => OrderedMap.get?_set_of_ne tags ?_ value⟩
    rintro rfl
    cases hk
  · exact ⟨tags, rfl, fun k _ => rfl⟩

theorem exists_tags_readItems (config : Config) (l : List Str) {tags : OrderedMap Str Str}
    (h : r.tags = some tags) :
    ∃ tags', (readItems config r l).tags = some tags' ∧
      ∀ k, tagPrefix.isPrefixOf k = false → tags'.get? k = tags.get? k := by
  induction l generalizing r tags with
  | nil => exact ⟨tags, h, fun k _ => rfl⟩
  | cons keyValue l ih =>
    rw [readItems]
    split
    · exact ⟨tags, h, fun k _ => rfl⟩
    split
    · exact ⟨tags, h, fun k _ => rfl⟩
    split
    · exact ih h
    · exact ⟨tags, h, fun k _ => rfl⟩
    · next key value _ =>
      obtain ⟨tags1, h1, hkeep⟩ := exists_tags_keep config
        (r := { r with byteCount := r.byteCount + (keyValue.length + 1) }) h key value
      obtain ⟨tags2, h2, hread⟩ := ih h1
      exact ⟨tags2, h2, fun k hk => (hread k hk).trans (hkeep k hk)⟩

/-- **Extraction writes no tags but those of baggage.** -/
theorem exists_tags_extractBaggageItems (config : Config) (header : Option Str)
    (tags : OrderedMap Str Str) :
    ∃ tags', (extractBaggageItems config header (some tags)).2 = some tags' ∧
      ∀ k, tagPrefix.isPrefixOf k = false → tags'.get? k = tags.get? k := by
  rw [extractBaggageItems.eq_def]
  split
  · exact ⟨tags, rfl, fun k _ => rfl⟩
  split
  · exact ⟨tags, rfl, fun k _ => rfl⟩
  · exact exists_tags_readItems config _ rfl

/-! ## The round trip -/

/-- Injection does not throw, and extraction of the header gives the store. -/
def ComesBack (config : Config) (store : Store) (tags : Option (OrderedMap Str Str)) : Prop :=
  ∃ header, injectBaggageItems config store = some header ∧
    (extractBaggageItems config header tags).1 = store

/-- **A store of items within the limits comes back exactly when no value is empty, no value has a
lone surrogate and no key is `__proto__`.** -/
theorem comesBack_iff {config : Config} (hinjects : config.injects = true)
    (hextracts : config.extracts = true) {store : Store}
    (hkeys : ∀ e ∈ store.entries, baggageTokenExpr e.1 = true) (hfits : Fits config store.entries)
    (tags : Option (OrderedMap Str Str)) :
    ComesBack config store tags ↔ ∀ e ∈ store.entries,
      e.2 ≠ [] ∧ isWellFormed e.2 = true ∧ e.1 ≠ lit "__proto__" := by
  have hitems : ({ tags := tags } : Reading).itemCount + store.entries.length ≤
      config.baggageMaxItems := by
    rw [Nat.zero_add]
    exact hfits.items
  have hbytes : ({ tags := tags } : Reading).byteCount + (store.entries.map itemLength).sum ≤
      config.baggageMaxBytes := by
    rw [Nat.zero_add]
    exact hfits.bytes
  constructor
  · rintro ⟨header, hinject, hextract⟩
    have hvalues : ∀ e ∈ store.entries, isWellFormed e.2 = true := by
      intro e he
      by_contra hvalue
      rw [injectBaggageItems_eq_none hinjects hkeys he (by simpa using hvalue) hfits] at hinject
      cases hinject
    intro e he
    have hl : store.entries ≠ [] := ne_nil_of_mem he
    rw [injectBaggageItems_eq hinjects hkeys hvalues hfits, if_neg hl, some_inj] at hinject
    rw [← hinject, extractBaggageItems_members hextracts hkeys hl] at hextract
    have hempty : ∀ e ∈ store.entries, e.2 ≠ [] := by
      by_contra hsome
      push Not at hsome
      rw [readItems_malformed hkeys hvalues hsome hitems hbytes] at hextract
      rw [← hextract] at hl
      exact hl rfl
    refine ⟨hempty e he, hvalues e he, fun hproto => ?_⟩
    rw [readItems_members hkeys hvalues hempty hitems hbytes] at hextract
    have hassigned : assignAll .empty store.entries = store := hextract
    have hnot : lit "__proto__" ∉ (assignAll .empty store.entries).keys :=
      notMem_keys_assignAll not_mem_nil
    rw [hassigned, ← hproto] at hnot
    exact hnot (List.mem_map_of_mem he)
  · intro h
    have hvalues : ∀ e ∈ store.entries, isWellFormed e.2 = true := fun e he => (h e he).2.1
    refine ⟨_, injectBaggageItems_eq hinjects hkeys hvalues hfits, ?_⟩
    by_cases hl : store.entries = []
    · rw [if_pos hl]
      exact OrderedMap.ext hl.symm
    · rw [if_neg hl, extractBaggageItems_members hextracts hkeys hl,
        readItems_members hkeys hvalues (fun e he => (h e he).1) hitems hbytes,
        assignAll_eq fun e he => (h e he).2.2]
      exact OrderedMap.ofEntries_entries store

/-- A store that comes back. -/
def dogStore : Store := setBaggageItem .empty (lit "dog") (lit "Lassie, come home")

theorem comesBack_iff_dogStore : ComesBack {} dogStore none ↔ ∀ e ∈ dogStore.entries,
      e.2 ≠ [] ∧ isWellFormed e.2 = true ∧ e.1 ≠ lit "__proto__" :=
  comesBack_iff rfl rfl (by decide) ⟨by decide, by decide⟩ none

/-- A store with an empty value. -/
def emptyValueStore : Store :=
  setBaggageItem (setBaggageItem .empty (lit "user") (lit "ada")) (lit "note") []

/-- **The empty value takes the other item with it.** -/
theorem not_comesBack : (∀ e ∈ emptyValueStore.entries, baggageTokenExpr e.1 = true) ∧
      Fits {} emptyValueStore.entries ∧ ¬ ComesBack {} emptyValueStore none ∧
      injectBaggageItems {} emptyValueStore = some (some (lit "user=ada,note=")) ∧
      (extractBaggageItems {} (some (lit "user=ada,note=")) none).1 = .empty := by
  have hinject : injectBaggageItems {} emptyValueStore = some (some (lit "user=ada,note=")) := by
    decide +kernel
  have hextract : (extractBaggageItems {} (some (lit "user=ada,note=")) none).1 = .empty := by
    decide +kernel
  refine ⟨by decide, ⟨by decide, by decide⟩, ?_, hinject, hextract⟩
  rintro ⟨header, hheader, hstore⟩
  rw [hinject, some_inj] at hheader
  rw [← hheader] at hstore
  exact absurd (congrArg (fun m => m.entries.length) hstore) (by decide)

end Baggage
end DdTrace
