import DdTrace.Library.Binary64
import DdTrace.Library.JsonWriters
import DdTrace.Library.OrderedMap

/-!
# Span events as JSON text

An agent that takes no native span events gets them as one string among `meta`.
`stringifySpanEvents` writes that string by hand.  It puts a string between quotes as it is when a
scan finds nothing to escape, and leaves it to `JSON.stringify` otherwise.  The scan looks for
control characters, the quote and the backslash.  It does not look for lone surrogates, which
`JSON.stringify` escapes as well.

* `stringifySpanEvents_eq_write`: the text is that of the events with the strings written so.
* `escapeJsonString_eq_iff`: a string is written as `JSON.stringify` does exactly when it has no
  lone surrogate or has a character that the scan finds.
* `stringifySpanEvents_iff`: **the text is that of `JSON.stringify` exactly when all strings are
  like that, and it is always read back as the events**.
* `stringifySpanEvents_lone`: an event whose name is a lone surrogate.

`String(number)` is the same for both, and all that matters of it is that the text of a finite
number is JSON.  An event whose name is no string is handed to `JSON.stringify` as a whole and left
out here.
-/

open Library

namespace DdTrace.Encode.Legacy

open List Option Json

/-! ## Events -/

/-- What `_sanitizeEventAttributes` lets through, and arrays within arrays. -/
inductive EventValue where
  | str (s : Str)
  | num (d : Binary64)
  | bool (b : Bool)
  | array (items : List EventValue)

/-- An event with a string for a name.  Its attributes are not there if none was let through. -/
structure Event where
  name : Str
  startTime : Binary64
  attributes : Option (OrderedMap Str EventValue)

/-- `String(number)`, whose text of a finite number is JSON, and `eventTimeNano`. -/
structure Numbers where
  string : Binary64 → Numeral
  isJson : ∀ value, value.isFinite = true → (string value).isJson = true
  eventTimeNano : Binary64 → Binary64

/-! ## The source -/

/-- What the scan of `escapeJsonString` stops at. -/
def isEscaped (code : UInt16) : Bool := code < 0x20 || code == unit '"' || code == unit '\\'

def escapeJsonString (value : Str) : Str :=
  if value.any isEscaped then quote value else lit "\"" ++ value ++ lit "\""

variable (N : Numbers)

def jsonNumber (value : Binary64) : Str :=
  if value.isFinite then (N.string value).text else lit "null"

mutual

def stringifyAttributeValue : EventValue → Str
  | .str s => escapeJsonString s
  | .num d => jsonNumber N d
  | .bool b => if b then lit "true" else lit "false"
  | .array items => lit "[" ++ stringifyItems items ++ lit "]"

/-- The items of an array with commas between them. -/
def stringifyItems : List EventValue → Str
  | [] => []
  | [item] => stringifyAttributeValue item
  | item :: items => stringifyAttributeValue item ++ lit "," ++ stringifyItems items

end

/-- A key and its value. -/
def stringifyAttribute (e : Str × EventValue) : Str :=
  escapeJsonString e.1 ++ lit ":" ++ stringifyAttributeValue N e.2

def stringifyAttributes (attributes : OrderedMap Str EventValue) : Str :=
  lit "\x7b" ++ Str.join (unit ',') (attributes.entries.map (stringifyAttribute N)) ++ lit "\x7d"

/-- One event. -/
def stringifySpanEvent (event : Event) : Str :=
  lit "\x7b\"name\":" ++ escapeJsonString event.name ++
    lit ",\"time_unix_nano\":" ++ jsonNumber N (N.eventTimeNano event.startTime) ++
    (match event.attributes with
      | some attributes => lit ",\"attributes\":" ++ stringifyAttributes N attributes
      | none => []) ++ lit "\x7d"

def stringifySpanEvents (spanEvents : List Event) : Str :=
  lit "[" ++ Str.join (unit ',') (spanEvents.map (stringifySpanEvent N)) ++ lit "]"

/-! ## The events as values -/

/-- A number as `JSON.stringify` sees it: what is not finite is `null`. -/
def numberValue (value : Binary64) : Json :=
  if value.isFinite then .num (N.string value) else .null

mutual

def EventValue.toJson : EventValue → Json
  | .str s => .str s
  | .num d => numberValue N d
  | .bool b => .bool b
  | .array items => .arr (itemsToJson items)

def itemsToJson : List EventValue → List Json
  | [] => []
  | item :: items => item.toJson :: itemsToJson items

end

def attributesToJson (attributes : OrderedMap Str EventValue) : Json :=
  .obj (attributes.entries.map fun e => (e.1, e.2.toJson N))

/-- `{ name, time_unix_nano, attributes }`, without attributes that are not there. -/
def Event.toJson (event : Event) : Json :=
  .obj ([(lit "name", .str event.name),
    (lit "time_unix_nano", numberValue N (N.eventTimeNano event.startTime))] ++
      (event.attributes.map fun m => (lit "attributes", attributesToJson N m)).toList)

def eventsToJson (spanEvents : List Event) : Json := .arr (spanEvents.map (Event.toJson N))

/-! ### Their strings -/

mutual

def EventValue.strings : EventValue → List Str
  | .str s => [s]
  | .array items => stringsOfItems items
  | _ => []

def stringsOfItems : List EventValue → List Str
  | [] => []
  | item :: items => item.strings ++ stringsOfItems items

end

/-- The keys and the strings of attributes. -/
def stringsOfAttributes (attributes : OrderedMap Str EventValue) : List Str :=
  attributes.entries.flatMap fun e => e.1 :: e.2.strings

/-- The name of an event, and the keys and the strings of its attributes. -/
def Event.strings (event : Event) : List Str :=
  event.name :: (event.attributes.map stringsOfAttributes).getD []

variable {N}

/-! ## The text as one of a value -/

theorem text_numberValue (key str : Str → Str) (value : Binary64) :
    (numberValue N value).write key str = jsonNumber N value := by
  unfold numberValue jsonNumber
  split
  · rw [Json.write]
  · rw [Json.write]

mutual

theorem stringifyAttributeValue_eq : ∀ v : EventValue,
    stringifyAttributeValue N v = (v.toJson N).write escapeJsonString escapeJsonString
  | .str s | .bool b => by rw [stringifyAttributeValue, EventValue.toJson, Json.write]
  | .num d => by rw [stringifyAttributeValue, EventValue.toJson, text_numberValue]
  | .array [] => by
    rfl
  | .array (item :: items) => by
    have hitems := stringifyItems_eq (item :: items) (cons_ne_nil _ _)
    rw [EventValue.toJson, itemsToJson, Json.write, ← (List.cons.inj hitems).2]
    rfl

/-- Commas between the items are commas in front of them, but for the first. -/
theorem stringifyItems_eq : ∀ items : List EventValue, items ≠ [] →
    unit ',' :: (stringifyItems N items ++ lit "]") =
      Json.writeItems escapeJsonString escapeJsonString (itemsToJson N items)
  | [], h => absurd rfl h
  | [item], _ => by
    rw [stringifyItems, itemsToJson, itemsToJson, stringifyAttributeValue_eq item]
    rfl
  | item :: next :: items, _ => by
    have hitems := stringifyItems_eq (next :: items) (cons_ne_nil _ _)
    rw [stringifyItems, itemsToJson, Json.writeItems, ← hitems, stringifyAttributeValue_eq item]
    · simp only [append_assoc]
      rfl
    · exact fun h => by cases h

end

/-- Pieces with commas between them, each of which is the text of an item. -/
theorem join_eq_writeItems {α : Type*} {key str : Str → Str} {piece : α → Str} {value : α → Json}
    (h : ∀ x, piece x = (value x).write key str) : ∀ xs : List α, xs ≠ [] →
      unit ',' :: (Str.join (unit ',') (xs.map piece) ++ lit "]") =
        Json.writeItems key str (xs.map value)
  | [], hnil => absurd rfl hnil
  | [x], _ => by
    rw [map_singleton, map_singleton, Str.join_singleton, h x]
    rfl
  | x :: y :: xs, _ => by
    have hxs := join_eq_writeItems h (y :: xs) (cons_ne_nil _ _)
    show unit ',' :: (Str.join (unit ',') (piece x :: (y :: xs).map piece) ++ lit "]") =
      Json.writeItems key str (value x :: (y :: xs).map value)
    rw [Str.join_cons _ _ (by simp), Json.writeItems, ← hxs, h x, append_assoc]
    rfl

/-- Pieces with commas between them, each of which is the text of a member. -/
theorem join_eq_writeMembers {α : Type*} {key str : Str → Str} {piece : α → Str}
    {name : α → Str} {value : α → Json}
    (h : ∀ x, piece x = key (name x) ++ lit ":" ++ (value x).write key str) :
    ∀ xs : List α, xs ≠ [] → unit ',' :: (Str.join (unit ',') (xs.map piece) ++ lit "\x7d") =
        Json.writeMembers key str (xs.map fun x => (name x, value x))
  | [], hnil => absurd rfl hnil
  | [x], _ => by
    rw [map_singleton, map_singleton, Str.join_singleton, h x]
    simp only [append_assoc]
    rfl
  | x :: y :: xs, _ => by
    have hxs := join_eq_writeMembers h (y :: xs) (cons_ne_nil _ _)
    show unit ',' :: (Str.join (unit ',') (piece x :: (y :: xs).map piece) ++ lit "\x7d") =
      Json.writeMembers key str ((name x, value x) :: (y :: xs).map fun x => (name x, value x))
    rw [Str.join_cons _ _ (by simp), Json.writeMembers, ← hxs, h x]
    simp only [append_assoc]
    rfl

theorem stringifyAttributes_eq (attributes : OrderedMap Str EventValue) :
    stringifyAttributes N attributes =
      (attributesToJson N attributes).write escapeJsonString escapeJsonString := by
  unfold stringifyAttributes attributesToJson
  cases hentries : attributes.entries with
  | nil => rfl
  | cons e es =>
    have hpiece : ∀ e : Str × EventValue, stringifyAttribute N e = escapeJsonString e.1 ++
        lit ":" ++ (e.2.toJson N).write escapeJsonString escapeJsonString := by
      intro e
      rw [stringifyAttribute, stringifyAttributeValue_eq]
    have hmembers := join_eq_writeMembers hpiece (e :: es) (cons_ne_nil _ _)
    rw [map_cons, map_cons, Json.write, ← (List.cons.inj hmembers).2]
    rfl

theorem stringifySpanEvent_eq (event : Event) :
    stringifySpanEvent N event = (event.toJson N).write escapeJsonString escapeJsonString := by
  have hname : escapeJsonString (lit "name") = lit "\"name\"" := by decide
  have htime : escapeJsonString (lit "time_unix_nano") = lit "\"time_unix_nano\"" := by decide
  have hkey : escapeJsonString (lit "attributes") = lit "\"attributes\"" := by decide
  unfold stringifySpanEvent Event.toJson
  cases event.attributes with
  | none =>
    simp only [map_none, toList_none, append_nil]
    rw [Json.write, Json.writeMembers, htime, text_numberValue]
    simp only [append_assoc]
    rfl
  | some attributes =>
    simp only [map_some, toList_some, cons_append, List.nil_append]
    rw [Json.write, Json.writeMembers, Json.writeMembers, htime, text_numberValue, Json.write, stringifyAttributes_eq]
    simp only [append_assoc]
    rfl

/-- **The text is that of the events**, with strings written in the way of `escapeJsonString`. -/
theorem stringifySpanEvents_eq_write (spanEvents : List Event) : stringifySpanEvents N spanEvents =
      (eventsToJson N spanEvents).write escapeJsonString escapeJsonString := by
  unfold stringifySpanEvents eventsToJson
  cases spanEvents with
  | nil => rfl
  | cons event events =>
    have hitems := join_eq_writeItems (stringifySpanEvent_eq (N := N)) (event :: events)
      (cons_ne_nil _ _)
    rw [map_cons, map_cons, Json.write, ← (List.cons.inj hitems).2]
    rfl

/-! ## Its strings -/

theorem forall_isPlain_iff {s : Str} : s.any isEscaped = false ↔ ∀ u ∈ s, IsPlain u := by
  rw [List.any_eq_false]
  refine forall₂_congr fun u _ => ?_
  unfold isEscaped IsPlain
  rw [Bool.not_eq_true, Bool.or_eq_false_iff, Bool.or_eq_false_iff, decide_eq_false_iff_not,
    beq_eq_false_iff_ne, beq_eq_false_iff_ne, and_assoc]

theorem escapeJsonString_of_plain {s : Str} (h : s.any isEscaped = false) :
    escapeJsonString s = between s := by
  rw [escapeJsonString, if_neg (by rw [h]; exact Bool.false_ne_true)]
  rfl

/-- A string that is written as `JSON.stringify` writes it: it has no lone surrogate, or has a
character that the scan finds. -/
def IsSeen (s : Str) : Prop := Unicode.isWellFormed s = true ∨ s.any isEscaped = true

theorem escapeJsonString_eq_iff (s : Str) : escapeJsonString s = quote s ↔ IsSeen s := by
  unfold IsSeen
  by_cases h : s.any isEscaped = true
  · rw [escapeJsonString]
    simp [h]
  · rw [Bool.not_eq_true] at h
    rw [escapeJsonString_of_plain h, between_eq_quote_iff (forall_isPlain_iff.mp h), h]
    simp

/-- The text of a string is never longer than its literal. -/
theorem shorter_escapeJsonString : Shorter escapeJsonString quote := by
  intro s
  by_cases h : s.any isEscaped = true
  · rw [escapeJsonString, if_pos h]
    exact ⟨Nat.le_refl _, fun _ => rfl⟩
  · rw [Bool.not_eq_true] at h
    rw [escapeJsonString_of_plain h]
    exact length_between_le (forall_isPlain_iff.mp h)

/-- The text of a string is read back. -/
theorem readsAs_escapeJsonString : ReadsAs escapeJsonString some := by
  intro s
  by_cases h : s.any isEscaped = true
  · rw [escapeJsonString, if_pos h]
    exact readsAs_quote s
  · rw [Bool.not_eq_true] at h
    refine ⟨s ++ [unit '"'], escapeJsonString_of_plain h, fun t => ?_⟩
    rw [append_assoc]
    exact readChars_between (forall_isPlain_iff.mp h) t

/-! ## What is in the value -/

theorem allNumerals_numberValue (value : Binary64) :
    (numberValue N value).AllNumerals fun n => n.isJson = true := by
  unfold numberValue Json.AllNumerals
  split
  · next h =>
    exact forall_mem_singleton.mpr (N.isJson value h)
  · exact fun n hn => absurd hn not_mem_nil

variable {P : Str → Prop}

theorem allStrings_numberValue (value : Binary64) : (numberValue N value).AllStrings P := by
  unfold numberValue Json.AllStrings
  split <;> simp [Json.keys, Json.strings]

mutual

theorem allNumerals_toJson : ∀ v : EventValue, (v.toJson N).AllNumerals fun n => n.isJson = true
  | .str s | .bool b => by simp [EventValue.toJson, Json.AllNumerals, Json.numerals]
  | .num d => by
    exact allNumerals_numberValue d
  | .array items => by
    rw [EventValue.toJson, allNumerals_arr]
    exact allNumerals_itemsToJson items

theorem allNumerals_itemsToJson : ∀ items : List EventValue,
    ∀ v ∈ itemsToJson N items, v.AllNumerals fun n => n.isJson = true
  | [] => by simp [itemsToJson]
  | item :: items => by
    rw [itemsToJson, forall_mem_cons]
    exact ⟨allNumerals_toJson item, allNumerals_itemsToJson items⟩

end

mutual

theorem allStrings_toJson {P : Str → Prop} : ∀ v : EventValue,
    (v.toJson N).AllStrings P ↔ ∀ s ∈ v.strings, P s
  | .str s => by
    rw [EventValue.toJson, allStrings_str, EventValue.strings, forall_mem_singleton]
  | .num d => by
    rw [EventValue.toJson, EventValue.strings]
    · simp [allStrings_numberValue]
    all_goals simp
  | .bool b => by
    simp [EventValue.toJson, EventValue.strings, Json.AllStrings, Json.keys, Json.strings]
  | .array items => by
    rw [EventValue.toJson, allStrings_arr]
    exact allStrings_itemsToJson items

theorem allStrings_itemsToJson {P : Str → Prop} : ∀ items : List EventValue,
    (∀ v ∈ itemsToJson N items, v.AllStrings P) ↔ ∀ s ∈ stringsOfItems items, P s
  | [] => by simp [itemsToJson, stringsOfItems]
  | item :: items => by
    rw [itemsToJson, stringsOfItems, forall_mem_cons, forall_mem_append,
      allStrings_toJson item, allStrings_itemsToJson items]

end

theorem allStrings_attributesToJson (attributes : OrderedMap Str EventValue) :
    (attributesToJson N attributes).AllStrings P ↔
      ∀ s ∈ stringsOfAttributes attributes, P s := by
  unfold attributesToJson stringsOfAttributes
  rw [allStrings_obj, List.forall_mem_map, forall_mem_flatMap]
  refine forall₂_congr fun e _ => ?_
  rw [forall_mem_cons, allStrings_toJson]

/-- The strings of an event, where its own three keys are of no account. -/
theorem allStrings_event (hname : P (lit "name"))
    (htime : P (lit "time_unix_nano")) (hattributes : P (lit "attributes")) (event : Event) :
    (event.toJson N).AllStrings P ↔ ∀ s ∈ event.strings, P s := by
  unfold Event.toJson Event.strings
  rw [allStrings_obj, forall_mem_append, forall_mem_cons, allStrings_str]
  cases event.attributes with
  | none => simp [hname, htime, allStrings_numberValue]
  | some attributes =>
    simp [hname, htime, hattributes, allStrings_numberValue, allStrings_attributesToJson]

theorem allNumerals_events (spanEvents : List Event) :
    (eventsToJson N spanEvents).AllNumerals fun n => n.isJson = true := by
  unfold eventsToJson
  rw [allNumerals_arr, List.forall_mem_map]
  intro event _
  unfold Event.toJson
  rw [allNumerals_obj, forall_mem_append, forall_mem_cons, forall_mem_singleton]
  refine ⟨⟨by simp [Json.AllNumerals, Json.numerals], allNumerals_numberValue _⟩, ?_⟩
  cases event.attributes with
  | none => simp
  | some attributes =>
    rw [map_some, toList_some, forall_mem_singleton]
    unfold attributesToJson
    rw [allNumerals_obj, List.forall_mem_map]
    exact fun e _ => allNumerals_toJson e.2

theorem allStrings_events (hname : P (lit "name"))
    (htime : P (lit "time_unix_nano")) (hattributes : P (lit "attributes"))
    (spanEvents : List Event) : (eventsToJson N spanEvents).AllStrings P ↔
      ∀ event ∈ spanEvents, ∀ s ∈ event.strings, P s := by
  unfold eventsToJson
  rw [allStrings_arr, List.forall_mem_map]
  exact forall₂_congr fun event _ => allStrings_event hname htime hattributes event

/-! ## The text and that of `JSON.stringify` -/

/-- **The text is that of `JSON.stringify`** exactly when every name, key and string in the events
either has no lone surrogate or has a character that the scan finds.  It is always read back as the
events. -/
theorem stringifySpanEvents_iff (N : Numbers) (spanEvents : List Event) :
    (stringifySpanEvents N spanEvents = Json.stringify (eventsToJson N spanEvents) ↔
      ∀ event ∈ spanEvents, ∀ s ∈ event.strings, IsSeen s) ∧
    Json.parse (stringifySpanEvents N spanEvents) = some (eventsToJson N spanEvents) := by
  have hjson := allNumerals_events (N := N) spanEvents
  rw [stringifySpanEvents_eq_write]
  constructor
  · have hfinite : ∀ n ∈ (eventsToJson N spanEvents).numerals, n.isFinite = true := by
      intro n hn
      have hn' : n.isJson = true := hjson n hn
      rw [Numeral.isJson, Bool.and_eq_true] at hn'
      exact hn'.1
    rw [stringify_eq_write _ hfinite,
      write_eq_iff shorter_escapeJsonString shorter_escapeJsonString]
    simp only [escapeJsonString_eq_iff]
    exact allStrings_events (.inl (by decide)) (.inl (by decide)) (.inl (by decide)) spanEvents
  · rw [parse_write readsAs_escapeJsonString readsAs_escapeJsonString hjson, decode_eq_self_iff]
    exact ⟨fun _ _ => rfl, fun _ _ => rfl⟩

/-- An event whose name is a lone surrogate. -/
def loneEvent : Event := ⟨[0xD800], .ofBits 0, none⟩

/-- Numbers as they are for an event at the time 0. -/
def atZero : Numbers where
  string _ := ⟨lit "0", by decide⟩
  isJson _ _ := by decide
  eventTimeNano _ := .ofBits 0

/-- **It is written as it is**, where `JSON.stringify` escapes it. -/
theorem stringifySpanEvents_lone : stringifySpanEvents atZero [loneEvent] =
      lit "[\x7b\"name\":\"" ++ [0xD800] ++ lit "\",\"time_unix_nano\":0\x7d]" ∧
    Json.stringify (eventsToJson atZero [loneEvent]) =
      lit "[\x7b\"name\":\"\\ud800\",\"time_unix_nano\":0\x7d]" ∧
    stringifySpanEvents atZero [loneEvent] ≠ Json.stringify (eventsToJson atZero [loneEvent]) := by
  decide

end DdTrace.Encode.Legacy
