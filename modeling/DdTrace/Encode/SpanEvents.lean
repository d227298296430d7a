import DdTrace.Encode.AgentEncoderSpec
import DdTrace.Msgpack.Numbers

/-!
# Span events, read back

`#encodeSpanEvents` writes an event as a map whose last entry is only there if anything of its
attributes can be written, and an attribute that is an array only if anything of it can.  What it
cannot write is cut off again, and the numbers in front are filled in at the end.  Whatever the
events are, the bytes that stay are one array, and what is in it is what a reader of the events
would expect, but for two things that happen to the values themselves: a lone surrogate becomes
U+FFFD, and an integer is cut to 64 bits.

* `Rendering`, `Rendering.spanEvents`: the events as they are read where strings and numbers are
  read in some way.
* `spanEvents_eq_iff`: **two ways to read strings and numbers read the same events exactly
  when they agree on what is written of them**.
* `decoded_iff`: **the bytes are always one value, and this is the events as they are exactly when
  every string that is written is well formed and every integer has 64 bits**.
* `not_decoded_nineBytes`: an event with the attribute `2 ^ 64` is read with the attribute `0`.
-/

open Library

namespace DdTrace.Encode

open MsgpackChunk List Option

/-! ## What is supported -/

/-- An attribute that is no array and can be written, or an item of one. -/
def Attribute.isItem : Attribute → Bool
  | .str _ | .num _ | .bool _ => true
  | _ => false

/-- An attribute of which anything can be written. -/
def Attribute.isSupported : Attribute → Bool
  | .array items => items.any isItem
  | value => value.isItem

/-! ## Ways to read -/

/-- How a string and how a number are read. -/
structure Rendering where
  text : Str → Msgpack
  number : Binary64 → Msgpack

namespace Rendering

variable (r : Rendering)

/-- An attribute that is no array, or an item of one, if it can be written. -/
def item : Attribute → Option Msgpack
  | .str s => some (attr 0 "string_value" (r.text s))
  | .num d =>
    some (if d.isInteger then attr 2 "int_value" (r.number d)
      else attr 3 "double_value" (r.number d))
  | .bool b => some (attr 1 "bool_value" (.bool b))
  | _ => none

/-- An attribute, if anything of it can be written. -/
def value (a : Attribute) : Option Msgpack :=
  match a with
  | .array items =>
    if a.isSupported then
      some (attr 4 "array_value" (.map [keyed "values" (.array (items.filterMap r.item))]))
    else none
  | value => r.item value

/-- The attributes that are supported, with their keys. -/
def supported (attributes : OrderedMap Str Attribute) : List (Msgpack × Msgpack) :=
  attributes.entries.filterMap fun e => (r.value e.2).map (r.text e.1, ·)

/-- The attributes of an event, where one is supported. -/
def attributeEntries : Option (OrderedMap Str Attribute) → List (Msgpack × Msgpack)
  | none => []
  | some attributes =>
    if (r.supported attributes).isEmpty then []
    else [keyed "attributes" (.map (r.supported attributes))]

/-- An event that has a name. -/
def event (env : Env) (event : SpanEvent) : Option Msgpack :=
  event.name.map fun name =>
    .map ([keyed "name" (r.text name),
      keyed "time_unix_nano" (.float (env.eventTimeNano event.startTime))] ++
        r.attributeEntries event.attributes)

def spanEvents (env : Env) (events : List SpanEvent) : Msgpack :=
  .array (events.filterMap (r.event env))

end Rendering

/-- A number as it is: an integer or a float. -/
def numberValue (d : Binary64) : Msgpack := if d.isInteger then .int d.toInt else .float d

/-- Strings and numbers as they are. -/
def asTheyAre : Rendering := ⟨.str, numberValue⟩

/-- Strings and numbers as they come out of the bytes. -/
def asRead : Rendering := ⟨textImage, numberRead⟩

/-! ## What is written -/

/-- What is written of an item is such that `P` holds of the strings and `N` of the numbers. -/
def Attribute.ItemIs (P : Str → Prop) (N : Binary64 → Prop) : Attribute → Prop
  | .str s => P s
  | .num d => N d
  | _ => True

def Attribute.Is (P : Str → Prop) (N : Binary64 → Prop) : Attribute → Prop
  | .array items => ∀ a ∈ items, a.ItemIs P N
  | value => value.ItemIs P N

/-- What is written of an event: its name, if it has one, and the keys and values of the supported
attributes. -/
def SpanEvent.Is (P : Str → Prop) (N : Binary64 → Prop) (event : SpanEvent) : Prop :=
  ∀ name, event.name = some name → P name ∧ ∀ attributes, event.attributes = some attributes →
      ∀ e ∈ attributes.entries, e.2.isSupported = true → P e.1 ∧ e.2.Is P N

/-! ## Two ways to read -/

section FilterMap

variable {α β γ : Type*} {f : α → Option β} {g : α → Option γ}

theorem length_filterMap_eq {l : List α} (h : ∀ x ∈ l, (f x).isSome = (g x).isSome) :
    (l.filterMap f).length = (l.filterMap g).length := by
  induction l with
  | nil => rfl
  | cons x l ih =>
    have hx := h x mem_cons_self
    have hl := ih fun y hy => h y (mem_cons_of_mem x hy)
    cases hf : f x with
    | none =>
      rw [hf, isSome_none, eq_comm, isSome_eq_false_iff, isNone_iff_eq_none] at hx
      rw [filterMap_cons_none hf, filterMap_cons_none hx, hl]
    | some y =>
      rw [hf, isSome_some, eq_comm, isSome_iff_exists] at hx
      obtain ⟨z, hg⟩ := hx
      rw [filterMap_cons_some hf, filterMap_cons_some hg, length_cons, hl, length_cons]

/-- Functions that choose the same elements give the same list exactly when they agree on these. -/
theorem filterMap_eq_iff {g : α → Option β} {l : List α}
    (h : ∀ x ∈ l, (f x).isSome = (g x).isSome) :
    l.filterMap f = l.filterMap g ↔ ∀ x ∈ l, f x = g x := by
  constructor
  · induction l with
    | nil =>
      intro _ x hx
      cases hx
    | cons x l ih =>
      intro heq
      have hx := h x mem_cons_self
      have hl := ih fun y hy => h y (mem_cons_of_mem x hy)
      cases hf : f x with
      | none =>
        rw [hf, isSome_none, eq_comm, isSome_eq_false_iff, isNone_iff_eq_none] at hx
        rw [filterMap_cons_none hf, filterMap_cons_none hx] at heq
        exact forall_mem_cons.mpr ⟨hf.trans hx.symm, hl heq⟩
      | some y =>
        rw [hf, isSome_some, eq_comm, isSome_iff_exists] at hx
        obtain ⟨z, hg⟩ := hx
        rw [filterMap_cons_some hf, filterMap_cons_some hg, cons_eq_cons] at heq
        refine forall_mem_cons.mpr ⟨?_, hl heq.2⟩
        rw [hf, hg, heq.1]
  · exact filterMap_congr

end FilterMap

section Agree

variable {r q : Rendering}

/-- Two ways to read that agree on what is written of an item. -/
theorem item_eq_iff (a : Attribute) : r.item a = q.item a ↔
    a.ItemIs (fun s => r.text s = q.text s) (fun d => r.number d = q.number d) := by
  cases a with
  | num d =>
    unfold Rendering.item Attribute.ItemIs
    by_cases hint : d.isInteger = true <;> simp [hint, attr, keyed]
  | str s => simp [Rendering.item, Attribute.ItemIs, attr, keyed]
  | bool b | array items | other => simp [Rendering.item, Attribute.ItemIs]

theorem isSome_item (r : Rendering) (a : Attribute) : (r.item a).isSome = a.isItem := by
  cases a <;> rfl

theorem isSome_value (r : Rendering) (a : Attribute) : (r.value a).isSome = a.isSupported := by
  cases a with
  | array items =>
    unfold Rendering.value
    by_cases h : (Attribute.array items).isSupported = true
    · simp [h]
    · simp [h]
  | str s => rfl
  | num d => rfl
  | bool b => rfl
  | other => rfl

theorem value_eq_iff {a : Attribute} (h : a.isSupported = true) : r.value a = q.value a ↔
      a.Is (fun s => r.text s = q.text s) (fun d => r.number d = q.number d) := by
  cases a with
  | array items =>
    have hitems : items.filterMap r.item = items.filterMap q.item ↔
        ∀ a ∈ items, r.item a = q.item a :=
      filterMap_eq_iff fun a _ => (isSome_item r a).trans (isSome_item q a).symm
    simp only [item_eq_iff] at hitems
    simp [Rendering.value, Attribute.Is, h, attr, keyed, hitems]
  | str s => exact item_eq_iff (.str s)
  | num d => exact item_eq_iff (.num d)
  | bool b => exact item_eq_iff (r := r) (q := q) (.bool b)
  | other => exact item_eq_iff (r := r) (q := q) .other

theorem isSome_map_value (r : Rendering) (k : Str) (a : Attribute) :
    ((r.value a).map (r.text k, ·)).isSome = a.isSupported := by
  rw [isSome_map, isSome_value]

theorem supported_eq_iff (attributes : OrderedMap Str Attribute) :
    r.supported attributes = q.supported attributes ↔
      ∀ e ∈ attributes.entries, e.2.isSupported = true → r.text e.1 = q.text e.1 ∧
        e.2.Is (fun s => r.text s = q.text s) (fun d => r.number d = q.number d) := by
  unfold Rendering.supported
  rw [filterMap_eq_iff fun e _ =>
    (isSome_map_value r e.1 e.2).trans (isSome_map_value q e.1 e.2).symm]
  refine forall₂_congr fun e _ => ?_
  by_cases h : e.2.isSupported = true
  · obtain ⟨v, hv⟩ := isSome_iff_exists.mp ((isSome_value r e.2).trans h)
    obtain ⟨w, hw⟩ := isSome_iff_exists.mp ((isSome_value q e.2).trans h)
    have hiff := value_eq_iff (r := r) (q := q) h
    rw [hv, hw] at hiff
    rw [hv, hw, ← hiff]
    simp [h]
  · have hv : r.value e.2 = none := by
      rw [← not_isSome_iff_eq_none, isSome_value]
      exact h
    have hw : q.value e.2 = none := by
      rw [← not_isSome_iff_eq_none, isSome_value]
      exact h
    simp [hv, hw, h]

theorem attributeEntries_eq_iff (m : OrderedMap Str Attribute) :
    r.attributeEntries (some m) = q.attributeEntries (some m) ↔ r.supported m = q.supported m := by
  have hlen : (r.supported m).length = (q.supported m).length :=
    length_filterMap_eq fun e _ =>
      (isSome_map_value r e.1 e.2).trans (isSome_map_value q e.1 e.2).symm
  unfold Rendering.attributeEntries
  by_cases h : r.supported m = []
  · have h' : q.supported m = [] := by
      rw [h] at hlen
      exact length_eq_zero_iff.mp hlen.symm
    simp [h, h']
  · have h' : q.supported m ≠ [] := by
      intro hnil
      rw [hnil] at hlen
      exact h (length_eq_zero_iff.mp hlen)
    simp [h, h', keyed]

theorem event_eq_iff (env : Env) (event : SpanEvent) : r.event env event = q.event env event ↔
    event.Is (fun s => r.text s = q.text s) (fun d => r.number d = q.number d) := by
  unfold Rendering.event SpanEvent.Is
  cases event.name with
  | none => simp
  | some name =>
    cases event.attributes with
    | none => simp [Rendering.attributeEntries, keyed]
    | some m =>
      have hiff := attributeEntries_eq_iff (r := r) (q := q) m
      rw [supported_eq_iff] at hiff
      simp [keyed, hiff]

/-- **Two ways to read strings and numbers read the same events exactly when they agree on what is
written of them.** -/
theorem spanEvents_eq_iff (env : Env) (events : List SpanEvent) :
    r.spanEvents env events = q.spanEvents env events ↔ ∀ event ∈ events,
      event.Is (fun s => r.text s = q.text s) (fun d => r.number d = q.number d) := by
  have hsome : ∀ event ∈ events, (r.event env event).isSome = (q.event env event).isSome := by
    intro event _
    rw [Rendering.event, Rendering.event, isSome_map, isSome_map]
  unfold Rendering.spanEvents
  rw [Msgpack.array.injEq, filterMap_eq_iff hsome]
  exact forall₂_congr fun event _ => event_eq_iff env event

end Agree

/-! ## What the encoder writes is read as it is read -/

theorem itemImage_eq : itemImage = asRead.item := by
  funext a
  cases a <;> rfl

theorem attributeImage_eq (a : Attribute) : attributeImage a = asRead.value a := by
  cases a with
  | array items =>
    have hsome : (items.filterMap itemImage).isEmpty = !(Attribute.array items).isSupported := by
      rw [itemImage_eq, Bool.eq_iff_iff]
      simp [Attribute.isSupported, filterMap_eq_nil_iff, ← isSome_item asRead]
    unfold attributeImage Rendering.value
    dsimp only
    rw [← itemImage_eq]
    cases hitems : items.filterMap itemImage with
    | nil | cons v vs =>
      rw [hitems] at hsome
      simp at hsome
      simp [hsome]
  | str s => rfl
  | num d => rfl
  | bool b => rfl
  | other => rfl

theorem eventImage_eq (env : Env) : eventImage env = asRead.event env := by
  funext event
  have hattributes : ∀ m : OrderedMap Str Attribute,
      attributesImage m = asRead.attributeEntries (some m) := by
    intro m
    have hsupported : (m.entries.filterMap fun e =>
        (attributeImage e.2).map (textImage e.1, ·)) = asRead.supported m := by
      simp only [attributeImage_eq]
      rfl
    unfold attributesImage Rendering.attributeEntries
    dsimp only
    rw [hsupported]
    cases asRead.supported m <;> rfl
  unfold eventImage Rendering.event
  cases event.attributes with
  | none => rfl
  | some m =>
    rw [map_some, hattributes]
    rfl

/-! ## What is read is what there was -/

/-- A string without a lone surrogate. -/
def IsText (s : Str) : Prop := Unicode.isWellFormed s = true

/-- A number that is no integer, or one of 64 bits. -/
def HasWidth (d : Binary64) : Prop :=
  d.isInteger = true → -2 ^ 63 ≤ d.toInt ∧ d.toInt < 2 ^ 64

theorem isText_iff (s : Str) : asRead.text s = asTheyAre.text s ↔ IsText s := by
  simp [asRead, asTheyAre, textImage, IsText, Unicode.toWellFormed_eq_self_iff]

theorem hasWidth_iff (d : Binary64) : asRead.number d = asTheyAre.number d ↔ HasWidth d := by
  unfold asRead asTheyAre numberRead numberValue HasWidth
  by_cases hint : d.isInteger = true
  · simp [hint, wrap_eq_self_iff]
  · simp [hint]

theorem asRead_eq_iff (env : Env) (events : List SpanEvent) :
    asRead.spanEvents env events = asTheyAre.spanEvents env events ↔
      ∀ event ∈ events, event.Is IsText HasWidth := by
  rw [spanEvents_eq_iff, funext fun s => propext (isText_iff s),
    funext fun d => propext (hasWidth_iff d)]

namespace V04

/-- Unless the chunk is full, the bytes that are added are the events as they are read. -/
theorem encodeSpanEvents_cases (env : Env) (events : List SpanEvent) {s : Chunks Slice}
    (hs : Slices s.strings) (hcap : s.traceBytes.length ≤ MAX_SIZE) :
    (∃ t l, encodeSpanEvents env events s = (.ok (), t) ∧ t.traceBytes = s.traceBytes ++ l ∧
      Msgpack.decodeAll l = some (asRead.spanEvents env events)) ∨
    ∃ e t, encodeSpanEvents env events s = (.error e, t) ∧ Recovers e := by
  rcases (adds_encodeSpanEvents env events s hs hcap).cases with
    ⟨⟨⟩, t, hx, -, -, hlen, l, hl, hencodes⟩ | h
  · have hlt : l.length < 2 ^ 32 := by
      have hmax : (traceLog Slice).cap < 2 ^ 32 := by decide
      have hout : t.traceBytes.length ≤ (traceLog Slice).cap := hlen
      have happend : t.traceBytes = s.traceBytes ++ l := hl
      rw [happend, length_append] at hout
      omega
    rw [eventImage_eq] at hencodes
    exact .inl ⟨t, l, hx, hl, Msgpack.decodeAll_of_encodes hencodes hlt⟩
  · exact .inr h

/-- **Native span events.**  From every state of the encoder, unless the chunk is full, the bytes
that are added are one value and nothing else, and it is the array of the events as they are exactly
when every string of them that is written is well formed and every integer has 64 bits. -/
theorem decoded_iff (env : Env) (events : List SpanEvent) {s : Chunks Slice}
    (hs : Slices s.strings) (hcap : s.traceBytes.length ≤ MAX_SIZE) :
    (∃ t l, encodeSpanEvents env events s = (.ok (), t) ∧ t.traceBytes = s.traceBytes ++ l ∧
      (Msgpack.decodeAll l).isSome = true ∧
        (Msgpack.decodeAll l = some (asTheyAre.spanEvents env events) ↔
          ∀ event ∈ events, event.Is IsText HasWidth)) ∨
    ∃ e t, encodeSpanEvents env events s = (.error e, t) ∧ Recovers e := by
  rcases encodeSpanEvents_cases env events hs hcap with ⟨t, l, hx, hl, hdecode⟩ | h
  · refine .inl ⟨t, l, hx, hl, ?_, ?_⟩
    · rw [hdecode, isSome_some]
    · rw [hdecode, some_inj]
      exact asRead_eq_iff env events
  · exact .inr h

/-- An encoder that has written nothing. -/
def blank : Chunks Slice := ⟨[], ⟨0, [], OrderedMap.empty⟩⟩

/-- Nothing in particular around the encoder. -/
def plainEnv : Env := ⟨true, fun _ => none, id, 100⟩

/-- An event with one attribute that is written, and one of which nothing can be. -/
def eventWith (value : Attribute) : SpanEvent where
  name := some (lit "e")
  startTime := .ofBits 0
  attributes := some (OrderedMap.ofEntries
    [(lit "a", value), (lit "b", .array [.array [], .other])])

theorem decoded_eventWith :
    (∃ t l, encodeSpanEvents plainEnv [eventWith (.num twoBytes)] blank = (.ok (), t) ∧
      t.traceBytes = blank.traceBytes ++ l ∧ (Msgpack.decodeAll l).isSome = true ∧
        (Msgpack.decodeAll l = some (asTheyAre.spanEvents plainEnv [eventWith (.num twoBytes)]) ↔
          ∀ event ∈ [eventWith (.num twoBytes)], event.Is IsText HasWidth)) ∨
    ∃ e t, encodeSpanEvents plainEnv [eventWith (.num twoBytes)] blank = (.error e, t) ∧
      Recovers e :=
  decoded_iff plainEnv _ slices_empty (Nat.zero_le MAX_SIZE)

/-- The event as it is read. -/
theorem asRead_eventWith {d : Binary64} (hint : d.isInteger = true) :
    asRead.spanEvents plainEnv [eventWith (.num d)] = .array [.map [
      keyed "name" (.str (lit "e")), keyed "time_unix_nano" (.float (.ofBits 0)),
      keyed "attributes" (.map [(.str (lit "a"), attr 2 "int_value" (.int (wrap d.toInt)))])]] := by
  have htext : ∀ s : Str, Unicode.isWellFormed s = true → asRead.text s = .str s := by
    intro s hs
    show Msgpack.str (Unicode.toWellFormed s) = _
    rw [Unicode.toWellFormed_eq_self_iff.mpr hs]
  have hnumber : asRead.number d = .int (wrap d.toInt) := by
    exact if_pos hint
  have hentries : asRead.supported (OrderedMap.ofEntries
      [(lit "a", Attribute.num d), (lit "b", .array [.array [], .other])]) =
        [(asRead.text (lit "a"), attr 2 "int_value" (asRead.number d))] := by
    have hvalue : asRead.value (.num d) = some (attr 2 "int_value" (asRead.number d)) := by
      simp [Rendering.value, Rendering.item, hint]
    show ([(lit "a", Attribute.num d), (lit "b", .array [.array [], .other])].filterMap fun e =>
      (asRead.value e.2).map (asRead.text e.1, ·)) = _
    rw [filterMap_cons_some (by rw [hvalue]; rfl)]
    rfl
  unfold Rendering.spanEvents Rendering.event
  simp [eventWith, plainEnv, Rendering.attributeEntries, hentries, htext (lit "e") (by decide),
    htext (lit "a") (by decide), hnumber]

/-- **It is read as zero**, though the bytes are fine. -/
theorem not_decoded_nineBytes : ∃ t,
    encodeSpanEvents plainEnv [eventWith (.num nineBytes)] blank = (.ok (), t) ∧
      Msgpack.decodeAll t.traceBytes = some (.array [.map [
        keyed "name" (.str (lit "e")), keyed "time_unix_nano" (.float (.ofBits 0)),
        keyed "attributes" (.map [(.str (lit "a"), attr 2 "int_value" (.int 0))])]]) ∧
      Msgpack.decodeAll t.traceBytes ≠
        some (asTheyAre.spanEvents plainEnv [eventWith (.num nineBytes)]) := by
  have hread := asRead_eventWith (d := nineBytes) (by decide +kernel)
  have hwrap : wrap nineBytes.toInt = 0 := by decide +kernel
  rw [hwrap] at hread
  rcases encodeSpanEvents_cases plainEnv [eventWith (.num nineBytes)] (s := blank) slices_empty
    (Nat.zero_le MAX_SIZE) with ⟨t, l, hx, hl, hdecode⟩ | ⟨e, t, hx, -⟩
  · have ht : t.traceBytes = l := hl
    refine ⟨t, hx, ?_, fun heq => ?_⟩
    · rw [ht, hdecode, hread]
    · rw [ht, hdecode, some_inj] at heq
      have his := (asRead_eq_iff plainEnv [eventWith (.num nineBytes)]).mp heq
      have hnum := ((his _ (mem_singleton_self _) _ rfl).2 _ rfl (lit "a", .num nineBytes)
        mem_cons_self rfl).2
      exact absurd (hnum (by decide +kernel)).2 (by decide +kernel)
  · have hok : (encodeSpanEvents plainEnv [eventWith (.num nineBytes)] blank).1.isOk = true := by
      decide +kernel
    rw [hx] at hok
    cases hok

end V04
end DdTrace.Encode
