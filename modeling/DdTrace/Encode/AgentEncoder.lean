import DdTrace.Encode.StringTable

/-!
# `_encode` of the v0.4 encoder

`encode/0.4.js` writes a trace as an array of spans, and a span as a map: the fields every span
has, in one block, then `meta` and `metrics`, and then the span events and the `meta_struct` where
there are some.  A map or an array whose entries are chosen one by one is written behind a number
that is filled in at the end, and cut back where nothing was chosen.

* `attributeImage`, `objectImage`, `spanImage`: what a reader is meant to see.
* `adds_encodeMap`, `adds_encodeSpanEvents`, `adds_encodeMetaStruct`: the parts of a span.
* `adds_encodeSpan`, `adds_encode`: what is added to the chunk is read as the image, unless the
  chunk is full.
-/

open Library

namespace DdTrace.Encode

open MsgpackChunk

/-! ## The source -/

/-- What the encoder is set up with, and what it is given by its surroundings: the serialised
events of the legacy form, if serialising them does not throw, the time of an event, and how deeply
calls may nest. -/
structure Env where
  nativeSpanEvents : Bool
  stringifySpanEvents : List SpanEvent → Option Str
  eventTimeNano : Binary64 → Binary64
  depth : ℕ

/-- `buildKey`: a key of fewer than 32 bytes. -/
def buildKey (key : Str) : List UInt8 :=
  (0xA0 + (Unicode.encodeUtf8 key).length).toUInt8 :: Unicode.encodeUtf8 key

/-- `buildKeyWithPrefix`: a key and the first byte of the value that follows it. -/
def buildKeyWithPrefix (key : Str) (first : UInt8) : List UInt8 := buildKey key ++ [first]

/-- A map or an array behind a head whose 32 bits are filled in with what `body` counted. -/
def counted {ε α : Type} (head : List UInt8) (number : α → ℕ) (body : Writer ε α) : Writer ε α :=
  (traceLog ε).counted head [0, 0, 0, 0] (fun a => int32 (number a)) body

/-- The last eight bytes of an identifier. -/
def idBytes (identifier : Identifier) : List UInt8 :=
  identifier.buffer.drop (identifier.buffer.length - 8)

namespace V04

def STRING_CACHE_BYPASS_LIMIT : ℕ := 1024

def KEY_TYPE : List UInt8 := buildKey (lit "type")
def KEY_NAME : List UInt8 := buildKey (lit "name")
def KEY_RESOURCE : List UInt8 := buildKey (lit "resource")
def KEY_SERVICE : List UInt8 := buildKey (lit "service")
def KEY_ERROR : List UInt8 := buildKey (lit "error")
def KEY_START : List UInt8 := buildKey (lit "start")
def KEY_DURATION : List UInt8 := buildKey (lit "duration")
def KEY_ERROR_0 : List UInt8 := KEY_ERROR ++ [0x00]
def KEY_ERROR_1 : List UInt8 := KEY_ERROR ++ [0x01]
def KEY_START_PREFIX : List UInt8 := buildKeyWithPrefix (lit "start") 0xCF
def KEY_SPAN_EVENTS : List UInt8 := buildKey (lit "span_events")
def KEY_META_STRUCT : List UInt8 := buildKey (lit "meta_struct")
def KEY_TRACE_ID_PREFIX : List UInt8 := buildKeyWithPrefix (lit "trace_id") 0xCF
def KEY_SPAN_ID_PREFIX : List UInt8 := buildKeyWithPrefix (lit "span_id") 0xCF
def KEY_PARENT_ID_PREFIX : List UInt8 := buildKeyWithPrefix (lit "parent_id") 0xCF
def KEY_META_PREFIX : List UInt8 := buildKeyWithPrefix (lit "meta") 0xDF
def KEY_METRICS_PREFIX : List UInt8 := buildKeyWithPrefix (lit "metrics") 0xDF
def KEY_EVENT_TIME : List UInt8 := buildKey (lit "time_unix_nano")
def KEY_EVENT_ATTRIBUTES : List UInt8 := buildKey (lit "attributes")

/-- `buildAttrPrefix`: a map of the type and the key of the value. -/
def buildAttrPrefix (typeByte : UInt8) (valueKey : Str) : List UInt8 :=
  [0x82] ++ KEY_TYPE ++ [typeByte] ++ buildKey valueKey

def ATTR_PREFIX_STRING : List UInt8 := buildAttrPrefix 0x00 (lit "string_value")
def ATTR_PREFIX_BOOL : List UInt8 := buildAttrPrefix 0x01 (lit "bool_value")
def ATTR_PREFIX_INT : List UInt8 := buildAttrPrefix 0x02 (lit "int_value")
def ATTR_PREFIX_DOUBLE : List UInt8 := buildAttrPrefix 0x03 (lit "double_value")
def ATTR_PREFIX_ARRAY : List UInt8 :=
  buildAttrPrefix 0x04 (lit "array_value") ++ [0x81] ++ buildKey (lit "values") ++ [0xDD]

/-- `formatSpanWithLegacyEvents`: the events as a string among `meta`. -/
def formatSpanWithLegacyEvents (env : Env) (span : Span) : Option Span :=
  let span := normalizeSpan span
  match span.spanEvents with
  | none => some span
  | some events => do
    let text ← env.stringifySpanEvents events
    let m ← span.meta
    pure { span with «meta» := some (m.set (lit "events") (.str text)), spanEvents := none }

def formatSpan (env : Env) (span : Span) : Option Span :=
  if env.nativeSpanEvents then some (normalizeSpan span) else formatSpanWithLegacyEvents env span

/-- `_stringMap[value] ?? _cacheString(value)`; the latter looks first as well. -/
def cached (value : Text) : Writer Slice Slice := onStrings (cacheSlice value)

/-- The bytes that a view shows when it is copied. -/
def shown (entry : Slice) : Writer Slice (List UInt8) := do
  let s ← Prog.get
  pure (entry.read s.strings.bytes)

def encodeString (value : Text) : Writer Slice Unit := do
  let value := match value with
    | .undefined => .str []
    | v => v
  if value.chars.length > STRING_CACHE_BYPASS_LIMIT then put (write value.chars)
  else do
    let entry ← cached value
    put (← shown entry)

def encodeId (identifier : Identifier) : Writer Slice Unit := put (0xCF :: idBytes identifier)

/-- The body of the loop of `_encodeMap`. -/
def encodeMapEntry (e : Str × Scalar) : Writer Slice Bool :=
  match e.2 with
  | .str s => do
    encodeString (.str e.1)
    encodeString (.str s)
    pure true
  | .num d => do
    encodeString (.str e.1)
    put (writeFloat d)
    pure true
  | _ => pure false

/-- `_encodeMap`, which the CI Visibility encoder inherits. -/
def encodeMap (value : OrderedMap Str Scalar) : Writer Slice Unit := do
  let _ ← counted [0xDF] id (Prog.count value.entries encodeMapEntry)

/-- The body of the loop of `#encodeMetaEntries`.  A number is taken for a small one at first,
with one byte of room behind its key, which is given back where that fails. -/
def encodeMetaEntry (e : Str × Scalar) : Writer Slice Bool :=
  match e.2 with
  | .str s => do
    let keyEntry ← cached (.str e.1)
    if s.length > STRING_CACHE_BYPASS_LIMIT then do
      put (← shown keyEntry)
      put (write s)
      pure true
    else do
      let valueEntry ← cached (.str s)
      put ((← shown keyEntry) ++ (← shown valueEntry))
      pure true
  | .num d => do
    let keyEntry ← cached (.str e.1)
    let key ← shown keyEntry
    if isFixint d then do
      put (key ++ [byte d.toInt 0])
      pure true
    else do
      (traceLog Slice).retract key [0]
      put (writeIntOrFloat d)
      pure true
  | _ => pure false

/-- `#encodeMetaEntries`. -/
def encodeMetaEntries (keyPrefix : List UInt8) (value : Option (OrderedMap Str Scalar)) :
    Writer Slice Unit :=
  match value with
  | none => Prog.fail .raised
  | some value => do
    let _ ← counted keyPrefix id (Prog.count value.entries encodeMetaEntry)

/-! ### Span events -/

/-- `#emitArrayItem`. -/
def emitArrayItem : Attribute → Writer Slice Bool
  | .str s => do
    put ATTR_PREFIX_STRING
    encodeString (.str s)
    pure true
  | .num d => do
    put (if d.isInteger then ATTR_PREFIX_INT else ATTR_PREFIX_DOUBLE)
    put (writeIntOrFloat d)
    pure true
  | .bool b => do
    put (ATTR_PREFIX_BOOL ++ writeBoolean b)
    pure true
  | _ => pure false

/-- `#emitAttribute` and `#emitArrayAttribute`. -/
def emitAttribute (key : Str) : Attribute → Writer Slice Bool
  | .array items =>
    (traceLog Slice).unlessNone do
      encodeString (.str key)
      counted ATTR_PREFIX_ARRAY id (Prog.count items emitArrayItem)
  | .other => pure false
  | value => do
    encodeString (.str key)
    emitArrayItem value

/-- `#encodeAttributesIfAny`. -/
def encodeAttributesIfAny (attributes : OrderedMap Str Attribute) : Writer Slice Bool :=
  (traceLog Slice).unlessNone <| counted (KEY_EVENT_ATTRIBUTES ++ [0xDF]) id <|
      Prog.count attributes.entries fun e => emitAttribute e.1 e.2

/-- The attributes of an event, where there are any. -/
def encodeAttributes : Option (OrderedMap Str Attribute) → Writer Slice Bool
  | none => pure false
  | some attributes => encodeAttributesIfAny attributes

/-- One event.  Its head says two entries, and three once there are attributes. -/
def encodeSpanEvent (env : Env) (event : SpanEvent) : Writer Slice Bool :=
  match event.name with
  | none => pure false
  | some name => do
    let _ ← (traceLog Slice).counted [] [0x82] (fun c => if c then [0x83] else [0x82]) do
      put KEY_NAME
      encodeString (.str name)
      put KEY_EVENT_TIME
      put (writeFloat (env.eventTimeNano event.startTime))
      encodeAttributes event.attributes
    pure true

/-- `#encodeSpanEvents`. -/
def encodeSpanEvents (env : Env) (spanEvents : List SpanEvent) : Writer Slice Unit := do
  let _ ← counted [0xDD] id (Prog.count spanEvents (encodeSpanEvent env))

/-! ### `meta_struct` -/

/-- What is written as an item of an array: no boolean. -/
def JsValue.isItem (visited : List ℕ) : JsValue → Bool
  | .str _ | .num _ => true
  | .ref n => !visited.elem n
  | _ => false

/-- What is written as a property of an object. -/
def JsValue.isProperty (visited : List ℕ) : JsValue → Bool
  | .str _ | .num _ | .bool _ => true
  | .ref n => !visited.elem n
  | .other => false

/-- The items of an array, and what `circularReferencesDetector` holds after them. -/
def encodeItems (encode : List ℕ → JsValue → Writer Slice (List ℕ)) :
    List ℕ → List JsValue → Writer Slice (List ℕ × ℕ)
  | visited, [] => pure (visited, 0)
  | visited, v :: items =>
    if JsValue.isItem visited v then do
      let visited ← encode visited v
      let r ← encodeItems encode visited items
      pure (r.1, r.2 + 1)
    else encodeItems encode visited items

/-- The properties of an object. -/
def encodeProperties (encode : List ℕ → JsValue → Writer Slice (List ℕ)) :
    List ℕ → List (Str × Option JsValue) → Writer Slice (List ℕ × ℕ)
  | visited, [] => pure (visited, 0)
  | _, (_, none) :: _ => Prog.fail .raised
  | visited, (key, some v) :: entries =>
    if JsValue.isProperty visited v then do
      encodeString (.str key)
      let visited ← encode visited v
      let r ← encodeProperties encode visited entries
      pure (r.1, r.2 + 1)
    else encodeProperties encode visited entries

/-- `#encodeObject`, `#encodeObjectAsMap` and `#encodeObjectAsArray`. -/
def encodeObject (objects : ℕ → JsObject) : ℕ → List ℕ → JsValue → Writer Slice (List ℕ)
  | 0, _, _ => Prog.fail .raised
  | depth + 1, visited, value =>
    match value with
    | .ref n =>
      match objects n with
      | .array items => do
        let r ← counted [0xDD] Prod.snd
          (encodeItems (encodeObject objects depth) (n :: visited) items)
        pure r.1
      | .object entries => do
        let r ← counted [0xDF] Prod.snd
          (encodeProperties (encodeObject objects depth) (n :: visited) entries.entries)
        pure r.1
    | .str s => do
      encodeString (.str s)
      pure visited
    | .num d => do
      put (writeFloat d)
      pure visited
    | .bool b => do
      put (writeBoolean b)
      pure visited
    | .other => pure visited

/-- `#encodeObjectAsByteArray`. -/
def encodeObjectAsByteArray (env : Env) (objects : ℕ → JsObject) (value : JsValue) :
    Writer Slice Unit := do
  let _ ← (traceLog Slice).sized [0, 0, 0, 0, 0] (fun length => 0xC6 :: int32 length)
    (encodeObject objects env.depth [] value)

/-- What is written as an entry of a `meta_struct`: no boolean. -/
def JsValue.isEntry : JsValue → Bool
  | .str _ | .num _ | .ref _ => true
  | _ => false

/-- `#encodeMetaStruct`. -/
def encodeMetaStruct (env : Env) (objects : ℕ → JsObject) (n : ℕ) : Writer Slice Unit :=
  match objects n with
  | .array _ => put (writeMapPrefix 0)
  | .object entries => do
    let _ ← counted [0xDF] id <| Prog.count entries.entries fun e =>
      match e.2 with
      | none => Prog.fail .raised
      | some v =>
        if JsValue.isEntry v then do
          encodeString (.str e.1)
          encodeObjectAsByteArray env objects v
          pure true
        else pure false

/-! ### A span -/

/-- The integer part of a number, zero where there is none: `value >>> 0` before it is cut to 32
bits. -/
def truncated (d : Binary64) : ℤ := if d.isFinite then d.toInt else 0

/-- `value >= 0x1_00_00_00_00`. -/
def atLeast32 (d : Binary64) : Bool :=
  !d.isNaN && !d.neg && (!d.isFinite || 2 ^ 32 ≤ d.toInt)

/-- The key and the value of an `error` that is zero or one. -/
def errorEntry (span : Span) : Option (List UInt8) :=
  if span.error.isInteger && span.error.toInt == 0 then some KEY_ERROR_0
  else if span.error.isInteger && span.error.toInt == 1 then some KEY_ERROR_1
  else none

/-- The `error` that is written in the block, together with `start`. -/
def fuseTail (span : Span) : Option (List UInt8) :=
  if atLeast32 span.start then errorEntry span else none

def mapSize (span : Span) : ℕ :=
  11 + (if span.type.truthy then 1 else 0) + (if span.metaStruct.isSome then 1 else 0) +
    (if span.spanEvents.isSome then 1 else 0)

/-- The view of the type, where there is one. -/
def cachedType (span : Span) : Writer Slice (Option Slice) :=
  if span.type.truthy then some <$> cached span.type else pure none

/-- The views of the four texts. -/
def headEntries (span : Span) : Writer Slice (Option Slice × Slice × Slice × Slice) := do
  let typeEntry ← cachedType span
  let nameEntry ← cached span.name
  let resourceEntry ← cached span.resource
  let serviceEntry ← cached span.service
  pure (typeEntry, nameEntry, resourceEntry, serviceEntry)

/-- The fields in the block, from the bytes of the texts. -/
def headFields (span : Span) (type : Option (List UInt8)) (name resource service : List UInt8) :
    List UInt8 :=
  (match type with
    | some type => KEY_TYPE ++ type
    | none => []) ++
    (KEY_TRACE_ID_PREFIX ++ idBytes span.traceId) ++
    (KEY_SPAN_ID_PREFIX ++ idBytes span.spanId) ++
    (KEY_PARENT_ID_PREFIX ++ idBytes span.parentId) ++
    (KEY_NAME ++ name) ++ (KEY_RESOURCE ++ resource) ++ (KEY_SERVICE ++ service)

/-- The end of the block: nothing, or what comes before the value of `duration`. -/
def headTail (span : Span) : List UInt8 :=
  match fuseTail span with
  | some error => error ++ (KEY_START_PREFIX ++ int64 (truncated span.start)) ++ KEY_DURATION
  | none => []

/-- The block that is written in one piece. -/
def headBlock (span : Span) (type : Option (List UInt8)) (name resource service : List UInt8) :
    List UInt8 :=
  [(0x80 + mapSize span).toUInt8] ++ headFields span type name resource service ++ headTail span

/-- What follows the block up to the key of `duration`, unless it is in the block. -/
def encodeTail (span : Span) : Writer Slice Unit :=
  match fuseTail span, errorEntry span with
  | some _, _ => pure ()
  | none, some error => do
    put error
    put KEY_START
    put (writeIntOrFloat span.start)
    put KEY_DURATION
  | none, none => do
    put KEY_ERROR
    put (writeIntOrFloat span.error)
    put KEY_START
    put (writeIntOrFloat span.start)
    put KEY_DURATION

/-- `span_events` where there are some. -/
def encodeSpanEventsIfAny (env : Env) : Option (List SpanEvent) → Writer Slice Unit
  | none => pure ()
  | some spanEvents => do
    put KEY_SPAN_EVENTS
    encodeSpanEvents env spanEvents

/-- `meta_struct` where there is one. -/
def encodeMetaStructIfAny (env : Env) (objects : ℕ → JsObject) : Option ℕ → Writer Slice Unit
  | none => pure ()
  | some n => do
    put KEY_META_STRUCT
    encodeMetaStruct env objects n

/-- What is written for a formatted span. -/
def encodeSpan (env : Env) (objects : ℕ → JsObject) (span : Span) : Writer Slice Unit := do
  let (typeEntry, nameEntry, resourceEntry, serviceEntry) ← headEntries span
  let s ← Prog.get
  let read := fun entry : Slice => entry.read s.strings.bytes
  put (headBlock span (typeEntry.map read) (read nameEntry) (read resourceEntry)
    (read serviceEntry))
  encodeTail span
  put (writeIntOrFloat span.duration)
  encodeMetaEntries KEY_META_PREFIX span.meta
  encodeMetaEntries KEY_METRICS_PREFIX span.metrics
  encodeSpanEventsIfAny env span.spanEvents
  encodeMetaStructIfAny env objects span.metaStruct

/-- The body of the loop over the spans. -/
def encodeFormatted (env : Env) (objects : ℕ → JsObject) (span : Span) : Writer Slice Unit :=
  match formatSpan env span with
  | none => Prog.fail .raised
  | some span => encodeSpan env objects span

/-- `_encode`.  The views that `#refreshStringCache` makes show what the old ones do. -/
def encode (env : Env) (trace : Trace) : Writer Slice Unit := do
  put (writeArrayPrefix trace.spans.length)
  Prog.each trace.spans (encodeFormatted env trace.objects)

end V04
end DdTrace.Encode
