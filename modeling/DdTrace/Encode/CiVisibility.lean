import DdTrace.Encode.AgentEncoderTrace

/-!
# The CI Visibility encoder

`encode/agentless-ci-visibility.js` inherits from the v0.4 encoder and writes the spans of a trace
as events, of which there are four kinds for the levels of a test run and one for other spans.  A
payload is a map of a version, of metadata for the kinds, and of the events.  The events are written
as they come.  The metadata is written when the payload is made, from what has been added by then,
into a chunk of its own.

A tag that an event shares with the metadata of all levels is not written with the event.  What
decides is the metadata at the time the event is encoded.

The events of the levels differ in what they have in front.  What is written of each is a list of
fields here, and the number that the source computes for the head of the map stands beside it.
-/

open Library

namespace DdTrace.Encode

open MsgpackChunk

namespace CiVisibility

/-! ## The source -/

abbrev Tags : Type := OrderedMap Str Scalar

def ENCODING_VERSION : ℕ := 1
def ITR_CORRELATION_ID : Str := lit "itr_correlation_id"
def TEST_LEVELS_METADATA : Str := lit "test_levels"
def ALLOWED_CONTENT_TYPES : List Str :=
  [lit "test_session_end", lit "test_module_end", lit "test_suite_end", lit "test"]
def ALLOWED_METADATA_TARGETS : List Str := ALLOWED_CONTENT_TYPES ++ [TEST_LEVELS_METADATA]

def TEST_SUITE_KEYS_LENGTH : ℕ := 12
def TEST_MODULE_KEYS_LENGTH : ℕ := 11
def TEST_SESSION_KEYS_LENGTH : ℕ := 10
def TEST_AND_SPAN_KEYS_LENGTH : ℕ := 11
def INTAKE_SOFT_LIMIT : ℕ := 2 * 1024 * 1024

/-- What the encoder is constructed with, the version of the library, and what a value that is no
string is as a key. -/
structure Setup where
  ddTraceVersion : Str
  runtimeId : Str
  env : Str
  keyOf : Scalar → Str

/-- What is neither a string nor a number nor absent is taken for an object here. -/
def truthy : Scalar → Bool
  | .str s => !s.isEmpty
  | .num d => !d.isNaN && d.mag != 0
  | .null => false
  | .other => true

/-- `===` -/
def strictEquals : Scalar → Scalar → Bool
  | .str s, .str t => s == t
  | .num d, .num e => !d.isNaN && !e.isNaN && d.scaled == e.scaled
  | _, _ => false

/-- The fields that this encoder has of its own. -/
structure Own where
  eventCount : ℕ
  metadataTags : OrderedMap Str Tags
  wildcardMetadataTags : Tags
  testLevelsMetadataKeys : List Str

/-- `{ ...target, ...source }` -/
def spread (target source : Tags) : Tags := source.entries.foldl (fun m e => m.set e.1 e.2) target

def truncateTestLevelMetadataValue : Scalar → Scalar
  | .str s => .str (truncateText MAX_META_VALUE_LENGTH_TEST_OPTIMIZATION s)
  | value => value

def isEncodableMetadataValue : Scalar → Bool
  | .str _ | .num _ => true
  | _ => false

def truncateTestLevelMetadataTags (tags : Tags) : Option Tags :=
  let truncatedTags := OrderedMap.ofEntries
    ((tags.entries.map fun e => (e.1, truncateTestLevelMetadataValue e.2)).filter fun e =>
      isEncodableMetadataValue e.2)
  if truncatedTags.entries.isEmpty then none else some truncatedTags

/-- The body of the loop of `addMetadataTags`. -/
def addMetadataTarget (own : Own) (e : Str × Option Tags) : Own :=
  match e.2 with
  | none => own
  | some tags =>
    if e.1 = lit "*" ∨ !includes ALLOWED_METADATA_TARGETS e.1 then own
    else
      match if e.1 = TEST_LEVELS_METADATA then truncateTestLevelMetadataTags tags
        else some tags with
      | none => own
      | some targetTags =>
        let added := spread ((own.metadataTags.get? e.1).getD OrderedMap.empty) targetTags
        { own with
          metadataTags := own.metadataTags.set e.1 added
          testLevelsMetadataKeys :=
            if e.1 = TEST_LEVELS_METADATA then added.keys else own.testLevelsMetadataKeys }

def addMetadataTags (tags : OrderedMap Str (Option Tags)) (own : Own) : Own :=
  let own :=
    match (tags.get? (lit "*")).join with
    | none => own
    | some wildcard =>
      { own with wildcardMetadataTags := spread own.wildcardMetadataTags wildcard }
  tags.entries.foldl addMetadataTarget own

/-! ### Events -/

structure TestEvent where
  type : Str
  version : ℕ
  content : Span

/-- A tag that is there and true. -/
def trueTag (content : Span) (key : Str) : Option Scalar :=
  (content.meta.bind (OrderedMap.get? · key)).filter truthy

def contentType : Text → Str
  | .str s => if includes ALLOWED_CONTENT_TYPES s then s else lit "span"
  | _ => lit "span"

def formatSpan (span : Span) : Option TestEvent :=
  (truncateSpanTestOpt span).map fun truncated =>
    { type := contentType span.type
      version :=
        if span.type = .str (lit "test") ∧ (trueTag span (lit "test_session_id")).isSome then 2
        else ENCODING_VERSION
      content := normalizeSpan truncated }

/-- The body of the loop of `_removeDuplicateTestLevelsMetadata`. -/
def removeDuplicate (testLevelsMetadataTags : Tags) (tags : Tags) (key : Str) : Tags :=
  match tags.get? key, testLevelsMetadataTags.get? key with
  | some value, some value' => if strictEquals value value' then tags.delete key else tags
  | _, _ => tags

def removeDuplicateTestLevelsMetadata (own : Own) (event : TestEvent) : TestEvent :=
  if !includes ALLOWED_CONTENT_TYPES event.type then event
  else
    let testLevelsMetadataTags :=
      (own.metadataTags.get? TEST_LEVELS_METADATA).getD OrderedMap.empty
    let tags := event.content.meta.map fun tags =>
      own.testLevelsMetadataKeys.foldl (removeDuplicate testLevelsMetadataTags) tags
    { event with content := { event.content with «meta» := tags } }

/-- An event without the tags that it shares with the metadata of all levels. -/
def deduplicated (own : Own) (event : TestEvent) : TestEvent :=
  if own.testLevelsMetadataKeys.isEmpty then event
  else removeDuplicateTestLevelsMetadata own event

/-- What is written behind a key. -/
inductive Field where
  | text (value : Text)
  | id (identifier : Identifier)
  | number (value : Binary64)
  | map (value : Option Tags)

/-- `_encodeMap`, which asks what is not there for its keys after the head is written. -/
def encodeMap : Option Tags → Writer Slice Unit
  | none => do
    put (writeMapPrefix 0)
    Prog.fail .raised
  | some tags => V04.encodeMap tags

def encodeField (field : String × Field) : Writer Slice Unit := do
  V04.encodeString (.str (lit field.1))
  match field.2 with
  | .text value => V04.encodeString value
  | .id identifier => V04.encodeId identifier
  | .number value => put (writeNumber value)
  | .map value => encodeMap value

/-- A map that is said to have so many fields. -/
def encodeFields (keysLength : ℕ) (fields : List (String × Field)) : Writer Slice Unit := do
  put (writeMapPrefix keysLength)
  Prog.each fields encodeField

/-- The last fields of the events of the levels. -/
def levelFields (content : Span) : List (String × Field) :=
  [("error", .number content.error), ("name", .text content.name),
    ("service", .text content.service), ("resource", .text content.resource),
    ("start", .number content.start), ("duration", .number content.duration),
    ("meta", .map content.meta), ("metrics", .map content.metrics)]

/-- A span without a tag. -/
def deleteTag (key : Str) (content : Span) : Span :=
  { content with «meta» := content.meta.map (OrderedMap.delete · key) }

/-- What is passed to `_encodeString`. -/
def Setup.textOf (setup : Setup) : Scalar → Text
  | .str s => .str s
  | value => .other (setup.keyOf value)

/-- `id(value, 10)`; what is no string has no digits. -/
def idOf : Scalar → Identifier
  | .str s => Identifier.fromString s 10
  | _ => Identifier.zeroId

/-- The correlation id in the root of the event. -/
def itrField (setup : Setup) (content : Span) : List (String × Field) :=
  ((trueTag content ITR_CORRELATION_ID).map fun value =>
    ("itr_correlation_id", Field.text (setup.textOf value))).toList

/-- A tag that is written as an identifier in the root of the event. -/
def idField (content : Span) (key : String) : List (String × Field) :=
  ((trueTag content (lit key)).map fun value => (key, Field.id (idOf value))).toList

/-- A span without a tag that has gone to the root of the event. -/
def deleteTrueTag (content : Span) (key : Str) : Span :=
  if (trueTag content key).isSome then deleteTag key content else content

def testSuiteFields (setup : Setup) (content : Span) : List (String × Field) :=
  [("type", .text content.type), ("test_session_id", .id content.traceId),
    ("test_module_id", .id content.parentId), ("test_suite_id", .id content.spanId)] ++
    itrField setup content ++ levelFields (deleteTrueTag content ITR_CORRELATION_ID)

def testModuleFields (content : Span) : List (String × Field) :=
  [("type", .text content.type), ("test_session_id", .id content.traceId),
    ("test_module_id", .id content.spanId)] ++ levelFields content

def testSessionFields (content : Span) : List (String × Field) :=
  [("type", .text content.type), ("test_session_id", .id content.traceId)] ++ levelFields content

/-- The keys of the tags that go to the root of an event as identifiers. -/
def rootKeys : List String := ["test_session_id", "test_module_id", "test_suite_id"]

/-- The tags that go to the root of an event. -/
def rootFields (setup : Setup) (content : Span) : List (String × Field) :=
  rootKeys.flatMap (idField content) ++ itrField setup content

def typeField (content : Span) : List (String × Field) :=
  if content.type.truthy then [("type", .text content.type)] else []

def eventContentFields (setup : Setup) (content : Span) : List (String × Field) :=
  let rest := (rootKeys.map lit ++ [ITR_CORRELATION_ID]).foldl deleteTrueTag content
  typeField content ++ [("trace_id", .id content.traceId), ("span_id", .id content.spanId),
      ("parent_id", .id content.parentId), ("name", .text content.name),
      ("resource", .text content.resource), ("service", .text content.service),
      ("error", .number content.error), ("start", .number content.start),
      ("duration", .number content.duration)] ++ rootFields setup content ++
    [("meta", .map rest.meta), ("metrics", .map rest.metrics)]

/-- Asking what is not there for a tag throws. -/
def needsMeta (content : Span) (x : Writer Slice Unit) : Writer Slice Unit :=
  if content.meta.isNone then Prog.fail .raised else x

def encodeTestSuite (setup : Setup) (content : Span) : Writer Slice Unit :=
  needsMeta content <| encodeFields (TEST_SUITE_KEYS_LENGTH + (itrField setup content).length)
      (testSuiteFields setup content)

def encodeTestModule (content : Span) : Writer Slice Unit :=
  encodeFields TEST_MODULE_KEYS_LENGTH (testModuleFields content)

def encodeTestSession (content : Span) : Writer Slice Unit :=
  encodeFields TEST_SESSION_KEYS_LENGTH (testSessionFields content)

def encodeEventContent (setup : Setup) (content : Span) : Writer Slice Unit :=
  needsMeta content <| encodeFields
      (TEST_AND_SPAN_KEYS_LENGTH + (rootFields setup content).length + (typeField content).length)
      (eventContentFields setup content)

def encodeContent (setup : Setup) (event : TestEvent) : Writer Slice Unit :=
  if event.type = lit "span" ∨ event.type = lit "test" then encodeEventContent setup event.content
  else if event.type = lit "test_suite_end" then encodeTestSuite setup event.content
  else if event.type = lit "test_module_end" then encodeTestModule event.content
  else if event.type = lit "test_session_end" then encodeTestSession event.content
  else pure ()

def encodeEvent (setup : Setup) (event : TestEvent) : Writer Slice Unit := do
  put (writeMapPrefix 3)
  V04.encodeString (.str (lit "type"))
  V04.encodeString (.str event.type)
  V04.encodeString (.str (lit "version"))
  put (writeInt event.version)
  V04.encodeString (.str (lit "content"))
  encodeContent setup event

/-- `_encode` -/
def encode (setup : Setup) (trace : Trace) : Prog Failure (State Slice Own) Unit := do
  match trace.spans.mapM formatSpan with
  | none => Prog.fail .raised
  | some events => do
    Prog.modify fun s =>
      { s with own := { s.own with eventCount := s.own.eventCount + events.length } }
    let s ← Prog.get
    onChunks (Prog.each events fun event => encodeEvent setup (deduplicated s.own event))

/-! ### Payloads -/

/-- The metadata, by its targets. -/
def metadata (setup : Setup) (own : Own) : OrderedMap Str Tags :=
  let wildcard := spread (OrderedMap.ofEntries [(lit "language", .str (lit "javascript")),
    (lit "library_version", .str setup.ddTraceVersion)]) own.wildcardMetadataTags
  let wildcard := if setup.env.isEmpty then wildcard else wildcard.set (lit "env") (.str setup.env)
  let wildcard :=
    if setup.runtimeId.isEmpty then wildcard
    else wildcard.set (lit "runtime-id") (.str setup.runtimeId)
  own.metadataTags.entries.foldl (fun m e => m.set e.1 e.2)
    (OrderedMap.ofEntries [(lit "*", wildcard)])

/-- `_encodePayloadStart`, with the number of the events that is written into its last five bytes
afterwards. -/
def encodePayloadStart (setup : Setup) (own : Own) : Writer Slice Unit := do
  put (writeMapPrefix 3)
  V04.encodeString (.str (lit "version"))
  put (writeInt ENCODING_VERSION)
  V04.encodeString (.str (lit "metadata"))
  put (writeMapPrefix (metadata setup own).entries.length)
  Prog.each (metadata setup own).entries fun e => do
    V04.encodeString (.str e.1)
    V04.encodeMap e.2
  V04.encodeString (.str (lit "events"))
  put (writeArrayPrefix own.eventCount)

/-- What is written to a chunk of its own. -/
def inNewChunk (x : Writer Slice Unit) : Writer Slice (List UInt8) := fun s =>
  match x ⟨[], s.strings⟩ with
  | (.ok _, t) => (.ok t.traceBytes, ⟨s.traceBytes, t.strings⟩)
  | (.error e, t) => (.error e, ⟨s.traceBytes, t.strings⟩)

/-- `makePayload` up to the reset: the two chunks are capped by themselves, and their sum here. -/
def assemble (setup : Setup) (own : Own) : Writer Slice (List UInt8) := do
  let prefixBytes ← inNewChunk (encodePayloadStart setup own)
  let s ← Prog.get
  let totalSize := prefixBytes.length + s.traceBytes.length
  if totalSize > MAX_SIZE then Prog.fail (.overflow totalSize)
  else pure (prefixBytes ++ s.traceBytes)

/-- `AgentlessCiVisibilityEncoder` -/
def encoder (setup : Setup) : Encoder where
  Entry := Slice
  Own := Own
  Change := OrderedMap Str (Option Tags)
  start := ⟨0, OrderedMap.empty, OrderedMap.empty, []⟩
  limit := INTAKE_SOFT_LIMIT
  cacheString := cacheSlice
  encodeTrace := encode setup
  assemble _ := assemble setup
  clear own := { own with eventCount := 0 }
  change := addMetadataTags

end CiVisibility
end DdTrace.Encode
