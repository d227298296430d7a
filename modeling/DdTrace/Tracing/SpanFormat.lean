import DdTrace.Encode.Span

/-!
# The format of a finished span

`span_format.js`.  A span that is finished is turned into the record that the encoders take: its
tags go to `meta`, to `metrics` or to a field of their own, by their name and by the type of their
value.

* A tag can have any value.  An object or a function is a reference, so that objects can refer to
  each other in any way; `ObjectView` has the answers to all that the code asks of one, none where
  asking throws.  Asking twice gives one answer.
* `format` is none where it throws.
* `String` of a number and `toLowerCase` of a string are parameters.
* The fields that `formatSpan` copies from the span, its times and its events are left to the
  record that the encoders take: `Formatted.write` puts the others into it.  The links are there as
  the text that is serialized before it is cut, and the extra services are not modelled.
-/

namespace DdTrace.SpanFormat

open Library Str

/-! ## Values -/

inductive Value
  | undefined
  | null
  | boolean (b : Bool)
  | number (d : Binary64)
  | string (s : Str)
  | bigint (n : ℤ)
  /-- A symbol, with its `String`. -/
  | symbol (text : Str)
  | object (ref : ℕ)
  deriving DecidableEq

/-- What the code asks of an object or a function. -/
structure ObjectView where
  /-- `String(value)`. -/
  text : Option Str
  /-- `value.toLowerCase()`. -/
  toLowerCase : Option Value
  /-- `isNodeBuffer`. -/
  isNodeBuffer : Option Bool
  /-- `isUrl`. -/
  isUrl : Option Bool
  /-- `value.toString()`. -/
  toString : Option Value
  /-- `Array.isArray`. -/
  isArray : Option Bool
  /-- `Object.entries`. -/
  entries : Option (List (Str × Value))
  /-- `instanceof Error`. -/
  instanceofError : Option Bool
  message : Option Value
  code : Option Value
  name : Option Value
  stack : Option Value

structure Env where
  objects : ℕ → ObjectView
  numberText : Binary64 → Str
  toLowerCase : Str → Str

namespace Value

def truthy : Value → Bool
  | .undefined | .null => false
  | .boolean b => b
  | .number d => !d.isNaN && d.mag != 0
  | .string s => s.length != 0
  | .bigint n => n != 0
  | .symbol _ | .object _ => true

/-- `value == null`. -/
def isNullish : Value → Bool
  | .undefined | .null => true
  | _ => false

/-- `String(value)`. -/
def toText (env : Env) : Value → Option Str
  | .undefined => some (lit "undefined")
  | .null => some (lit "null")
  | .boolean b => some (if b then lit "true" else lit "false")
  | .number d => some (env.numberText d)
  | .string s => some s
  | .bigint n =>
    some (if n < 0 then lit "-" ++ natString 10 n.natAbs else natString 10 n.natAbs)
  | .symbol text => some text
  | .object ref => (env.objects ref).text

def zero : Value := .number (.ofBits 0)

def one : Value := .number (.ofBits 0x3FF0000000000000)

def eight : Value := .number (.ofBits 0x4020000000000000)

def ofBool (b : Bool) : Value := if b then one else zero

/-- `value === undefined || value ? 1 : 0`. -/
def flag (value : Value) : Value := ofBool (value = .undefined || value.truthy)

end Value

/-! ## Formatted spans -/

def MAX_META_KEY_LENGTH : ℕ := 200
def MAX_META_VALUE_LENGTH : ℕ := 25000
def MAX_METRIC_KEY_LENGTH : ℕ := MAX_META_KEY_LENGTH

/-- The fields that are made from tags. -/
structure Formatted where
  name : Value
  resource : Value
  service : Value
  type : Value
  error : ℕ
  «meta» : OrderedMap Str Value
  metrics : OrderedMap Str Value

/-- `object[key] = value`, on an object whose `__proto__` is no property of its own. -/
def assign (object : OrderedMap Str Value) (key : Str) (value : Value) : OrderedMap Str Value :=
  if key = lit "__proto__" then object else object.set key value

namespace Formatted

/-- A text that is cut to the length of a value. -/
def cutValue (s : Str) : Value := .string (Encode.truncateText MAX_META_VALUE_LENGTH s)

def setMeta (f : Formatted) (key s : Str) : Formatted :=
  { f with «meta» := assign f.meta key (cutValue s) }

def setMetric (f : Formatted) (key : Str) (value : Value) : Formatted :=
  { f with metrics := assign f.metrics key value }

end Formatted

/-! ## Tags of any name -/

/-- `isNodeBuffer(value) || isUrl(value)`. -/
def ObjectView.isPrinted (o : ObjectView) : Option Bool :=
  o.isNodeBuffer.bind fun isNodeBuffer => if isNodeBuffer then some true else o.isUrl

/-- `addMixedTag`, with what is done with the entries of an object. -/
def addMixedTagWith (env : Env) (addEntries : ObjectView → Option Formatted) (f : Formatted)
    (key : Str) : Value → Option Formatted
  | .string s => some (f.setMeta (Encode.truncateText MAX_META_KEY_LENGTH key) s)
  | .number d =>
    some (if d.isNaN then f
      else f.setMetric (Encode.truncateText MAX_METRIC_KEY_LENGTH key) (.number d))
  | .boolean b =>
    some (f.setMetric (Encode.truncateText MAX_METRIC_KEY_LENGTH key) (Value.ofBool b))
  | .undefined | .null => some f
  -- The entries of a primitive are none.
  | .bigint _ | .symbol _ => some f
  | .object ref =>
    (env.objects ref).isPrinted.bind fun isPrinted =>
      if isPrinted then
        (env.objects ref).toString.map (f.setMetric (Encode.truncateText MAX_METRIC_KEY_LENGTH key))
      else
        (env.objects ref).isArray.bind fun isArray =>
          if isArray then some f else addEntries (env.objects ref)

/-- `addMixedTag` of an entry of an object, whose own entries are left out. -/
def addNestedTag (env : Env) (f : Formatted) (key : Str) (value : Value) : Option Formatted :=
  addMixedTagWith env (fun _ => some f) f key value

def addMixedTag (env : Env) (f : Formatted) (key : Str) (value : Value) : Option Formatted :=
  addMixedTagWith env (fun o => o.entries.bind fun entries =>
    entries.foldlM (fun f e => addNestedTag env f (key ++ lit "." ++ e.1) e.2) f) f key value

/-! ## Errors -/

def ERROR_TYPE : Str := lit "error.type"
def ERROR_MESSAGE : Str := lit "error.message"
def ERROR_STACK : Str := lit "error.stack"

def writeErrorMeta (env : Env) (f : Formatted) (key : Str) (value : Value) : Option Formatted :=
  (value.toText env).map (f.setMeta key)

/-- `if (value != null) writeErrorMeta(..)`. -/
def writeUnlessNull (env : Env) (f : Formatted) (key : Str) (value : Value) : Option Formatted :=
  if value.isNullish then some f else writeErrorMeta env f key value

/-- `isError`. -/
def ObjectView.isError (o : ObjectView) : Option Bool :=
  o.message.bind fun message => if message.truthy then some true else o.instanceofError

/-- `error.message || error.code`. -/
def ObjectView.messageOrCode (o : ObjectView) : Option Value :=
  o.message.bind fun message => if message.truthy then some message else o.code

/-- `extractError`; a primitive is no error. -/
def extractError (env : Env) (f : Formatted) (error : Value) : Option Formatted :=
  if error.truthy then
    let f := { f with error := 1 }
    match error with
    | .object ref =>
      (env.objects ref).isError.bind fun isError =>
        if isError then
          (env.objects ref).messageOrCode.bind fun message =>
            (writeUnlessNull env f ERROR_MESSAGE message).bind fun f =>
              (env.objects ref).name.bind fun name =>
                (writeUnlessNull env f ERROR_TYPE name).bind fun f =>
                  (env.objects ref).stack.bind fun stack => writeUnlessNull env f ERROR_STACK stack
        else some f
    | _ => some f
  else some f

/-! ## The loop over the tags -/

def MEASURED : Str := lit "_dd.measured"
def HOSTNAME_KEY : Str := lit "_dd.hostname"
def BASE_SERVICE : Str := lit "_dd.base_service"

/-- What `_spanSampling` has for a span. -/
structure SpanSampling where
  sampleRate : Option Binary64
  maxPerSecond : Option Binary64

/-- A span as `format` reads it. -/
structure Span where
  /-- `String(spanContext._name)`. -/
  name : Str
  /-- The tags by their names, in the order of `Object.keys`. -/
  tags : OrderedMap Str Value
  /-- The tag under the symbol `IGNORE_OTEL_ERROR` is true. -/
  ignoreOtelError : Bool
  serviceLower : Str
  /-- The serialized links, where there are any. -/
  links : Option Str
  isRoot : Bool
  ruleDecision : Option Binary64
  limitDecision : Option Binary64
  agentDecision : Option Binary64
  /-- The tags of the trace, where the span is the first of its chunk. -/
  chunkTags : Option (OrderedMap Str Value)
  tagForFirstSpanInChunk : Option Str
  spanSampling : Option SpanSampling
  pid : Binary64
  priority : Option Binary64
  origin : Option Str
  hostname : Option Str

/-- A field that only a string is written to. -/
def stringOr (value old : Value) : Value :=
  match value with
  | .string s => Formatted.cutValue s
  | _ => old

/-- One round of the loop.  The branches for strings, numbers and booleans that are written out
before the last one are those of `addMixedTag`. -/
def extractTag (env : Env) (span : Span) (f : Formatted) (e : Str × Value) : Option Formatted :=
  if e.1 = lit "service.name" then some { f with service := stringOr e.2 f.service }
  else if e.1 = lit "span.type" then some { f with type := stringOr e.2 f.type }
  else if e.1 = lit "resource.name" then some { f with resource := stringOr e.2 f.resource }
  else if e.1 = lit "http.status_code" then
    if e.2.truthy then (e.2.toText env).map (f.setMeta e.1)
    else if e.2 = .string [] then some (f.setMeta e.1 [])
    else some f
  else if e.1 = lit "analytics.event" then some (f.setMetric (lit "_dd1.sr.eausr") e.2.flag)
  else if e.1 = HOSTNAME_KEY ∨ e.1 = MEASURED then some (f.setMetric e.1 e.2.flag)
  else if e.1 = lit "error" then
    if span.name = lit "fs.operation" then some f else extractError env f e.2
  else if e.1 = ERROR_TYPE ∨ e.1 = ERROR_MESSAGE ∨ e.1 = ERROR_STACK then
    if span.name = lit "fs.operation" then some f
    else writeUnlessNull env (if span.ignoreOtelError then f else { f with error := 1 }) e.1 e.2
  else addMixedTag env f e.1 e.2

/-- `tags['service.name']?.toLowerCase()`. -/
def serviceNameLower (env : Env) (span : Span) : Option Value :=
  match (span.tags.get? (lit "service.name")).getD .undefined with
  | .undefined | .null => some .undefined
  | .string s => some (.string (env.toLowerCase s))
  | .object ref => (env.objects ref).toLowerCase
  | .boolean _ | .number _ | .bigint _ | .symbol _ => none

/-- A number that is written where there is one. -/
def Formatted.setNumber (f : Formatted) (key : String) (value : Option Binary64) : Formatted :=
  match value with
  | some d => f.setMetric (lit key) (.number d)
  | none => f

/-- A text that is written where there is one. -/
def Formatted.setText (f : Formatted) (key : Str) (text : Option Str) : Formatted :=
  match text with
  | some s => f.setMeta key s
  | none => f

def setSingleSpanIngestionTags (f : Formatted) (options : Option SpanSampling) : Formatted :=
  match options with
  | none => f
  | some options =>
    ((f.setMetric (lit "_dd.span_sampling.mechanism") Value.eight).setNumber
      "_dd.span_sampling.rule_rate" options.sampleRate).setNumber
      "_dd.span_sampling.max_per_second" options.maxPerSecond

/-- The part of `extractTags` after the loop. -/
def extractTrailingTags (span : Span) (f : Formatted) : Formatted :=
  let f := (setSingleSpanIngestionTags f span.spanSampling).setMeta (lit "language")
    (lit "javascript")
  let f := (f.setMetric (lit "process_id") (.number span.pid)).setNumber "_sampling_priority_v1"
    span.priority
  (f.setText (lit "_dd.origin") span.origin).setText HOSTNAME_KEY span.hostname

/-- The tags that the loop runs over: `setTag` adds the service of the tracer, where that of the span
is another one. -/
def loopTags (span : Span) (serviceLower : Value) : OrderedMap Str Value :=
  if serviceLower = .string span.serviceLower then span.tags
  else span.tags.set BASE_SERVICE (.string span.serviceLower)

def extractTags (env : Env) (span : Span) (f : Formatted) : Option Formatted :=
  let kind := (span.tags.get? (lit "span.kind")).getD .undefined
  let f := if kind.truthy && kind ≠ .string (lit "internal") then f.setMetric MEASURED Value.one
    else f
  (serviceNameLower env span).bind fun serviceLower =>
    ((loopTags span serviceLower).entries.foldlM (extractTag env span) f).map
      (extractTrailingTags span)

/-! ## The format -/

def extractRootTags (span : Span) (f : Formatted) : Formatted :=
  if span.isRoot then
    (((f.setNumber "_dd.rule_psr" span.ruleDecision).setNumber "_dd.limit_psr"
      span.limitDecision).setNumber "_dd.agent_psr" span.agentDecision).setMetric
      (lit "_dd.top_level") Value.one
  else f

/-- `extractChunkTags`, of the first span of a chunk. -/
def extractChunkTags (env : Env) (span : Span) (f : Formatted) : Option Formatted :=
  match span.chunkTags with
  | none => some f
  | some tags =>
    tags.entries.foldlM (fun f e => addMixedTag env f e.1 e.2)
      (f.setText (lit "_dd.tags.process") span.tagForFirstSpanInChunk)

def formatSpan (span : Span) : Formatted where
  name := .string span.name
  resource := .string span.name
  service := .undefined
  type := .undefined
  error := 0
  «meta» := .empty
  metrics := .empty

def format (env : Env) (span : Span) : Option Formatted :=
  (extractChunkTags env span (extractRootTags span
    ((formatSpan span).setText (lit "_dd.span_links") span.links))).bind (extractTags env span)

/-! ## What the encoders take -/

def Value.asText : Value → Encode.Text
  | .string s => .str s
  | .undefined => .undefined
  | _ => .other []

def Value.asScalar : Value → Encode.Scalar
  | .string s => .str s
  | .number d => .num d
  | .null => .null
  | _ => .other

/-- The record of the encoders, with the fields that are made from tags. -/
def Formatted.write (f : Formatted) (span : Encode.Span) : Encode.Span :=
  { span with
    name := f.name.asText
    resource := f.resource.asText
    service := f.service.asText
    type := f.type.asText
    error := if f.error = 0 then .ofBits 0 else .ofBits 0x3FF0000000000000
    «meta» := some (f.meta.mapValues Value.asScalar)
    metrics := some (f.metrics.mapValues Value.asScalar) }

end DdTrace.SpanFormat
