import Mathlib.Tactic.Abel
import DdTrace.Encode.Span
import DdTrace.Library.Accumulate
import DdTrace.Library.Run

/-!
# Span statistics

`span_stats.js`.  A span that is finished goes to the time bucket of its end and there to the
statistics of its aggregation key, which are found under the text of the key: its fields joined with
commas.  `onInterval` hands all buckets to the exporter and clears them; with an OTLP exporter the
text has the flag `isTraceRoot` as well.

* Times are integers, in nanoseconds.  Their sum is rounded as that of two doubles is: the end of a
  span of today is a multiple of 256.
* The metrics of a span are of a type of numbers, of which the code asks what is in `Numbers`.
* The sketches are those of a package, of which the code asks what is in `Sketches`; `Lawful` is
  what it relies on.

The processor keeps two logs that the code does not have: the spans it was given, and what the
exporters were handed.
-/

namespace DdTrace.SpanStats

open Library Str

variable {ν S : Type*}

/-! ## Spans -/

/-- What the code asks of numbers and of texts. -/
structure Numbers (ν : Type*) where
  truthy : ν → Bool
  toString : ν → Str
  /-- The numeral of `Number(text)`, where this is an integer that is not negative. -/
  naturalText : Str → Option Str
  toUpperCase : Str → Str

/-- A formatted span. -/
structure Span (ν : Type*) where
  name : Option Str
  service : Option Str
  resource : Option Str
  type : Option Str
  error : ℤ
  start : ℤ
  duration : ℤ
  parentId : Option Identifier
  «meta» : OrderedMap Str Str
  metrics : OrderedMap Str ν

/-- `text || fallback`. -/
def orElse (text : Option Str) (fallback : Str) : Str :=
  match text with
  | none | some [] => fallback
  | some s => s

def Span.tag (span : Span ν) (key : String) : Option Str := span.meta.get? (lit key)

def Span.hasMetric (n : Numbers ν) (span : Span ν) (key : String) : Bool :=
  ((span.metrics.get? (lit key)).map n.truthy).getD false

def Span.isTopLevel (n : Numbers ν) (span : Span ν) : Bool := span.hasMetric n "_dd.top_level"

/-! ## Aggregation keys -/

/-- `SpanAggKey`.  The number 0 is where there is no status code. -/
structure SpanAggKey where
  name : Str
  service : Str
  resource : Str
  type : Str
  statusCode : Option Str
  synthetics : Bool
  endpoint : Str
  method : Str
  srvSrc : Str
  spanKind : Str
  rpcStatusCode : Str
  isTraceRoot : Option Bool := none
  deriving DecidableEq

def GRPC_STATUS_NAMES : List Str :=
  [lit "OK", lit "CANCELLED", lit "UNKNOWN", lit "INVALID_ARGUMENT", lit "DEADLINE_EXCEEDED",
    lit "NOT_FOUND", lit "ALREADY_EXISTS", lit "PERMISSION_DENIED", lit "RESOURCE_EXHAUSTED",
    lit "FAILED_PRECONDITION", lit "ABORTED", lit "OUT_OF_RANGE", lit "UNIMPLEMENTED",
    lit "INTERNAL", lit "UNAVAILABLE", lit "DATA_LOSS", lit "UNAUTHENTICATED"]

/-- `GRPC_STATUS_CODE_MAP[name]`. -/
def grpcStatusCode (name : Str) : Option Str :=
  if includes GRPC_STATUS_NAMES name then some (natString 10 (GRPC_STATUS_NAMES.idxOf name))
  else none

/-- The first tag or metric that is there: a text, or a number. -/
def grpcCode (span : Span ν) : List String → Option (Str ⊕ ν)
  | [] => none
  | key :: keys =>
    ((span.tag key).map Sum.inl).or
      (((span.metrics.get? (lit key)).map Sum.inr).or (grpcCode span keys))

/-- `rpcStatusCode`. -/
def rpcStatusCode (n : Numbers ν) (span : Span ν) : Str :=
  match grpcCode span ["grpc.status.code", "rpc.grpc.status_code", "rpc.response.status_code"] with
  | none | some (.inl []) => []
  | some (.inr value) => n.toString value
  | some (.inl code) =>
    (grpcStatusCode (n.toUpperCase code)).getD ((n.naturalText code).getD [])

/-- The constructor of `SpanAggKey`. -/
def SpanAggKey.new (n : Numbers ν) (span : Span ν) : SpanAggKey where
  name := orElse span.name Encode.DEFAULT_SPAN_NAME
  service := orElse span.service Encode.DEFAULT_SERVICE_NAME
  resource := orElse span.resource []
  type := orElse span.type []
  statusCode :=
    match span.tag "http.status_code" with
    | none | some [] => none
    | some code => some code
  synthetics := span.tag "_dd.origin" = some (lit "synthetics")
  endpoint := orElse (span.tag "http.route") (orElse (span.tag "http.endpoint") [])
  method := orElse (span.tag "http.method") []
  srvSrc := orElse (span.tag "_dd.svc_src") []
  spanKind := orElse (span.tag "span.kind") []
  rpcStatusCode := SpanStats.rpcStatusCode n span

def boolText (b : Bool) : Str := if b then lit "true" else lit "false"

/-- `toString` of a key. -/
def SpanAggKey.toString (key : SpanAggKey) : Str :=
  join (unit ',') [key.name, key.service, key.resource, key.type, key.statusCode.getD (lit "0"),
      boolText key.synthetics, key.method, key.endpoint, key.srvSrc, key.spanKind,
      key.rpcStatusCode]

/-! ## Statistics -/

/-- What the code asks of the sketches. -/
structure Sketches (S : Type*) where
  new : S
  accept : S → ℤ → S
  count : S → ℕ
  sum : S → ℤ

/-- A sketch counts and sums up what it accepts. -/
structure Sketches.Lawful (K : Sketches S) : Prop where
  count_new : K.count K.new = 0
  sum_new : K.sum K.new = 0
  count_accept : ∀ s value, K.count (K.accept s value) = K.count s + 1
  sum_accept : ∀ s value, K.sum (K.accept s value) = K.sum s + value

structure SpanAggStats (S : Type*) where
  aggKey : SpanAggKey
  hits : ℕ
  topLevelHits : ℕ
  topLevelOkDistribution : S
  topLevelErrorDistribution : S
  nonTopLevelOkDistribution : S
  nonTopLevelErrorDistribution : S

/-- One row of the statistics of a bucket; the summaries are the sketches that `toProto` is called
on. -/
structure Row (S : Type*) where
  key : SpanAggKey
  Hits : ℕ
  TopLevelHits : ℕ
  Errors : ℕ
  Duration : ℤ
  OkSummary : S
  ErrorSummary : S

namespace SpanAggStats

def new (K : Sketches S) (aggKey : SpanAggKey) : SpanAggStats S :=
  ⟨aggKey, 0, 0, K.new, K.new, K.new, K.new⟩

def record (n : Numbers ν) (K : Sketches S) (span : Span ν) (s : SpanAggStats S) : SpanAggStats S :=
  let isTopLevel := span.isTopLevel n
  let s := { s with
    hits := s.hits + 1
    topLevelHits := if isTopLevel then s.topLevelHits + 1 else s.topLevelHits }
  match decide (span.error ≠ 0), isTopLevel with
  | true, true =>
    { s with topLevelErrorDistribution := K.accept s.topLevelErrorDistribution span.duration }
  | true, false =>
    { s with
      nonTopLevelErrorDistribution := K.accept s.nonTopLevelErrorDistribution span.duration }
  | false, true =>
    { s with topLevelOkDistribution := K.accept s.topLevelOkDistribution span.duration }
  | false, false =>
    { s with nonTopLevelOkDistribution := K.accept s.nonTopLevelOkDistribution span.duration }

/-- `toJSON`: a row for the top-level spans and one for the others, where there are any. -/
def toJSON (K : Sketches S) (s : SpanAggStats S) : List (Row S) :=
  (if 0 < s.topLevelHits then
    [{ key := s.aggKey
       Hits := s.topLevelHits
       TopLevelHits := s.topLevelHits
       Errors := K.count s.topLevelErrorDistribution
       Duration := K.sum s.topLevelOkDistribution + K.sum s.topLevelErrorDistribution
       OkSummary := s.topLevelOkDistribution
       ErrorSummary := s.topLevelErrorDistribution }]
  else []) ++
  if 0 < s.hits - s.topLevelHits then
    [{ key := s.aggKey
       Hits := s.hits - s.topLevelHits
       TopLevelHits := 0
       Errors := K.count s.nonTopLevelErrorDistribution
       Duration := K.sum s.nonTopLevelOkDistribution + K.sum s.nonTopLevelErrorDistribution
       OkSummary := s.nonTopLevelOkDistribution
       ErrorSummary := s.nonTopLevelErrorDistribution }]
  else []

end SpanAggStats

/-! ## Buckets -/

/-- `SpanBuckets`. -/
abbrev SpanBuckets (S : Type*) := OrderedMap Str (SpanAggStats S)

/-- The key of a span in a bucket, with the flag of a trace root where it is asked for. -/
def aggKey (n : Numbers ν) (includeTraceRoot : Bool) (span : Span ν) : SpanAggKey :=
  { SpanAggKey.new n span with
    isTraceRoot :=
      if includeTraceRoot then span.parentId.map fun parentId => parentId.equals Identifier.zeroId
      else none }

/-- The text of a key in a bucket. -/
def SpanAggKey.text (includeTraceRoot : Bool) (key : SpanAggKey) : Str :=
  if includeTraceRoot then
    key.toString ++ lit "," ++ (key.isTraceRoot.map boolText).getD (lit "undefined")
  else key.toString

/-- `forSpan(span).record(span)`. -/
def SpanBuckets.record (n : Numbers ν) (K : Sketches S) (includeTraceRoot : Bool) (span : Span ν)
    (bucket : SpanBuckets S) : SpanBuckets S :=
  bucket.update ((aggKey n includeTraceRoot span).text includeTraceRoot)
    (.new K (aggKey n includeTraceRoot span)) (SpanAggStats.record n K span)

/-- `TimeBuckets`. -/
abbrev TimeBuckets (S : Type*) := OrderedMap ℤ (SpanBuckets S)

/-- An integer as the double that is nearest to it. -/
def round (z : ℤ) : ℤ :=
  if z < 0 then -(Binary64.round53 z.natAbs : ℤ) else (Binary64.round53 z.natAbs : ℤ)

def Span.endNs (span : Span ν) : ℤ := round (span.start + span.duration)

/-- The start of the bucket of a span. -/
def bucketTime (bucketSizeNs : ℤ) (span : Span ν) : ℤ :=
  round (span.endNs - span.endNs.tmod bucketSizeNs)

/-! ## The processor -/

structure Settings where
  enabled : Bool
  /-- An exporter of the statistics as OTLP is there. -/
  otlpExporter : Bool
  bucketSizeNs : ℤ
  hostname : Str
  env : Option Str
  version : Str
  tracerVersion : Str
  runtimeId : Option Str
  processTags : Option Str

/-- One bucket of a payload. -/
structure BucketPayload (S : Type*) where
  Start : ℤ
  Duration : ℤ
  Stats : List (Row S)

structure Payload (S : Type*) where
  Hostname : Str
  Env : Option Str
  Version : Str
  Stats : List (BucketPayload S)
  Lang : Str
  TracerVersion : Str
  RuntimeID : Option Str
  Sequence : ℕ
  ProcessTags : Option Str

/-- What an exporter is handed. -/
inductive Export (S : Type*)
  | payload (payload : Payload S)
  | otlp (drained : List (ℤ × SpanBuckets S)) (bucketSizeNs : ℤ)

structure Processor (ν S : Type*) where
  buckets : TimeBuckets S := .empty
  sequence : ℕ := 0
  finished : List (Span ν) := []
  exported : List (Export S) := []

/-- `toV06Payload`. -/
def toV06Payload (K : Sketches S) (bucketSizeNs : ℤ) (drained : List (ℤ × SpanBuckets S)) :
    List (BucketPayload S) :=
  drained.map fun (timeNs, bucket) =>
    ⟨timeNs, bucketSizeNs, bucket.values.flatMap (SpanAggStats.toJSON K)⟩

/-- The statistics count a span. -/
def Settings.counts (settings : Settings) (n : Numbers ν) (span : Span ν) : Bool :=
  (settings.enabled || settings.otlpExporter) &&
    (span.isTopLevel n || span.hasMetric n "_dd.measured")

namespace Processor

variable (n : Numbers ν) (K : Sketches S) (settings : Settings) (p : Processor ν S)

def onSpanFinished (span : Span ν) : Processor ν S :=
  let p := { p with finished := p.finished ++ [span] }
  if settings.counts n span then
    { p with
      buckets := p.buckets.update (bucketTime settings.bucketSizeNs span) .empty
        (SpanBuckets.record n K settings.otlpExporter span) }
  else p

def onInterval : Processor ν S :=
  let drained := p.buckets.entries
  let p := { p with buckets := .empty }
  if settings.enabled && !settings.otlpExporter then
    { p with
      sequence := p.sequence + 1
      exported := p.exported ++ [.payload {
        Hostname := settings.hostname
        Env := settings.env
        Version := if settings.version = [] then settings.tracerVersion else settings.version
        Stats := toV06Payload K settings.bucketSizeNs drained
        Lang := lit "javascript"
        TracerVersion := settings.tracerVersion
        RuntimeID := settings.runtimeId
        Sequence := p.sequence + 1
        ProcessTags := settings.processTags }] }
  else if settings.otlpExporter && drained.length != 0 then
    { p with exported := p.exported ++ [.otlp drained settings.bucketSizeNs] }
  else p

end Processor

/-- A span is finished, or the timer fires; there is one where statistics are made. -/
inductive StatsEvent (ν : Type*)
  | finished (span : Span ν)
  | interval

def Processor.step (n : Numbers ν) (K : Sketches S) (settings : Settings) (p : Processor ν S) :
    StatsEvent ν → Option (Processor ν S)
  | .finished span => some (p.onSpanFinished n K settings span)
  | .interval =>
    if settings.enabled || settings.otlpExporter then some (p.onInterval K settings) else none

end DdTrace.SpanStats
