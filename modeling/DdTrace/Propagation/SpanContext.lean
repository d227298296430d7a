import DdTrace.Propagation.Tracestate

/-!
# Span contexts

The fields of `opentracing/span_context.js` that propagation reads and writes.  A 128-bit trace id
has two forms: sixteen bytes in the identifier, as it arrives in B3 or W3C headers, or eight bytes
with the upper half in hexadecimal under the tag `_dd.p.tid`, as it is made by the tracer and
arrives in Datadog headers.
-/

namespace DdTrace

open Library

/-- The sampling decision. -/
structure Sampling where
  priority : Option Integral := none
  mechanism : Option Integral := none
  deriving DecidableEq

/-- What the spans of a trace share. -/
structure Trace where
  origin : Option Str := none
  tags : OrderedMap Str Str := .empty
  deriving DecidableEq

/-- `DatadogSpanContext`.  Of `_traceparent` only the version is kept. -/
structure SpanContext where
  traceId : Identifier
  spanId : Option Identifier
  isRemote : Bool := true
  sampling : Sampling := {}
  traceparent : Option Str := none
  tracestate : Option TraceState := none
  trace : Trace := {}
  deriving DecidableEq

/-- The lower-case hexadecimal upper 64 bits of a 128-bit trace id, if present. -/
def TRACE_ID_128 : Str := lit "_dd.p.tid"

/-- `DD_PARENT_ID`. -/
def DD_PARENT_ID : Str := lit "_dd.parent_id"

/-- `AUTO_KEEP`. -/
def AUTO_KEEP : ℤ := 1

namespace SpanContext

/-- `toTraceId(true)`: 32 hexadecimal digits. -/
def toTraceId (ctx : SpanContext) : Str :=
  padStart (ctx.traceId.toTraceIdHex (ctx.trace.tags.get? TRACE_ID_128)) 32

/-- `toSpanId(true)`: 16 hexadecimal digits.  A context without a span id has none. -/
def toSpanId (ctx : SpanContext) : Option Str :=
  ctx.spanId.map fun i => padStart i.toString 16

/-- Whether the priority keeps the trace. -/
def isKept (ctx : SpanContext) : Bool :=
  match ctx.sampling.priority with
  | some priority => AUTO_KEEP ≤ priority.val
  | none => false

/-- `toTraceparent`, once the sampling priority has been decided. -/
def toTraceparent (ctx : SpanContext) : Option Str :=
  ctx.toSpanId.map fun spanId =>
    let flags := if ctx.isKept then lit "01" else lit "00"
    (ctx.traceparent.filter (· ≠ [])).getD (lit "00") ++ unit '-' :: ctx.toTraceId ++ unit '-' :: spanId ++
      unit '-' :: flags

end SpanContext
end DdTrace
