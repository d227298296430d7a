import DdTrace.Encode.AgentEncoderTrace
import DdTrace.Encode.SpanEvents
import DdTrace.Library.Forall2

/-!
# What a payload of the v0.4 encoder carries

A payload is read as the array of the traces that are queued, whatever the spans are: the block of
the fixed fields, the guess that a number is small, the strings that are not cached and the ones
that are cannot be told from the bytes.  What is read of a span need not be what the span had,
though, and there are three ways in which it is not.  A lone surrogate becomes U+FFFD.  An integer
is cut to 64 bits.  And a start that is written in the block is cut to its integer part, where a
start behind the block would be a float.

* `Rendering.fields`: the fields of a span where strings and numbers are read in some way.
* `fields_eq_iff`: two ways to read agree on the fields exactly when they agree on what is written.
* `carries_iff`: **a payload is one value, and this has the fields of all spans as they are exactly
  when every span fits**.
-/

open Library

namespace DdTrace.Encode

open MsgpackChunk List Option

/-! ## The fields of a span -/

namespace Rendering

variable (r : Rendering)

def scalar : Scalar → Option Msgpack
  | .str s => some (r.text s)
  | .num d => some (r.number d)
  | _ => none

/-- An entry of `meta` or `metrics`, if it is written. -/
def entry (e : Str × Scalar) : Option (Msgpack × Msgpack) :=
  (r.scalar e.2).map fun v => (r.text e.1, v)

def entries (m : OrderedMap Str Scalar) : List (Msgpack × Msgpack) := m.entries.filterMap r.entry

/-- The entries that every span has, with what its start is read as. -/
def fields (start : Msgpack) (span : Span) (tags metrics : OrderedMap Str Scalar) :
    List (Msgpack × Msgpack) :=
  (if span.type.truthy then [keyed "type" (r.text span.type.key)] else []) ++
    [keyed "trace_id" (idImage span.traceId), keyed "span_id" (idImage span.spanId),
      keyed "parent_id" (idImage span.parentId), keyed "name" (r.text span.name.key),
      keyed "resource" (r.text span.resource.key), keyed "service" (r.text span.service.key),
      keyed "error" (r.number span.error), keyed "start" start,
      keyed "duration" (r.number span.duration), keyed "meta" (.map (r.entries tags)),
      keyed "metrics" (.map (r.entries metrics))]

end Rendering

/-- A span that is read as a map of its fields, its events and its `meta_struct`. -/
def SpanReads (r : Rendering) (start : Span → Msgpack) (env : Env) (objects : ℕ → JsObject)
    (span : Span) (m : Msgpack) : Prop :=
  ∃ tags metrics struct, span.meta = some tags ∧ span.metrics = some metrics ∧
    StructEntryIs env objects span.metaStruct struct ∧
    m = .map (r.fields (start span) span tags metrics ++ eventsEntry env span.spanEvents ++ struct)

variable {env : Env} {span : Span} {objects : ℕ → JsObject}

theorem spanIs_iff {m : Msgpack} :
    SpanIs env objects span m ↔ SpanReads asRead startImage env objects span m := by
  have hentries : ∀ tags, entriesImage numberRead tags = asRead.entries tags := by
    intro tags
    refine filterMap_congr fun e _ => ?_
    obtain ⟨k, v⟩ := e
    cases v <;> rfl
  have hfields : ∀ tags metrics, headImage span ++ [keyed "duration" (numberRead span.duration),
        keyed "meta" (.map (entriesImage numberRead tags)),
        keyed "metrics" (.map (entriesImage numberRead metrics))] =
      asRead.fields (startImage span) span tags metrics := by
    intro tags metrics
    rw [headImage, append_assoc]
    rfl
  simp only [SpanIs, SpanReads, hfields]

/-! ## What is written of a span -/

/-- What is written of an entry is such that `P` holds of the strings and `N` of the numbers. -/
def EntryIs (P : Str → Prop) (N : Binary64 → Prop) (e : Str × Scalar) : Prop :=
  match e.2 with
  | .str s => P e.1 ∧ P s
  | .num d => P e.1 ∧ N d
  | _ => True

/-- The same of a span, but for its start, its events and its `meta_struct`. -/
structure FieldsAre (P : Str → Prop) (N : Binary64 → Prop) (span : Span) : Prop where
  type : span.type.truthy = true → P span.type.key
  name : P span.name.key
  resource : P span.resource.key
  service : P span.service.key
  error : N span.error
  duration : N span.duration
  tags : ∀ tags, span.meta = some tags → ∀ e ∈ tags.entries, EntryIs P N e
  metrics : ∀ metrics, span.metrics = some metrics → ∀ e ∈ metrics.entries, EntryIs P N e

section Agree

variable {r q : Rendering}

theorem entry_eq_iff (e : Str × Scalar) : r.entry e = q.entry e ↔
    EntryIs (fun s => r.text s = q.text s) (fun d => r.number d = q.number d) e := by
  obtain ⟨k, v⟩ := e
  cases v <;> simp [Rendering.entry, Rendering.scalar, EntryIs]

theorem entries_eq_iff (m : OrderedMap Str Scalar) : r.entries m = q.entries m ↔ ∀ e ∈ m.entries,
      EntryIs (fun s => r.text s = q.text s) (fun d => r.number d = q.number d) e := by
  have hsome : ∀ e ∈ m.entries, (r.entry e).isSome = (q.entry e).isSome := by
    rintro ⟨k, v⟩ -
    cases v <;> rfl
  unfold Rendering.entries
  rw [filterMap_eq_iff hsome]
  exact forall₂_congr fun e _ => entry_eq_iff e

/-- **Two ways to read agree on the fields** exactly when they agree on what is written of them. -/
theorem fields_eq_iff {start start' : Msgpack} {span : Span} {tags metrics : OrderedMap Str Scalar}
    (htags : span.meta = some tags) (hmetrics : span.metrics = some metrics) :
    r.fields start span tags metrics = q.fields start' span tags metrics ↔
      FieldsAre (fun s => r.text s = q.text s) (fun d => r.number d = q.number d) span ∧
        start = start' := by
  have hall : r.fields start span tags metrics = q.fields start' span tags metrics ↔
      (span.type.truthy = true → r.text span.type.key = q.text span.type.key) ∧
      r.text span.name.key = q.text span.name.key ∧
      r.text span.resource.key = q.text span.resource.key ∧
      r.text span.service.key = q.text span.service.key ∧
      r.number span.error = q.number span.error ∧ start = start' ∧
      r.number span.duration = q.number span.duration ∧
      r.entries tags = q.entries tags ∧ r.entries metrics = q.entries metrics := by
    unfold Rendering.fields
    by_cases htruthy : span.type.truthy = true <;> simp [htruthy, keyed]
  rw [hall, entries_eq_iff, entries_eq_iff]
  constructor
  · rintro ⟨htype, hname, hresource, hservice, herror, hstart, hduration, hm, hn⟩
    refine ⟨⟨htype, hname, hresource, hservice, herror, hduration, ?_, ?_⟩, hstart⟩
    · intro m hm'
      rw [htags, some_inj] at hm'
      rwa [← hm']
    · intro m hm'
      rw [hmetrics, some_inj] at hm'
      rwa [← hm']
  · rintro ⟨h, hstart⟩
    exact ⟨h.type, h.name, h.resource, h.service, h.error, hstart, h.duration, h.tags tags htags,
      h.metrics metrics hmetrics⟩

end Agree

/-! ## Spans that are read as they are -/

/-- **A formatted span of which everything is read as it is.** -/
structure Fits (span : Span) : Prop where
  fields : FieldsAre IsText HasWidth span
  start : HasWidth span.start
  fused : (V04.fuseTail span).isSome = true → span.start.isInteger = true

/-- What is read of a span is what the span has. -/
def SpanCarried (env : Env) (objects : ℕ → JsObject) (span : Span) (m : Msgpack) : Prop :=
  SpanReads asTheyAre (fun span => numberValue span.start) env objects span m

theorem atLeast32_of_fuseTail (h : (V04.fuseTail span).isSome = true) :
    V04.atLeast32 span.start = true := by
  unfold V04.fuseTail at h
  split at h
  · assumption
  · cases h

theorem truncated_of_isInteger {d : Binary64} (hlarge : V04.atLeast32 d = true)
    (hint : d.isInteger = true) : V04.truncated d = d.toInt ∧ 2 ^ 32 ≤ d.toInt := by
  have hfinite : d.isFinite = true := by
    rw [Binary64.isInteger, Bool.and_eq_true] at hint
    exact hint.1
  rw [V04.truncated, if_pos hfinite]
  simp only [V04.atLeast32, hfinite, Bool.and_eq_true] at hlarge
  exact ⟨rfl, by simpa using hlarge.2⟩

/-- A start in the block is an integer of 64 bits where it is read as it is. -/
theorem startImage_eq_iff (span : Span) : startImage span = numberValue span.start ↔
    HasWidth span.start ∧ ((V04.fuseTail span).isSome = true → span.start.isInteger = true) := by
  unfold startImage
  by_cases hfuse : (V04.fuseTail span).isSome = true
  · rw [if_pos hfuse]
    unfold numberValue HasWidth
    by_cases hint : span.start.isInteger = true
    · obtain ⟨htruncated, hle⟩ := truncated_of_isInteger (atLeast32_of_fuseTail hfuse) hint
      rw [if_pos hint]
      simp only [hint, hfuse, true_implies, and_true, Msgpack.int.injEq]
      omega
    · simp [hint, hfuse]
  · simp only [hfuse, false_implies, and_true, Bool.false_eq_true]
    exact hasWidth_iff span.start

theorem spanCarried_iff {m : Msgpack}
    (h : SpanIs env objects span m) : SpanCarried env objects span m ↔ Fits span := by
  obtain ⟨tags, metrics, struct, htags, hmetrics, hstruct, rfl⟩ := spanIs_iff.mp h
  have hiff : asRead.fields (startImage span) span tags metrics =
      asTheyAre.fields (numberValue span.start) span tags metrics ↔ _ :=
    fields_eq_iff htags hmetrics
  rw [funext fun s => propext (isText_iff s), funext fun d => propext (hasWidth_iff d),
    startImage_eq_iff] at hiff
  constructor
  · rintro ⟨tags', metrics', struct', htags', hmetrics', -, heq⟩
    rw [htags, some_inj] at htags'
    rw [hmetrics, some_inj] at hmetrics'
    subst htags' hmetrics'
    rw [Msgpack.map.injEq, append_assoc, append_assoc] at heq
    have hlen : ∀ (r : Rendering) start, (r.fields start span tags metrics).length =
        (if span.type.truthy then [()] else []).length + 11 := by
      unfold Rendering.fields
      by_cases htruthy : span.type.truthy = true <;> simp [htruthy]
    obtain ⟨hfields, hstart, hfused⟩ :=
      hiff.mp (append_inj heq ((hlen _ _).trans (hlen _ _).symm)).1
    exact ⟨hfields, hstart, hfused⟩
  · intro hfits
    refine ⟨tags, metrics, struct, htags, hmetrics, hstruct, ?_⟩
    rw [hiff.mpr ⟨hfits.fields, hfits.start, hfits.fused⟩]

/-! ## Payloads -/

/-- What a span is read as once it is formatted, where this is what it has. -/
def FormattedCarried (env : Env) (objects : ℕ → JsObject) (span : Span) (m : Msgpack) : Prop :=
  ∃ formatted, V04.formatSpan env span = some formatted ∧ SpanCarried env objects formatted m

/-- **A payload that carries traces**: an array of arrays of spans, each with what it has. -/
def Carries (env : Env) (q : List Trace) (p : List UInt8) : Prop :=
  ∃ ms, Msgpack.decodeAll p = some (.array ms) ∧
    List.Forall₂ (fun trace m => ∃ spans, m = .array spans ∧
      List.Forall₂ (FormattedCarried env trace.objects) trace.spans spans) q ms

/-- A span that fits once it is formatted. -/
def FormattedFits (env : Env) (span : Span) : Prop :=
  ∀ formatted, V04.formatSpan env span = some formatted → Fits formatted

theorem formattedCarried_iff {m : Msgpack} (h : FormattedIs env objects span m) :
    FormattedCarried env objects span m ↔ FormattedFits env span := by
  obtain ⟨formatted, hformat, hspan⟩ := h
  simp [FormattedCarried, FormattedFits, hformat, spanCarried_iff hspan]

theorem carries_iff_of_isPayload {q : List (Unit × Trace)} {p : List UInt8}
    (h : V04.IsPayload env q p) : Carries env (q.map Prod.snd) p ↔
      ∀ trace ∈ q.map Prod.snd, ∀ span ∈ trace.spans, FormattedFits env span := by
  obtain ⟨ms, hdecode, hms⟩ := h
  have hmap : List.Forall₂ (TraceIs env) (q.map Prod.snd) ms := by
    rw [List.forall₂_map_left_iff]
    exact hms
  have htrace : ∀ trace m, TraceIs env trace m → ((∃ spans, m = Msgpack.array spans ∧
      List.Forall₂ (FormattedCarried env trace.objects) trace.spans spans) ↔
        ∀ span ∈ trace.spans, FormattedFits env span) := by
    rintro trace m ⟨spans, rfl, hspans⟩
    simp only [Msgpack.array.injEq, exists_eq_left']
    exact forall₂_iff_of_forall₂ hspans fun span m hm => formattedCarried_iff hm
  unfold Carries
  simp only [hdecode, some.injEq, Msgpack.array.injEq, exists_eq_left']
  exact forall₂_iff_of_forall₂ hmap htrace

namespace V04

open Encoder Encoder.Reading

variable {env : Env} {limit : ℕ} {calls : List (encoder env limit).Call}
  {w : (encoder env limit).World}

/-- **What a payload carries.**  After every run of calls with traces that can be encoded, a payload
can be made.  It is one value, as is every payload that was sent, and it carries the traces that
were queued for it, field by field, exactly when all their spans fit. -/
theorem carries_iff (hr : Run.exec step (World.init (encoder env limit)) calls = some w)
    (hquiet : Run.Every step (QuietCall (reading env limit)) (World.init _) calls) :
    (∃ p, makePayload w.encoder = .ok p) ∧ ∀ q p, Makes w q p →
      (Msgpack.decodeAll p).isSome = true ∧ (Carries env (q.map Prod.snd) p ↔
        ∀ trace ∈ q.map Prod.snd, ∀ span ∈ trace.spans, FormattedFits env span) := by
  have hlawful := lawful env limit
  have hw := accounted_of_quiet hlawful hr hquiet
  refine ⟨⟨_, rfl⟩, fun q p hp => ?_⟩
  obtain ⟨s, hs⟩ := hw.assembled hp
  have hpayload : IsPayload env q p := hs.isPayload hlawful
  refine ⟨?_, carries_iff_of_isPayload hpayload⟩
  obtain ⟨ms, hdecode, -⟩ := hpayload
  rw [hdecode, isSome_some]

/-- An identifier of one byte. -/
def shortId (last : UInt8) : Identifier := ⟨[0, 0, 0, 0, 0, 0, 0, last], Nat.le_refl 8⟩

/-- A span with one metric. -/
def spanWith (value : Binary64) : Span where
  traceId := shortId 1
  spanId := shortId 2
  parentId := shortId 0
  name := .str (lit "web.request")
  resource := .str (lit "GET /")
  service := .str (lit "web")
  type := .str (lit "web")
  error := .ofBits 0
  start := .ofBits 0
  duration := .ofBits 0
  «meta» := some (OrderedMap.ofEntries [(lit "language", .str (lit "js"))])
  metrics := some (OrderedMap.ofEntries [(lit "m", .num value)])
  spanEvents := none
  metaStruct := none

/-- A trace of the span. -/
def traceWith (value : Binary64) : Trace := ⟨[spanWith value], fun _ => .array []⟩

theorem quietFormatted_spanWith (env : Env) (objects : ℕ → JsObject) (value : Binary64) :
    QuietFormatted env objects (spanWith value) := by
  refine ⟨spanWith value, ?_, fun _ => rfl, rfl, rfl, rfl, rfl, rfl, fun n h => by cases h⟩
  unfold formatSpan
  split <;> rfl

theorem quiet_traceWith (env : Env) (limit : ℕ) (value : Binary64) :
    Run.Every step (QuietCall (reading env limit)) (World.init (encoder env limit))
      [.encode (traceWith value) true] := by
  refine Run.every_of_forall_mem (fun c hc s => ?_) _
  rw [mem_singleton.mp hc]
  intro span hspan
  rw [mem_singleton.mp hspan]
  exact quietFormatted_spanWith _ _ _

theorem carries_traceWith : ∃ w, Run.exec step (World.init (encoder plainEnv SOFT_LIMIT))
      [.encode (traceWith twoBytes) true] = some w ∧
    (∃ p, makePayload w.encoder = .ok p) ∧ ∀ q p, Makes w q p →
      (Msgpack.decodeAll p).isSome = true ∧ (Carries plainEnv (q.map Prod.snd) p ↔
        ∀ trace ∈ q.map Prod.snd, ∀ span ∈ trace.spans, FormattedFits plainEnv span) := by
  exact ⟨_, rfl, carries_iff rfl (quiet_traceWith plainEnv SOFT_LIMIT twoBytes)⟩

/-- **A metric of `2 ^ 64`** is not carried. -/
theorem not_carries_nineBytes : ∃ w p,
    Run.exec step (World.init (encoder plainEnv SOFT_LIMIT)) [.encode (traceWith nineBytes) true] =
      some w ∧
    Makes w [((), traceWith nineBytes)] p ∧ ¬Carries plainEnv [traceWith nineBytes] p := by
  obtain ⟨w, p, hr, hp⟩ := makes_first (K := encoder plainEnv SOFT_LIMIT)
    (traceWith nineBytes) (by decide +kernel) (by decide +kernel) rfl
  refine ⟨w, p, hr, hp, fun hcarries => ?_⟩
  have hw := accounted_of_quiet (lawful plainEnv SOFT_LIMIT) hr
    (quiet_traceWith plainEnv SOFT_LIMIT nineBytes)
  obtain ⟨s, hs⟩ := hw.assembled hp
  have hfits := (carries_iff_of_isPayload (hs.isPayload (lawful plainEnv SOFT_LIMIT))).mp hcarries
    _ (mem_singleton_self _) _ (mem_singleton_self _) (spanWith nineBytes) rfl
  have hwidth := (hfits.fields.metrics _ rfl (lit "m", .num nineBytes) mem_cons_self).2
    (by decide +kernel)
  exact absurd hwidth.2 (by decide +kernel)

end V04
end DdTrace.Encode
