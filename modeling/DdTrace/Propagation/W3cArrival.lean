import DdTrace.Propagation.W3cWire

/-!
# The context that arrives

The headers that a local context injects, extracted where they arrive.

* `matchTraceparent_printed`: the fields of the printed `traceparent` are the ones matched.
* `exists_arrives`: a context arrives unless the trace id is zero.
* `separator_of_arrives`: no tag that arrives has a colon or a semicolon in its key, whatever was
  injected.
* `arrives_spec`: the fields of the context that arrives, in terms of what is read back under each
  key of the member `dd`.
-/

namespace DdTrace.TextMap

open Library List Option Bytes OrderedMap

variable {ctx : SpanContext}

/-! ## The `traceparent` header -/

theorem tid_eq : TRACE_ID_128 = tagPrefix ++ lit "tid" := rfl

/-- The sixteen bytes of the trace id of a local context. -/
theorem LocalContext.exists_bytes (h : LocalContext ctx) :
    ∃ upper lower : List UInt8, upper.length = 8 ∧ lower.length = 8 ∧
      ctx.toTraceId = Bytes.hex (upper ++ lower) ∧
      (∀ t, traceTag ctx (lit "tid") = some t → t = Bytes.hex upper) ∧
      (traceTag ctx (lit "tid") = none → upper = List.replicate 8 0) := by
  have htag : ctx.trace.tags.get? TRACE_ID_128 = traceTag ctx (lit "tid") := rfl
  have hsplit : ctx.traceId.buffer.take 8 ++ ctx.traceId.buffer.drop 8 = ctx.traceId.buffer :=
    take_append_drop 8 _
  have hlong : ctx.traceId.buffer.length = 16 → padStart ctx.traceId.toString 32 =
      Bytes.hex (ctx.traceId.buffer.take 8 ++ ctx.traceId.buffer.drop 8) := by
    intro hlen
    rw [hsplit, Identifier.toString]
    exact padStart_of_le (by rw [length_hex, hlen])
  rcases ht : traceTag ctx (lit "tid") with _ | t
  · have hid : ctx.toTraceId = padStart ctx.traceId.toString 32 := by
      rw [SpanContext.toTraceId, htag, ht, Identifier.toTraceIdHex]
    rcases h.traceId with hlen | hlen
    · refine ⟨List.replicate 8 0, ctx.traceId.buffer, by simp, hlen, ?_, by simp, by simp⟩
      rw [hid, padStart, Identifier.toString, length_hex, hlen, hex_append]
      congr 1
    · refine ⟨_, _, ?_, ?_, hid.trans (hlong hlen), by simp, fun _ => h.tid_none ht hlen⟩
      · rw [length_take, hlen]
        rfl
      · rw [length_drop, hlen]
  · obtain ⟨upper, hupper, rfl, htake⟩ := h.tid_some t ht
    have hne : Bytes.hex upper ≠ [] := by
      rw [Ne, ← length_eq_zero_iff, length_hex, hupper]
      decide
    rcases h.traceId with hlen | hlen
    · refine ⟨upper, ctx.traceId.buffer, hupper, hlen, ?_, by simp, by simp⟩
      rw [SpanContext.toTraceId, htag, ht, Identifier.toTraceIdHex, if_pos ⟨hne, hlen.le⟩,
        Identifier.toString, ← hex_append]
      exact padStart_of_le (by rw [length_hex, length_append, hupper, hlen])
    · refine ⟨upper, ctx.traceId.buffer.drop 8, hupper, ?_, ?_, by simp, by simp⟩
      · rw [length_drop, hlen]
      · rw [SpanContext.toTraceId, htag, ht, Identifier.toTraceIdHex,
          if_neg (fun hc => by omega), hlong hlen, htake hlen]

theorem isSpace_of_hexDigit {u : UInt16} (h : isHexDigit u = true) : Str.isSpace u = false := by
  by_contra hs
  have hspace : Str.isSpace u = true := by simpa using hs
  simp only [isHexDigit, Str.digit?] at h
  unfold Str.isSpace at hspace
  simp only [Bool.or_eq_true, Bool.and_eq_true, decide_eq_true_eq, beq_iff_eq] at hspace
  split_ifs at h <;> first | omega | cases h

theorem takeHex_append {n : ℕ} {s : Str} (h : isHexOfLength n s = true) (t : Str) :
    takeHex n (s ++ t) = some (s, t) := by
  have hlen : s.length = n := by
    rw [isHexOfLength, Bool.and_eq_true, beq_iff_eq] at h
    exact h.1
  rw [takeHex, take_left' hlen, if_pos h, drop_left' hlen]

/-- **The printed header is read back.** -/
theorem matchTraceparent_printed {version traceId spanId flags : Str}
    (hv : isHexOfLength 2 version = true) (ht : isHexOfLength 32 traceId = true)
    (hs : isHexOfLength 16 spanId = true) (hf : isHexOfLength 2 flags = true) :
    matchTraceparent (Str.trim (version ++ unit '-' :: traceId ++ unit '-' :: spanId ++
      unit '-' :: flags)) = some ⟨version, traceId, spanId, flags, none⟩ := by
  have hall : ∀ n s, isHexOfLength n s = true → ∀ u ∈ s, Str.isSpace u = false := by
    intro n s h u hu
    rw [isHexOfLength, Bool.and_eq_true, List.all_eq_true] at h
    exact isSpace_of_hexDigit (h.2 u hu)
  have htrim : Str.trim (version ++ unit '-' :: traceId ++ unit '-' :: spanId ++
      unit '-' :: flags) = version ++ unit '-' :: traceId ++ unit '-' :: spanId ++
      unit '-' :: flags := by
    have hchars : ∀ u ∈ version ++ unit '-' :: traceId ++ unit '-' :: spanId ++
        unit '-' :: flags, Str.isSpace u = false := by
      intro u hu
      simp only [mem_append, mem_cons] at hu
      rcases hu with ((hu | rfl | hu) | rfl | hu) | rfl | hu
      · exact hall _ _ hv u hu
      · decide
      · exact hall _ _ ht u hu
      · decide
      · exact hall _ _ hs u hu
      · decide
      · exact hall _ _ hf u hu
    exact Str.trim_of_ends (fun u hu => hchars u (mem_of_mem_head? hu))
      (fun u hu => hchars u (mem_of_mem_getLast? hu))
  have hnil : flags = flags ++ [] := (append_nil flags).symm
  rw [htrim, matchTraceparent, append_assoc, append_assoc, takeHex_append hv]
  simp only [bind_eq_bind, bind_some, cons_append, takeDash, if_true]
  rw [takeHex_append ht]
  simp only [bind_some, if_true]
  rw [takeHex_append hs]
  simp only [bind_some, if_true]
  rw [hnil, takeHex_append hf]
  simp [takeTail]

/-- What the printed header is matched as. -/
def printedMatch (ctx : SpanContext) (i : Identifier) : TraceparentMatch where
  version := (ctx.traceparent.filter (· ≠ [])).getD (lit "00")
  traceId := ctx.toTraceId
  spanId := i.toString
  flags := if ctx.isKept then lit "01" else lit "00"
  tail := none

theorem version_printed (h : LocalContext ctx) (i : Identifier) :
    isHexOfLength 2 (printedMatch ctx i).version = true ∧
      (printedMatch ctx i).version ≠ lit "ff" := by
  rcases hv : ctx.traceparent with _ | v
  · have : (printedMatch ctx i).version = lit "00" := by rw [printedMatch, hv]; rfl
    rw [this]
    decide
  · have hver := h.version v hv
    have hne : v ≠ [] := by
      rintro rfl
      exact absurd hver.1 (by decide)
    have : (printedMatch ctx i).version = v := by
      rw [printedMatch, hv, filter_some_pos (by simpa using hne)]
      rfl
    rw [this]
    exact hver

/-- The header that a local context prints, as it is matched. -/
theorem exists_traceparent (h : LocalContext ctx) :
    ∃ i header, ctx.spanId = some i ∧ ctx.toTraceparent = some header ∧ header ≠ [] ∧
      matchTraceparent (Str.trim header) = some (printedMatch ctx i) := by
  obtain ⟨i, hi, hlen, -⟩ := h.spanId
  obtain ⟨upper, lower, hupper, hlower, htrace, -, -⟩ := h.exists_bytes
  have hspan : padStart i.toString 16 = i.toString :=
    padStart_of_le (by rw [Identifier.toString, length_hex, hlen])
  have hflags : isHexOfLength 2 (printedMatch ctx i).flags = true := by
    show isHexOfLength 2 (if ctx.isKept then lit "01" else lit "00") = true
    split <;> decide
  have htraceHex : isHexOfLength 32 ctx.toTraceId = true := by
    rw [htrace]
    exact isHexOfLength_hex (by rw [length_append, hupper, hlower])
  have hspanHex : isHexOfLength 16 i.toString = true := isHexOfLength_hex (by rw [hlen])
  refine ⟨i, (printedMatch ctx i).version ++ unit '-' :: ctx.toTraceId ++
    unit '-' :: i.toString ++ unit '-' :: (printedMatch ctx i).flags, hi, ?_, by simp,
    matchTraceparent_printed (version_printed h i).1 htraceHex hspanHex hflags⟩
  rw [SpanContext.toTraceparent, SpanContext.toSpanId, hi, map_some, hspan]
  rfl

/-- A valid trace id is not zero. -/
theorem isRejected_printed (h : LocalContext ctx) {i : Identifier} (hi : ctx.spanId = some i) :
    isRejected (printedMatch ctx i) = invalidSegment ctx.toTraceId := by
  obtain ⟨i', hi', hlen, hne⟩ := h.spanId
  rw [hi, some_inj] at hi'
  subst hi'
  have hspan : invalidSegment i.toString = false := by
    rw [Bool.eq_false_iff, Identifier.toString, Ne, invalidSegment_hex (by
      rw [Ne, ← length_eq_zero_iff, hlen]
      decide)]
    intro hall
    exact hne (eq_replicate_iff.mpr ⟨hlen, hall⟩)
  have hversion : ((printedMatch ctx i).version == lit "ff") = false := by
    rw [beq_eq_false_iff_ne]
    exact (version_printed h i).2
  rw [isRejected, hversion]
  simp [printedMatch, hspan]

/-! ## From one process to the next -/

/-- What a local context injects. -/
theorem injectTraceparent_local (h : LocalContext ctx) (carrier : Carrier) :
    ∃ i header ctx', ctx.spanId = some i ∧ header ≠ [] ∧
      matchTraceparent (Str.trim header) = some (printedMatch ctx i) ∧
      injectTraceparent ctx carrier = some (ctx',
        { carrier with
          traceparent := some header
          tracestate := some ((vendors ctx).set (lit "dd") (ddValue ctx)).toString }) := by
  obtain ⟨i, header, hi, hheader, hne, hmatch⟩ := exists_traceparent h
  have hvendor : (ctx.tracestate.getD {}).forVendor (lit "dd") (injectDd ctx) =
      (vendors ctx).set (lit "dd") (ddValue ctx) := forVendor_injectDd ctx
  let ts := (vendors ctx).set (lit "dd") (ddValue ctx)
  refine ⟨i, header, { ctx with tracestate := ctx.tracestate.map fun _ => ts }, hi, hne, hmatch, ?_⟩
  simp only [injectTraceparent, hheader, map_some, hvendor]
  rfl

variable {carrier : Carrier} {out : SpanContext} {random : Identifier}

/-- What is extracted from the headers of a local context. -/
theorem extractTraceparent_local (h : LocalContext ctx) (random : Identifier) {i : Identifier}
    (hi : ctx.spanId = some i) {header tracestate : Str}
    (hheader : carrier.traceparent = some header) (hne : header ≠ [])
    (hmatch : matchTraceparent (Str.trim header) = some (printedMatch ctx i))
    (hstate : carrier.tracestate = some tracestate) :
    extractTraceparentContext random carrier =
      if invalidSegment ctx.toTraceId = true then none
      else (Identifier.id random ctx.toTraceId 16).map fun traceId =>
        contextOfMatch (printedMatch ctx i) traceId i (.fromString (some tracestate)) := by
  obtain ⟨i', hi', hlen, -⟩ := h.spanId
  rw [hi, some_inj] at hi'
  subst hi'
  have hid : Identifier.id random (printedMatch ctx i).spanId 16 = some i := by
    rw [show (printedMatch ctx i).spanId = Bytes.hex i.buffer from rfl,
      id_hex random (by rw [hlen]) (by rw [hlen])]
  have htrace : (printedMatch ctx i).traceId = ctx.toTraceId := rfl
  rw [extractTraceparentContext, hheader, filter_some_pos (by simpa using hne)]
  simp only [bind_eq_bind, bind_some, hmatch, hstate, filter_some, isRejected_printed h hi]
  by_cases hz : invalidSegment ctx.toTraceId = true
  · simp [hz]
  · simp only [hz, Bool.not_false, if_true, bind_some, hid, htrace]
    rcases Identifier.id random ctx.toTraceId 16 with _ | traceId <;> simp

/-- The tags of the context that extraction starts from. -/
theorem traceTag_startContext {upper lower : List UInt8} (hupper : upper.length = 8)
    (hlower : lower.length = 8) {m : TraceparentMatch} {traceId : Identifier}
    (spanId : Identifier) (ts : TraceState) (hm : m.traceId = Bytes.hex (upper ++ lower))
    (hid : traceId.buffer = upper ++ lower) (x : Str) :
    traceTag (startContext m traceId spanId ts) x =
      if x = lit "tid" ∧ upper ≠ List.replicate 8 0 then some (Bytes.hex upper) else none := by
  have htake : m.traceId.take 16 = Bytes.hex upper := by
    rw [hm, hex_append]
    exact take_left' (by rw [length_hex, hupper])
  have hlen : traceId.buffer.length = 16 := by rw [hid, length_append, hupper, hlower]
  have hzero : Bytes.hex upper = lit "0000000000000000" ↔ upper = List.replicate 8 0 := by
    have hrep : Bytes.hex (List.replicate 8 0) = lit "0000000000000000" := by decide
    constructor
    · intro hx
      have := congrArg Bytes.unhex (hx.trans hrep.symm)
      rwa [unhex_hex, unhex_hex, some_inj] at this
    · rintro rfl
      exact hrep
  rw [startContext, extract128BitTraceId, if_neg (not_not.mpr hlen)]
  rw [htake]
  by_cases hz : upper = List.replicate 8 0
  · rw [if_pos (hzero.mpr hz), if_neg fun hx => hx.2 hz]
    rfl
  · rw [if_neg fun hx => hz (hzero.mp hx), traceTag, tid_eq]
    rw [get?_set]
    by_cases hx : x = lit "tid"
    · rw [if_pos (by rw [hx]), if_pos ⟨hx, hz⟩]
    · rw [if_neg fun he => hx (tagPrefix_injective he), if_neg fun he => hx he.1]
      rfl

/-- The flag that is printed. -/
def printedFlag (ctx : SpanContext) : Integral := if ctx.isKept then .one else .zero

theorem flagPriority_printed (i : Identifier) :
    flagPriority (printedMatch ctx i).flags = printedFlag ctx := by
  show flagPriority (if ctx.isKept then lit "01" else lit "00") = _
  rw [printedFlag]
  split <;> decide

theorem fields_startContext (m : TraceparentMatch) (traceId spanId : Identifier) (ts : TraceState) :
    (startContext m traceId spanId ts).traceId = traceId ∧
      (startContext m traceId spanId ts).spanId = some spanId ∧
      (startContext m traceId spanId ts).sampling.priority = some (flagPriority m.flags) ∧
      (startContext m traceId spanId ts).trace.origin = none := by
  rw [startContext, extract128BitTraceId]
  split
  · exact ⟨rfl, rfl, rfl, rfl⟩
  · dsimp only
    split <;> exact ⟨rfl, rfl, rfl, rfl⟩

/-- `out` is the context that arrives where the headers of `ctx` are extracted. -/
def Arrives (random : Identifier) (carrier : Carrier) (ctx out : SpanContext) : Prop :=
  ∃ ctx' carrier', injectTraceparent ctx carrier = some (ctx', carrier') ∧
    extractTraceparentContext random carrier' = some out

/-- The context that arrives, before its member `dd` is looked into. -/
theorem arrives_iff (h : LocalContext ctx) : Arrives random carrier ctx out ↔
      invalidSegment ctx.toTraceId = false ∧ ∃ i traceId, ctx.spanId = some i ∧
        Identifier.id random ctx.toTraceId 16 = some traceId ∧
        out = contextOfMatch (printedMatch ctx i) traceId i
          (.fromString (some ((vendors ctx).set (lit "dd") (ddValue ctx)).toString)) := by
  obtain ⟨i, header, ctx', hi, hne, hmatch, hinject⟩ := injectTraceparent_local h carrier
  constructor
  · rintro ⟨ctx'', carrier', hinject', hout⟩
    rw [hinject, some_inj] at hinject'
    obtain ⟨-, rfl⟩ := hinject'
    rw [extractTraceparent_local h random hi rfl hne hmatch rfl] at hout
    split at hout
    · cases hout
    · next hz =>
      obtain ⟨traceId, hid, rfl⟩ := map_eq_some_iff.mp hout
      exact ⟨by simpa using hz, i, traceId, hi, hid, rfl⟩
  · rintro ⟨hz, i', traceId, hi', hid, rfl⟩
    rw [hi, some_inj] at hi'
    subst hi'
    refine ⟨ctx', _, hinject, ?_⟩
    rw [extractTraceparent_local h random hi rfl hne hmatch rfl, if_neg (by simp [hz]), hid]
    rfl

/-- A context arrives exactly when its trace id is not zero. -/
theorem exists_arrives (h : LocalContext ctx) (random : Identifier) (carrier : Carrier)
    (hz : invalidSegment ctx.toTraceId = false) : ∃ out, Arrives random carrier ctx out := by
  obtain ⟨i, hi, -, -⟩ := h.spanId
  obtain ⟨upper, lower, hupper, hlower, htrace, -, -⟩ := h.exists_bytes
  have hlen : (upper ++ lower).length = 16 := by rw [length_append, hupper, hlower]
  have hid := id_hex (l := upper ++ lower) random (by rw [hlen]; decide) (by omega)
  exact ⟨_, (arrives_iff h).mpr ⟨hz, i, _, hi, htrace ▸ hid, rfl⟩⟩

/-- No tag that arrives has a separator in its key. -/
theorem separator_of_arrives (h : LocalContext ctx) (hout : Arrives random carrier ctx out)
    {x v : Str}
    (hx : traceTag out x = some v) : unit ':' ∉ x ∧ unit ';' ∉ x := by
  obtain ⟨-, i, traceId, -, hid, rfl⟩ := (arrives_iff h).mp hout
  obtain ⟨upper, lower, hupper, hlower, htrace, -, -⟩ := h.exists_bytes
  have hlen : (upper ++ lower).length = 16 := by rw [length_append, hupper, hlower]
  rw [htrace, id_hex random (by rw [hlen]; decide) (by omega), some_inj] at hid
  subst hid
  have hnodup : ∀ value, ((TraceStateData.fromString value).entries.map Prod.fst).Nodup := by
    intro value
    rw [TraceStateData.entries_fromString]
    exact nodup_keys _
  have hshow : contextOfMatch = fun m traceId spanId ts =>
      (TraceStateData.fromString (ts.get (lit "dd"))).entries.foldl extractDdEntry
        (startContext m traceId spanId ts) := rfl
  rw [hshow, traceTag, tags_foldl (hnodup _), or_eq_some_iff] at hx
  rcases hx with hx | ⟨-, hx⟩
  · rw [bind_eq_some_iff] at hx
    obtain ⟨w, hw, -⟩ := hx
    rw [TraceStateData.entries_fromString, lastValue_entries] at hw
    have hkey : unit ':' ∉ tagEntry x ∧ unit ';' ∉ tagEntry x := by
      generalize TraceState.get _ (lit "dd") = o at hw
      rcases o with _ | value
      · cases hw
      · rw [Tracestate.fromString] at hw
        split at hw
        · cases hw
        · rw [get?_ofEntries] at hw
          obtain ⟨k, v, hclean, hcolon, hsemi, -⟩ :=
            Tracestate.mem_parseEntries (mem_of_lastValue hw)
          obtain ⟨htrim, -⟩ := cleanEntry_eq_some hclean
          rw [htrim]
          exact ⟨fun hu => hcolon (Str.mem_of_mem_trim hu), fun hu => hsemi (Str.mem_of_mem_trim hu)⟩
    exact ⟨fun hu => hkey.1 (mem_append_right _ hu),
      fun hu => hkey.2 (mem_append_right _ hu)⟩
  · rw [← traceTag, traceTag_startContext hupper hlower i _ htrace rfl] at hx
    split at hx
    · next hc =>
      rw [hc.1]
      decide
    · cases hx

/-- The trace id of an identifier of sixteen bytes. -/
theorem toTraceId_of_length (hlen : out.traceId.buffer.length = 16) :
    out.toTraceId = Bytes.hex out.traceId.buffer := by
  have hhex : out.traceId.toTraceIdHex (out.trace.tags.get? TRACE_ID_128) =
      Bytes.hex out.traceId.buffer := by
    rcases ht : out.trace.tags.get? TRACE_ID_128 with _ | t
    · rfl
    · rw [Identifier.toTraceIdHex, if_neg (fun hc => by omega)]
      rfl
  rw [SpanContext.toTraceId, hhex]
  exact padStart_of_le (by rw [length_hex, hlen])

/-- **The context that arrives**, field by field. -/
theorem arrives_spec (h : LocalContext ctx) (hsep : NoSeparator ctx)
    (hout : Arrives random carrier ctx out) :
    out.toTraceId = ctx.toTraceId ∧ out.spanId = ctx.spanId ∧
      out.sampling.priority = (((readValue ctx (lit "s")).bind (Integral.parseInt 10)).map
        (refinePriority (some (printedFlag ctx)))).getD (some (printedFlag ctx)) ∧
      out.trace.origin = (readValue ctx (lit "o")).map (Str.replace (unit '~') (unit '=')) ∧
      ∀ x, traceTag out x = ((readValue ctx (tagEntry x)).bind (readTag x)).or
        (if x = lit "tid" then (traceTag ctx x).filter (· ≠ lit "0000000000000000")
          else none) := by
  obtain ⟨-, i, traceId, hi, hid, rfl⟩ := (arrives_iff h).mp hout
  obtain ⟨upper, lower, hupper, hlower, htrace, hsome, hnone⟩ := h.exists_bytes
  have hlen : (upper ++ lower).length = 16 := by rw [length_append, hupper, hlower]
  rw [htrace, id_hex random (by rw [hlen]; decide) (by omega), some_inj] at hid
  subst hid
  obtain ⟨ts, hts, hfold⟩ := contextOfMatch_injected h hsep (printedMatch ctx i)
    ⟨upper ++ lower, by omega⟩ i
  rw [hts, hfold]
  have hnodup := nodup_readEntries h hsep
  obtain ⟨hstartTrace, hstartSpan, hstartPriority, hstartOrigin⟩ :=
    fields_startContext (printedMatch ctx i) ⟨upper ++ lower, by omega⟩ i ts
  obtain ⟨hfoldTrace, hfoldSpan⟩ := ids_foldl_extractDdEntry (readEntries ctx)
    (startContext (printedMatch ctx i) ⟨upper ++ lower, by omega⟩ i ts)
  refine ⟨?_, ?_, ?_, ?_, ?_⟩
  · rw [hstartTrace] at hfoldTrace
    rw [toTraceId_of_length (by rw [hfoldTrace]; exact hlen), hfoldTrace, htrace]
  · rw [hfoldSpan, hstartSpan, hi]
  · rw [priority_foldl hnodup, hstartPriority, flagPriority_printed, lastValue_readEntries h hsep]
  · rw [origin_foldl hnodup, hstartOrigin, or_none, lastValue_readEntries h hsep]
  · intro x
    rw [traceTag, tags_foldl hnodup, lastValue_readEntries h hsep, ← traceTag,
      traceTag_startContext hupper hlower i ts htrace rfl x]
    by_cases hx : x = lit "tid"
    · subst hx
      have hzero : Bytes.hex (List.replicate 8 0) = lit "0000000000000000" := by decide
      rw [if_pos rfl]
      rcases ht : traceTag ctx (lit "tid") with _ | t
      · rw [if_neg fun hc => hc.2 (hnone ht)]
        rfl
      · obtain rfl := hsome t ht
        by_cases hz : upper = List.replicate 8 0
        · rw [hz]
          rfl
        · have hne : Bytes.hex upper ≠ lit "0000000000000000" := by
            intro he
            have := congrArg Bytes.unhex (he.trans hzero.symm)
            rw [unhex_hex, unhex_hex, some_inj] at this
            exact hz this
          rw [if_pos ⟨rfl, hz⟩, filter_some_pos (by simpa using hne)]
    · rw [if_neg fun hc => hx hc.1, if_neg hx]

end DdTrace.TextMap
