import DdTrace.Propagation.TextMap

/-!
# The B3 round trip

`_injectB3MultipleHeaders` and `_injectB3SingleHeader` of `opentracing/propagation/text_map.js`,
and what their extractors make of the headers.

The trace id travels as one string, sixteen digits when the context holds 64 bits and has no tag
for the upper half, 32 digits otherwise.  It arrives as an identifier of as many bytes as the
string has, and its upper half a second time, as a tag.  `traceIdNumber` is the number that the
digits of `toTraceId(true)` stand for; it does not depend on where a context keeps the halves, nor
on the case of the digits of a tag, so that it can be compared between contexts of different forms.

* `extractB3Context_eq`: the context that a valid trace id and span id arrive as.
* `same_of_headers`: it has the identifiers of the context whose headers they are.
* `b3_roundTrip`: **both forms bring the identifiers back, and the decision to keep.**  With
  multiple headers a user keep stays one, by the debug flag.
-/

namespace DdTrace.TextMap

open Library List Option Bytes Bool

/-! ## Injecting -/

/-- The headers of a request, with the one of B3 that no reader consults. -/
structure B3Carrier extends Carrier where
  b3ParentId : Option Str := none

/-- `priority >= AUTO_KEEP ? '1' : '0'`. -/
def b3Sampled (ctx : SpanContext) : Str := if ctx.isKept then lit "1" else lit "0"

/-- `priority > AUTO_KEEP`. -/
def isB3Debug (ctx : SpanContext) : Bool :=
  match ctx.sampling.priority with
  | some priority => AUTO_KEEP < priority.val
  | none => false

/-- The trace id as it is injected. -/
def b3TraceId (ctx : SpanContext) : Str :=
  ctx.traceId.toTraceIdHex (ctx.trace.tags.get? TRACE_ID_128)

/-- `_injectB3MultipleHeaders`, for a context with the parent id.  A context without a span id makes
it throw. -/
def injectB3MultipleHeaders (ctx : SpanContext) (parentId : Option Identifier)
    (carrier : B3Carrier) : Option B3Carrier :=
  ctx.spanId.map fun spanId =>
    { carrier with
      b3TraceId := some (b3TraceId ctx)
      b3SpanId := some spanId.toString
      b3Sampled := some (b3Sampled ctx)
      b3Flags := if isB3Debug ctx then some (lit "1") else carrier.b3Flags
      b3ParentId := (parentId.map Identifier.toString).or carrier.b3ParentId }

/-- `_injectB3SingleHeader`. -/
def injectB3SingleHeader (ctx : SpanContext) (parentId : Option Identifier)
    (carrier : B3Carrier) : Option B3Carrier :=
  ctx.spanId.map fun spanId =>
    let header := b3TraceId ctx ++ unit '-' :: spanId.toString ++ unit '-' :: b3Sampled ctx
    let header := match parentId with
      | some parentId => header ++ unit '-' :: parentId.toString
      | none => header
    { carrier with b3 := some header }

/-! ## The number of a trace id -/

/-- The number that `toTraceId(true)` stands for. -/
def traceIdNumber (ctx : SpanContext) : ℕ :=
  Str.readDigits 16 0 ctx.toTraceId

theorem readDigits_replicate_zero (k : ℕ) (s : Str) :
    Str.readDigits 16 0 (List.replicate k (unit '0') ++ s) = Str.readDigits 16 0 s := by
  induction k with
  | zero => rfl
  | succ k ih => exact ih

/-- The padding of `toTraceId` does not count. -/
theorem traceIdNumber_eq (ctx : SpanContext) :
    traceIdNumber ctx = Str.readDigits 16 0 (b3TraceId ctx) := by
  rw [traceIdNumber, SpanContext.toTraceId, padStart, readDigits_replicate_zero]
  rfl

/-- Zeros stand for zero. -/
theorem readDigits_of_invalidSegment {s : Str} (h : invalidSegment s = true) :
    Str.readDigits 16 0 s = 0 := by
  rw [invalidSegment, and_eq_true, List.all_eq_true] at h
  have hrep : s = List.replicate s.length (unit '0') ++ [] := by
    rw [append_nil]
    exact eq_replicate_iff.mpr ⟨rfl, fun u hu => beq_iff_eq.mp (h.2 u hu)⟩
  rw [hrep, readDigits_replicate_zero]
  rfl

/-! ## The contexts -/

/-- A context whose identifiers are valid: a span id of 64 bits, and a trace id of 128 bits in one
piece, or of 64 bits with or without a tag for the upper half. -/
structure HasIds (ctx : SpanContext) : Prop where
  spanId : ∃ i, ctx.spanId = some i ∧ i.buffer.length = 8
  traceId : ctx.traceId.buffer.length = 16 ∨ ctx.traceId.buffer.length = 8 ∧
    ∀ t, ctx.trace.tags.get? TRACE_ID_128 = some t → t = [] ∨ hex16 t = true
  nonzero : traceIdNumber ctx ≠ 0

variable {ctx : SpanContext}

/-- The injected trace id is 16 or 32 digits. -/
theorem HasIds.b3TraceId (h : HasIds ctx) :
    isHexOfLength 16 (b3TraceId ctx) = true ∨ isHexOfLength 32 (b3TraceId ctx) = true := by
  have hbuffer : ∀ n, 2 * ctx.traceId.buffer.length = n →
      isHexOfLength n ctx.traceId.toString = true := fun n hn => isHexOfLength_hex hn
  unfold TextMap.b3TraceId
  rcases htag : ctx.trace.tags.get? TRACE_ID_128 with _ | t
  · rcases h.traceId with hlen | ⟨hlen, -⟩
    · exact Or.inr (hbuffer 32 (by omega))
    · exact Or.inl (hbuffer 16 (by omega))
  · rw [Identifier.toTraceIdHex]
    rcases h.traceId with hlen | ⟨hlen, htid⟩
    · rw [if_neg fun hc => by omega]
      exact Or.inr (hbuffer 32 (by omega))
    · by_cases ht : t = []
      · rw [if_neg fun hc => hc.1 ht]
        exact Or.inl (hbuffer 16 (by omega))
      · rw [if_pos ⟨ht, hlen.le⟩]
        have hhex := (htid t htag).resolve_left ht
        have hlow := hbuffer 16 (by omega)
        rw [hex16, isHexOfLength, and_eq_true, beq_iff_eq, List.all_eq_true] at hhex
        rw [isHexOfLength, and_eq_true, beq_iff_eq, List.all_eq_true] at hlow
        refine Or.inr ?_
        rw [isHexOfLength, and_eq_true, beq_iff_eq, List.all_eq_true, length_append]
        refine ⟨by omega, fun u hu => ?_⟩
        rcases mem_append.mp hu with hu | hu
        · exact hhex.2 u hu
        · exact hlow.2 u hu

theorem HasIds.isHexDigit (h : HasIds ctx) : ∀ u ∈ TextMap.b3TraceId ctx, isHexDigit u = true := by
  rcases h.b3TraceId with hhex | hhex
  all_goals
    rw [isHexOfLength, and_eq_true, List.all_eq_true] at hhex
    exact hhex.2

theorem b3TraceExpr_of_hasIds (h : HasIds ctx) : b3TraceExpr (b3TraceId ctx) = true := by
  rw [b3TraceExpr, or_eq_true]
  exact h.b3TraceId

/-- The bytes of the injected trace id. -/
theorem HasIds.exists_bytes (h : HasIds ctx) :
    ∃ l, Bytes.unhex (TextMap.b3TraceId ctx) = some l ∧ (l.length = 8 ∨ l.length = 16) ∧
      Bytes.ofBytes l = traceIdNumber ctx := by
  have hread : ∀ n, isHexOfLength (2 * n) (TextMap.b3TraceId ctx) = true →
      ∃ l, Bytes.unhex (TextMap.b3TraceId ctx) = some l ∧ l.length = n := by
    intro n hn
    rw [isHexOfLength, and_eq_true, beq_iff_eq, List.all_eq_true] at hn
    exact exists_unhex hn.2 hn.1
  have hnumber : ∀ l, Bytes.unhex (TextMap.b3TraceId ctx) = some l →
      Bytes.ofBytes l = traceIdNumber ctx := by
    intro l hl
    rw [traceIdNumber_eq, readDigits_of_unhex hl]
  rcases h.b3TraceId with hhex | hhex
  · obtain ⟨l, hl, hlen⟩ := hread 8 hhex
    exact ⟨l, hl, Or.inl hlen, hnumber l hl⟩
  · obtain ⟨l, hl, hlen⟩ := hread 16 hhex
    exact ⟨l, hl, Or.inr hlen, hnumber l hl⟩

/-! ## What arrives -/

variable {l : List UInt8}

/-- The context of a trace id and a span id in hexadecimal. -/
theorem extractB3Context_eq {t : Str} (ht : Bytes.unhex t = some l)
    (h8 : 8 ∣ l.length) (hl : 8 ≤ l.length) (hnonzero : Str.readDigits 16 0 t ≠ 0)
    {i : Identifier} (hi : i.buffer.length = 8) (random : Identifier) (sampled flags : Option Str) :
    extractB3Context random ⟨some t, some i.toString, sampled, flags⟩ = some (extract128BitTraceId t
        { traceId := ⟨l, hl⟩, spanId := some i,
          sampling := { priority := getPriority sampled (flags == some (lit "1")) } }) := by
  have hne : t ≠ [] := by
    rintro rfl
    exact hnonzero rfl
  have hvalid : invalidSegment t = false := by
    rw [← not_eq_true]
    exact fun h => hnonzero (readDigits_of_invalidSegment h)
  have hspan : i.toString ≠ [] := by
    rw [Ne, ← length_eq_zero_iff, Identifier.toString, length_hex]
    omega
  have hid : Identifier.id random i.toString 16 = some i :=
    id_hex random (by rw [hi]) (by rw [hi])
  have htrace : Identifier.id random t 16 = some ⟨l, hl⟩ :=
    Identifier.createBuffer_of_unhex ht h8 hl
  have hgeneric : extractGenericContext random (some t) (some i.toString) 16 =
      some { traceId := ⟨l, hl⟩, spanId := some i } := by
    rw [extractGenericContext, filter_some_pos (by simp [hne, hvalid])]
    simp only [bind_eq_bind, bind_some]
    rw [filter_some_pos (by simpa using hspan)]
    simp only [bind_some, htrace, hid]
  rw [extractB3Context, hgeneric]
  rcases getPriority sampled (flags == some (lit "1")) with _ | priority <;> rfl

/-- The identifiers of a context arrived: the span id, the trace id as a number, its lower half in
the identifier and its upper half under the tag. -/
structure SameIds (ctx out : SpanContext) : Prop where
  spanId : out.spanId = ctx.spanId
  traceId : traceIdNumber out = traceIdNumber ctx
  lower : Bytes.ofBytes out.traceId.toArray = traceIdNumber ctx % 2 ^ 64
  upper : Str.readDigits 16 0 ((out.trace.tags.get? TRACE_ID_128).getD []) =
    traceIdNumber ctx / 2 ^ 64

theorem toArray_of_length (hl : 8 ≤ l.length) :
    Identifier.toArray ⟨l, hl⟩ = l.drop (l.length - 8) := by
  unfold Identifier.toArray
  split
  · next h8 =>
    have hlen : l.length = 8 := h8
    rw [hlen]
    rfl
  · rfl

/-- The lower half of a trace id is its last eight bytes. -/
theorem ofBytes_toArray (hl : 8 ≤ l.length) :
    Bytes.ofBytes (Identifier.toArray ⟨l, hl⟩) = Bytes.ofBytes l % 2 ^ 64 := by
  have hsplit := ofBytes_append (l.take (l.length - 8)) (l.drop (l.length - 8))
  have hlt := ofBytes_lt (l.drop (l.length - 8))
  have hlen : (l.drop (l.length - 8)).length = 8 := by
    rw [length_drop]
    omega
  rw [take_append_drop, hlen] at hsplit
  rw [hlen] at hlt
  rw [toArray_of_length]
  omega

/-- The upper half of 32 digits is the number of the first 16. -/
theorem readDigits_take {t : Str} (ht : ∀ u ∈ t, isHexDigit u = true) (hlen : t.length = 32) :
    Str.readDigits 16 0 (t.take 16) = Str.readDigits 16 0 t / 2 ^ 64 := by
  have htake : ∀ u ∈ t.take 16, (Str.digit? 16 u).isSome = true := fun u hu =>
    ht u (mem_of_mem_take hu)
  have hdrop : ∀ u ∈ t.drop 16, (Str.digit? 16 u).isSome = true := fun u hu =>
    ht u (mem_of_mem_drop hu)
  have hlen' : (t.drop 16).length = 2 * 8 := by
    rw [length_drop]
    omega
  obtain ⟨m, hm, hm8⟩ := exists_unhex hdrop hlen'
  have hlt : Str.readDigits 16 0 (t.drop 16) < 256 ^ 8 := by
    rw [readDigits_of_unhex hm, ← hm8]
    exact ofBytes_lt m
  have hread : ∀ acc, Str.readDigits 16 acc (t.drop 16) =
      acc * 16 ^ 16 + Str.readDigits 16 0 (t.drop 16) := by
    intro acc
    have h := Str.readDigits_append_of_isSome hdrop acc []
    rw [append_nil] at h
    rw [h, Str.readDigits, hlen']
  have hsplit : Str.readDigits 16 0 t =
      Str.readDigits 16 0 (t.take 16) * 16 ^ 16 + Str.readDigits 16 0 (t.drop 16) := by
    calc Str.readDigits 16 0 t = Str.readDigits 16 0 (t.take 16 ++ t.drop 16) := by
          rw [take_append_drop]
      _ = Str.readDigits 16 (Str.readDigits 16 0 (t.take 16)) (t.drop 16) := by
          rw [Str.readDigits_append_of_isSome htake, Nat.zero_mul, Nat.zero_add]
      _ = _ := hread _
  omega

/-- The number of a trace id in one piece. -/
theorem traceIdNumber_of_buffer {out : SpanContext} (h : out.traceId.buffer.length = 16 ∨
    out.trace.tags.get? TRACE_ID_128 = none) :
    traceIdNumber out = Bytes.ofBytes out.traceId.buffer := by
  have hhex : TextMap.b3TraceId out = Bytes.hex out.traceId.buffer := by
    unfold TextMap.b3TraceId
    rcases htag : out.trace.tags.get? TRACE_ID_128 with _ | t
    · rfl
    · rw [htag] at h
      rcases h with hlen | h
      · rw [Identifier.toTraceIdHex, if_neg fun hc => by omega]
        rfl
      · cases h
  rw [traceIdNumber_eq, hhex, readDigits_of_unhex (unhex_hex _)]

/-- **The identifiers of the headers** are those of the context they were injected from. -/
theorem same_of_headers (h : HasIds ctx) (hread : Bytes.unhex (TextMap.b3TraceId ctx) = some l)
    (hl : 8 ≤ l.length)
    (hlen : l.length = 8 ∨ l.length = 16) (sampling : Sampling) :
    SameIds ctx (extract128BitTraceId (TextMap.b3TraceId ctx)
      { traceId := ⟨l, hl⟩, spanId := ctx.spanId, sampling }) := by
  have hnumber : Bytes.ofBytes l = traceIdNumber ctx := by
    rw [traceIdNumber_eq, readDigits_of_unhex hread]
  have htext := length_of_unhex hread
  have hlt := ofBytes_lt l
  rw [hnumber] at hlt
  rcases hlen with hlen | hlen
  · have hsame : extract128BitTraceId (TextMap.b3TraceId ctx)
        { traceId := ⟨l, hl⟩, spanId := ctx.spanId, sampling } =
          { traceId := ⟨l, hl⟩, spanId := ctx.spanId, sampling } := by
      rw [extract128BitTraceId, if_pos (by dsimp only; omega)]
    rw [hsame]
    refine ⟨rfl, ?_, ?_, ?_⟩
    · rw [traceIdNumber_of_buffer (Or.inr rfl)]
      exact hnumber
    · rw [ofBytes_toArray, hnumber]
    · rw [hlen] at hlt
      exact (Nat.div_eq_of_lt hlt).symm
  · have hupper := readDigits_take h.isHexDigit (by rw [htext, hlen])
    rw [← traceIdNumber_eq] at hupper
    unfold extract128BitTraceId
    rw [if_neg (by dsimp only; omega)]
    by_cases hzero : (TextMap.b3TraceId ctx).take 16 = lit "0000000000000000"
    · rw [if_pos hzero]
      refine ⟨rfl, ?_, ?_, ?_⟩
      · rw [traceIdNumber_of_buffer (Or.inl hlen)]
        exact hnumber
      · rw [ofBytes_toArray, hnumber]
      · rw [← hupper, hzero]
        rfl
    · rw [if_neg hzero]
      refine ⟨rfl, ?_, ?_, ?_⟩
      · rw [traceIdNumber_of_buffer (Or.inl hlen)]
        exact hnumber
      · rw [ofBytes_toArray, hnumber]
      · rw [OrderedMap.get?_set_self, getD_some, hupper]

theorem priority_extract128BitTraceId (t : Str) (out : SpanContext) :
    (extract128BitTraceId t out).sampling = out.sampling := by
  unfold extract128BitTraceId
  split
  · rfl
  · dsimp only
    split <;> rfl

/-! ## The two forms -/

/-- The context that the header fields of a context arrive as. -/
theorem exists_extractB3Context (h : HasIds ctx) {i : Identifier} (hi : ctx.spanId = some i)
    (random : Identifier) (sampled flags : Option Str) :
    ∃ out, extractB3Context random ⟨some (TextMap.b3TraceId ctx), some i.toString, sampled, flags⟩
        = some out ∧ SameIds ctx out ∧
      out.sampling.priority = getPriority sampled (flags == some (lit "1")) := by
  obtain ⟨i', hi', hlen⟩ := h.spanId
  rw [hi, some_inj] at hi'
  subst hi'
  obtain ⟨l, hl, hl8, hnumber⟩ := h.exists_bytes
  have h8 : 8 ≤ l.length := by omega
  have hdvd : 8 ∣ l.length := by omega
  have hnonzero : Str.readDigits 16 0 (TextMap.b3TraceId ctx) ≠ 0 := by
    rw [← traceIdNumber_eq]
    exact h.nonzero
  refine ⟨_, extractB3Context_eq hl hdvd h8 hnonzero hlen random sampled flags, ?_, ?_⟩
  · rw [← hi]
    exact same_of_headers h hl h8 hl8 _
  · rw [priority_extract128BitTraceId]

/-- What arrives with multiple headers. -/
theorem extractB3MultiContext_injected (h : HasIds ctx) (random : Identifier)
    (parentId : Option Identifier) {carrier : B3Carrier} (hflags : carrier.b3Flags = none) :
    ∃ c out, injectB3MultipleHeaders ctx parentId carrier = some c ∧
      extractB3MultiContext random c.toCarrier = some out ∧ SameIds ctx out ∧
      out.sampling.priority = getPriority (some (b3Sampled ctx)) (isB3Debug ctx) := by
  obtain ⟨i, hi, hlen⟩ := h.spanId
  obtain ⟨out, hout, hids, hpriority⟩ := exists_extractB3Context h hi random
    (some (b3Sampled ctx)) (if isB3Debug ctx then some (lit "1") else none)
  refine ⟨_, out, by rw [injectB3MultipleHeaders, hi, map_some], ?_, hids, ?_⟩
  · have hspan : b3SpanExpr i.toString = true := isHexOfLength_hex (by rw [hlen])
    have hsampled : b3Sampled ctx ≠ [] := by
      unfold b3Sampled
      split <;> decide
    have hfilter : (if isB3Debug ctx then some (lit "1") else none).filter (· ≠ []) =
        if isB3Debug ctx then some (lit "1") else none := by
      split <;> decide
    have hboth : b3TraceExpr (b3TraceId ctx) = true ∧ b3SpanExpr i.toString = true :=
      ⟨b3TraceExpr_of_hasIds h, hspan⟩
    rw [extractB3MultiContext, extractB3MultipleHeaders]
    simp only [if_pos hboth, hflags, hfilter]
    rw [filter_some_pos (by simpa using hsampled), if_neg (by simp)]
    exact hout
  · rw [hpriority]
    cases isB3Debug ctx <;> rfl

theorem notMem_of_isHexDigit {s : Str} (h : ∀ u ∈ s, isHexDigit u = true) : unit '-' ∉ s :=
  fun hu => absurd (h _ hu) (by decide)

/-- The parts of the single header. -/
theorem split_b3 {t i f : Str} (ht : ∀ u ∈ t, isHexDigit u = true)
    (hi : ∀ u ∈ i, isHexDigit u = true) (hf : ∀ u ∈ f, isHexDigit u = true) (rest : Option Str)
    (hrest : ∀ p ∈ rest, ∀ u ∈ p, isHexDigit u = true) :
    Str.split (unit '-') (t ++ unit '-' :: (i ++ unit '-' :: (f ++
      rest.elim [] (unit '-' :: ·)))) = t :: i :: f :: rest.toList := by
  rw [Str.split_append_cons (notMem_of_isHexDigit ht),
    Str.split_append_cons (notMem_of_isHexDigit hi)]
  rcases rest with _ | p
  · rw [elim_none, append_nil, Str.split_of_notMem (notMem_of_isHexDigit hf)]
    rfl
  · rw [elim_some, Str.split_append_cons (notMem_of_isHexDigit hf),
      Str.split_of_notMem (notMem_of_isHexDigit (hrest p rfl))]
    rfl

/-- What arrives with the single header. -/
theorem extractB3SingleContext_injected (h : HasIds ctx) (random : Identifier)
    {parentId : Option Identifier} (hparent : ∀ p ∈ parentId, p.buffer.length = 8)
    (carrier : B3Carrier) :
    ∃ c out, injectB3SingleHeader ctx parentId carrier = some c ∧
      extractB3SingleContext random c.toCarrier = some out ∧ SameIds ctx out ∧
      out.sampling.priority = getPriority (some (b3Sampled ctx)) false := by
  obtain ⟨i, hi, hlen⟩ := h.spanId
  obtain ⟨out, hout, hids, hpriority⟩ := exists_extractB3Context h hi random
    (some (b3Sampled ctx)) none
  have hhex : ∀ j : Identifier, ∀ u ∈ j.toString, isHexDigit u = true := fun j u hu =>
    isHexDigit_hex hu
  have hsampled : b3Sampled ctx = lit "1" ∨ b3Sampled ctx = lit "0" := by
    unfold b3Sampled
    split
    · exact Or.inl rfl
    · exact Or.inr rfl
  have hdigit : ∀ u ∈ b3Sampled ctx, isHexDigit u = true := by
    rcases hsampled with hs | hs
    all_goals
      rw [hs]
      exact Str.forall_mem_of_all (by decide)
  set header := b3TraceId ctx ++ unit '-' :: (i.toString ++ unit '-' :: (b3Sampled ctx ++
    (parentId.map Identifier.toString).elim [] (unit '-' :: ·))) with hheader
  have hinject : injectB3SingleHeader ctx parentId carrier =
      some { carrier with b3 := some header } := by
    rw [injectB3SingleHeader, hi, hheader]
    rcases parentId with _ | p <;> simp
  have hsplit : header.split (unit '-') = b3TraceId ctx :: i.toString :: b3Sampled ctx ::
      (parentId.map Identifier.toString).toList := by
    refine split_b3 h.isHexDigit (hhex i) hdigit _ fun p hp => ?_
    obtain ⟨j, -, rfl⟩ := map_eq_some_iff.mp hp
    exact hhex j
  have hne : header ≠ [] := by simp [hheader]
  have hexpr : b3HeaderExpr header = true := by
    have hspan : b3SpanExpr i.toString = true := isHexOfLength_hex (by rw [hlen])
    have hdecision : isB3Sampled (b3Sampled ctx) = true := by
      rcases hsampled with hs | hs <;> rw [hs] <;> decide
    rw [b3HeaderExpr, hsplit]
    rcases parentId with _ | p
    · simp only [map_none, toList_none]
      rw [b3TraceExpr_of_hasIds h, hspan, hdecision]
      rfl
    · have hp : b3SpanExpr p.toString = true := isHexOfLength_hex (by rw [hparent p rfl])
      simp only [map_some, toList_some]
      rw [b3TraceExpr_of_hasIds h, hspan, hdecision, hp]
      rfl
  have hfields : extractB3SingleHeader header =
      ⟨some (b3TraceId ctx), some i.toString, some (b3Sampled ctx), none⟩ := by
    rw [extractB3SingleHeader, hsplit]
    rcases hsampled with hs | hs <;> rw [hs] <;> rfl
  refine ⟨_, out, hinject, ?_, hids, hpriority⟩
  rw [extractB3SingleContext]
  rw [filter_some_pos (by rw [hexpr]; simpa using hne)]
  simp only [bind_eq_bind, bind_some]
  rw [hfields]
  exact hout

theorem isKept_iff {p : Integral} (hp : ctx.sampling.priority = some p) :
    ctx.isKept = true ↔ 1 ≤ p.val := by
  rw [SpanContext.isKept, hp]
  exact decide_eq_true_iff

theorem isB3Debug_iff {p : Integral} (hp : ctx.sampling.priority = some p) :
    isB3Debug ctx = true ↔ 1 < p.val := by
  rw [isB3Debug, hp]
  exact decide_eq_true_iff

/-- The decision that `x-b3-sampled` stands for. -/
theorem getPriority_b3Sampled :
    getPriority (some (b3Sampled ctx)) false = some (if ctx.isKept then .one else .zero) := by
  unfold b3Sampled
  cases ctx.isKept <;> decide

/-- **The B3 round trip.**  Whatever the identifiers, the decision and the parent id, both forms
bring back the trace id and the span id, and a priority that keeps the trace exactly when it was
kept.  With multiple headers it is that of a user exactly when it was above `AUTO_KEEP`. -/
theorem b3_roundTrip (h : HasIds ctx) {p : Integral} (hp : ctx.sampling.priority = some p)
    {parentId : Option Identifier} (hparent : ∀ i ∈ parentId, i.buffer.length = 8)
    (random : Identifier) {carrier : B3Carrier} (hflags : carrier.b3Flags = none) :
    (∃ c out q, injectB3MultipleHeaders ctx parentId carrier = some c ∧
      extractB3MultiContext random c.toCarrier = some out ∧ SameIds ctx out ∧
      out.sampling.priority = some q ∧ (1 ≤ q.val ↔ 1 ≤ p.val) ∧ (q.val = 2 ↔ 2 ≤ p.val)) ∧
    (∃ c out q, injectB3SingleHeader ctx parentId carrier = some c ∧
      extractB3SingleContext random c.toCarrier = some out ∧ SameIds ctx out ∧
      out.sampling.priority = some q ∧ (1 ≤ q.val ↔ 1 ≤ p.val)) := by
  have hkept := isKept_iff hp
  have hdebug := isB3Debug_iff hp
  have hone : Integral.one.val = 1 := rfl
  have hzero : Integral.zero.val = 0 := rfl
  have htwo : Integral.two.val = 2 := rfl
  constructor
  · obtain ⟨c, out, hinject, hextract, hids, hpriority⟩ :=
      extractB3MultiContext_injected h random parentId hflags
    by_cases hd : isB3Debug ctx = true
    · rw [hd, getPriority] at hpriority
      have hlt := hdebug.mp hd
      exact ⟨c, out, _, hinject, hextract, hids, hpriority, by omega, by omega⟩
    · have hle := mt hdebug.mpr hd
      rw [not_eq_true] at hd
      rw [hd, getPriority_b3Sampled] at hpriority
      refine ⟨c, out, _, hinject, hextract, hids, hpriority, ?_, ?_⟩
      all_goals
        by_cases hk : ctx.isKept = true
        · have hge := hkept.mp hk
          rw [if_pos hk]
          omega
        · have hlt := mt hkept.mpr hk
          rw [if_neg hk]
          omega
  · obtain ⟨c, out, hinject, hextract, hids, hpriority⟩ :=
      extractB3SingleContext_injected h random hparent carrier
    rw [getPriority_b3Sampled] at hpriority
    refine ⟨c, out, _, hinject, hextract, hids, hpriority, ?_⟩
    by_cases hk : ctx.isKept = true
    · have hge := hkept.mp hk
      rw [if_pos hk]
      omega
    · have hlt := mt hkept.mpr hk
      rw [if_neg hk]
      omega

/-- A trace id of 64 bits whose upper half came in a Datadog tag, in capitals. -/
def taggedContext : SpanContext where
  traceId := .word 1
  spanId := some (.word 2)
  sampling := { priority := some .two }
  trace := { tags := .ofEntries [(TRACE_ID_128, lit "00000000000000AB")] }

theorem b3_roundTrip_tagged :
    (∃ c out q, injectB3MultipleHeaders taggedContext (some (.word 3)) {} = some c ∧
      extractB3MultiContext (.word 0) c.toCarrier = some out ∧ SameIds taggedContext out ∧
      out.sampling.priority = some q ∧ (1 ≤ q.val ↔ (1 : ℤ) ≤ 2) ∧ (q.val = 2 ↔ (2 : ℤ) ≤ 2)) ∧
    (∃ c out q, injectB3SingleHeader taggedContext (some (.word 3)) {} = some c ∧
      extractB3SingleContext (.word 0) c.toCarrier = some out ∧ SameIds taggedContext out ∧
      out.sampling.priority = some q ∧ (1 ≤ q.val ↔ (1 : ℤ) ≤ 2)) := by
  have htag : taggedContext.trace.tags.get? TRACE_ID_128 = some (lit "00000000000000AB") := rfl
  have hids : HasIds taggedContext := by
    refine ⟨⟨_, rfl, by decide⟩, Or.inr ⟨by decide, fun t ht => ?_⟩, by decide⟩
    rw [htag, some_inj] at ht
    rw [← ht]
    exact Or.inr (by decide)
  exact b3_roundTrip (p := .two) hids rfl (by simp [Identifier.word]) (.word 0) rfl

end DdTrace.TextMap
