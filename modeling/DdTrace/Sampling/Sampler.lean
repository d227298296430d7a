import DdTrace.Propagation.TextMap

/-!
# The rate sampler

`sampler.js` keeps a trace when its id times Knuth's factor, modulo `2 ^ 64`, is at most a
threshold that grows with the rate, so that every service that sees the trace decides alike.  The
id it multiplies is `toBigInt`, the first eight bytes of the identifier.

For a trace id that arrived in one piece these are the upper 64 bits, for the same trace id out of
Datadog headers the lower 64 bits.  `sampled_alike_iff` says for which trace ids the two services
still agree at every rate: those whose two products no threshold separates.  The thresholds are
the representable numbers below `2 ^ 64` (`threshold_iff`), so that the two products have to round
up to the same one of these.
-/

namespace DdTrace

open Library Binary64 List Option

/-- `MAX_TRACE_ID`, which is `2 ** 64 - 1` as a double-precision number. -/
def MAX_TRACE_ID : ℕ := round53 (2 ^ 64 - 1)

def UINT64_MODULO : ℕ := 2 ^ 64

def SAMPLING_KNUTH_FACTOR : ℕ := 1111111111111111111

/-- `Sampler`. -/
structure Sampler where
  rate : Binary64
  threshold : ℕ

namespace Sampler

def zeroRate : Binary64 := ⟨false, 0, 0⟩

def oneRate : Binary64 := ⟨false, 1023, 0⟩

/-- `Math.min(Math.max(rate, 0), 1)` of a number. -/
def clampRate (rate : Binary64) : Binary64 :=
  if rate.neg ∨ rate.mag = 0 then zeroRate
  else if one ≤ rate.mag then oneRate
  else rate

/-- The constructor.  `BigInt` throws on the threshold of a rate that is not a number; the product
with a power of two is exact. -/
def new (rate : Binary64) : Option Sampler :=
  if rate.isNaN then none
  else some ⟨clampRate rate, (clampRate rate).mag * MAX_TRACE_ID / one⟩

/-- Knuth's product of 64 bits. -/
def knuth (n : ℕ) : ℕ := n * SAMPLING_KNUTH_FACTOR % UINT64_MODULO

/-- `isSampled` of a span context. -/
def isSampled (s : Sampler) (ctx : SpanContext) : Bool :=
  if s.rate = oneRate then true
  else if s.rate = zeroRate then false
  else knuth ctx.traceId.toBigInt ≤ s.threshold

/-! ## The thresholds -/

/-- A rate strictly between 0 and 1. -/
def ProperRate (rate : Binary64) : Prop := rate.neg = false ∧ 0 < rate.mag ∧ rate.mag < one

instance (rate : Binary64) : Decidable (ProperRate rate) := instDecidableAnd

theorem max_trace_id : MAX_TRACE_ID = 2 ^ 64 := by decide

variable {random : Identifier} {ctx : SpanContext} {rate : Binary64} {T : TraceId128}
  {carrier : Carrier}

theorem clampRate_of_proper (h : ProperRate rate) : clampRate rate = rate := by
  obtain ⟨hneg, hpos, hlt⟩ := h
  rw [clampRate, if_neg, if_neg (by omega)]
  rintro (h | h)
  · rw [hneg] at h
    cases h
  · omega

theorem ProperRate.ne (h : ProperRate rate) :
    rate ≠ oneRate ∧ rate ≠ zeroRate := by
  constructor
  · rintro rfl
    have hone : oneRate.mag = one := by decide +kernel
    exact absurd h.2.2 (by rw [hone]; exact lt_irrefl _)
  · rintro rfl
    exact absurd h.2.1 (by exact lt_irrefl _)

theorem isFinite_of_proper (h : ProperRate rate) : rate.isFinite = true := by
  by_contra hfin
  have hexp : rate.exp.val = 2047 := by simpa [isFinite] using hfin
  have hmag : one ≤ rate.mag := by
    rw [mag, sig, unitExp, hexp, if_neg (by omega)]
    have hone : one ≤ 2 ^ (2047 - 1) := by
      exact pow_le_pow_right₀ (by omega) (by omega)
    exact hone.trans (Nat.le_mul_of_pos_left _ (by omega))
  exact absurd h.2.2 (not_lt.mpr hmag)

/-- The sampler of a proper rate. -/
theorem new_of_proper (h : ProperRate rate) :
    new rate = some ⟨rate, rate.mag / 2 ^ 1010⟩ := by
  have hfin := isFinite_of_proper h
  have hnan : rate.isNaN = false := by
    simp only [isFinite, bne_iff_ne, ne_eq] at hfin
    simp [isNaN, hfin]
  have hdiv : rate.mag * 2 ^ 64 / one = rate.mag / 2 ^ 1010 := by
    have hone : one = 2 ^ 1010 * 2 ^ 64 := by rw [one, ← pow_add]
    rw [hone]
    exact Nat.mul_div_mul_right _ _ (Nat.two_pow_pos 64)
  rw [new, hnan, clampRate_of_proper h, max_trace_id, hdiv]
  rfl

theorem isSampled_of_proper (h : ProperRate rate) {s : Sampler}
    (hs : new rate = some s) (ctx : SpanContext) :
    s.isSampled ctx = decide (knuth ctx.traceId.toBigInt ≤ rate.mag / 2 ^ 1010) := by
  rw [new_of_proper h, some_inj] at hs
  subst hs
  rw [isSampled, if_neg h.ne.1, if_neg h.ne.2]

/-- **The thresholds of the proper rates** are the representable numbers below `2 ^ 64`. -/
theorem threshold_iff {t : ℕ} :
    (∃ rate, ProperRate rate ∧ rate.mag / 2 ^ 1010 = t) ↔ Representable t ∧ t < 2 ^ 64 := by
  have hone : one = 2 ^ 64 * 2 ^ 1010 := by rw [one, ← pow_add]
  constructor
  · rintro ⟨rate, h, rfl⟩
    constructor
    · rcases le_or_gt 1010 rate.unitExp with hp | hp
      · refine ⟨rate.sig, rate.unitExp - 1010, rate.sig_lt, ?_⟩
        rw [mag, Nat.mul_div_assoc _ (pow_dvd_pow 2 hp), Nat.pow_div hp (by omega)]
      · refine ⟨rate.sig * 2 ^ rate.unitExp / 2 ^ 1010, 0, ?_, by rw [pow_zero, mul_one, mag]⟩
        rw [Nat.div_lt_iff_lt_mul (Nat.two_pow_pos 1010)]
        calc rate.sig * 2 ^ rate.unitExp ≤ rate.sig * 2 ^ 1010 := by gcongr; omega
          _ < 2 ^ 53 * 2 ^ 1010 := Nat.mul_lt_mul_of_pos_right rate.sig_lt (Nat.two_pow_pos 1010)
    · rw [Nat.div_lt_iff_lt_mul (Nat.two_pow_pos 1010), ← hone]
      exact h.2.2
  · rintro ⟨⟨m, p, hm, rfl⟩, hlt⟩
    rcases Nat.eq_zero_or_pos m with rfl | hpos
    · obtain ⟨rate, hneg, -, hmag⟩ := exists_mag (m := 1) (p := 0) (by norm_num) (by omega)
      refine ⟨rate, ⟨hneg, by rw [hmag]; norm_num, ?_⟩, ?_⟩
      · rw [hmag]
        exact Nat.one_lt_two_pow (by omega)
      · rw [hmag, zero_mul]
        exact Nat.div_eq_of_lt (Nat.one_lt_two_pow (by omega))
    · have hp : p < 64 := by
        by_contra hp
        have hle : 2 ^ 64 ≤ 2 ^ p := Nat.pow_le_pow_right (by omega) (by omega)
        have := Nat.le_mul_of_pos_left (2 ^ p) hpos
        omega
      obtain ⟨rate, hneg, -, hmag⟩ := exists_mag (p := p + 1010) hm (by omega)
      have hmag' : rate.mag = m * 2 ^ p * 2 ^ 1010 := by rw [hmag, mul_assoc, ← pow_add]
      refine ⟨rate, ⟨hneg, ?_, ?_⟩, ?_⟩
      · rw [hmag']
        exact Nat.mul_pos (Nat.mul_pos hpos (Nat.two_pow_pos p)) (Nat.two_pow_pos 1010)
      · rw [hmag', hone]
        exact Nat.mul_lt_mul_of_pos_right hlt (Nat.two_pow_pos 1010)
      · rw [hmag']
        exact Nat.mul_div_cancel _ (Nat.two_pow_pos 1010)

/-- Two products are compared alike with every threshold when they round up to the same
representable number. -/
theorem same_side_iff {x y : ℕ} (hx : x < 2 ^ 64) (hy : y < 2 ^ 64) :
    (∀ rate, ProperRate rate → (x ≤ rate.mag / 2 ^ 1010 ↔ y ≤ rate.mag / 2 ^ 1010)) ↔
      ceil53 x = ceil53 y := by
  rw [ceil53_eq_iff]
  constructor
  · intro h t ht
    rcases lt_or_ge t (2 ^ 64) with hlt | hge
    · obtain ⟨rate, hrate, rfl⟩ := threshold_iff.mpr ⟨ht, hlt⟩
      exact h rate hrate
    · exact iff_of_true (by omega) (by omega)
  · intro h rate hrate
    exact h _ (threshold_iff.mp ⟨rate, hrate, rfl⟩).1

/-! ## The same trace in two header styles -/

/-- A 128-bit trace id. -/
structure TraceId128 where
  high : ℕ
  low : ℕ
  high_lt : high < 2 ^ 64
  low_lt : low < 2 ^ 64

/-- The sixteen bytes of a trace id. -/
def TraceId128.bytes (T : TraceId128) : List UInt8 :=
  Bytes.toBytes 8 T.high ++ Bytes.toBytes 8 T.low

open TextMap

/-- The contexts extracted from headers that carry the trace id in one piece.  B3 headers may give
a bare sampling decision, a context without a span id; it is not meant here. -/
inductive FromLongHeaders (T : TraceId128) (random : Identifier) (carrier : Carrier)
    (ctx : SpanContext) : Prop where
  | b3multi {b3 : B3} {t : Str} : extractB3MultipleHeaders carrier = some b3 → b3.traceId = some t →
      Bytes.unhex t = some T.bytes → ctx.spanId ≠ none →
      extractB3MultiContext random carrier = some ctx → FromLongHeaders T random carrier ctx
  | b3single {header t : Str} :
      carrier.b3 = some header → (extractB3SingleHeader header).traceId = some t →
      Bytes.unhex t = some T.bytes → ctx.spanId ≠ none →
      extractB3SingleContext random carrier = some ctx → FromLongHeaders T random carrier ctx
  | tracecontext {header : Str} {m : TraceparentMatch} :
      carrier.traceparent = some header → matchTraceparent (Str.trim header) = some m →
      Bytes.unhex m.traceId = some T.bytes →
      extractTraceparentContext random carrier = some ctx → FromLongHeaders T random carrier ctx

/-- The context extracted from Datadog headers: the lower half in decimal, the upper half in
hexadecimal under its tag. -/
structure FromDatadogHeaders (T : TraceId128) (config : TextMap.Config) (random : Identifier)
    (carrier : Carrier) (ctx : SpanContext) : Prop where
  traceId : carrier.datadogTraceId = some (Str.natString 10 T.low)
  tags : carrier.datadogTags = some (TRACE_ID_128 ++ unit '=' :: Bytes.hex (Bytes.toBytes 8 T.high))
  extracted : extractDatadogContext config random carrier = some ctx

theorem TraceId128.length_bytes (T : TraceId128) : T.bytes.length = 16 := by
  simp [bytes]

theorem toBigInt_of_bytes {i : Identifier} (h : i.buffer = T.bytes) :
    i.toBigInt = T.high := by
  rw [Identifier.toBigInt, h, TraceId128.bytes, take_left' (Bytes.length_toBytes 8 T.high)]
  exact Bytes.ofBytes_toBytes_of_lt T.high_lt

/-- Hexadecimal text of sixteen bytes makes an identifier of sixteen bytes. -/
theorem buffer_of_id {i : Identifier} {t : Str}
    (ht : Bytes.unhex t = some T.bytes) (h : Identifier.id random t 16 = some i) :
    i.buffer = T.bytes := by
  have h8 : 8 ∣ T.bytes.length := by
    rw [T.length_bytes]
    decide
  rw [Identifier.id, if_pos rfl, Identifier.createBuffer_of_unhex ht h8
    (by rw [T.length_bytes]; decide), some_inj] at h
  rw [← h]

/-- What a generic extraction reads. -/
theorem extractGenericContext_eq_some {t i : Option Str} {radix : ℕ}
    (h : extractGenericContext random t i radix = some ctx) :
    ∃ t', t = some t' ∧ Identifier.id random t' radix = some ctx.traceId := by
  unfold extractGenericContext at h
  simp only [bind_eq_bind, bind_eq_some_iff, filter_eq_some_iff] at h
  obtain ⟨t', ⟨ht, -⟩, i', -, a, ha, b, -, hctx⟩ := h
  rw [some_inj] at hctx
  exact ⟨t', ht, by rw [ha, ← hctx]⟩

theorem traceId_of_b3 {b3 : B3} {t : Str} (ht : b3.traceId = some t) (hspan : ctx.spanId ≠ none)
    (h : extractB3Context random b3 = some ctx) :
    Identifier.id random t 16 = some ctx.traceId := by
  have key : ∃ ctx', extractGenericContext random b3.traceId b3.spanId 16 = some ctx' ∧
      ctx'.traceId = ctx.traceId := by
    unfold extractB3Context at h
    simp only at h
    split at h
    · cases h
    · rw [some_inj] at h
      rw [← h] at hspan
      exact absurd rfl hspan
    · next ctx' hctx _ =>
      rw [some_inj] at h
      exact ⟨ctx', hctx, by rw [← h, traceId_extract128BitTraceId]⟩
    · next ctx' _ hctx _ =>
      rw [some_inj] at h
      exact ⟨ctx', hctx, by rw [← h, traceId_extract128BitTraceId]⟩
  obtain ⟨ctx', hctx, heq⟩ := key
  obtain ⟨t', ht', hid⟩ := extractGenericContext_eq_some hctx
  rw [ht, some_inj] at ht'
  rw [ht', hid, heq]

theorem traceId_of_traceparent (h : extractTraceparentContext random carrier = some ctx) :
    ∃ header m, carrier.traceparent = some header ∧ matchTraceparent (Str.trim header) = some m ∧
      Identifier.id random m.traceId 16 = some ctx.traceId := by
  unfold extractTraceparentContext at h
  simp only [bind_eq_bind, bind_eq_some_iff, filter_eq_some_iff] at h
  obtain ⟨header, ⟨hheader, -⟩, m, ⟨hm, -⟩, a, ha, b, -, hctx⟩ := h
  rw [some_inj] at hctx
  refine ⟨header, m, hheader, hm, ?_⟩
  rw [ha, ← hctx, contextOfMatch, (ids_foldl_extractDdEntry _ _).1, traceId_extract128BitTraceId]

/-- The identifier of a context from long headers holds all sixteen bytes. -/
theorem FromLongHeaders.buffer (h : FromLongHeaders T random carrier ctx) :
    ctx.traceId.buffer = T.bytes := by
  cases h with
  | @b3multi b3 t hb3 ht hhex hspan hctx =>
    rw [extractB3MultiContext, hb3] at hctx
    exact buffer_of_id hhex (traceId_of_b3 ht hspan hctx)
  | @b3single header t hheader ht hhex hspan hctx =>
    unfold extractB3SingleContext at hctx
    simp only [bind_eq_bind, bind_eq_some_iff, filter_eq_some_iff] at hctx
    obtain ⟨header', ⟨hheader', -⟩, hctx⟩ := hctx
    rw [hheader, some_inj] at hheader'
    exact buffer_of_id hhex (traceId_of_b3 (hheader' ▸ ht) hspan hctx)
  | @tracecontext header m hheader hm hhex hctx =>
    obtain ⟨header', m', hheader', hm', hid⟩ := traceId_of_traceparent hctx
    rw [hheader, some_inj] at hheader'
    subst hheader'
    rw [hm, some_inj] at hm'
    subst hm'
    exact buffer_of_id hhex hid

theorem traceId_extractOrigin (carrier : Carrier) (ctx : SpanContext) :
    (extractOrigin carrier ctx).traceId = ctx.traceId := by
  unfold extractOrigin
  split <;> rfl

theorem traceId_extractSamplingPriority (carrier : Carrier) (ctx : SpanContext) :
    (extractSamplingPriority carrier ctx).traceId = ctx.traceId := by
  unfold extractSamplingPriority
  split <;> rfl

theorem traceId_extractTraceTags (config : TextMap.Config) (carrier : Carrier)
    (ctx : SpanContext) : (extractTraceTags config carrier ctx).traceId = ctx.traceId := by
  unfold extractTraceTags
  split <;> rfl

theorem traceId_adoptTraceparent (ctx : SpanContext) (tc : Option SpanContext) :
    (adoptTraceparent ctx tc).traceId = ctx.traceId := by
  unfold adoptTraceparent
  rcases tc with _ | tc
  · rfl
  · simp only
    split <;> rfl

theorem traceId_of_datadog {config : TextMap.Config}
    (h : extractDatadogContext config random carrier = some ctx) :
    ∃ t, carrier.datadogTraceId = some t ∧ Identifier.id random t 10 = some ctx.traceId := by
  unfold extractDatadogContext at h
  simp only [bind_eq_bind, bind_eq_some_iff] at h
  obtain ⟨ctx', hctx', h⟩ := h
  obtain ⟨t, ht, hid⟩ := extractGenericContext_eq_some hctx'
  refine ⟨t, ht, ?_⟩
  rw [hid, ← traceId_extractOrigin carrier, ← traceId_extractSamplingPriority carrier,
    ← traceId_extractTraceTags config carrier]
  split at h
  · rw [some_inj] at h
    rw [h]
  · rw [some_inj] at h
    rw [← h, traceId_adoptTraceparent]

/-- The identifier of a context from Datadog headers holds the lower eight bytes. -/
theorem FromDatadogHeaders.toBigInt {config : TextMap.Config}
    (h : FromDatadogHeaders T config random carrier ctx) : ctx.traceId.toBigInt = T.low := by
  obtain ⟨t, ht, hid⟩ := traceId_of_datadog h.extracted
  rw [h.traceId, some_inj] at ht
  subst ht
  rw [Identifier.id, if_neg (by decide), some_inj] at hid
  rw [Identifier.toBigInt, ← hid, Identifier.fromString_natString T.low_lt,
    take_of_length_le (by simp)]
  exact Bytes.ofBytes_toBytes_of_lt T.low_lt

/-- **Sampling across header styles.**  Two services that received one trace id, the one in B3 or
W3C headers and the other in Datadog headers, decide alike at every rate strictly between 0 and 1
exactly when the Knuth products of the two halves of the id round up to the same representable
number. -/
theorem sampled_alike_iff {T : TraceId128} {config : TextMap.Config} {random random' : Identifier}
    {carrier carrier' : Carrier} {ctx ctx' : SpanContext}
    (h : FromLongHeaders T random carrier ctx)
    (h' : FromDatadogHeaders T config random' carrier' ctx') :
    (∀ rate s, ProperRate rate → new rate = some s → s.isSampled ctx = s.isSampled ctx') ↔
      ceil53 (knuth T.high) = ceil53 (knuth T.low) := by
  have hlt : ∀ n, knuth n < 2 ^ 64 := fun n => Nat.mod_lt _ (by decide)
  rw [← same_side_iff (hlt _) (hlt _), ← toBigInt_of_bytes h.buffer, ← h'.toBigInt]
  constructor
  · intro hall rate hrate
    have hs := hall rate _ hrate (new_of_proper hrate)
    rwa [isSampled_of_proper hrate (new_of_proper hrate),
      isSampled_of_proper hrate (new_of_proper hrate), decide_eq_decide] at hs
  · intro hall rate s hrate hs
    rw [isSampled_of_proper hrate hs, isSampled_of_proper hrate hs, decide_eq_decide]
    exact hall rate hrate

/-- A trace id whose halves have products on the two sides of the threshold of the rate one
half. -/
def splitTrace : TraceId128 := ⟨1, 9, by decide, by decide⟩

/-- The context of `splitTrace` out of W3C headers. -/
def longContext : SpanContext where
  traceId := ⟨Bytes.toBytes 8 1 ++ Bytes.toBytes 8 9, by decide⟩
  spanId := some (.word 2)
  sampling := { priority := some .one }
  traceparent := some (lit "00")
  tracestate := some {}
  trace := { tags := .ofEntries [(TRACE_ID_128, lit "0000000000000001")] }

/-- The context of `splitTrace` out of Datadog headers. -/
def shortContext : SpanContext where
  traceId := .word 9
  spanId := some (.word 2)
  trace := { tags := .ofEntries [(TRACE_ID_128, lit "0000000000000001")] }

theorem longContext_extracted : FromLongHeaders splitTrace .zeroId
      { traceparent := some (lit "00-00000000000000010000000000000009-0000000000000002-01") }
      longContext :=
  .tracecontext (m := ⟨lit "00", lit "00000000000000010000000000000009", lit "0000000000000002",
    lit "01", none⟩) rfl (by decide) (by decide) (by decide)

theorem shortContext_extracted : FromDatadogHeaders splitTrace {} .zeroId
      { datadogTraceId := some (lit "9"), datadogParentId := some (lit "2"),
        datadogTags := some (lit "_dd.p.tid=0000000000000001") }
      shortContext :=
  ⟨by decide, by decide, by decide⟩

/-- For `splitTrace` the two services do not agree at every rate. -/
theorem sampled_alike_iff_splitTrace : (∀ rate s, ProperRate rate → new rate = some s →
      s.isSampled longContext = s.isSampled shortContext) ↔
      ceil53 (knuth splitTrace.high) = ceil53 (knuth splitTrace.low) :=
  sampled_alike_iff longContext_extracted shortContext_extracted

/-- **The two services can disagree**: at the rate one half, `splitTrace` is kept by the one that
received it in W3C headers and dropped by the one that received it in Datadog headers. -/
theorem not_sampled_alike :
    ¬ ∀ (T : TraceId128) (config : TextMap.Config) (random random' : Identifier)
      (carrier carrier' : Carrier) (ctx ctx' : SpanContext),
      FromLongHeaders T random carrier ctx →
      FromDatadogHeaders T config random' carrier' ctx' →
      ∀ rate s, ProperRate rate → new rate = some s → s.isSampled ctx = s.isSampled ctx' := by
  intro h
  have half : ProperRate ⟨false, 1022, 0⟩ := by decide +kernel
  have hs := h _ _ _ _ _ _ _ _ longContext_extracted shortContext_extracted _ _ half
    (new_of_proper half)
  rw [isSampled_of_proper half (new_of_proper half), isSampled_of_proper half (new_of_proper half),
    decide_eq_decide] at hs
  have hlong : knuth longContext.traceId.toBigInt ≤ mag ⟨false, 1022, 0⟩ / 2 ^ 1010 := by
    decide +kernel
  have hshort : ¬ knuth shortContext.traceId.toBigInt ≤ mag ⟨false, 1022, 0⟩ / 2 ^ 1010 := by
    decide +kernel
  exact hshort (hs.mp hlong)

end Sampler
end DdTrace
