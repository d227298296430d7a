import DdTrace.Propagation.B3RoundTrip

/-!
# The Datadog round trip

`_injectDatadog` of `opentracing/propagation/text_map.js`, and what `_extractDatadogContext` makes
of the headers.

Both ids travel in decimal and are those of the lower 64 bits; the upper half of a trace id, and all
other tags `_dd.p.*`, travel in one header of pairs between commas.  `Sent` is what the code asks of
a context beyond the pattern of its tags: a trace id whose lower half is not zero, an upper half
that is also a tag, an origin and tag values that are not empty, an upper half of sixteen digits.

* `id_toNumberString`: a 64-bit id in decimal is read back.
* `readTags_pairs`: the pairs are read back when no key holds the `=` between key and value.
* `roundTrips_datadog_iff`: **for such keys, a context comes back exactly when it is `Sent`.**
* `not_roundTrips_datadog`: an empty value is not sent.  A key with a `=`, which the pattern lets
  through, comes back as another key.
-/

namespace DdTrace.TextMap

open Library List Option Identifier

/-! ## Injecting -/

/-- The tags that are injected. -/
def injectedTags (ctx : SpanContext) : List (Str × Str) := ctx.trace.tags.entries.filter isInjected

/-- One pair of the header. -/
def tagPair (e : Str × Str) : Str := e.1 ++ unit '=' :: e.2

/-- The pairs of the header. -/
def tagsText (ctx : SpanContext) : Str :=
  Str.join (unit ',') ((injectedTags ctx).map tagPair)

/-- The header of `_injectTags`, when it is written. -/
def tagsHeader (config : Config) (ctx : SpanContext) : Option Str :=
  if config.tagsMaxLength = 0 then none
  else if (injectedTags ctx).all (fun e => tagKeyExpr e.1 && tagValueExpr e.2) = false then none
  else if config.tagsMaxLength < (tagsText ctx).length then none
  else if tagsText ctx = [] then none
  else some (tagsText ctx)

/-- `_injectDatadog`.  A context without a span id makes it throw. -/
def injectDatadog (config : Config) (ctx : SpanContext) (carrier : Carrier) : Option Carrier :=
  ctx.spanId.map fun spanId =>
    { carrier with
      datadogTraceId := some (ctx.traceId.toNumberString 10)
      datadogParentId := some (spanId.toNumberString 10)
      datadogOrigin := (ctx.trace.origin.filter (· ≠ [])).or carrier.datadogOrigin
      datadogSamplingPriority :=
        (ctx.sampling.priority.map Integral.toString).or carrier.datadogSamplingPriority
      datadogTags := (tagsHeader config ctx).or carrier.datadogTags }

/-! ## The ids -/

theorem invalidSegment_natString {n : ℕ} : invalidSegment (Str.natString 10 n) = true ↔ n = 0 := by
  constructor
  · intro h
    rw [invalidSegment, Bool.and_eq_true, List.all_eq_true] at h
    have hrep : Str.natString 10 n = List.replicate (Str.natString 10 n).length (unit '0') :=
      eq_replicate_iff.mpr ⟨rfl, fun u hu => beq_iff_eq.mp (h.2 u hu)⟩
    have hzero : ∀ k, Str.readDigits 10 0 (List.replicate k (unit '0')) = 0 := by
      intro k
      induction k with
      | zero => rfl
      | succ k ih => exact ih
    have hread := Str.readDigits_natString (n := n) (by omega : 1 < 10) (by omega)
    rw [hrep, hzero] at hread
    exact hread.symm
  · rintro rfl
    decide

/-- **A 64-bit id in decimal is read back.** -/
theorem id_toNumberString (random i : Identifier) :
    ∃ j, Identifier.id random (i.toNumberString 10) 10 = some j ∧ j.buffer = i.toArray := by
  have hlt := Bytes.ofBytes_lt i.toArray
  rw [length_toArray] at hlt
  refine ⟨_, rfl, ?_⟩
  have hbytes := Bytes.toBytes_ofBytes i.toArray
  rw [length_toArray] at hbytes
  rw [toNumberString_eq, fromString_natString (hlt.trans_eq (by norm_num)), hbytes]

/-- The context that the two ids arrive as. -/
theorem extractGenericContext_numbers (random i j : Identifier) :
    (Bytes.ofBytes i.toArray = 0 → extractGenericContext random (some (i.toNumberString 10))
      (some (j.toNumberString 10)) 10 = none) ∧
    (Bytes.ofBytes i.toArray ≠ 0 → ∃ i' j' : Identifier, i'.buffer = i.toArray ∧
      j'.buffer = j.toArray ∧ extractGenericContext random (some (i.toNumberString 10))
        (some (j.toNumberString 10)) 10 = some { traceId := i', spanId := some j' }) := by
  have hne : ∀ k : Identifier, k.toNumberString 10 ≠ [] := by
    intro k
    rw [toNumberString_eq]
    exact Str.natString_ne_nil 10 _
  have hinvalid : invalidSegment (i.toNumberString 10) = true ↔ Bytes.ofBytes i.toArray = 0 := by
    rw [toNumberString_eq]
    exact invalidSegment_natString
  constructor
  · intro hzero
    rw [extractGenericContext, filter_some_neg (by simp [hinvalid.mpr hzero])]
    rfl
  · intro hpos
    have hvalid : invalidSegment (i.toNumberString 10) = false := by
      rw [← Bool.not_eq_true]
      exact fun h => hpos (hinvalid.mp h)
    obtain ⟨i', hi', hbi⟩ := id_toNumberString random i
    obtain ⟨j', hj', hbj⟩ := id_toNumberString random j
    refine ⟨i', j', hbi, hbj, ?_⟩
    rw [extractGenericContext, filter_some_pos (by simp [hne i, hvalid])]
    simp only [bind_eq_bind, bind_some]
    rw [filter_some_pos (by simpa using hne j)]
    simp only [bind_some, hi', hj']

/-! ## The tags -/

/-- A tag that the header brings back. -/
def isRead (e : Str × Str) : Bool := !(e.1 == TRACE_ID_128 && !hex16 e.2)

variable {e : Str × Str} {out : SpanContext}

theorem isRead_iff : isRead e = true ↔ ¬ (e.1 = TRACE_ID_128 ∧ hex16 e.2 = false) := by
  rw [isRead, Bool.not_eq_true', Bool.and_eq_false_iff, not_and_or, beq_eq_false_iff_ne,
    Bool.not_eq_false', Bool.not_eq_false]

/-- The pairs are read back, one tag after the other. -/
theorem readTags_pairs {l : List (Str × Str)} (hvalid : ∀ e ∈ l, tagKeyExpr e.1 = true ∧
    tagValueExpr e.2 = true) (hkey : ∀ e ∈ l, unit '=' ∉ e.1) (tags : OrderedMap Str Str) :
    readTags (l.map tagPair) tags =
      some ((l.filter isRead).foldl (fun m e => m.set e.1 e.2) tags) := by
  induction l generalizing tags with
  | nil => rfl
  | cons e l ih =>
    obtain ⟨hk, hv⟩ := hvalid e mem_cons_self
    have ih' := ih (forall_mem_cons.mp hvalid).2
      (forall_mem_cons.mp hkey).2
    have hcut : (tagPair e).cut (unit '=') = some (e.1, e.2) :=
      Str.cut_append (hkey e mem_cons_self) e.2
    rw [map_cons, readTags, hcut, getD_some]
    dsimp only
    rw [if_neg (by simp [hk, hv])]
    by_cases hread : isRead e = true
    · rw [if_neg (isRead_iff.mp hread), ih', filter_cons_of_pos hread, foldl_cons]
    · rw [if_pos (not_not.mp (mt isRead_iff.mpr hread)), ih', filter_cons_of_neg hread]

variable {config : Config} {ctx : SpanContext}

/-- What injection asks of a context: ids of whole words, tags of the patterns, and a header of
them that fits. -/
structure Injectable (config : Config) (ctx : SpanContext) : Prop where
  spanId : ∃ i, ctx.spanId = some i ∧ i.buffer.length = 8
  traceId : ctx.traceId.buffer.length = 8 ∨ ctx.traceId.buffer.length = 16
  tags : ∀ e ∈ ctx.trace.tags.entries, tagPrefix.isPrefixOf e.1 = true →
    tagKeyExpr e.1 = true ∧ tagValueExpr e.2 = true
  fits : (tagsText ctx).length ≤ config.tagsMaxLength

theorem isInjected_iff :
    isInjected e = true ↔ e.2 ≠ [] ∧ tagPrefix.isPrefixOf e.1 = true := by
  rw [isInjected, Bool.and_eq_true, bne_iff_ne]

theorem Injectable.valid (h : Injectable config ctx) (he : e ∈ injectedTags ctx) :
    tagKeyExpr e.1 = true ∧ tagValueExpr e.2 = true := by
  obtain ⟨hmem, hinj⟩ := mem_filter.mp he
  exact h.tags e hmem (isInjected_iff.mp hinj).2

/-- Neither pattern admits the comma between two pairs. -/
theorem comma_notMem_tagPair (hk : tagKeyExpr e.1 = true)
    (hv : tagValueExpr e.2 = true) : unit ',' ∉ tagPair e := by
  rw [tagKeyExpr, Bool.and_eq_true, List.all_eq_true] at hk
  rw [tagValueExpr, List.all_eq_true] at hv
  obtain ⟨hk, hrest⟩ := hk
  rw [Bool.and_eq_true] at hk
  obtain ⟨x, hx⟩ := isPrefixOf_iff_prefix.mp hk.1
  have hdrop : e.1.drop 6 = x := by
    rw [← hx]
    rfl
  have hprefix : ∀ u ∈ tagPrefix, u ≠ unit ',' := Str.forall_mem_of_all (by decide)
  rw [tagPair, mem_append, mem_cons, ← hx, mem_append]
  rintro ((hu | hu) | hu | hu)
  · exact hprefix _ hu rfl
  · exact absurd (hrest _ (hdrop.symm ▸ hu)) (by decide)
  · exact absurd hu (by decide)
  · exact absurd (hv _ hu) (by decide)

theorem nodup_injectedTags (ctx : SpanContext) : ((injectedTags ctx).map Prod.fst).Nodup :=
  ctx.trace.tags.nodup.sublist (filter_sublist.map Prod.fst)

/-- The tags that the header of a context brings. -/
def arrivedTags (config : Config) (ctx : SpanContext) : OrderedMap Str Str :=
  (extractTags config { datadogTags := tagsHeader config ctx }).getD .empty

theorem entries_arrivedTags (h : Injectable config ctx)
    (hkey : ∀ e ∈ injectedTags ctx, unit '=' ∉ e.1) :
    (arrivedTags config ctx).entries = (injectedTags ctx).filter isRead := by
  by_cases hnone : injectedTags ctx = []
  · have htext : tagsText ctx = [] := by rw [tagsText, hnone]; rfl
    have hheader : tagsHeader config ctx = none := by
      rw [tagsHeader, if_pos htext, ite_self, ite_self, ite_self]
    rw [arrivedTags, hheader, hnone]
    rfl
  · have htext : tagsText ctx ≠ [] := by
      obtain ⟨e, l, hl⟩ := exists_cons_of_ne_nil hnone
      rw [tagsText, hl, map_cons, Ne, Str.join_eq_nil_iff]
      simp [tagPair]
    have hpos : config.tagsMaxLength ≠ 0 := by
      intro hzero
      have hfits := h.fits
      rw [hzero, Nat.le_zero, length_eq_zero_iff] at hfits
      exact htext hfits
    have hvalid : (injectedTags ctx).all (fun e => tagKeyExpr e.1 && tagValueExpr e.2) = true := by
      rw [List.all_eq_true]
      intro e he
      rw [Bool.and_eq_true]
      exact h.valid he
    have hheader : tagsHeader config ctx = some (tagsText ctx) := by
      rw [tagsHeader, if_neg hpos, hvalid, if_neg (by simp), if_neg (not_lt.mpr h.fits),
        if_neg htext]
    have hsplit : Str.split (unit ',') (tagsText ctx) = (injectedTags ctx).map tagPair := by
      refine Str.split_join (fun s hs => ?_) (by simpa using hnone)
      obtain ⟨e, he, rfl⟩ := List.mem_map.mp hs
      obtain ⟨hk, hv⟩ := h.valid he
      exact comma_notMem_tagPair hk hv
    have hread := readTags_pairs (fun e he => h.valid he) hkey .empty
    have hextract : extractTags config { datadogTags := tagsHeader config ctx } =
        some (.ofEntries ((injectedTags ctx).filter isRead)) := by
      rw [extractTags, hheader, filter_some_pos (by simpa using htext)]
      simp only [bind_eq_bind, bind_some]
      rw [if_neg hpos, if_neg (not_lt.mpr h.fits), hsplit, hread]
      rfl
    rw [arrivedTags, hextract]
    refine OrderedMap.entries_ofEntries ?_
    exact (nodup_injectedTags ctx).sublist (filter_sublist.map Prod.fst)

/-! ## What arrives -/

/-- `out` arrives where the headers of `ctx` are extracted. -/
def ArrivesDatadog (config : Config) (random : Identifier) (ctx out : SpanContext) : Prop :=
  ∃ c, injectDatadog config ctx {} = some c ∧ extractDatadogContext config random c = some out

/-- A context whose lower half is zero does not arrive. -/
theorem not_arrives_of_zero (hzero : Bytes.ofBytes ctx.traceId.toArray = 0)
    (random : Identifier) (out : SpanContext) : ¬ ArrivesDatadog config random ctx out := by
  rintro ⟨c, hinject, hextract⟩
  obtain ⟨i, -, rfl⟩ := map_eq_some_iff.mp hinject
  rw [extractDatadogContext] at hextract
  rw [(extractGenericContext_numbers random ctx.traceId i).1 hzero] at hextract
  cases hextract

/-- **The context that arrives**, field by field. -/
theorem exists_arrivesDatadog (h : Injectable config ctx)
    (hpos : Bytes.ofBytes ctx.traceId.toArray ≠ 0) (random : Identifier) :
    ∃ out, ArrivesDatadog config random ctx out ∧
      out.traceId.buffer = ctx.traceId.toArray ∧ out.spanId = ctx.spanId ∧
      out.sampling.priority =
        (ctx.sampling.priority.map Integral.toString).bind (Integral.parseInt 10) ∧
      out.trace.origin = ctx.trace.origin.filter (· ≠ []) ∧
      out.trace.tags = arrivedTags config ctx := by
  obtain ⟨i, hi, hlen⟩ := h.spanId
  obtain ⟨t, j, ht, hj, hgeneric⟩ := (extractGenericContext_numbers random ctx.traceId i).2 hpos
  have hji : j = i := Identifier.ext (by rw [hj, Identifier.toArray, if_pos hlen])
  subst hji
  set c : Carrier :=
    { datadogTraceId := some (ctx.traceId.toNumberString 10)
      datadogParentId := some (j.toNumberString 10)
      datadogOrigin := (ctx.trace.origin.filter (· ≠ [])).or none
      datadogSamplingPriority := (ctx.sampling.priority.map Integral.toString).or none
      datadogTags := (tagsHeader config ctx).or none } with hc
  have htags : (extractTags config c).getD .empty = arrivedTags config ctx := by
    rw [arrivedTags, extractTags, extractTags, hc]
    dsimp only
    rw [or_none]
  set out₀ : SpanContext := { traceId := t, spanId := some j } with hout₀
  set out₁ := extractOrigin c out₀ with hout₁
  set out₂ := extractSamplingPriority c out₁ with hout₂
  have htc : extractTraceparentContext random c = none := rfl
  have hextract : extractDatadogContext config random c =
      some (extractTraceTags config c out₂) := by
    rw [extractDatadogContext, hgeneric]
    simp only [bind_eq_bind, bind_some, htc, adoptTraceparent, ite_self]
    rfl
  have h1 : out₁.traceId = t ∧ out₁.spanId = some j ∧ out₁.sampling.priority = none ∧
      out₁.trace.tags = .empty ∧ out₁.trace.origin = ctx.trace.origin.filter (· ≠ []) := by
    rw [hout₁, hc]
    rcases ctx.trace.origin.filter (· ≠ []) with _ | o <;> exact ⟨rfl, rfl, rfl, rfl, rfl⟩
  have h2 : out₂.traceId = t ∧ out₂.spanId = some j ∧ out₂.trace = out₁.trace ∧
      out₂.sampling.priority =
        (ctx.sampling.priority.map Integral.toString).bind (Integral.parseInt 10) := by
    obtain ⟨ha, hb, hp, -, -⟩ := h1
    rw [hout₂, extractSamplingPriority, hc]
    rw [or_none]
    rcases (ctx.sampling.priority.map Integral.toString).bind (Integral.parseInt 10) with _ | p
    · exact ⟨ha, hb, rfl, hp⟩
    · exact ⟨ha, hb, rfl, rfl⟩
  have h3 : (extractTraceTags config c out₂).traceId = t ∧
      (extractTraceTags config c out₂).spanId = some j ∧
      (extractTraceTags config c out₂).sampling = out₂.sampling ∧
      (extractTraceTags config c out₂).trace.origin = out₂.trace.origin ∧
      (extractTraceTags config c out₂).trace.tags = (extractTags config c).getD .empty := by
    obtain ⟨ha, hb, htr, -⟩ := h2
    rw [extractTraceTags]
    rcases extractTags config c with _ | m
    · exact ⟨ha, hb, rfl, rfl, by rw [htr, h1.2.2.2.1]; rfl⟩
    · exact ⟨ha, hb, rfl, rfl, rfl⟩
  obtain ⟨ha, hb, hsampling, horigin, htag⟩ := h3
  refine ⟨_, ⟨c, by rw [injectDatadog, hi, map_some], hextract⟩, ?_, ?_, ?_, ?_, ?_⟩
  · rw [ha, ht]
  · rw [hb, hi]
  · rw [hsampling, h2.2.2.2]
  · rw [horigin, h2.2.2.1, h1.2.2.2.2]
  · rw [htag, htags]

theorem arrivesDatadog_unique {random : Identifier} {out' : SpanContext}
    (h : ArrivesDatadog config random ctx out) (h' : ArrivesDatadog config random ctx out') :
    out = out' := by
  obtain ⟨c, hc, hout⟩ := h
  obtain ⟨c', hc', hout'⟩ := h'
  rw [hc, some_inj] at hc'
  subst hc'
  rw [hout, some_inj] at hout'
  exact hout'

/-! ## The round trip -/

/-- The propagated tags. -/
def propagatedTags (ctx : SpanContext) : List (Str × Str) :=
  ctx.trace.tags.entries.filter fun e => tagPrefix.isPrefixOf e.1

/-- What the round trip is for: the ids, the priority, the origin and the propagated tags. -/
structure SameDatadog (ctx out : SpanContext) : Prop where
  traceId : traceIdNumber out = traceIdNumber ctx
  spanId : out.spanId = ctx.spanId
  priority : out.sampling.priority = ctx.sampling.priority
  origin : out.trace.origin = ctx.trace.origin
  tags : out.trace.tags.entries = propagatedTags ctx

/-- The digits of the upper half that a context holds as a tag. -/
def upperTag (ctx : SpanContext) : Str := (ctx.trace.tags.get? TRACE_ID_128).getD []

/-- **What the headers can carry.** -/
structure Sent (ctx : SpanContext) : Prop where
  /-- An id of zeros is taken for a missing one, and only the lower half is looked at. -/
  lower : Bytes.ofBytes ctx.traceId.toArray ≠ 0
  /-- The upper half travels as a tag only. -/
  upper : ctx.traceId.buffer.length = 16 →
    Str.readDigits 16 0 (upperTag ctx) = Bytes.ofBytes ctx.traceId.buffer / 2 ^ 64
  /-- From `10 ^ 21` on a numeral has an exponent. -/
  priority : ∀ p ∈ ctx.sampling.priority, p.val.natAbs < 10 ^ 21
  /-- An empty origin is none. -/
  origin : ctx.trace.origin ≠ some []
  /-- An empty value is none. -/
  values : ∀ e ∈ propagatedTags ctx, e.2 ≠ []
  /-- The upper half is sixteen digits. -/
  tid : ∀ e ∈ propagatedTags ctx, e.1 = TRACE_ID_128 → hex16 e.2 = true

theorem priority_arrivesDatadog (p : Option Integral) :
    (p.map Integral.toString).bind (Integral.parseInt 10) = p ↔
      ∀ z ∈ p, z.val.natAbs < 10 ^ 21 := by
  rcases p with _ | z
  · simp
  · simp only [map_some, bind_some, mem_def, some_inj]
    constructor
    · rintro hread z' rfl
      by_contra hge
      have := Integral.parseInt_toString_of_le (not_lt.mp hge) hread
      omega
    · exact fun h => Integral.parseInt_toString (h z rfl)

theorem origin_arrivesDatadog (origin : Option Str) :
    origin.filter (· ≠ []) = origin ↔ origin ≠ some [] := by
  rcases origin with _ | o
  · simp
  · by_cases ho : o = []
    · simp [ho]
    · simp [ho, filter_some]

theorem tags_arrivesDatadog (ctx : SpanContext) :
    (injectedTags ctx).filter isRead = propagatedTags ctx ↔ (∀ e ∈ propagatedTags ctx, e.2 ≠ []) ∧
        ∀ e ∈ propagatedTags ctx, e.1 = TRACE_ID_128 → hex16 e.2 = true := by
  have hread : (injectedTags ctx).filter isRead =
      (propagatedTags ctx).filter fun e => e.2 != [] && isRead e := by
    rw [injectedTags, propagatedTags, List.filter_filter, List.filter_filter]
    refine filter_congr fun e _ => ?_
    rw [isInjected]
    cases e.2 != [] <;> cases tagPrefix.isPrefixOf e.1 <;> cases isRead e <;> rfl
  rw [hread, filter_eq_self]
  simp only [Bool.and_eq_true, bne_iff_ne, isRead_iff, not_and, Bool.not_eq_false]
  exact ⟨fun h => ⟨fun e he => (h e he).1, fun e he => (h e he).2⟩, fun h e he =>
    ⟨h.1 e he, h.2 e he⟩⟩

/-- The trace id is injected with the tag of its upper half before it. -/
theorem b3TraceId_of_tag (hlen : ctx.traceId.buffer.length = 8) :
    b3TraceId ctx = upperTag ctx ++ Bytes.hex ctx.traceId.buffer := by
  rw [b3TraceId, upperTag]
  rcases ctx.trace.tags.get? TRACE_ID_128 with _ | t
  · rfl
  · rw [Identifier.toTraceIdHex]
    by_cases ht : t = []
    · rw [ht]
      rfl
    · rw [if_pos ⟨ht, hlen.le⟩]
      rfl

/-- The number of a trace id in two pieces. -/
theorem traceIdNumber_of_tag (hlen : ctx.traceId.buffer.length = 8)
    (htag : upperTag ctx = [] ∨ hex16 (upperTag ctx) = true) :
    traceIdNumber ctx =
      Str.readDigits 16 0 (upperTag ctx) * 2 ^ 64 + Bytes.ofBytes ctx.traceId.buffer := by
  have hupper : ∀ u ∈ upperTag ctx, (Str.digit? 16 u).isSome = true := by
    rcases htag with hnil | hhex
    · rw [hnil]
      exact fun u hu => absurd hu not_mem_nil
    · rw [hex16, isHexOfLength, Bool.and_eq_true, List.all_eq_true] at hhex
      exact hhex.2
  have hlower : ∀ u ∈ Bytes.hex ctx.traceId.buffer, (Str.digit? 16 u).isSome = true :=
    fun u hu => isHexDigit_hex hu
  have hread := Str.readDigits_append_of_isSome hlower (Str.readDigits 16 0 (upperTag ctx)) []
  rw [append_nil, Str.readDigits, Bytes.length_hex, hlen,
    Bytes.readDigits_of_unhex (Bytes.unhex_hex _)] at hread
  rw [traceIdNumber_eq, b3TraceId_of_tag hlen, Str.readDigits_append_of_isSome hupper,
    Nat.zero_mul, Nat.zero_add, hread]
  norm_num

theorem isPrefixOf_traceId128 : tagPrefix.isPrefixOf TRACE_ID_128 = true := by decide

/-- The tag of the upper half is among the propagated ones. -/
theorem upperTag_eq (h : out.trace.tags.entries = propagatedTags ctx) :
    upperTag out = upperTag ctx := by
  rw [upperTag]
  congr 1
  refine Option.ext fun v => ?_
  rw [← OrderedMap.mem_entries_iff, ← OrderedMap.mem_entries_iff, h, propagatedTags, mem_filter]
  exact and_iff_left isPrefixOf_traceId128

theorem upperTag_valid (htid : ∀ e ∈ propagatedTags ctx, e.1 = TRACE_ID_128 → hex16 e.2 = true) :
    upperTag ctx = [] ∨ hex16 (upperTag ctx) = true := by
  rw [upperTag]
  rcases htag : ctx.trace.tags.get? TRACE_ID_128 with _ | t
  · exact Or.inl rfl
  · refine Or.inr (htid (TRACE_ID_128, t) ?_ rfl)
    exact mem_filter.mpr ⟨OrderedMap.mem_entries_iff.mpr htag, isPrefixOf_traceId128⟩

/-- The trace id arrives when its upper half, if the identifier holds it, is also a tag. -/
theorem traceId_arrivesDatadog (h : Injectable config ctx)
    (htid : ∀ e ∈ propagatedTags ctx, e.1 = TRACE_ID_128 → hex16 e.2 = true) (hbuffer : out.traceId.buffer = ctx.traceId.toArray)
    (htags : out.trace.tags.entries = propagatedTags ctx) :
    traceIdNumber out = traceIdNumber ctx ↔ (ctx.traceId.buffer.length = 16 →
      Str.readDigits 16 0 (upperTag ctx) = Bytes.ofBytes ctx.traceId.buffer / 2 ^ 64) := by
  have hvalid := upperTag_valid htid
  have hout : traceIdNumber out =
      Str.readDigits 16 0 (upperTag ctx) * 2 ^ 64 + Bytes.ofBytes ctx.traceId.toArray := by
    rw [← upperTag_eq htags, ← hbuffer]
    refine traceIdNumber_of_tag ?_ (by rwa [upperTag_eq htags])
    rw [hbuffer, length_toArray]
  rcases h.traceId with hlen | hlen
  · have harray : ctx.traceId.toArray = ctx.traceId.buffer := if_pos hlen
    refine iff_of_true ?_ (fun h16 => by omega)
    rw [hout, harray, traceIdNumber_of_tag hlen hvalid]
  · have hlow : Bytes.ofBytes ctx.traceId.toArray = Bytes.ofBytes ctx.traceId.buffer % 2 ^ 64 :=
      ofBytes_toArray ctx.traceId.size
    rw [hout, traceIdNumber_of_buffer (Or.inl hlen)]
    constructor
    · omega
    · omega

/-- The context comes back from its headers. -/
def RoundTripsDatadog (config : Config) (random : Identifier) (ctx : SpanContext) : Prop :=
  ∃ out, ArrivesDatadog config random ctx out ∧ SameDatadog ctx out

/-- **The Datadog round trip.**  A context with tags of the patterns, whose keys do not hold the
`=` that the header separates keys and values with, comes back from its headers exactly when it is
`Sent`. -/
theorem roundTrips_datadog_iff (h : Injectable config ctx)
    (hkey : ∀ e ∈ injectedTags ctx, unit '=' ∉ e.1) (random : Identifier) :
    RoundTripsDatadog config random ctx ↔ Sent ctx := by
  constructor
  · rintro ⟨out, harrives, hsame⟩
    have hpos : Bytes.ofBytes ctx.traceId.toArray ≠ 0 := fun hzero =>
      not_arrives_of_zero hzero random out harrives
    obtain ⟨out', harrives', hbuffer, -, hpriority, horigin, htags⟩ :=
      exists_arrivesDatadog h hpos random
    obtain rfl := arrivesDatadog_unique harrives harrives'
    have hentries := congrArg OrderedMap.entries htags
    rw [entries_arrivedTags h hkey] at hentries
    have hread := (tags_arrivesDatadog ctx).mp (hentries.symm.trans hsame.tags)
    refine ⟨hpos, ?_, ?_, ?_, hread.1, hread.2⟩
    · exact (traceId_arrivesDatadog h hread.2 hbuffer hsame.tags).mp hsame.traceId
    · exact (priority_arrivesDatadog _).mp (hpriority.symm.trans hsame.priority)
    · exact (origin_arrivesDatadog _).mp (horigin.symm.trans hsame.origin)
  · intro hsent
    obtain ⟨out, harrives, hbuffer, hspan, hpriority, horigin, htags⟩ :=
      exists_arrivesDatadog h hsent.lower random
    have hentries := congrArg OrderedMap.entries htags
    rw [entries_arrivedTags h hkey] at hentries
    have hpropagated : out.trace.tags.entries = propagatedTags ctx :=
      hentries.trans ((tags_arrivesDatadog ctx).mpr ⟨hsent.values, hsent.tid⟩)
    refine ⟨out, harrives, ?_, hspan, ?_, ?_, hpropagated⟩
    · exact (traceId_arrivesDatadog h hsent.tid hbuffer hpropagated).mpr hsent.upper
    · exact hpriority.trans ((priority_arrivesDatadog _).mpr hsent.priority)
    · exact horigin.trans ((origin_arrivesDatadog _).mpr hsent.origin)

/-- A context with one tag. -/
def taggedDatadog (key value : Str) : SpanContext where
  traceId := .word 1
  spanId := some (.word 2)
  sampling := { priority := some .one }
  trace := { tags := .ofEntries [(key, value)] }

theorem injectable_taggedDatadog {key value : Str} (hk : tagKeyExpr key = true)
    (hv : tagValueExpr value = true) (hlen : key.length + value.length < 512) :
    Injectable {} (taggedDatadog key value) := by
  have hentries : (taggedDatadog key value).trace.tags.entries = [(key, value)] := rfl
  refine ⟨⟨_, rfl, Bytes.length_toBytes 8 2⟩, Or.inl (Bytes.length_toBytes 8 1),
    fun e he _ => ?_, ?_⟩
  · rw [hentries, mem_singleton] at he
    subst he
    exact ⟨hk, hv⟩
  · rw [tagsText, injectedTags, hentries]
    by_cases hinj : isInjected (key, value) = true
    · rw [filter_cons_of_pos hinj, filter_nil, map_singleton, Str.join_singleton,
        tagPair, length_append, length_cons]
      dsimp only
      omega
    · rw [filter_cons_of_neg hinj]
      exact Nat.zero_le _

/-- A tag whose value holds the separator comes back. -/
theorem roundTrips_datadog_iff_separator :
    RoundTripsDatadog {} (.word 0) (taggedDatadog (lit "_dd.p.usr.id") (lit "dXNlcg==")) ↔
      Sent (taggedDatadog (lit "_dd.p.usr.id") (lit "dXNlcg==")) := by
  refine roundTrips_datadog_iff
    (injectable_taggedDatadog (by decide) (by decide) (by decide)) (fun e he => ?_) (.word 0)
  rw [mem_singleton.mp (show e ∈ [(lit "_dd.p.usr.id", lit "dXNlcg==")] from he)]
  decide

/-- The tags that a context with one tag comes back with. -/
theorem tags_of_roundTrips {key value : Str} (h : Injectable {} (taggedDatadog key value))
    {random : Identifier} (hround : RoundTripsDatadog {} random (taggedDatadog key value)) :
    (arrivedTags {} (taggedDatadog key value)).entries =
      propagatedTags (taggedDatadog key value) := by
  obtain ⟨out, harrives, hsame⟩ := hround
  have hpos : Bytes.ofBytes (Identifier.word 1).toArray ≠ 0 := by decide
  obtain ⟨out', harrives', -, -, -, -, htags⟩ := exists_arrivesDatadog h hpos random
  obtain rfl := arrivesDatadog_unique harrives harrives'
  rw [← htags, hsame.tags]

/-- Neither an empty value nor a key with a `=` comes back, though both are of the patterns. -/
theorem not_roundTrips_datadog : (Injectable {} (taggedDatadog (lit "_dd.p.a") []) ∧
      ¬ RoundTripsDatadog {} (.word 0) (taggedDatadog (lit "_dd.p.a") [])) ∧
    (Injectable {} (taggedDatadog (lit "_dd.p.a=b") (lit "c")) ∧
      ¬ RoundTripsDatadog {} (.word 0) (taggedDatadog (lit "_dd.p.a=b") (lit "c"))) := by
  have hempty : Injectable {} (taggedDatadog (lit "_dd.p.a") []) :=
    injectable_taggedDatadog (by decide) (by decide) (by decide)
  have hequals : Injectable {} (taggedDatadog (lit "_dd.p.a=b") (lit "c")) :=
    injectable_taggedDatadog (by decide) (by decide) (by decide)
  refine ⟨⟨hempty, fun hround => ?_⟩, hequals, fun hround => ?_⟩
  · exact absurd (tags_of_roundTrips hempty hround) (by decide +kernel)
  · exact absurd (tags_of_roundTrips hequals hround) (by decide +kernel)

end DdTrace.TextMap
