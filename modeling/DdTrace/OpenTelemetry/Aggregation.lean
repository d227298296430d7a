import DdTrace.OpenTelemetry.PeriodicMetricReader

/-!
# What one collection exports

The measurements of one metric and one attribute set are a stream.  `aggregate` keys the state of a
stream by one joined text; `Distinct` says of a list of measurements that this text tells the
streams apart.

* `summaryOf` says without a loop what a histogram is to report: how many values, their sum, the
  least and the greatest, and how many there are in each bucket.  `summaryOf_concat` is the loop.
* `kept` are the measurements of a collection that are not dropped for the number of metrics.
* `pointOf` is the point of a stream from the measurements before the collection and those in it.
* `Aggregated` is the invariant of the loop of `aggregate`: the cumulative state and the points are
  those of the measurements so far.  `aggregated_add` is one round.
-/

namespace DdTrace.OpenTelemetry

open Library Str OrderedMap List Option

variable {α : Type} {json : α → Str} {settings : Settings}

/-! ## Streams -/

/-- The two measurements are of one metric and one attribute set. -/
def SameStream (m m' : Measurement α) : Prop :=
  m.instrumentationScope = m'.instrumentationScope ∧ m.name = m'.name ∧ m.type = m'.type ∧
    ∀ key, m.attributes.get? key = m'.attributes.get? key

/-- The key of a metric and that of an attribute set. -/
def Measurement.stream (json : α → Str) (m : Measurement α) : Str × Str :=
  (m.metricKey, m.attrKey json)

/-- Different streams have different texts. -/
def Distinct (json : α → Str) (ms : List (Measurement α)) : Prop :=
  ∀ m ∈ ms, ∀ m' ∈ ms, m.stateKey json = m'.stateKey json → SameStream m m'

theorem stableStringify_congr {a b : OrderedMap Str α} (h : ∀ key, a.get? key = b.get? key) :
    stableStringify json a = stableStringify json b := by
  have hperm : a.keys.Perm b.keys := by
    refine (perm_ext_iff_of_nodup a.nodup_keys b.nodup_keys).mpr fun key => ?_
    rw [mem_keys_iff, mem_keys_iff, h]
  have hsort : a.keys.insertionSort (· ≤ ·) = b.keys.insertionSort (· ≤ ·) :=
    List.Perm.eq_of_pairwise' (pairwise_insertionSort _ _) (pairwise_insertionSort _ _)
      (((perm_insertionSort _ _).trans hperm).trans (perm_insertionSort _ _).symm)
  rw [stableStringify, stableStringify, hsort]
  simp only [h]

variable {m : Measurement α} {ms : List (Measurement α)} {metric : AggregatedMetric α}
  {history : List (Measurement α)} {acc : Aggregation α} {last last' : OrderedMap Str Value}
  {m' : Measurement α} {before : List (Measurement α)} {attrKey : Str} {done : List (Measurement α)}
  {metric' : AggregatedMetric α} {dataPoint : DataPoint α} {batch : List (Measurement α)}
  {metrics : OrderedMap Str (AggregatedMetric α)}

theorem SameStream.stream_eq (h : SameStream m m') :
    m.stream json = m'.stream json := by
  obtain ⟨hscope, hname, htype, hattributes⟩ := h
  rw [Measurement.stream, Measurement.stream, Instrument.metricKey, Instrument.metricKey, hscope,
    hname, htype, Measurement.attrKey, Measurement.attrKey, stableStringify_congr hattributes]

theorem stateKey_of_stream (h : m.stream json = m'.stream json) :
    m.stateKey json = m'.stateKey json :=
  congrArg (fun stream : Str × Str => getStateKey stream.1 stream.2) h

theorem Distinct.stream_eq (h : Distinct json ms) (hm : m ∈ ms) (hm' : m' ∈ ms)
    (hkey : m.stateKey json = m'.stateKey json) :
    m.stream json = m'.stream json := (h m hm m' hm' hkey).stream_eq

/-- The type is the last part of a metric key. -/
theorem type_of_metricKey {i j : Instrument} (h : i.metricKey = j.metricKey) : i.type = j.type := by
  have hsep : ∀ t : MetricType, unit ':' ∉ t.text := by
    intro t
    cases t <;> decide
  have hlast : ∀ (s : Str) (t : MetricType),
      (s ++ lit ":" ++ t.text).reverse.takeWhile (fun u => decide (u ≠ unit ':')) =
        t.text.reverse := by
    intro s t
    have hall : ∀ u ∈ t.text.reverse, decide (u ≠ unit ':') = true := by
      intro u hu
      exact decide_eq_true fun heq => hsep t (heq ▸ mem_reverse.mp hu)
    rw [reverse_append, takeWhile_append_of_pos hall, reverse_append]
    show t.text.reverse ++ List.takeWhile _ (unit ':' :: s.reverse) = _
    rw [takeWhile_cons_of_neg (by simp), append_nil]
  have hinj : ∀ t t' : MetricType, t.text = t'.text → t = t' := by
    intro t t'
    cases t <;> cases t' <;> decide
  have hi := hlast (getScopeKey i.instrumentationScope ++ lit ":" ++ i.name) i.type
  have hj := hlast (getScopeKey j.instrumentationScope ++ lit ":" ++ j.name) j.type
  rw [← Instrument.metricKey] at hi hj
  rw [h, hj] at hi
  exact hinj _ _ (reverse_inj.mp hi.symm)

/-! ## What is counted -/

/-- What a histogram is to report of its values. -/
def summaryOf (values : List ℚ) : Summary where
  count := values.length
  sum := values.sum
  min := values.min?
  max := values.max?
  bucketCounts := (List.range (DEFAULT_HISTOGRAM_BUCKETS.length + 1)).map fun i =>
    (values.countP fun value => Summary.bucketIndex value = i : ℕ)

theorem bucketIndex_le (value : ℚ) :
    Summary.bucketIndex value ≤ DEFAULT_HISTOGRAM_BUCKETS.length := findIdx_le_length

/-- **A further value** is counted. -/
theorem summaryOf_concat (values : List ℚ) (value : ℚ) :
    summaryOf (values ++ [value]) = (summaryOf values).add value := by
  rw [summaryOf, summaryOf, Summary.add, Summary.mk.injEq]
  refine ⟨?_, ?_, ?_, ?_, ?_⟩
  · rw [length_append]
    exact Int.natCast_succ _
  · rw [sum_append, sum_singleton]
  · cases values with
    | nil => rfl
    | cons v vs => simp only [cons_append, min?_cons', foldl_append]; rfl
  · cases values with
    | nil => rfl
    | cons v vs => simp only [cons_append, max?_cons', foldl_append]; rfl
  · refine ext_getElem (by simp) fun i hi hi' => ?_
    by_cases h : Summary.bucketIndex value = i
    · simp [h]
    · simp [h]

/-- The buckets hold every value once. -/
theorem sum_bucketCounts (values : List ℚ) :
    (summaryOf values).bucketCounts.sum = (summaryOf values).count := by
  induction values using List.reverseRecOn with
  | nil => rfl
  | append_singleton values value ih =>
    rw [summaryOf_concat]
    show ((summaryOf values).bucketCounts.modify _ _).sum = (summaryOf values).count + 1
    rw [← ih]
    have hsum : ∀ (l : List ℤ) (i : ℕ), i < l.length → (l.modify i (· + 1)).sum = l.sum + 1 := by
      intro l
      induction l with
      | nil => exact fun i hi => absurd hi (Nat.not_lt_zero i)
      | cons c l ihl =>
        intro i hi
        cases i with
        | zero =>
          rw [modify_zero_cons, sum_cons, sum_cons]
          ring
        | succ i =>
          rw [modify_succ_cons, sum_cons, sum_cons, ihl i (Nat.lt_of_succ_lt_succ hi)]
          ring
    refine hsum _ _ ?_
    exact Nat.lt_succ_of_le (bucketIndex_le value)

/-- **The delta of a histogram** counts the values that came last. -/
theorem minus_summaryOf (before values : List ℚ) :
    (summaryOf (before ++ values)).minus (summaryOf before) =
      { summaryOf values with
        min := (summaryOf (before ++ values)).min
        max := (summaryOf (before ++ values)).max } := by
  rw [Summary.minus, Summary.mk.injEq]
  refine ⟨?_, ?_, rfl, rfl, ?_⟩
  · simp [summaryOf]
  · simp [summaryOf]
  · refine ext_getElem (by simp [summaryOf]) fun i hi hi' => ?_
    have hi'' : i < DEFAULT_HISTOGRAM_BUCKETS.length + 1 := by simpa [summaryOf] using hi'
    simp [summaryOf, getElem?_range hi'']

/-! ## What is kept -/

/-- The metric keys in the order in which they first occur. -/
def metricKeys (ms : List (Measurement α)) : List Str :=
  ms.foldl (fun keys m => addKey keys m.metricKey) []

/-- The metrics that a collection exports. -/
def keptKeys (settings : Settings) (ms : List (Measurement α)) : List Str :=
  (metricKeys ms).take settings.maxBatchedQueueSize

/-- The measurements whose metric a collection exports. -/
def kept (settings : Settings) (ms : List (Measurement α)) : List (Measurement α) :=
  ms.filter fun m => includes (keptKeys settings ms) m.metricKey

theorem metricKeys_concat (ms : List (Measurement α)) (m : Measurement α) :
    metricKeys (ms ++ [m]) = addKey (metricKeys ms) m.metricKey := by
  rw [metricKeys, foldl_append]
  rfl

theorem metricKey_mem_metricKeys (h : m ∈ ms) :
    m.metricKey ∈ metricKeys ms := by
  induction ms using List.reverseRecOn with
  | nil => exact absurd h not_mem_nil
  | append_singleton ms last ih =>
    rw [metricKeys_concat, addKey]
    rcases mem_append.mp h with h | h
    · split
      · exact ih h
      · exact mem_append_left _ (ih h)
    · rw [mem_singleton.mp h]
      split
      · next hmem => exact hmem
      · exact mem_append_right _ (mem_singleton_self _)

theorem mem_take_addKey_iff {ks : List Str} {k j : Str} (n : ℕ) (hj : j ∈ ks) :
    j ∈ (addKey ks k).take n ↔ j ∈ ks.take n := by
  unfold addKey
  split
  · exact Iff.rfl
  · next hk =>
    rw [take_append, mem_append]
    refine ⟨fun h => h.resolve_right fun hlast => ?_, Or.inl⟩
    rw [mem_singleton.mp (mem_of_mem_take hlast)] at hj
    exact hk hj

theorem kept_concat (ms : List (Measurement α)) (m : Measurement α) : kept settings (ms ++ [m]) =
      kept settings ms ++ if m.metricKey ∈ keptKeys settings (ms ++ [m]) then [m] else [] := by
  rw [kept, filter_append]
  congr 1
  · refine filter_congr fun m' hm' => ?_
    rw [Bool.eq_iff_iff, includes_eq_true_iff, includes_eq_true_iff, keptKeys, metricKeys_concat]
    exact mem_take_addKey_iff _ (metricKey_mem_metricKeys hm')
  · rw [filter_singleton]
    by_cases h : m.metricKey ∈ keptKeys settings (ms ++ [m])
    · rw [if_pos h, includes_eq_true_iff.mpr h]
      rfl
    · rw [if_neg h, includes_eq_false_iff.mpr h]
      rfl

theorem mem_of_mem_kept (h : m ∈ kept settings ms) : m ∈ ms := mem_of_mem_filter h

/-- The metric of a measurement that follows is exported when it is among those exported so far, or
there is room for one more. -/
theorem keptKeys_concat (ms : List (Measurement α)) (m : Measurement α) :
    keptKeys settings (ms ++ [m]) =
      if m.metricKey ∈ keptKeys settings ms then keptKeys settings ms
      else if settings.maxBatchedQueueSize ≤ (keptKeys settings ms).length then keptKeys settings ms
      else keptKeys settings ms ++ [m.metricKey] := by
  have htake : keptKeys settings (ms ++ [m]) =
      (addKey (metricKeys ms) m.metricKey).take settings.maxBatchedQueueSize := by
    rw [keptKeys, metricKeys_concat]
  rw [htake, addKey]
  by_cases hmem : m.metricKey ∈ keptKeys settings ms
  · rw [if_pos hmem, if_pos (mem_of_mem_take hmem), keptKeys]
  · rw [if_neg hmem]
    have hlength : (keptKeys settings ms).length =
        min settings.maxBatchedQueueSize (metricKeys ms).length := length_take
    by_cases hroom : settings.maxBatchedQueueSize ≤ (keptKeys settings ms).length
    · have hlong : settings.maxBatchedQueueSize ≤ (metricKeys ms).length := by omega
      split
      · rfl
      · rw [take_append_of_le_length hlong, keptKeys]
    · rw [if_neg hroom]
      have hall : keptKeys settings ms = metricKeys ms := take_of_length_le (by omega)
      rw [hall] at hmem ⊢
      rw [if_neg hmem, take_of_length_le]
      rw [length_append, length_singleton]
      omega

/-! ## States and points -/

/-- A state is kept for the type: the others report the last value. -/
def MetricType.accumulates (type : MetricType) : Bool :=
  type = .counter || type = .updowncounter || type = .histogram

/-- What the type makes of the values of a stream. -/
def MetricType.total (type : MetricType) (values : List ℚ) : Value :=
  match type with
  | .counter | .updowncounter => .number values.sum
  | .histogram => .histogram (summaryOf values)
  | .observableCounter | .observableUpDownCounter | .gauge => .number (values.getLast?.getD 0)

/-- The start time of a stream that begins with the measurement. -/
def startOf (settings : Settings) (m : Measurement α) : ℕ :=
  if settings.getTemporality m.type = .cumulative then settings.startTime else m.timestamp

/-- The cumulative state of a stream. -/
def cumulativeOf (settings : Settings) : List (Measurement α) → Option CumulativeState
  | [] => none
  | m :: ms =>
    if m.type.accumulates then
      some ⟨m.type.total ((m :: ms).map Measurement.value), startOf settings m⟩
    else none

/-- The point of a stream, before anything is taken from it: `before` are the measurements of the
earlier collections, `ms` those of this one. -/
def pointOf (json : α → Str) (settings : Settings) (before : List (Measurement α)) :
    List (Measurement α) → Option (DataPoint α)
  | [] => none
  | m :: ms =>
    some
      { attributes := m.attributes
        attrKey := m.attrKey json
        startTimeUnixNano :=
          if m.type.accumulates then (before ++ m :: ms).head?.map (startOf settings) else none
        timeUnixNano := ((m :: ms).getLast?.map Measurement.timestamp).getD 0
        value := m.type.total ((before ++ m :: ms).map Measurement.value) }

theorem cumulativeOf_concat (settings : Settings) (htype : ∀ m' ∈ ms, m'.type = m.type)
    (hacc : m.type.accumulates = true) :
    let state := (cumulativeOf settings ms).getD ⟨m.type.total [], startOf settings m⟩
    state.value = m.type.total (ms.map Measurement.value) ∧
      (ms ++ [m]).head?.map (startOf settings) = some state.startTime ∧
      cumulativeOf settings (ms ++ [m]) =
        some ⟨m.type.total ((ms ++ [m]).map Measurement.value), state.startTime⟩ := by
  cases ms with
  | nil => exact ⟨rfl, rfl, if_pos hacc⟩
  | cons m' ms =>
    have hm' := htype m' mem_cons_self
    rw [cons_append, cumulativeOf, cumulativeOf, hm', if_pos hacc, if_pos hacc]
    exact ⟨rfl, rfl, rfl⟩

theorem cumulativeOf_eq_none (settings : Settings) (htype : ∀ m' ∈ ms, m'.type = m.type)
    (hacc : m.type.accumulates = false) :
    cumulativeOf settings ms = none := by
  cases ms with
  | nil => rfl
  | cons m' ms =>
    rw [cumulativeOf, htype m' mem_cons_self, hacc]
    rfl

theorem pointOf_concat (htype : ∀ m' ∈ ms, m'.type = m.type) (value : Value)
    (hvalue : value = m.type.total ((before ++ (ms ++ [m])).map Measurement.value))
    (start : Option ℕ) (hstart : start =
      if m.type.accumulates then (before ++ (ms ++ [m])).head?.map (startOf settings) else none) :
    pointOf json settings before (ms ++ [m]) = some { (pointOf json settings before ms).getD
          ⟨m.attributes, m.attrKey json, start, m.timestamp, value⟩ with
        value := value
        timeUnixNano := m.timestamp } := by
  cases ms with
  | nil =>
    rw [hvalue, hstart]
    rfl
  | cons m' ms =>
    have hm' := htype m' mem_cons_self
    have hlast : ((m' :: (ms ++ [m])).getLast?.map Measurement.timestamp).getD 0 = m.timestamp := by
      rw [← cons_append, getLast?_concat]
      rfl
    have hhead : (before ++ m' :: (ms ++ [m])).head? = (before ++ m' :: ms).head? := by
      cases before <;> rfl
    rw [cons_append, pointOf, pointOf, hm', hlast, hvalue, hhead]
    rfl

/-- What a value of the type becomes with a further measurement. -/
def MetricType.add (type : MetricType) (value : ℚ) : Value → Option Value :=
  match type with
  | .counter | .updowncounter => Value.addNumber value
  | .histogram => Value.addObservation value
  | .observableCounter | .observableUpDownCounter | .gauge => fun _ => some (.number value)

theorem add_total (type : MetricType) (values : List ℚ) (value : ℚ) :
    type.add value (type.total values) = some (type.total (values ++ [value])) := by
  cases type with
  | histogram =>
    show some (Value.histogram _) = some (Value.histogram _)
    rw [summaryOf_concat]
  | counter | updowncounter =>
    show some (Value.number _) = some (Value.number _)
    rw [sum_append, sum_singleton]
  | observableCounter | observableUpDownCounter | gauge =>
    show some _ = some (Value.number _)
    rw [getLast?_concat, getD_some]

theorem accumulate_eq {stateKey : Str}
    {initial value : Value} {add : Value → Option Value} {state : CumulativeState}
    {cumulativeState : OrderedMap Str CumulativeState}
    (hstate : (cumulativeState.get? stateKey).getD ⟨initial,
      if metric.temporality = .cumulative then settings.startTime else m.timestamp⟩ = state)
    (hadd : add state.value = some value) :
    metric.accumulate settings m attrKey stateKey initial add cumulativeState =
      some (metric.setDataPoint m attrKey (some state.startTime) value,
        cumulativeState.set stateKey ⟨value, state.startTime⟩) := by
  rw [AggregatedMetric.accumulate, hstate, hadd]
  rfl

theorem addTo_eq (acc : Aggregation α) (metric : AggregatedMetric α) (m : Measurement α) :
    acc.addTo json settings metric m = (if m.type.accumulates then
        metric.accumulate settings m (m.attrKey json) (m.stateKey json) (m.type.total [])
          (m.type.add m.value) acc.cumulativeState
      else some (metric.aggregateLastValue m (m.attrKey json), acc.cumulativeState)).map
        fun result => ⟨acc.metricsMap.set m.metricKey result.1, result.2⟩ := by
  unfold Aggregation.addTo
  cases m.type <;> rfl

/-- The point that is written is that of the stream with the measurement. -/
theorem setDataPoint_stream (htype : ∀ m' ∈ ms, m'.type = m.type)
    (hpoint : metric.dataPointMap.get? (m.attrKey json) = pointOf json settings before ms)
    (start : Option ℕ) (hstart : start =
      if m.type.accumulates then (before ++ (ms ++ [m])).head?.map (startOf settings) else none)
    {value : Value}
    (hvalue : value = m.type.total ((before ++ (ms ++ [m])).map Measurement.value)) :
    ∃ dataPoint, pointOf json settings before (ms ++ [m]) = some dataPoint ∧
      metric.setDataPoint m (m.attrKey json) start value =
        { metric with dataPointMap := metric.dataPointMap.set (m.attrKey json) dataPoint } := by
  refine ⟨_, pointOf_concat htype value hvalue start hstart, ?_⟩
  rw [AggregatedMetric.setDataPoint, hpoint]

/-- **A measurement of a stream**: `addTo` makes the state and the point of the stream those with
the measurement, and leaves the other states. -/
theorem addTo_stream (acc : Aggregation α) (metric : AggregatedMetric α) (m : Measurement α)
    (before ms : List (Measurement α))
    (htemporality : metric.temporality = settings.getTemporality m.type)
    (htype : ∀ m' ∈ before ++ ms, m'.type = m.type)
    (hstate : acc.cumulativeState.get? (m.stateKey json) = cumulativeOf settings (before ++ ms))
    (hpoint : metric.dataPointMap.get? (m.attrKey json) = pointOf json settings before ms) :
    ∃ dataPoint cumulativeState, acc.addTo json settings metric m = some
        ⟨acc.metricsMap.set m.metricKey
          { metric with dataPointMap := metric.dataPointMap.set (m.attrKey json) dataPoint },
          cumulativeState⟩ ∧
      pointOf json settings before (ms ++ [m]) = some dataPoint ∧
      cumulativeState.get? (m.stateKey json) = cumulativeOf settings (before ++ (ms ++ [m])) ∧
      ∀ k, k ≠ m.stateKey json → cumulativeState.get? k = acc.cumulativeState.get? k := by
  have htype' : ∀ m' ∈ ms, m'.type = m.type := fun m' hm' =>
    htype m' (mem_append_right _ hm')
  have hadd := add_total m.type ((before ++ ms).map Measurement.value) m.value
  have hvalues : (before ++ ms).map Measurement.value ++ [m.value] =
      (before ++ (ms ++ [m])).map Measurement.value := by
    show _ ++ List.map Measurement.value [m] = _
    rw [← map_append, append_assoc]
  rw [hvalues] at hadd
  rw [addTo_eq]
  by_cases hacc : m.type.accumulates = true
  · obtain ⟨hvalue, hstart, hcumulative⟩ :=
      cumulativeOf_concat settings htype hacc
    rw [append_assoc] at hcumulative hstart
    have hinitial : (acc.cumulativeState.get? (m.stateKey json)).getD ⟨m.type.total [],
        if metric.temporality = .cumulative then settings.startTime else m.timestamp⟩ =
        (cumulativeOf settings (before ++ ms)).getD ⟨m.type.total [], startOf settings m⟩ := by
      rw [hstate, htemporality, startOf]
    obtain ⟨dataPoint, hdataPoint, hset⟩ := setDataPoint_stream htype' hpoint _
      ((if_pos hacc).trans hstart).symm rfl
    rw [if_pos hacc, accumulate_eq hinitial (by rw [hvalue]; exact hadd), hset]
    refine ⟨dataPoint, _, rfl, hdataPoint, ?_, fun k hk => get?_set_of_ne _ hk _⟩
    rw [get?_set_self, hcumulative]
  · have hlast : Value.number m.value =
        m.type.total ((before ++ (ms ++ [m])).map Measurement.value) := by
      cases htype : m.type <;> simp_all [MetricType.accumulates, MetricType.total]
    obtain ⟨dataPoint, hdataPoint, hset⟩ := setDataPoint_stream htype' hpoint none
      (by rw [if_neg hacc]) hlast
    rw [if_neg hacc, AggregatedMetric.aggregateLastValue, hset]
    rw [Bool.not_eq_true] at hacc
    refine ⟨dataPoint, _, rfl, hdataPoint, ?_, fun k _ => rfl⟩
    rw [hstate, cumulativeOf_eq_none settings htype hacc,
      cumulativeOf_eq_none settings (m := m) ?_ hacc]
    intro m' hm'
    rw [← append_assoc] at hm'
    rcases mem_append.mp hm' with hm' | hm'
    · exact htype m' hm'
    · rw [mem_singleton.mp hm']

/-! ## The loop -/

/-- The measurements whose state has a key. -/
def ofKey (json : α → Str) (k : Str) (ms : List (Measurement α)) : List (Measurement α) :=
  ms.filter fun m => m.stateKey json = k

/-- The measurements of a stream. -/
def ofStream (json : α → Str) (stream : Str × Str) (ms : List (Measurement α)) :
    List (Measurement α) := ms.filter fun m => m.stream json = stream

/-- The point of a stream among the metrics. -/
def pointAt (metrics : OrderedMap Str (AggregatedMetric α)) (stream : Str × Str) :
    Option (DataPoint α) :=
  (metrics.get? stream.1).bind fun metric => metric.dataPointMap.get? stream.2

theorem ofKey_append (k : Str) (ms ms' : List (Measurement α)) :
    ofKey json k (ms ++ ms') = ofKey json k ms ++ ofKey json k ms' := filter_append ..

theorem ofStream_append (stream : Str × Str) (ms ms' : List (Measurement α)) :
    ofStream json stream (ms ++ ms') = ofStream json stream ms ++ ofStream json stream ms' :=
  filter_append ..

theorem ofStream_singleton_self (m : Measurement α) :
    ofStream json (m.stream json) [m] = [m] := filter_cons_of_pos (decide_eq_true rfl)

theorem ofStream_singleton_of_ne {stream : Str × Str}
    (h : stream ≠ m.stream json) : ofStream json stream [m] = [] :=
  filter_cons_of_neg (by simpa using Ne.symm h)

/-- Where the texts tell the streams apart, those with the text of a stream are the stream. -/
theorem ofKey_eq_ofStream
    (h : ∀ m' ∈ ms, m'.stateKey json = m.stateKey json → m'.stream json = m.stream json) :
    ofKey json (m.stateKey json) ms = ofStream json (m.stream json) ms := by
  refine filter_congr fun m' hm' => ?_
  rw [decide_eq_decide]
  exact ⟨h m' hm', stateKey_of_stream⟩

/-- **The invariant of the loop**: `history` was exported by earlier collections, `done` are the
measurements of this one so far. -/
structure Aggregated (json : α → Str) (settings : Settings) (history done : List (Measurement α))
    (acc : Aggregation α) : Prop where
  keys : acc.metricsMap.keys = keptKeys settings done
  metric : ∀ key metric, acc.metricsMap.get? key = some metric →
    metric.metricKey = key ∧ metric.temporality = settings.getTemporality metric.type
  state : ∀ k, acc.cumulativeState.get? k =
    cumulativeOf settings (ofKey json k (history ++ kept settings done))
  point : ∀ stream, pointAt acc.metricsMap stream =
    pointOf json settings (ofStream json stream history) (ofStream json stream (kept settings done))

theorem type_of_mem_ofStream (ms : List (Measurement α))
    (h : m' ∈ ofStream json (m.stream json) ms) : m'.type = m.type :=
  type_of_metricKey (congrArg Prod.fst (of_decide_eq_true (mem_filter.mp h).2))

/-- The loop goes on with the metric `metric`, new or not. -/
theorem aggregated_addTo (h : Aggregated json settings history done acc)
    (hdistinct : ∀ m' ∈ history ++ done, m'.stateKey json = m.stateKey json →
      m'.stream json = m.stream json)
    (hkey : metric.metricKey = m.metricKey)
    (htemporality : metric.temporality = settings.getTemporality metric.type)
    (hpoints : ∀ attrKey, metric.dataPointMap.get? attrKey =
      pointAt acc.metricsMap (m.metricKey, attrKey))
    (hkept : keptKeys settings (done ++ [m]) = addKey (keptKeys settings done) m.metricKey) :
    ∃ acc', acc.addTo json settings metric m = some acc' ∧
      Aggregated json settings history (done ++ [m]) acc' := by
  have htype := type_of_metricKey hkey
  have hmem : m.metricKey ∈ keptKeys settings (done ++ [m]) := by
    rw [hkept, addKey]
    split
    · next hold => exact hold
    · exact mem_append_right _ (mem_singleton_self _)
  have hconcat : kept settings (done ++ [m]) = kept settings done ++ [m] := by
    rw [kept_concat, if_pos hmem]
  have hsame : ofKey json (m.stateKey json) (history ++ kept settings done) =
      ofStream json (m.stream json) history ++
        ofStream json (m.stream json) (kept settings done) := by
    rw [← ofStream_append]
    refine ofKey_eq_ofStream fun m' hm' => hdistinct m' ?_
    rcases mem_append.mp hm' with hm' | hm'
    · exact mem_append_left _ hm'
    · exact mem_append_right _ (mem_of_mem_kept hm')
  obtain ⟨dataPoint, cumulativeState, hadd, hdataPoint, hself, hother⟩ :=
    addTo_stream acc metric m (ofStream json (m.stream json) history)
      (ofStream json (m.stream json) (kept settings done)) (by rw [htemporality, htype])
      (fun m' hm' => by
        rw [← ofStream_append] at hm'
        exact type_of_mem_ofStream _ hm')
      (by rw [h.state, hsame]) (by rw [hpoints]; exact h.point _)
  refine ⟨_, hadd, ?_, fun key metric' hget => ?_, fun k => ?_, fun stream => ?_⟩
  · rw [keys_set, h.keys, hkept]
  · rw [get?_set] at hget
    split at hget
    · next heq =>
      rw [← some.inj hget, heq]
      exact ⟨hkey, htemporality⟩
    · exact h.metric key metric' hget
  · rw [hconcat, ← append_assoc, ofKey_append]
    by_cases hk : k = m.stateKey json
    · subst hk
      have hsingle : ofKey json (m.stateKey json) [m] = [m] :=
        filter_cons_of_pos (decide_eq_true rfl)
      rw [hself, hsame, hsingle, append_assoc]
    · have hsingle : ofKey json k [m] = [] :=
        filter_cons_of_neg (by simpa using Ne.symm hk)
      rw [hother k hk, h.state, hsingle, append_nil]
  · rw [hconcat, ofStream_append]
    by_cases hstream : stream = m.stream json
    · rw [hstream, ofStream_singleton_self, hdataPoint]
      show ((acc.metricsMap.set m.metricKey _).get? m.metricKey).bind _ = _
      rw [get?_set_self]
      exact get?_set_self ..
    · rw [ofStream_singleton_of_ne hstream, append_nil, ← h.point, pointAt, pointAt]
      rw [get?_set]
      split
      · next hfst =>
        have hsnd : stream.2 ≠ m.attrKey json := fun heq => hstream (Prod.ext hfst heq)
        rw [bind_some, get?_set_of_ne _ hsnd, hpoints, pointAt, hfst]
      · rfl

/-- **One round of the loop.** -/
theorem aggregated_add (h : Aggregated json settings history done acc)
    (hdistinct : ∀ m' ∈ history ++ done, m'.stateKey json = m.stateKey json →
      m'.stream json = m.stream json) :
    ∃ acc', acc.add json settings m = some acc' ∧
      Aggregated json settings history (done ++ [m]) acc' := by
  have hlength : acc.metricsMap.entries.length = (keptKeys settings done).length := by
    rw [← h.keys, OrderedMap.keys, length_map]
  unfold Aggregation.add
  cases hget : acc.metricsMap.get? m.metricKey with
  | some metric =>
    have hmem : m.metricKey ∈ keptKeys settings done := by
      rw [← h.keys]
      exact mem_keys_iff.mpr ⟨metric, hget⟩
    obtain ⟨hkey, htemporality⟩ := h.metric _ _ hget
    refine aggregated_addTo h hdistinct hkey htemporality (fun attrKey => ?_) ?_
    · rw [pointAt, hget, bind_some]
    · rw [keptKeys_concat, if_pos hmem, addKey, if_pos hmem]
  | none =>
    have hmem : m.metricKey ∉ keptKeys settings done := by
      rw [← h.keys]
      exact get?_eq_none_iff.mp hget
    by_cases hfull : settings.maxBatchedQueueSize ≤ acc.metricsMap.entries.length
    · rw [if_pos hfull]
      rw [hlength] at hfull
      have hkept : keptKeys settings (done ++ [m]) = keptKeys settings done := by
        rw [keptKeys_concat, if_neg hmem, if_pos hfull]
      have hconcat : kept settings (done ++ [m]) = kept settings done := by
        rw [kept_concat, hkept, if_neg hmem, append_nil]
      refine ⟨acc, rfl, ?_, h.metric, ?_, ?_⟩
      · rw [h.keys, hkept]
      · rw [hconcat]
        exact h.state
      · rw [hconcat]
        exact h.point
    · rw [if_neg hfull]
      rw [hlength] at hfull
      refine aggregated_addTo h hdistinct rfl rfl (fun attrKey => ?_) ?_
      · rw [pointAt, hget]
        rfl
      · rw [keptKeys_concat, if_neg hmem, if_neg hfull, addKey, if_neg hmem]

/-- **The whole loop.** -/
theorem aggregated_foldlM (h : Aggregated json settings history done acc)
    (ms : List (Measurement α))
    (hdistinct : Distinct json (history ++ (done ++ ms))) :
    ∃ acc', ms.foldlM (Aggregation.add json settings) acc = some acc' ∧
      Aggregated json settings history (done ++ ms) acc' := by
  induction ms generalizing done acc with
  | nil => exact ⟨acc, rfl, by rwa [append_nil]⟩
  | cons m ms ih =>
    obtain ⟨acc₁, hadd, h₁⟩ := aggregated_add h (m := m) fun m' hm' => by
      refine hdistinct.stream_eq ?_ (by simp)
      rw [← append_assoc]
      exact mem_append_left _ hm'
    rw [append_cons] at hdistinct ⊢
    obtain ⟨acc', hfold, h'⟩ := ih h₁ hdistinct
    refine ⟨acc', ?_, h'⟩
    rw [foldlM_cons, hadd]
    exact hfold

/-! ## Delta temporality -/

/-- What was exported before is taken from the points of the type. -/
def Settings.exportsDelta (settings : Settings) (type : MetricType) : Bool :=
  settings.getTemporality type = .delta && type.isDelta

/-- What is exported last for a stream: its total. -/
def lastOf (settings : Settings) : List (Measurement α) → Option Value
  | [] => none
  | m :: ms =>
    if settings.exportsDelta m.type then some (m.type.total ((m :: ms).map Measurement.value))
    else none

/-- What a point reports: of a delta, the values of this collection, but for the least and the
greatest, which are those of all values so far. -/
def reported (settings : Settings) (type : MetricType) (before values : List ℚ) : Value :=
  if settings.exportsDelta type then
    match type with
    | .counter | .updowncounter => .number values.sum
    | .histogram =>
      .histogram { summaryOf values with
        min := (before ++ values).min?
        max := (before ++ values).max? }
    | .observableCounter | .observableUpDownCounter | .gauge =>
      .number (values.getLast?.getD 0 - before.getLast?.getD 0)
  else type.total (before ++ values)

/-- The point that is exported for a stream. -/
def exportedPoint (json : α → Str) (settings : Settings) (before : List (Measurement α)) :
    List (Measurement α) → Option (DataPoint α)
  | [] => none
  | m :: ms =>
    (pointOf json settings before (m :: ms)).map fun dataPoint =>
      { dataPoint with
        value := reported settings m.type (before.map Measurement.value)
          ((m :: ms).map Measurement.value) }

/-- **What is taken from a total** leaves what is reported. -/
theorem minus_total {type : MetricType} (hdelta : settings.exportsDelta type = true)
    {before values : List ℚ} (hvalues : values ≠ []) :
    (type.total (before ++ values)).minus (some (type.total before)) =
      some (reported settings type before values) := by
  have hlast : (before ++ values).getLast? = values.getLast? := by
    rw [getLast?_append_of_ne_nil _ hvalues]
  unfold reported
  rw [if_pos hdelta]
  rw [Settings.exportsDelta, Bool.and_eq_true] at hdelta
  cases type with
  | counter =>
    show some (Value.number _) = some (Value.number _)
    rw [sum_append, add_sub_cancel_left]
  | histogram =>
    show some (Value.histogram _) = some (Value.histogram _)
    rw [minus_summaryOf]
    rfl
  | observableCounter =>
    show some (Value.number _) = some (Value.number _)
    rw [hlast]
  | updowncounter | observableUpDownCounter | gauge => cases hdelta.2

theorem reported_nil {type : MetricType} (values : List ℚ) :
    reported settings type [] values = type.total values := by
  unfold reported
  split
  · cases type with
    | observableCounter | observableUpDownCounter | gauge =>
      show Value.number _ = Value.number _
      rw [getLast?_nil, getD_none, sub_zero]
    | counter | updowncounter | histogram => rfl
  · rfl

theorem getStateKey_inj {metricKey a b : Str}
    (h : getStateKey metricKey a = getStateKey metricKey b) :
    a = b := append_cancel_left h

/-- A metric none of whose points has the key leaves what was exported under it. -/
theorem frame_deltaMetric {k : Str}
    (hk : ∀ attrKey dataPoint, metric.dataPointMap.get? attrKey = some dataPoint →
      getStateKey metric.metricKey dataPoint.attrKey ≠ k)
    (h : deltaMetric metric last = some (metric', last')) : last'.get? k = last.get? k := by
  unfold deltaMetric at h
  split at h
  · obtain ⟨⟨points, last''⟩, hmap, heq⟩ := map_eq_some_iff.mp h
    rw [Prod.mk.injEq] at heq
    rw [← heq.2]
    refine frame_mapAccum (fun last => OrderedMap.get? last k) ?_ hmap
    intro e he s v t hstep
    obtain ⟨value, -, hstep⟩ := map_eq_some_iff.mp hstep
    rw [Prod.mk.injEq] at hstep
    rw [← hstep.2, get?_set_of_ne]
    exact Ne.symm (hk e.1 e.2 (mem_entries_iff.mp he))
  · rw [some.injEq, Prod.mk.injEq] at h
    rw [h.2]

/-- **One point of a metric**, whose points are under their own keys. -/
theorem point_deltaMetric (hdelta : (metric.temporality = .delta && metric.type.isDelta) = true)
    (hown : ∀ attrKey dataPoint, metric.dataPointMap.get? attrKey = some dataPoint →
      dataPoint.attrKey = attrKey)
    (h : deltaMetric metric last = some (metric', last')) (hpoint : metric.dataPointMap.get? attrKey = some dataPoint) :
    ∃ value, dataPoint.value.minus (last.get? (getStateKey metric.metricKey attrKey)) = some value ∧
      metric'.dataPointMap.get? attrKey = some { dataPoint with value := value } ∧
      last'.get? (getStateKey metric.metricKey attrKey) = some dataPoint.value := by
  unfold deltaMetric at h
  rw [if_pos hdelta] at h
  obtain ⟨⟨points, last''⟩, hmap, heq⟩ := map_eq_some_iff.mp h
  rw [Prod.mk.injEq] at heq
  obtain ⟨before, v', after, hbefore, hstep, hget, hafter⟩ := get?_mapAccum
    (fun last => OrderedMap.get? last (getStateKey metric.metricKey attrKey)) hpoint
    (fun e he hne s v t hstep => by
      obtain ⟨value, -, hstep⟩ := map_eq_some_iff.mp hstep
      rw [Prod.mk.injEq] at hstep
      rw [← hstep.2, get?_set_of_ne]
      rw [hown e.1 e.2 (mem_entries_iff.mp he)]
      exact fun hkey => hne (getStateKey_inj hkey).symm) hmap
  obtain ⟨value, hvalue, hstep⟩ := map_eq_some_iff.mp hstep
  rw [Prod.mk.injEq] at hstep
  have hattrKey := hown attrKey dataPoint hpoint
  rw [hattrKey, hbefore] at hvalue
  refine ⟨value, hvalue, ?_, ?_⟩
  · rw [← heq.1, hstep.1]
    exact hget
  · rw [← heq.2, hafter, ← hstep.2, hattrKey, get?_set_self]

theorem none_deltaMetric (h : deltaMetric metric last = some (metric', last'))
    (hpoint : metric.dataPointMap.get? attrKey = none) :
    metric'.dataPointMap.get? attrKey = none := by
  unfold deltaMetric at h
  split at h
  · obtain ⟨⟨points, last''⟩, hmap, heq⟩ := map_eq_some_iff.mp h
    rw [Prod.mk.injEq] at heq
    rw [← heq.1]
    rw [get?_eq_none_iff, keys_mapAccum hmap]
    exact get?_eq_none_iff.mp hpoint
  · rw [some.injEq, Prod.mk.injEq] at h
    rwa [← h.1]

/-! ## What the exporter is handed -/

theorem ofStream_ofStream (stream : Str × Str) (ms : List (Measurement α)) :
    ∀ m ∈ ofStream json stream ms, m.stream json = stream := fun _ hm =>
  of_decide_eq_true (mem_filter.mp hm).2

/-- A point has the measurement it began with. -/
theorem exists_of_pointAt (h : Aggregated json settings history batch acc) {stream : Str × Str}
    (hpoint : pointAt acc.metricsMap stream = some dataPoint) :
    ∃ m ∈ kept settings batch, m.stream json = stream ∧ dataPoint.attrKey = stream.2 ∧
      ofStream json stream (kept settings batch) ≠ [] ∧
      dataPoint.value = m.type.total ((ofStream json stream history ++
        ofStream json stream (kept settings batch)).map Measurement.value) := by
  rw [h.point] at hpoint
  cases hms : ofStream json stream (kept settings batch) with
  | nil =>
    rw [hms] at hpoint
    cases hpoint
  | cons m ms =>
    rw [hms] at hpoint
    have hm : m ∈ ofStream json stream (kept settings batch) := by
      rw [hms]
      exact mem_cons_self
    have hstream := ofStream_ofStream stream _ m hm
    refine ⟨m, mem_of_mem_filter hm, hstream, ?_, cons_ne_nil _ _, ?_⟩
    · rw [← some.inj hpoint, ← hstream]
      rfl
    · rw [← some.inj hpoint]

theorem lastOf_ofStream (ms : List (Measurement α)) :
    lastOf settings (ofStream json (m.stream json) ms) =
      if settings.exportsDelta m.type ∧ ofStream json (m.stream json) ms ≠ [] then
        some (m.type.total ((ofStream json (m.stream json) ms).map Measurement.value))
      else none := by
  cases hms : ofStream json (m.stream json) ms with
  | nil => exact (if_neg fun hand => hand.2 rfl).symm
  | cons m' ms' =>
    have hmem : m' ∈ ofStream json (m.stream json) ms := by
      rw [hms]
      exact mem_cons_self
    have htype := type_of_mem_ofStream ms hmem
    rw [lastOf, htype]
    by_cases hdelta : settings.exportsDelta m.type = true
    · rw [if_pos hdelta, if_pos ⟨hdelta, cons_ne_nil _ _⟩]
    · rw [if_neg hdelta, if_neg fun hand => hdelta hand.1]

theorem exportedPoint_of_pointOf (htype : ∀ m' ∈ ms, m'.type = m.type)
    (h : pointOf json settings before ms = some dataPoint) :
    exportedPoint json settings before ms = some { dataPoint with
      value := reported settings m.type (before.map Measurement.value)
        (ms.map Measurement.value) } := by
  cases ms with
  | nil => cases h
  | cons m' ms =>
    rw [exportedPoint, h, ← htype m' mem_cons_self]
    rfl

/-- **One stream** of a collection: its point, and its total for the next time. -/
theorem exported_stream (h : Aggregated json settings history batch acc)
    (hdistinct : Distinct json (history ++ batch))
    (hlast : ∀ k, last.get? k = lastOf settings (ofKey json k history))
    (hdelta : applyDeltaTemporality acc.metricsMap last = some (metrics, last'))
    (hm : m ∈ kept settings batch) :
    pointAt metrics (m.stream json) =
      exportedPoint json settings (ofStream json (m.stream json) history)
        (ofStream json (m.stream json) (kept settings batch)) ∧
    last'.get? (m.stateKey json) =
      lastOf settings (ofStream json (m.stream json) (history ++ kept settings batch)) := by
  have hmem : ∀ m' ∈ kept settings batch, m' ∈ history ++ batch := fun m' hm' =>
    mem_append_right _ (mem_of_mem_kept hm')
  have hms : ofStream json (m.stream json) (kept settings batch) ≠ [] :=
    ne_nil_of_mem (mem_filter.mpr ⟨hm, decide_eq_true rfl⟩)
  obtain ⟨dataPoint, hpoint⟩ : ∃ dataPoint, pointAt acc.metricsMap (m.stream json) =
      some dataPoint := by
    rw [h.point]
    cases hcons : ofStream json (m.stream json) (kept settings batch) with
    | nil => exact absurd hcons hms
    | cons m' ms => exact ⟨_, rfl⟩
  obtain ⟨metric, hmetric, hdataPoint⟩ := bind_eq_some_iff.mp hpoint
  obtain ⟨hkey, htemporality⟩ := h.metric _ _ hmetric
  have htype : metric.type = m.type := type_of_metricKey hkey
  have hown : ∀ attrKey dataPoint, metric.dataPointMap.get? attrKey = some dataPoint →
      dataPoint.attrKey = attrKey := by
    intro attrKey p hp
    have hat : pointAt acc.metricsMap (m.metricKey, attrKey) = some p :=
      bind_eq_some_iff.mpr ⟨metric, hmetric, hp⟩
    obtain ⟨-, -, -, hattrKey, -, -⟩ := exists_of_pointAt h hat
    exact hattrKey
  obtain ⟨m₁, -, hstream₁, -, -, hvalue⟩ := exists_of_pointAt h hpoint
  rw [type_of_metricKey (congrArg Prod.fst hstream₁)] at hvalue
  have hexported := exportedPoint_of_pointOf (m := m)
    (fun m' hm' => type_of_mem_ofStream _ hm') ((h.point _).symm.trans hpoint)
  -- The other metrics have no point whose state has the text of this one.
  obtain ⟨before, metric', after, hbefore, hstep, hget, hafter⟩ := get?_mapAccum
    (fun last => OrderedMap.get? last (m.stateKey json)) hmetric
    (fun e he hne s v t hstep => by
      have he' := mem_entries_iff.mp he
      refine frame_deltaMetric (fun attrKey p hp => ?_) hstep
      have hat : pointAt acc.metricsMap (e.1, attrKey) = some p :=
        bind_eq_some_iff.mpr ⟨e.2, he', hp⟩
      obtain ⟨m', hm', hstream', hattrKey, -, -⟩ := exists_of_pointAt h hat
      rw [(h.metric _ _ he').1, hattrKey]
      intro hkey'
      have hstate : m'.stateKey json = m.stateKey json := by
        rw [← hkey', ← congrArg Prod.fst hstream', ← congrArg Prod.snd hstream']
        rfl
      have hsame := hdistinct.stream_eq (hmem m' hm') (hmem m hm) hstate
      exact hne ((congrArg Prod.fst hstream').symm.trans (congrArg Prod.fst hsame))) hdelta
  have hlast' : last.get? (m.stateKey json) =
      lastOf settings (ofStream json (m.stream json) history) := by
    rw [hlast, ofKey_eq_ofStream fun m' hm' hkey' => hdistinct.stream_eq
      (mem_append_left _ hm') (hmem m hm) hkey']
  have hmetricKey : getStateKey metric.metricKey (m.stream json).2 = m.stateKey json := by
    rw [hkey]
    rfl
  have hpointAt : pointAt metrics (m.stream json) =
      metric'.dataPointMap.get? (m.stream json).2 := by
    rw [pointAt, hget]
    rfl
  rw [hpointAt, hexported, lastOf_ofStream, ofStream_append, hafter]
  by_cases hd : settings.exportsDelta m.type = true
  · have hd' : (metric.temporality = .delta && metric.type.isDelta) = true := by
      rw [htemporality, htype]
      exact hd
    obtain ⟨value, hminus, hpoint', hlast''⟩ := point_deltaMetric hd' hown hstep hdataPoint
    rw [hmetricKey] at hminus hlast''
    have hvalue' : value = reported settings m.type
        ((ofStream json (m.stream json) history).map Measurement.value)
        ((ofStream json (m.stream json) (kept settings batch)).map Measurement.value) := by
      rw [hbefore, hlast', lastOf_ofStream, hvalue, map_append] at hminus
      by_cases hnil : ofStream json (m.stream json) history = []
      · rw [if_neg fun hand => hand.2 hnil, hnil] at hminus
        rw [hnil, map_nil, reported_nil]
        exact (some.inj hminus).symm
      · rw [if_pos ⟨hd, hnil⟩, minus_total hd (by simpa using hms)] at hminus
        exact (some.inj hminus).symm
    refine ⟨by rw [hpoint', hvalue'], ?_⟩
    rw [hlast'', if_pos ⟨hd, append_ne_nil_of_right_ne_nil _ hms⟩, hvalue]
  · have hd' : ¬(metric.temporality = .delta && metric.type.isDelta) = true := by
      rw [htemporality, htype]
      exact hd
    unfold deltaMetric at hstep
    rw [if_neg hd', some.injEq, Prod.mk.injEq] at hstep
    rw [← hstep.1, ← hstep.2, hbefore, hlast', lastOf_ofStream, if_neg fun hand => hd hand.1,
      if_neg fun hand => hd hand.1]
    refine ⟨?_, rfl⟩
    unfold reported
    rw [if_neg hd, ← map_append, ← hvalue]
    exact hdataPoint

/-- **What one collection exports**: the point of every stream, and under every key the total for
the next time. -/
theorem exported_of_aggregate (h : Aggregated json settings history batch acc)
    (hdistinct : Distinct json (history ++ batch))
    (hlast : ∀ k, last.get? k = lastOf settings (ofKey json k history))
    (hdelta : applyDeltaTemporality acc.metricsMap last = some (metrics, last')) :
    (∀ stream, pointAt metrics stream = exportedPoint json settings (ofStream json stream history)
      (ofStream json stream (kept settings batch))) ∧
    (∀ k, last'.get? k = lastOf settings (ofKey json k (history ++ kept settings batch))) := by
  refine ⟨fun stream => ?_, fun k => ?_⟩
  · cases hms : ofStream json stream (kept settings batch) with
    | cons m ms =>
      have hm : m ∈ ofStream json stream (kept settings batch) := by
        rw [hms]
        exact mem_cons_self
      have hstream := ofStream_ofStream stream _ m hm
      rw [← hms, ← hstream]
      exact (exported_stream h hdistinct hlast hdelta (mem_of_mem_filter hm)).1
    | nil =>
      have hnone : pointAt acc.metricsMap stream = none := by
        rw [h.point, hms]
        rfl
      show pointAt metrics stream = none
      rw [pointAt, bind_eq_none_iff] at hnone ⊢
      intro metric' hmetric'
      have hmem : stream.1 ∈ acc.metricsMap.keys := by
        rw [← keys_mapAccum hdelta]
        exact mem_keys_iff.mpr ⟨metric', hmetric'⟩
      obtain ⟨metric, hmetric⟩ := mem_keys_iff.mp hmem
      obtain ⟨before, metric₁, after, -, hstep, hget, -⟩ := get?_mapAccum (fun _ => ())
        hmetric (fun _ _ _ _ _ _ _ => rfl) hdelta
      rw [hmetric', some_inj] at hget
      rw [hget]
      exact none_deltaMetric hstep (hnone metric hmetric)
  · by_cases hk : ∃ m ∈ kept settings batch, m.stateKey json = k
    · obtain ⟨m, hm, rfl⟩ := hk
      rw [(exported_stream h hdistinct hlast hdelta hm).2, ofKey_eq_ofStream]
      intro m' hm' hkey
      refine hdistinct.stream_eq ?_ (mem_append_right _ (mem_of_mem_kept hm)) hkey
      rcases mem_append.mp hm' with hm' | hm'
      · exact mem_append_left _ hm'
      · exact mem_append_right _ (mem_of_mem_kept hm')
    · have hnil : ofKey json k (kept settings batch) = [] :=
        filter_eq_nil_iff.mpr fun m hm hkey => hk ⟨m, hm, of_decide_eq_true hkey⟩
      rw [ofKey_append, hnil, append_nil, ← hlast]
      refine frame_mapAccum (fun last => OrderedMap.get? last k) ?_ hdelta
      intro e he s v t hstep
      have he' := mem_entries_iff.mp he
      refine frame_deltaMetric (fun attrKey p hp hkey => hk ?_) hstep
      have hat : pointAt acc.metricsMap (e.1, attrKey) = some p :=
        bind_eq_some_iff.mpr ⟨e.2, he', hp⟩
      obtain ⟨m', hm', hstream', hattrKey, -, -⟩ := exists_of_pointAt h hat
      refine ⟨m', hm', ?_⟩
      rw [(h.metric _ _ he').1, hattrKey] at hkey
      rw [← hkey, ← congrArg Prod.fst hstream', ← congrArg Prod.snd hstream']
      rfl

end DdTrace.OpenTelemetry
