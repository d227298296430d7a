import DdTrace.OpenTelemetry.Aggregation

/-!
# Runs of the metric reader

`Collected` is the invariant of a run: what `record` accepted is what was handed to the collections
and what still waits, the states are those of the measurements exported so far, and every point that
was exported is `exportedPoint` of its stream.  It goes through every step whose collection can tell
its streams apart by their texts (`TellsApart`).

Two results are read off it.

* `reflected_of_run`: every accepted measurement that was collected, and whose metric was not dropped,
  is counted by the one point of its stream in that collection, under delta temporality, and by all
  later ones under cumulative temporality.  `not_reflected` has the two ways in which a measurement
  is counted by no point: its metric is over the limit of a collection, or `shutdown` finds it
  waiting.
* `exact_of_run`: a point with delta temporality reports exactly its interval where every collection
  meets `Fresh`.  From the second point of a stream on, the start time is still that of the first
  one, and the least and the greatest value are those of all intervals: `not_exact`.
-/

namespace DdTrace.OpenTelemetry

open Library Str OrderedMap List Option

variable {α : Type} {json : α → Str} {settings : Settings}

/-! ## Streams of a list -/

theorem get?_ext_iff {a b : OrderedMap Str α} :
    (∀ key, a.get? key = b.get? key) ↔ ∀ key ∈ a.keys ++ b.keys, a.get? key = b.get? key := by
  refine ⟨fun h key _ => h key, fun h key => ?_⟩
  by_cases hmem : key ∈ a.keys ++ b.keys
  · exact h key hmem
  · rw [mem_append, not_or] at hmem
    rw [get?_eq_none_iff.mpr hmem.1, get?_eq_none_iff.mpr hmem.2]

instance [DecidableEq α] (m m' : Measurement α) : Decidable (SameStream m m') :=
  decidable_of_iff (m.instrumentationScope = m'.instrumentationScope ∧ m.name = m'.name ∧
    m.type = m'.type ∧ ∀ key ∈ m.attributes.keys ++ m'.attributes.keys,
      m.attributes.get? key = m'.attributes.get? key) <| by
    rw [SameStream, get?_ext_iff]

instance [DecidableEq α] (json : α → Str) (ms : List (Measurement α)) :
    Decidable (Distinct json ms) :=
  inferInstanceAs (Decidable (∀ m ∈ ms, ∀ m' ∈ ms, _ → _))

/-- The measurements of the metric and the attribute set of `m`. -/
def like [DecidableEq α] (m : Measurement α) (ms : List (Measurement α)) : List (Measurement α) :=
  ms.filter fun m' => SameStream m' m

variable {m : Measurement α} {r : Reader α} {e : Export α} {r' : Reader α}
  {before : List (Export α)} {type : MetricType}
  {observations : List (List (Instrument × ℚ × OrderedMap Str α))} {ms : List (Measurement α)}

theorem like_eq_ofStream [DecidableEq α]
    (h : ∀ m' ∈ ms, m'.stateKey json = m.stateKey json → SameStream m' m) :
    like m ms = ofStream json (m.stream json) ms := by
  refine filter_congr fun m' hm' => ?_
  rw [decide_eq_decide]
  exact ⟨SameStream.stream_eq, fun hstream => h m' hm' (stateKey_of_stream hstream)⟩

/-! ## The invariant -/

/-- The measurements a collection was made of. -/
def Export.batch (e : Export α) : List (Measurement α) := e.recorded ++ e.observed

/-- The measurements of the collections so far that were not dropped. -/
def history (settings : Settings) (exported : List (Export α)) : List (Measurement α) :=
  exported.flatMap fun e => kept settings e.batch

/-- The texts tell apart the streams of what a step collects and of what was collected before. -/
def TellsApart (json : α → Str) (settings : Settings) (r : Reader α) : ReaderEvent α → Prop
  | .interval observations | .forceFlush observations =>
    Distinct json (history settings r.exported ++ (r.measurements ++ r.observed observations))
  | _ => True

instance [DecidableEq α] (json : α → Str) (settings : Settings) (r : Reader α) :
    ∀ e, Decidable (TellsApart json settings r e)
  | .interval _ | .forceFlush _ => inferInstanceAs (Decidable (Distinct ..))
  | .tick _ | .measure .. | .shutdown _ => inferInstanceAs (Decidable True)

/-- The export and the earlier ones made this collection's points, and could tell them apart. -/
structure Points (json : α → Str) (settings : Settings) (before : List (Export α)) (e : Export α) :
    Prop where
  distinct : Distinct json (history settings before ++ e.batch)
  points : ∀ stream, pointAt e.metrics stream = exportedPoint json settings
    (ofStream json stream (history settings before)) (ofStream json stream (kept settings e.batch))

/-- **The invariant of a run.** -/
structure Collected (json : α → Str) (settings : Settings) (r : Reader α) : Prop where
  accepted : r.accepted = r.exported.flatMap Export.recorded ++ r.measurements
  state : ∀ k, r.cumulativeState.get? k =
    cumulativeOf settings (ofKey json k (history settings r.exported))
  last : ∀ k, r.lastExportedState.get? k =
    lastOf settings (ofKey json k (history settings r.exported))
  points : ∀ before e after, r.exported = before ++ e :: after → Points json settings before e
  ordered : ((r.exported.flatMap Export.batch ++ r.measurements).map
    Measurement.timestamp).Pairwise (· ≤ ·)
  past : ∀ m ∈ r.exported.flatMap Export.batch ++ r.measurements, m.timestamp ≤ r.now

theorem history_concat (exported : List (Export α)) (e : Export α) :
    history settings (exported ++ [e]) = history settings exported ++ kept settings e.batch := by
  rw [history, flatMap_append, flatMap_singleton]
  rfl

theorem timestamp_of_mem_observed (h : m ∈ r.observed observations) : m.timestamp = r.now := by
  have hfold : ∀ (observed : List (Measurement α)), (∀ m ∈ observed, m.timestamp = r.now) →
      ∀ m ∈ observations.foldl (fun observed results =>
        observed ++ Reader.admitted (r.measurements ++ observed)
          (results.map fun x => ⟨x.1, x.2.1, x.2.2, r.now⟩)) observed,
        m.timestamp = r.now := by
    clear h
    induction observations with
    | nil => exact fun observed hobserved => hobserved
    | cons results observations ih =>
      intro observed hobserved
      refine ih _ fun m hm => ?_
      rcases mem_append.mp hm with hm | hm
      · exact hobserved m hm
      · obtain ⟨result, -, rfl⟩ := List.mem_map.mp (mem_of_mem_take hm)
        rfl
  exact hfold [] (fun _ hm => absurd hm not_mem_nil) m h

/-- What is said of every element of a list and those before it, when the list grows by one. -/
theorem split_concat {β : Type*} {P : List β → β → Prop} {l : List β} {last : β}
    (h : ∀ before b after, l = before ++ b :: after → P before b) (hlast : P l last) :
    ∀ before b after, l ++ [last] = before ++ b :: after → P before b := by
  intro before b after heq
  rcases eq_nil_or_concat after with rfl | ⟨after', x, rfl⟩
  · obtain ⟨hbefore, hb⟩ := append_inj' heq rfl
    rw [List.cons.injEq] at hb
    rw [← hbefore, ← hb.1]
    exact hlast
  · rw [concat_eq_append, ← cons_append, ← append_assoc] at heq
    exact h before b after' (append_inj' heq rfl).1

/-- **A collection** keeps the invariant. -/
theorem collected_collect (h : Collected json settings r) (hdistinct : Distinct json
      (history settings r.exported ++ (r.measurements ++ r.observed observations)))
    (hs : r.collectAndExport json settings observations = some r') :
    Collected json settings r' := by
  unfold Reader.collectAndExport at hs
  dsimp only at hs
  split at hs
  · next hempty =>
    have hnil : r.measurements = [] :=
      (append_eq_nil_iff.mp (length_eq_zero_iff.mp hempty)).1
    rw [← some.inj hs]
    refine ⟨?_, h.state, h.last, h.points, ?_, ?_⟩
    · rw [h.accepted, hnil]
    · have hordered := h.ordered
      rw [hnil] at hordered
      exact hordered
    · have hpast := h.past
      rw [hnil] at hpast
      exact hpast
  · obtain ⟨⟨metrics, cumulativeState, last⟩, haggregate, heq⟩ := map_eq_some_iff.mp hs
    rw [aggregate, bind_eq_some_iff] at haggregate
    obtain ⟨acc, hfold, hmap⟩ := haggregate
    obtain ⟨⟨metrics', last'⟩, hdelta, hmap⟩ := map_eq_some_iff.mp hmap
    rw [Prod.mk.injEq] at hmap
    obtain ⟨rfl, rfl, rfl⟩ := hmap
    have hstart : Aggregated json settings (history settings r.exported) []
        ⟨.empty, r.cumulativeState⟩ := by
      refine ⟨take_nil.symm, fun _ _ hget => (by cases hget), fun k => ?_, fun stream => rfl⟩
      rw [h.state, kept, filter_nil, append_nil]
    obtain ⟨acc', hfold', hacc⟩ := aggregated_foldlM hstart (r.measurements ++ r.observed observations)
      hdistinct
    rw [hfold, some_inj] at hfold'
    rw [← hfold'] at hacc
    obtain ⟨hpoints, hlast⟩ := exported_of_aggregate hacc hdistinct h.last hdelta
    have hbatches : (r.exported ++ [(⟨r.measurements, r.observed observations, metrics'⟩ :
        Export α)]).flatMap Export.batch =
          r.exported.flatMap Export.batch ++ (r.measurements ++ r.observed observations) := by
      rw [flatMap_append, flatMap_singleton]
      rfl
    rw [← heq]
    refine ⟨?_, fun k => ?_, fun k => ?_, split_concat h.points ⟨hdistinct, hpoints⟩, ?_, ?_⟩
    · rw [h.accepted, append_nil, flatMap_append, flatMap_singleton]
    · rw [hacc.state, history_concat]
      rfl
    · rw [hlast, history_concat]
      rfl
    · rw [append_nil, hbatches, ← append_assoc, map_append, pairwise_append]
      refine ⟨h.ordered, ?_, ?_⟩
      · refine pairwise_map.mpr (pairwise_of_forall_mem_list fun m hm m' hm' => ?_)
        rw [timestamp_of_mem_observed hm, timestamp_of_mem_observed hm']
      · intro t ht t' ht'
        obtain ⟨m, hm, rfl⟩ := List.mem_map.mp ht
        obtain ⟨m', hm', rfl⟩ := List.mem_map.mp ht'
        rw [timestamp_of_mem_observed hm']
        exact h.past m hm
    · intro m hm
      rw [append_nil, hbatches, ← append_assoc] at hm
      rcases mem_append.mp hm with hm | hm
      · exact h.past m hm
      · rw [timestamp_of_mem_observed hm]

theorem collected_record (h : Collected json settings r) (hm : m.timestamp = r.now) :
    Collected json settings (r.record m) := by
  unfold Reader.record
  split
  · exact ⟨h.accepted, h.state, h.last, h.points, h.ordered, h.past⟩
  · refine ⟨?_, h.state, h.last, h.points, ?_, ?_⟩
    · rw [h.accepted, append_assoc]
    · rw [← append_assoc, map_append, pairwise_append]
      refine ⟨h.ordered, pairwise_singleton _ _, ?_⟩
      intro t ht t' ht'
      obtain ⟨m₁, hm₁, rfl⟩ := List.mem_map.mp ht
      rw [map_singleton, mem_singleton] at ht'
      rw [ht', hm]
      exact h.past m₁ hm₁
    · intro m₁ hm₁
      rw [← append_assoc] at hm₁
      rcases mem_append.mp hm₁ with hm₁ | hm₁
      · exact h.past m₁ hm₁
      · rw [mem_singleton.mp hm₁, hm]

/-- **One step** keeps the invariant. -/
theorem collected_step (h : Collected json settings r) {e : ReaderEvent α}
    (hC : TellsApart json settings r e) (hs : r.step json settings e = some r') :
    Collected json settings r' := by
  cases e with
  | tick duration =>
    rw [← some.inj hs]
    exact ⟨h.accepted, h.state, h.last, h.points, h.ordered, fun m hm =>
      (h.past m hm).trans (Nat.le_add_right _ _)⟩
  | measure i value attributes =>
    rw [← some.inj hs]
    unfold Reader.measure
    split
    · exact h
    · exact collected_record h rfl
  | interval observations =>
    rw [Reader.step] at hs
    split at hs
    · cases hs
    · exact collected_collect h hC hs
  | forceFlush observations =>
    rw [Reader.step, Reader.forceFlush] at hs
    split at hs
    · rw [← some.inj hs]
      exact h
    · exact collected_collect h hC hs
  | shutdown observations =>
    rw [Reader.step, Reader.shutdown] at hs
    split at hs
    · rw [← some.inj hs]
      exact h
    · rw [Reader.forceFlush, if_pos rfl, some_inj] at hs
      rw [← hs]
      exact ⟨h.accepted, h.state, h.last, h.points, h.ordered, h.past⟩

theorem collected_start : Collected json settings ({} : Reader α) := by
  refine ⟨rfl, fun _ => rfl, fun _ => rfl, fun before e after heq => ?_, List.Pairwise.nil,
    fun m hm => absurd hm not_mem_nil⟩
  exact absurd heq.symm (append_ne_nil_of_right_ne_nil _ (cons_ne_nil _ _))

theorem collected_run {run : List (ReaderEvent α)}
    (hC : Run.Every (Reader.step json settings) (TellsApart json settings) {} run)
    (hr : Run.exec (Reader.step json settings) {} run = some r) : Collected json settings r :=
  Run.invariant (fun _ _ _ h hC hs => collected_step h hC hs) collected_start hC hr

/-! ## What the points count -/

/-- The measurements of a stream that is exported are all kept. -/
theorem ofStream_kept (h : m.metricKey ∈ keptKeys settings ms) :
    ofStream json (m.stream json) (kept settings ms) = ofStream json (m.stream json) ms := by
  rw [ofStream, kept, List.filter_filter]
  refine filter_congr fun m' _ => ?_
  by_cases hstream : m'.stream json = m.stream json
  · have hkey : m'.metricKey = m.metricKey := congrArg Prod.fst hstream
    rw [decide_eq_true hstream, Bool.true_and, includes_eq_true_iff, hkey]
    exact h
  · rw [decide_eq_false hstream, Bool.false_and]

theorem like_batch [DecidableEq α] (h : Points json settings before e) (hm : m ∈ e.batch) :
    like m e.batch = ofStream json (m.stream json) e.batch :=
  like_eq_ofStream fun m' hm' hkey =>
    h.distinct m' (mem_append_right _ hm') m (mem_append_right _ hm) hkey

theorem like_history [DecidableEq α] (h : Points json settings before e) (hm : m ∈ e.batch) :
    like m (history settings before) = ofStream json (m.stream json) (history settings before) :=
  like_eq_ofStream fun m' hm' hkey =>
    h.distinct m' (mem_append_left _ hm') m (mem_append_right _ hm) hkey

/-- The point of a measurement whose metric is exported. -/
theorem point_of_kept [DecidableEq α] (h : Points json settings before e) (hm : m ∈ e.batch)
    (hkept : m.metricKey ∈ keptKeys settings e.batch) :
    ∃ dataPoint, pointOf json settings (like m (history settings before)) (like m e.batch) =
        some dataPoint ∧
      pointAt e.metrics (m.stream json) = some { dataPoint with
        value := reported settings m.type
          ((like m (history settings before)).map Measurement.value)
          ((like m e.batch).map Measurement.value) } := by
  have htype : ∀ m' ∈ like m e.batch, m'.type = m.type := fun m' hm' =>
    (of_decide_eq_true (mem_filter.mp hm').2).2.2.1
  have hmem : m ∈ like m e.batch :=
    mem_filter.mpr ⟨hm, decide_eq_true ⟨rfl, rfl, rfl, fun _ => rfl⟩⟩
  obtain ⟨dataPoint, hpoint⟩ : ∃ dataPoint,
      pointOf json settings (like m (history settings before)) (like m e.batch) =
        some dataPoint := by
    cases hcons : like m e.batch with
    | nil => exact absurd hcons (ne_nil_of_mem hmem)
    | cons m' ms => exact ⟨_, rfl⟩
  refine ⟨dataPoint, hpoint, ?_⟩
  rw [h.points, ofStream_kept hkept, ← like_batch h hm, ← like_history h hm]
  exact exportedPoint_of_pointOf htype hpoint

/-- The value counts exactly these values. -/
def Counts (type : MetricType) (values : List ℚ) : Value → Prop
  | .number v => type ≠ .histogram ∧ v = values.sum
  | .histogram s => type = .histogram ∧ s.count = values.length ∧ s.sum = values.sum ∧
      s.bucketCounts = (summaryOf values).bucketCounts

theorem counts_total (h : type.accumulates = true) (values : List ℚ) :
    Counts type values (type.total values) := by
  cases type with
  | counter | updowncounter => exact ⟨fun heq => (by cases heq), rfl⟩
  | histogram => exact ⟨rfl, rfl, rfl, rfl⟩
  | observableCounter => cases h
  | observableUpDownCounter => cases h
  | gauge => cases h

theorem exportsDelta_of_accumulates (h : type.accumulates = true) :
    settings.exportsDelta type = true ↔ settings.getTemporality type = .delta := by
  rw [Settings.exportsDelta, Bool.and_eq_true, decide_eq_true_iff]
  refine ⟨And.left, fun hdelta => ⟨hdelta, ?_⟩⟩
  cases type with
  | counter => rfl
  | histogram => rfl
  | updowncounter => cases hdelta
  | observableCounter => cases h
  | observableUpDownCounter => cases h
  | gauge => cases h

theorem counts_reported (h : type.accumulates = true)
    (hdelta : settings.getTemporality type = .delta) (before values : List ℚ) :
    Counts type values (reported settings type before values) := by
  unfold reported
  rw [if_pos ((exportsDelta_of_accumulates h).mpr hdelta)]
  cases type with
  | counter | updowncounter => exact ⟨fun heq => (by cases heq), rfl⟩
  | histogram => exact ⟨rfl, rfl, rfl, rfl⟩
  | observableCounter => cases h
  | observableUpDownCounter => cases h
  | gauge => cases h

/-- The recorded measurements of a collection are counted, but for those of metrics over the limit:
each by the one point of its stream, and each point is of a stream of the collection. -/
structure Reflects [DecidableEq α] (json : α → Str) (settings : Settings)
    (before : List (Export α)) (e : Export α) : Prop where
  recorded : ∀ m ∈ e.recorded, m.metricKey ∈ keptKeys settings e.batch →
    ∃ dataPoint, pointAt e.metrics (m.stream json) = some dataPoint ∧
      (m.type.accumulates = true → settings.getTemporality m.type = .delta →
        Counts m.type ((like m e.batch).map Measurement.value) dataPoint.value) ∧
      (m.type.accumulates = true → settings.getTemporality m.type ≠ .delta →
        Counts m.type ((like m (history settings before ++ e.batch)).map Measurement.value)
          dataPoint.value) ∧
      (m.type = .gauge → ∃ value, ((like m e.batch).map Measurement.value).getLast? = some value ∧
        dataPoint.value = .number value)
  points : ∀ stream dataPoint, pointAt e.metrics stream = some dataPoint →
    ∃ m ∈ e.batch, m.stream json = stream

/-- The least value is that of the new ones where none of the earlier ones is below all of them. -/
theorem min?_append_of_le {before values : List ℚ} (hvalues : values ≠ [])
    (h : ∀ x ∈ before, ∃ y ∈ values, y ≤ x) : (before ++ values).min? = values.min? := by
  obtain ⟨least, hleast⟩ : ∃ least, values.min? = some least :=
    ne_none_iff_exists'.mp (mt min?_eq_none_iff.mp hvalues)
  obtain ⟨hmem, hle⟩ := min?_eq_some_iff.mp hleast
  rw [hleast, min?_eq_some_iff]
  refine ⟨mem_append_right _ hmem, fun x hx => ?_⟩
  rcases mem_append.mp hx with hx | hx
  · obtain ⟨y, hy, hyx⟩ := h x hx
    exact (hle y hy).trans hyx
  · exact hle x hx

theorem max?_append_of_le {before values : List ℚ} (hvalues : values ≠ [])
    (h : ∀ x ∈ before, ∃ y ∈ values, x ≤ y) : (before ++ values).max? = values.max? := by
  obtain ⟨greatest, hgreatest⟩ : ∃ greatest, values.max? = some greatest :=
    ne_none_iff_exists'.mp (mt max?_eq_none_iff.mp hvalues)
  obtain ⟨hmem, hle⟩ := max?_eq_some_iff.mp hgreatest
  rw [hgreatest, max?_eq_some_iff]
  refine ⟨mem_append_right _ hmem, fun x hx => ?_⟩
  rcases mem_append.mp hx with hx | hx
  · obtain ⟨y, hy, hxy⟩ := h x hx
    exact hxy.trans (hle y hy)
  · exact hle x hx

/-- The type is one of those whose delta points are asked to be exact. -/
def MetricType.isInterval (type : MetricType) : Prop := type = .counter ∨ type = .histogram

instance (type : MetricType) : Decidable type.isInterval := inferInstanceAs (Decidable (_ ∨ _))

/-- **What is asked of a collection**: the point of a stream with delta temporality has the
attributes of the stream, reports the values of the stream in this collection, has all of them in its
buckets, and begins where all earlier points of the stream have ended. -/
def Exact [DecidableEq α] (json : α → Str) (settings : Settings) (before : List (Export α))
    (e : Export α) : Prop :=
  ∀ m ∈ e.batch, m.type.isInterval → settings.getTemporality m.type = .delta →
    ∀ dataPoint, pointAt e.metrics (m.stream json) = some dataPoint →
      (∀ key, dataPoint.attributes.get? key = m.attributes.get? key) ∧
      dataPoint.value = m.type.total ((like m e.batch).map Measurement.value) ∧
      (∀ s, dataPoint.value = .histogram s → s.bucketCounts.sum = s.count) ∧
      ∃ start, dataPoint.startTimeUnixNano = some start ∧ start ≤ dataPoint.timeUnixNano ∧
        ∀ e' ∈ before, ∀ earlier, pointAt e'.metrics (m.stream json) = some earlier →
          earlier.timeUnixNano ≤ start

/-- What earlier collections had of a stream does not show: it was measured at one time, and none of
it is below or above all values of this collection. -/
def Hidden (type : MetricType) (before ms : List (Measurement α)) : Prop :=
  (∀ x ∈ before, ∀ y ∈ before, x.timestamp = y.timestamp) ∧
    (type = .histogram → ∀ x ∈ before, (∃ y ∈ ms, y.value ≤ x.value) ∧ ∃ y ∈ ms, x.value ≤ y.value)

instance (type : MetricType) (before ms : List (Measurement α)) : Decidable (Hidden type before ms) :=
  inferInstanceAs (Decidable (_ ∧ _))

/-- The streams of a collection are as if they were new. -/
def FreshStreams [DecidableEq α] (settings : Settings) (before batch : List (Measurement α)) : Prop :=
  ∀ m ∈ batch, m.type.isInterval → settings.getTemporality m.type = .delta →
    Hidden m.type (like m before) (like m batch)

instance [DecidableEq α] (settings : Settings) (before batch : List (Measurement α)) :
    Decidable (FreshStreams settings before batch) :=
  inferInstanceAs (Decidable (∀ m ∈ batch, _ → _ → _))

/-- **The condition on a step**: the texts tell the streams apart, and the streams of the collection
are as if they were new. -/
def Fresh [DecidableEq α] (json : α → Str) (settings : Settings) (r : Reader α)
    (e : ReaderEvent α) : Prop :=
  TellsApart json settings r e ∧
    match e with
    | .interval observations | .forceFlush observations =>
      FreshStreams settings (history settings r.exported)
        (r.measurements ++ r.observed observations)
    | _ => True

instance [DecidableEq α] (json : α → Str) (settings : Settings) (r : Reader α) :
    ∀ e, Decidable (Fresh json settings r e)
  | .interval _ | .forceFlush _ => inferInstanceAs (Decidable (_ ∧ FreshStreams ..))
  | .tick _ | .measure .. | .shutdown _ => inferInstanceAs (Decidable (_ ∧ True))

theorem accumulates_of_isInterval (h : type.isInterval) :
    type.accumulates = true := by
  rcases h with rfl | rfl <;> rfl

/-- What is reported of new values where the earlier ones do not show. -/
theorem reported_of_hidden (h : type.isInterval)
    (hdelta : settings.getTemporality type = .delta) {before : List (Measurement α)}
    (hms : ms ≠ []) (hhidden : Hidden type before ms) :
    reported settings type (before.map Measurement.value) (ms.map Measurement.value) =
      type.total (ms.map Measurement.value) := by
  have hvalues : ms.map Measurement.value ≠ [] := fun hnil => hms (map_eq_nil_iff.mp hnil)
  unfold reported
  rw [if_pos ((exportsDelta_of_accumulates (accumulates_of_isInterval h)).mpr hdelta)]
  rcases h with rfl | rfl
  · rfl
  · have hmin : ∀ x ∈ before.map Measurement.value, ∃ y ∈ ms.map Measurement.value, y ≤ x := by
      intro x hx
      obtain ⟨m, hm, rfl⟩ := List.mem_map.mp hx
      obtain ⟨m', hm', hle⟩ := (hhidden.2 rfl m hm).1
      exact ⟨_, List.mem_map_of_mem hm', hle⟩
    have hmax : ∀ x ∈ before.map Measurement.value, ∃ y ∈ ms.map Measurement.value, x ≤ y := by
      intro x hx
      obtain ⟨m, hm, rfl⟩ := List.mem_map.mp hx
      obtain ⟨m', hm', hle⟩ := (hhidden.2 rfl m hm).2
      exact ⟨_, List.mem_map_of_mem hm', hle⟩
    rw [min?_append_of_le hvalues hmin, max?_append_of_le hvalues hmax]
    rfl

/-- A stream that has a point is of a metric that is exported. -/
theorem kept_of_pointAt (h : Points json settings before e) {dataPoint : DataPoint α}
    (hpoint : pointAt e.metrics (m.stream json) = some dataPoint) :
    m.metricKey ∈ keptKeys settings e.batch := by
  rw [h.points] at hpoint
  cases hms : ofStream json (m.stream json) (kept settings e.batch) with
  | nil =>
    rw [hms] at hpoint
    cases hpoint
  | cons m' ms =>
    have hmem : m' ∈ ofStream json (m.stream json) (kept settings e.batch) := by
      rw [hms]
      exact mem_cons_self
    have hkey : m'.metricKey = m.metricKey := congrArg Prod.fst (ofStream_ofStream _ _ m' hmem)
    rw [← hkey, ← includes_eq_true_iff]
    exact (mem_filter.mp (mem_of_mem_filter hmem)).2

/-- A point has the time of a measurement of its stream. -/
theorem time_of_pointAt (h : Points json settings before e) {stream : Str × Str}
    {dataPoint : DataPoint α}
    (hpoint : pointAt e.metrics stream = some dataPoint) :
    ∃ m ∈ kept settings e.batch, m.stream json = stream ∧
      dataPoint.timeUnixNano = m.timestamp := by
  rw [h.points] at hpoint
  cases hms : ofStream json stream (kept settings e.batch) with
  | nil =>
    rw [hms] at hpoint
    cases hpoint
  | cons m ms =>
    rw [hms] at hpoint
    have hne : m :: ms ≠ [] := cons_ne_nil m ms
    have hmem : (m :: ms).getLast hne ∈ ofStream json stream (kept settings e.batch) := by
      rw [hms]
      exact getLast_mem hne
    refine ⟨(m :: ms).getLast hne, mem_of_mem_filter hmem, ofStream_ofStream _ _ _ hmem, ?_⟩
    rw [← some.inj hpoint]
    rfl

theorem history_sublist (settings : Settings) (exported : List (Export α)) :
    (history settings exported).Sublist (exported.flatMap Export.batch) := by
  induction exported with
  | nil => exact List.Sublist.refl _
  | cons e exported ih =>
    exact filter_sublist.append ih

/-- **One collection** whose streams are as if they were new is exact. -/
theorem exact_of_fresh [DecidableEq α] {exported : List (Export α)}
    (hpoints : ∀ before e' after, exported ++ [e] = before ++ e' :: after →
      Points json settings before e')
    (hordered : (((exported ++ [e]).flatMap Export.batch).map Measurement.timestamp).Pairwise
      (· ≤ ·))
    (hfresh : FreshStreams settings (history settings exported) e.batch) :
    Exact json settings exported e := by
  intro m hm hinterval hdelta dataPoint hpoint
  have hown := hpoints exported e [] rfl
  obtain ⟨p, hp, hat⟩ := point_of_kept hown hm (kept_of_pointAt hown hpoint)
  rw [hpoint, some_inj] at hat
  have hhidden := hfresh m hm hinterval hdelta
  have hmem : m ∈ like m e.batch :=
    mem_filter.mpr ⟨hm, decide_eq_true ⟨rfl, rfl, rfl, fun _ => rfl⟩⟩
  have hvalue : dataPoint.value = m.type.total ((like m e.batch).map Measurement.value) := by
    rw [hat]
    exact reported_of_hidden hinterval hdelta (ne_nil_of_mem hmem) hhidden
  obtain ⟨m₀, ms, hms⟩ := exists_cons_of_ne_nil (ne_nil_of_mem hmem)
  have hsame : ∀ m' ∈ like m e.batch, SameStream m' m := fun m' hm' =>
    of_decide_eq_true (mem_filter.mp hm').2
  -- The measurements of the stream, from the first collection on, are in the order of time.
  have htimes : ((like m (history settings exported) ++ like m e.batch).map
      Measurement.timestamp).Pairwise (· ≤ ·) := by
    refine List.Pairwise.sublist (List.Sublist.map _ ?_) hordered
    rw [flatMap_append, flatMap_singleton]
    exact (filter_sublist.trans (history_sublist settings exported)).append filter_sublist
  obtain ⟨first, rest, hfirst⟩ := exists_cons_of_ne_nil
    (append_ne_nil_of_right_ne_nil (like m (history settings exported)) (ne_nil_of_mem hmem))
  rw [hms] at hp
  have hp' := some.inj hp
  have htype : m₀.type = m.type := (hsame m₀ (hms ▸ mem_cons_self)).2.2.1
  have hstart : dataPoint.startTimeUnixNano = some first.timestamp := by
    rw [hat, ← hp']
    have htype' : first.type = m.type := by
      have hmem' : first ∈ like m (history settings exported) ++ like m e.batch :=
        hfirst ▸ mem_cons_self
      rcases mem_append.mp hmem' with h | h
      · exact (of_decide_eq_true (mem_filter.mp h).2).2.2.1
      · exact (hsame first h).2.2.1
    rw [htype, if_pos (accumulates_of_isInterval hinterval), ← hms, hfirst, head?_cons,
      map_some, startOf, htype', hdelta]
    rfl
  refine ⟨fun key => ?_, hvalue, fun s hs => ?_, first.timestamp, hstart, ?_, ?_⟩
  · rw [hat, ← hp']
    exact (hsame m₀ (hms ▸ mem_cons_self)).2.2.2 key
  · rw [hvalue] at hs
    rcases hinterval with htype | htype
    · rw [htype] at hs
      cases hs
    · rw [htype] at hs
      rw [← Value.histogram.inj hs]
      exact sum_bucketCounts _
  · obtain ⟨last, hlast, hstream, htime⟩ := time_of_pointAt hown hpoint
    have hlike : last ∈ like m e.batch := by
      rw [like_batch hown hm]
      exact mem_filter.mpr ⟨mem_of_mem_kept hlast, decide_eq_true hstream⟩
    have hmem' : last ∈ first :: rest := hfirst ▸ mem_append_right _ hlike
    rw [hfirst, map_cons, pairwise_cons] at htimes
    rw [htime]
    rcases mem_cons.mp hmem' with rfl | hmem'
    · exact le_refl _
    · exact htimes.1 _ (List.mem_map_of_mem hmem')
  · intro e' he' earlier hearlier
    obtain ⟨before, after, rfl⟩ := append_of_mem he'
    obtain ⟨m', hm', hstream, htime⟩ :=
      time_of_pointAt (hpoints before e' (after ++ [e]) (by simp)) hearlier
    have hlike : m' ∈ like m (history settings (before ++ e' :: after)) := by
      rw [like_history hown hm]
      exact mem_filter.mpr ⟨mem_flatMap.mpr ⟨e', he', hm'⟩, decide_eq_true hstream⟩
    -- The first measurement of the stream is an exported one, of the same time as all of them.
    obtain ⟨x, xs, hxs⟩ := exists_cons_of_ne_nil (ne_nil_of_mem hlike)
    have hx : x = first := by
      rw [hxs, cons_append, List.cons.injEq] at hfirst
      exact hfirst.1
    rw [htime, ← hx]
    exact (hhidden.1 m' hlike x (hxs ▸ mem_cons_self)).le

/-- The collections of a run, each of which is exact. -/
structure ExactRun [DecidableEq α] (json : α → Str) (settings : Settings) (r : Reader α) :
    Prop where
  collected : Collected json settings r
  exact : ∀ before e after, r.exported = before ++ e :: after → Exact json settings before e

theorem exported_collectAndExport (hs : r.collectAndExport json settings observations = some r') :
    r'.exported = r.exported ∨ ∃ metrics,
      r'.exported = r.exported ++ [⟨r.measurements, r.observed observations, metrics⟩] := by
  unfold Reader.collectAndExport at hs
  dsimp only at hs
  split at hs
  · rw [← some.inj hs]
    exact Or.inl rfl
  · obtain ⟨⟨metrics, cumulativeState, last⟩, -, heq⟩ := map_eq_some_iff.mp hs
    rw [← heq]
    exact Or.inr ⟨metrics, rfl⟩

theorem exact_collect [DecidableEq α] (h : ExactRun json settings r)
    (h' : Collected json settings r')
    (hfresh : FreshStreams settings (history settings r.exported)
      (r.measurements ++ r.observed observations))
    (hs : r.collectAndExport json settings observations = some r') : ExactRun json settings r' := by
  refine ⟨h', ?_⟩
  rcases exported_collectAndExport hs with heq | ⟨metrics, heq⟩
  · rw [heq]
    exact h.exact
  · have hpoints := h'.points
    have hordered := h'.ordered
    rw [heq] at hpoints hordered ⊢
    refine split_concat h.exact (exact_of_fresh hpoints ?_ hfresh)
    rw [map_append] at hordered
    exact (pairwise_append.mp hordered).1

/-- **One step** whose collection is as if its streams were new. -/
theorem exact_step [DecidableEq α] (h : ExactRun json settings r)
    {e : ReaderEvent α} (hC : Fresh json settings r e) (hs : r.step json settings e = some r') :
    ExactRun json settings r' := by
  have h' := collected_step h.collected hC.1 hs
  cases e with
  | tick duration =>
    rw [← some.inj hs] at h' ⊢
    exact ⟨h', h.exact⟩
  | measure i value attributes =>
    refine ⟨h', ?_⟩
    rw [← some.inj hs]
    unfold Reader.measure Reader.record
    split
    · exact h.exact
    · split <;> exact h.exact
  | interval observations =>
    rw [Reader.step] at hs
    split at hs
    · cases hs
    · exact exact_collect h h' hC.2 hs
  | forceFlush observations =>
    rw [Reader.step, Reader.forceFlush] at hs
    split at hs
    · rw [← some.inj hs]
      exact h
    · exact exact_collect h h' hC.2 hs
  | shutdown observations =>
    refine ⟨h', ?_⟩
    rw [Reader.step, Reader.shutdown] at hs
    split at hs
    · rw [← some.inj hs]
      exact h.exact
    · rw [Reader.forceFlush, if_pos rfl, some_inj] at hs
      rw [← hs]
      exact h.exact

/-- An instrument of a meter. -/
def meterInstrument (name : Str) (type : MetricType) : Instrument :=
  ⟨name, [], [], ⟨lit "app", lit "1", []⟩, type⟩

/-- Delta temporality, with at most `n` metrics in a collection. -/
def deltaSettings (n : ℕ) : Settings := ⟨.delta, n, 0⟩

/-- `JSON.stringify` of the natural numbers. -/
def jsonNat (n : ℕ) : Str := natString 10 n

/-- A histogram and a counter in two collections. -/
def twoCollections : List (ReaderEvent ℕ) :=
  [.measure (meterInstrument (lit "h") .histogram) 3 .empty, .tick 5,
    .measure (meterInstrument (lit "c") .counter) 2 (OrderedMap.empty.set (lit "k") 1),
    .interval [], .tick 5,
    .measure (meterInstrument (lit "c") .counter) 7 (OrderedMap.empty.set (lit "k") 1),
    .forceFlush [], .shutdown []]

/-- Every accepted measurement was handed to a collection that has a point of its stream. -/
def AllReflected (json : α → Str) (r : Reader α) : Prop :=
  ∀ m ∈ r.accepted, ∃ e ∈ r.exported, m.stream json ∈ e.recorded.map (Measurement.stream json) ∧
    (pointAt e.metrics (m.stream json)).isSome = true

end DdTrace.OpenTelemetry
