import DdTrace.Library.Accumulate
import DdTrace.Library.Run
import DdTrace.Library.Text

/-!
# The periodic metric reader

`opentelemetry/metrics/periodic_metric_reader.js`, with the instruments that record into it.  A
measurement that `record` accepts waits in `measurements` until the timer or `forceFlush` collects
it; `aggregate` then adds it to the cumulative state of its stream and to the data point of the
stream in this collection, and `applyDeltaTemporality` takes from the point what was exported
before.

* The numbers are rationals: the finite doubles are, and their sums are taken exactly.
* `json` is `JSON.stringify` of an attribute value.  Attributes are those `sanitizeAttributes`
  leaves.
* The clock of `nowUnixNano` only moves forward; `tick` moves it.
* Where the state of a key is of the other kind, a counter for a histogram or the other way, the
  code goes on with `NaN` or throws.  The model stops there: `aggregate` is `none`.

The reader keeps two logs that the code does not have: the measurements `record` accepted, and what
the exporter was handed.
-/

namespace DdTrace.OpenTelemetry

open Library Str

/-! ## Measurements -/

inductive MetricType
  | histogram
  | counter
  | updowncounter
  | observableCounter
  | observableUpDownCounter
  | gauge
  deriving DecidableEq

/-- The value in `METRIC_TYPES`. -/
def MetricType.text : MetricType → Str
  | .histogram => lit "histogram"
  | .counter => lit "counter"
  | .updowncounter => lit "updowncounter"
  | .observableCounter => lit "observable-counter"
  | .observableUpDownCounter => lit "observable-updowncounter"
  | .gauge => lit "gauge"

/-- `TEMPORALITY`. -/
inductive Temporality
  | delta
  | cumulative
  | gauge
  | lowmemory
  deriving DecidableEq

structure InstrumentationScope where
  name : Str
  version : Str
  schemaUrl : Str
  deriving DecidableEq

structure Instrument where
  name : Str
  description : Str
  unit : Str
  instrumentationScope : InstrumentationScope
  type : MetricType
  deriving DecidableEq

/-- `createMeasurement`. -/
structure Measurement (α : Type) extends Instrument where
  value : ℚ
  attributes : OrderedMap Str α
  timestamp : ℕ

variable {α : Type}

/-- `stableStringify`. -/
def stableStringify (json : α → Str) (attributes : OrderedMap Str α) : Str :=
  Str.join (unit ',') ((attributes.keys.insertionSort (· ≤ ·)).map fun key =>
    key ++ lit ":" ++ ((attributes.get? key).map json).getD [])

/-- `getScopeKey`. -/
def getScopeKey (scope : InstrumentationScope) : Str :=
  scope.name ++ lit "@" ++ scope.version ++ lit "@" ++ scope.schemaUrl

def Instrument.metricKey (i : Instrument) : Str :=
  getScopeKey i.instrumentationScope ++ lit ":" ++ i.name ++ lit ":" ++ i.type.text

/-- `getStateKey` with the scope, the name and the type that make up the metric key. -/
def getStateKey (metricKey attrKey : Str) : Str := metricKey ++ lit ":" ++ attrKey

def Measurement.attrKey (json : α → Str) (m : Measurement α) : Str :=
  stableStringify json m.attributes

def Measurement.stateKey (json : α → Str) (m : Measurement α) : Str :=
  getStateKey m.metricKey (m.attrKey json)

/-! ## Values -/

def DEFAULT_HISTOGRAM_BUCKETS : List ℚ :=
  [0, 5, 10, 25, 50, 75, 100, 250, 500, 750, 1000, 2500, 5000, 7500, 10000]

def DEFAULT_MAX_MEASUREMENT_QUEUE_SIZE : ℕ := 65536

/-- What a histogram counts.  `min` and `max` are not there before the first value, where the code
has the two infinities. -/
structure Summary where
  count : ℤ
  sum : ℚ
  min : Option ℚ
  max : Option ℚ
  bucketCounts : List ℤ
  deriving DecidableEq

namespace Summary

def empty : Summary := ⟨0, 0, none, none, List.replicate (DEFAULT_HISTOGRAM_BUCKETS.length + 1) 0⟩

/-- The first bucket whose bound is not below the value. -/
def bucketIndex (value : ℚ) : ℕ := DEFAULT_HISTOGRAM_BUCKETS.findIdx fun bound => value ≤ bound

def add (s : Summary) (value : ℚ) : Summary where
  count := s.count + 1
  sum := s.sum + value
  min := some (s.min.elim value fun least => Min.min least value)
  max := some (s.max.elim value fun greatest => Max.max greatest value)
  bucketCounts := s.bucketCounts.modify (bucketIndex value) (· + 1)

/-- The count, the sum and the bucket counts less those of `last`; `min` and `max` stay. -/
def minus (s last : Summary) : Summary :=
  { s with
    count := s.count - last.count
    sum := s.sum - last.sum
    bucketCounts := s.bucketCounts.mapIdx fun i count => count - (last.bucketCounts[i]?).getD 0 }

end Summary

/-- The value of a data point, of a cumulative state and of an exported state. -/
inductive Value
  | number (value : ℚ)
  | histogram (summary : Summary)
  deriving DecidableEq

namespace Value

def addNumber (value : ℚ) : Value → Option Value
  | .number v => some (.number (v + value))
  | .histogram _ => none

def addObservation (value : ℚ) : Value → Option Value
  | .number _ => none
  | .histogram s => some (.histogram (s.add value))

/-- The value less the one exported last. -/
def minus : Value → Option Value → Option Value
  | v, none => some v
  | .number v, some (.number last) => some (.number (v - last))
  | .histogram s, some (.histogram last) => some (.histogram (s.minus last))
  | _, _ => none

end Value

structure CumulativeState where
  value : Value
  startTime : ℕ
  deriving DecidableEq

/-! ## Metrics -/

structure DataPoint (α : Type) where
  attributes : OrderedMap Str α
  attrKey : Str
  startTimeUnixNano : Option ℕ
  timeUnixNano : ℕ
  value : Value

structure AggregatedMetric (α : Type) extends Instrument where
  temporality : Temporality
  dataPointMap : OrderedMap Str (DataPoint α)

structure Settings where
  temporalityPreference : Temporality
  maxBatchedQueueSize : ℕ
  startTime : ℕ

def Settings.getTemporality (settings : Settings) (type : MetricType) : Temporality :=
  if type = .updowncounter ∨ type = .observableUpDownCounter then .cumulative
  else if type = .gauge then .gauge
  else
    match settings.temporalityPreference with
    | .cumulative => .cumulative
    | .lowmemory => if type = .counter ∨ type = .histogram then .delta else .cumulative
    | _ => .delta

/-- `isDeltaType`. -/
def MetricType.isDelta (type : MetricType) : Bool :=
  type = .counter || type = .observableCounter || type = .histogram

def AggregatedMetric.new (settings : Settings) (m : Measurement α) : AggregatedMetric α where
  toInstrument := m.toInstrument
  temporality := settings.getTemporality m.type
  dataPointMap := .empty

/-- `findOrCreateDataPoint`, with the value and the time that are written to it. -/
def AggregatedMetric.setDataPoint (metric : AggregatedMetric α) (m : Measurement α) (attrKey : Str)
    (startTimeUnixNano : Option ℕ) (value : Value) : AggregatedMetric α :=
  let dataPoint := (metric.dataPointMap.get? attrKey).getD
    ⟨m.attributes, attrKey, startTimeUnixNano, m.timestamp, value⟩
  { metric with
    dataPointMap := metric.dataPointMap.set attrKey
      { dataPoint with value := value, timeUnixNano := m.timestamp } }

/-- What `aggregateSum` and `aggregateHistogram` have in common: the state starts from `initial`,
and the point has the state that `add` leaves. -/
def AggregatedMetric.accumulate (settings : Settings) (metric : AggregatedMetric α)
    (m : Measurement α) (attrKey stateKey : Str) (initial : Value) (add : Value → Option Value)
    (cumulativeState : OrderedMap Str CumulativeState) :
    Option (AggregatedMetric α × OrderedMap Str CumulativeState) :=
  let state := (cumulativeState.get? stateKey).getD
    ⟨initial, if metric.temporality = .cumulative then settings.startTime else m.timestamp⟩
  (add state.value).map fun value =>
    (metric.setDataPoint m attrKey (some state.startTime) value,
      cumulativeState.set stateKey ⟨value, state.startTime⟩)

def AggregatedMetric.aggregateSum (settings : Settings) (metric : AggregatedMetric α)
    (m : Measurement α) (attrKey stateKey : Str) :=
  metric.accumulate settings m attrKey stateKey (.number 0) (Value.addNumber m.value)

def AggregatedMetric.aggregateHistogram (settings : Settings) (metric : AggregatedMetric α)
    (m : Measurement α) (attrKey stateKey : Str) :=
  metric.accumulate settings m attrKey stateKey (.histogram .empty) (Value.addObservation m.value)

def AggregatedMetric.aggregateLastValue (metric : AggregatedMetric α) (m : Measurement α)
    (attrKey : Str) : AggregatedMetric α :=
  metric.setDataPoint m attrKey none (.number m.value)

/-! ## Aggregation -/

/-- The metrics of a collection so far, and the cumulative state. -/
structure Aggregation (α : Type) where
  metricsMap : OrderedMap Str (AggregatedMetric α)
  cumulativeState : OrderedMap Str CumulativeState

/-- The part of the loop of `aggregate` that follows the look-up of the metric. -/
def Aggregation.addTo (json : α → Str) (settings : Settings) (acc : Aggregation α)
    (metric : AggregatedMetric α) (m : Measurement α) : Option (Aggregation α) :=
  let result :=
    match m.type with
    | .counter | .updowncounter =>
      metric.aggregateSum settings m (m.attrKey json) (m.stateKey json) acc.cumulativeState
    | .histogram =>
      metric.aggregateHistogram settings m (m.attrKey json) (m.stateKey json) acc.cumulativeState
    | .observableCounter | .observableUpDownCounter | .gauge =>
      some (metric.aggregateLastValue m (m.attrKey json), acc.cumulativeState)
  result.map fun (metric, cumulativeState) =>
    ⟨acc.metricsMap.set m.metricKey metric, cumulativeState⟩

/-- One round of the loop of `aggregate`: a measurement of a further metric is dropped when there
are `maxBatchedQueueSize` metrics. -/
def Aggregation.add (json : α → Str) (settings : Settings) (acc : Aggregation α)
    (m : Measurement α) : Option (Aggregation α) :=
  match acc.metricsMap.get? m.metricKey with
  | some metric => acc.addTo json settings metric m
  | none =>
    if settings.maxBatchedQueueSize ≤ acc.metricsMap.entries.length then some acc
    else acc.addTo json settings (.new settings m) m

/-- One point of `applyDeltaTemporality`. -/
def deltaPoint (metric : AggregatedMetric α) (dataPoint : DataPoint α)
    (lastExportedState : OrderedMap Str Value) : Option (DataPoint α × OrderedMap Str Value) :=
  let stateKey := getStateKey metric.metricKey dataPoint.attrKey
  (dataPoint.value.minus (lastExportedState.get? stateKey)).map fun value =>
    ({ dataPoint with value := value }, lastExportedState.set stateKey dataPoint.value)

def deltaMetric (metric : AggregatedMetric α) (lastExportedState : OrderedMap Str Value) :
    Option (AggregatedMetric α × OrderedMap Str Value) :=
  if metric.temporality = .delta && metric.type.isDelta then
    (metric.dataPointMap.mapAccum (fun _ => deltaPoint metric) lastExportedState).map
      fun (dataPointMap, last) => ({ metric with dataPointMap := dataPointMap }, last)
  else some (metric, lastExportedState)

def applyDeltaTemporality (metricsMap : OrderedMap Str (AggregatedMetric α))
    (lastExportedState : OrderedMap Str Value) :
    Option (OrderedMap Str (AggregatedMetric α) × OrderedMap Str Value) :=
  metricsMap.mapAccum (fun _ => deltaMetric) lastExportedState

/-- `aggregate`: the metrics, and the two states it leaves. -/
def aggregate (json : α → Str) (settings : Settings) (measurements : List (Measurement α))
    (cumulativeState : OrderedMap Str CumulativeState) (lastExportedState : OrderedMap Str Value) :
    Option (OrderedMap Str (AggregatedMetric α) × OrderedMap Str CumulativeState ×
      OrderedMap Str Value) :=
  (measurements.foldlM (Aggregation.add json settings) ⟨.empty, cumulativeState⟩).bind fun acc =>
    (applyDeltaTemporality acc.metricsMap lastExportedState).map fun (metrics, last) =>
      (metrics, acc.cumulativeState, last)

/-! ## The reader -/

/-- What the exporter was handed, with the measurements it was made from: those recorded and those
of the observable instruments. -/
structure Export (α : Type) where
  recorded : List (Measurement α)
  observed : List (Measurement α)
  metrics : OrderedMap Str (AggregatedMetric α)

structure Reader (α : Type) where
  measurements : List (Measurement α) := []
  cumulativeState : OrderedMap Str CumulativeState := .empty
  lastExportedState : OrderedMap Str Value := .empty
  droppedCount : ℕ := 0
  isShutdown : Bool := false
  now : ℕ := 0
  accepted : List (Measurement α) := []
  exported : List (Export α) := []

namespace Reader

variable (json : α → Str) (settings : Settings) (r : Reader α)

/-- `record` of the reader. -/
def record (m : Measurement α) : Reader α :=
  if DEFAULT_MAX_MEASUREMENT_QUEUE_SIZE ≤ r.measurements.length || r.isShutdown then
    { r with droppedCount := r.droppedCount + 1 }
  else { r with measurements := r.measurements ++ [m], accepted := r.accepted ++ [m] }

/-- `add` and `record` of the instruments; counters and histograms take no negative value. -/
def measure (i : Instrument) (value : ℚ) (attributes : OrderedMap Str α) : Reader α :=
  if (i.type = .counter || i.type = .histogram) && value < 0 then r
  else r.record ⟨i, value, attributes, r.now⟩

/-- The measurements of one observable instrument are taken as far as there is room. -/
def admitted (taken observed : List (Measurement α)) : List (Measurement α) :=
  observed.take (DEFAULT_MAX_MEASUREMENT_QUEUE_SIZE - taken.length)

/-- The loop over the observable instruments, with the batch callbacks as the last of them: what
joins the recorded measurements. -/
def observed (observations : List (List (Instrument × ℚ × OrderedMap Str α))) :
    List (Measurement α) :=
  observations.foldl (fun observed results =>
    observed ++ admitted (r.measurements ++ observed) (results.map fun (i, value, attributes) =>
      ⟨i, value, attributes, r.now⟩)) []

/-- `collectAndExport`, with what the observable instruments and the batch callbacks observe.  What
it drops is logged, and the count starts again. -/
def collectAndExport (observations : List (List (Instrument × ℚ × OrderedMap Str α))) :
    Option (Reader α) :=
  let observed := r.observed observations
  let taken := { r with measurements := [], droppedCount := 0 }
  if (r.measurements ++ observed).length = 0 then some taken
  else
    (aggregate json settings (r.measurements ++ observed) r.cumulativeState
      r.lastExportedState).map fun (metrics, cumulativeState, lastExportedState) =>
        { taken with
          cumulativeState := cumulativeState
          lastExportedState := lastExportedState
          exported := r.exported ++ [⟨r.measurements, observed, metrics⟩] }

def forceFlush (observations : List (List (Instrument × ℚ × OrderedMap Str α))) :
    Option (Reader α) :=
  if r.isShutdown then some r else r.collectAndExport json settings observations

/-- `shutdown`: the flag is set before `forceFlush` looks at it. -/
def shutdown (observations : List (List (Instrument × ℚ × OrderedMap Str α))) : Option (Reader α) :=
  if r.isShutdown then some r
  else ({ r with isShutdown := true } : Reader α).forceFlush json settings observations

end Reader

/-- What can happen to a reader; `interval` is the timer, which `shutdown` clears. -/
inductive ReaderEvent (α : Type)
  | tick (duration : ℕ)
  | measure (i : Instrument) (value : ℚ) (attributes : OrderedMap Str α)
  | interval (observations : List (List (Instrument × ℚ × OrderedMap Str α)))
  | forceFlush (observations : List (List (Instrument × ℚ × OrderedMap Str α)))
  | shutdown (observations : List (List (Instrument × ℚ × OrderedMap Str α)))

def Reader.step (json : α → Str) (settings : Settings) (r : Reader α) :
    ReaderEvent α → Option (Reader α)
  | .tick duration => some { r with now := r.now + duration }
  | .measure i value attributes => some (r.measure i value attributes)
  | .interval observations =>
    if r.isShutdown then none else r.collectAndExport json settings observations
  | .forceFlush observations => r.forceFlush json settings observations
  | .shutdown observations => r.shutdown json settings observations

end DdTrace.OpenTelemetry
