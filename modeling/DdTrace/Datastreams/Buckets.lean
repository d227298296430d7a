import DdTrace.Datastreams.Checkpoint
import DdTrace.Library.Accumulate

/-!
# The buckets of data streams

`DataStreamsProcessor` keeps a bucket for every ten seconds, and in a bucket a point of statistics
for every pathway and a backlog for every tag set.  A flush serializes all buckets and clears them.

A run is told what it recorded since the last flush (`since`), and each payload what it was recorded
from.  Three invariants go through every step:

* `Tallied`: the latencies in the points are, as a multiset, those of the checkpoints recorded, each
  under its own bucket and the value of its hash.
* `Maximal`: a backlog has the maximum of the offsets recorded under its text in its bucket, and was
  recorded with it.
* `OnePoint`: the points of a bucket have distinct hashes.  It is kept by a checkpoint just where
  its hash is the object of the point that has its value, since the map of a bucket is keyed by the
  `Buffer`: `onePoint_record_iff`.

`reported_of_records` has the three for every payload of every run.  `not_onePoint` is the run of two
checkpoints with one hash in two buffers, as the cache of `pathway.js` hands them out when it has
dropped the first one.
-/

namespace DdTrace.Datastreams

open Library List OrderedMap

variable {ω : Type*}

/-! ## Points, backlogs and buckets -/

/-- `readBigUInt64LE` of a hash. -/
def Buf.value (b : Buf) : ℕ := Bytes.ofBytes (b.bytes.take 8).reverse

/-- What the three sketches of a point are given at once; the latencies in nanoseconds. -/
structure Latencies where
  edgeLatencyNs : ℤ
  pathwayLatencyNs : ℤ
  payloadSize : ℕ
  deriving DecidableEq

/-- `StatsPoint`, with what its sketches accepted. -/
structure StatsPoint where
  hash : ℕ
  parentHash : ℕ
  edgeTags : List Str
  accepted : List Latencies
  deriving DecidableEq

namespace StatsPoint

def new (hash parentHash : Buf) (edgeTags : List Str) : StatsPoint :=
  ⟨hash.value, parentHash.value, edgeTags, []⟩

def addLatencies (c : Checkpoint) (p : StatsPoint) : StatsPoint :=
  { p with accepted := p.accepted ++ [⟨c.edgeLatencyNs, c.pathwayLatencyNs, c.payloadSize⟩] }

end StatsPoint

/-- A backlog as it is handed in: an offset, and the other fields with their values as text. -/
structure BacklogData (ω : Type*) where
  offset : ω
  tags : OrderedMap Str Str

/-- `Backlog`. -/
structure Backlog (ω : Type*) where
  tags : List Str
  offset : ω
  deriving DecidableEq

def Backlog.new (data : BacklogData ω) : Backlog ω where
  tags := (sortTags data.tags.keys).map fun key => key ++ lit ":" ++ (data.tags.get? key).getD []
  offset := data.offset

/-- The text of a tag set, by which backlogs are found. -/
def tagsText (tags : List Str) : Str := Str.join (unit ',') tags

def Backlog.hash (b : Backlog ω) : Str := tagsText b.tags

structure StatsBucket (ω : Type*) where
  checkpoints : OrderedMap Buf StatsPoint
  backlogs : OrderedMap Str (Backlog ω)
  transactionChunks : List (List UInt8)

namespace StatsBucket

def new : StatsBucket ω := ⟨.empty, .empty, []⟩

/-- `forCheckpoint(checkpoint).addLatencies(checkpoint)`. -/
def record (c : Checkpoint) (b : StatsBucket ω) : StatsBucket ω :=
  { b with
    checkpoints := b.checkpoints.update c.hash (.new c.hash c.parentHash c.edgeTags)
      (StatsPoint.addLatencies c) }

def addTransaction (bytes : List UInt8) (b : StatsBucket ω) : StatsBucket ω :=
  { b with transactionChunks := b.transactionChunks ++ [bytes] }

/-- `transactions`. -/
def transactions (b : StatsBucket ω) : Option (List UInt8) :=
  if b.transactionChunks.length = 0 then none else some b.transactionChunks.flatten

def forBacklog [LinearOrder ω] (data : BacklogData ω) (b : StatsBucket ω) : StatsBucket ω :=
  let backlog := Backlog.new data
  match b.backlogs.get? backlog.hash with
  | some existing =>
    if existing.offset > backlog.offset then b
    else { b with backlogs := b.backlogs.set backlog.hash backlog }
  | none => { b with backlogs := b.backlogs.set backlog.hash backlog }

end StatsBucket

/-- `TimeBuckets`. -/
abbrev TimeBuckets (ω : Type*) := OrderedMap ℕ (StatsBucket ω)

def bucketSizeNs : ℕ := 10 ^ 10

/-- The start of the bucket of a timestamp. -/
def bucketTime (timestamp : ℕ) : ℕ := timestamp - timestamp % bucketSizeNs

/-- A change of the bucket of a timestamp. -/
def TimeBuckets.change (buckets : TimeBuckets ω) (timestamp : ℕ)
    (f : StatsBucket ω → StatsBucket ω) : TimeBuckets ω :=
  buckets.update (bucketTime timestamp) .new f

/-! ## Transactions -/

/-- The bytes of the characters of a string that fit into `limit` bytes, as `Buffer.write` puts
them. -/
def utf8Prefix : ℕ → List ℕ → List UInt8
  | _, [] => []
  | limit, c :: cs =>
    let bytes := Unicode.utf8Char (if Unicode.isScalar c then c else Unicode.replacement)
    if bytes.length ≤ limit then bytes ++ utf8Prefix (limit - bytes.length) cs else []

/-- `CheckpointRegistry`: the names in the order of their ids, which start at 1. -/
abbrev CheckpointRegistry := List Str

/-- `getId`: the id, and the registry it leaves. -/
def getId (registry : CheckpointRegistry) (name : Str) : Option ℕ × CheckpointRegistry :=
  if includes registry name then (some (registry.idxOf name + 1), registry)
  else if 254 < registry.length + 1 then (none, registry)
  else (some (registry.length + 1), registry ++ [name])

/-- `encodedKeys`. -/
def encodedKeys (registry : CheckpointRegistry) : List UInt8 :=
  registry.zipIdx.flatMap fun (name, i) =>
    let bytes := utf8Prefix 255 (Unicode.chars name)
    (i + 1).toUInt8 :: bytes.length.toUInt8 :: bytes

/-- The entry of a transaction. -/
def transactionEntry (id nowMs : ℕ) (transactionId : Str) : List UInt8 :=
  let idBytes := (Unicode.encodeUtf8 transactionId).take 255
  id.toUInt8 :: (Bytes.toBytes 8 (nowMs * 1000000) ++ idBytes.length.toUInt8 :: idBytes)

/-! ## Payloads -/

structure SerializedPoint where
  hash : ℕ
  parentHash : ℕ
  edgeTags : List Str
  edgeLatency : List ℤ
  pathwayLatency : List ℤ
  payloadSize : List ℕ
  deriving DecidableEq

/-- `encode` of a point. -/
def StatsPoint.encode (p : StatsPoint) : SerializedPoint :=
  ⟨p.hash, p.parentHash, p.edgeTags, p.accepted.map Latencies.edgeLatencyNs,
    p.accepted.map Latencies.pathwayLatencyNs, p.accepted.map Latencies.payloadSize⟩

structure SerializedBucket (ω : Type*) where
  start : ℕ
  duration : ℕ
  stats : List SerializedPoint
  backlogs : List (Backlog ω)
  transactions : Option (List UInt8 × List UInt8)
  deriving DecidableEq

/-- `_serializeBuckets`, before it clears the buckets. -/
def serializeBuckets (registry : CheckpointRegistry) (buckets : TimeBuckets ω) :
    List (SerializedBucket ω) :=
  buckets.entries.map fun (timeNs, bucket) =>
    { start := timeNs
      duration := bucketSizeNs
      stats := bucket.checkpoints.values.map StatsPoint.encode
      backlogs := bucket.backlogs.values
      transactions := bucket.transactions.map fun bytes => (bytes, encodedKeys registry) }

/-- The options of the processor that do not change. -/
structure Settings where
  enabled : Bool
  flushInterval : ℕ
  env : Str
  service : Str
  version : Str
  tracerVersion : Str
  tags : OrderedMap Str Str
  processTags : Option (List Str)

structure Payload (ω : Type*) where
  env : Str
  service : Str
  stats : List (SerializedBucket ω)
  tracerVersion : Str
  version : Str
  lang : Str
  tags : List Str
  processTags : Option (List Str)
  deriving DecidableEq

/-! ## Runs -/

/-- What is recorded, and the timer. -/
inductive RecordEvent (ω : Type*)
  | checkpoint (c : Checkpoint)
  | offset (timestamp : ℕ) (data : BacklogData ω)
  | transaction (id name : Str) (nowMs : ℕ)
  | interval

/-- A payload with what was recorded since the one before. -/
structure Flush (ω : Type*) where
  payload : Payload ω
  since : List (RecordEvent ω)

/-- The processor, its payloads so far, and what was recorded since the last one. -/
structure Recorder (ω : Type*) where
  buckets : TimeBuckets ω
  registry : CheckpointRegistry
  flushed : List (Flush ω)
  since : List (RecordEvent ω)

namespace Recorder

def start : Recorder ω := ⟨.empty, [], [], []⟩

/-- `onInterval`. -/
def onInterval (settings : Settings) (r : Recorder ω) : Recorder ω :=
  let stats := serializeBuckets r.registry r.buckets
  let r' := { r with buckets := .empty, since := [] }
  if stats.length = 0 then r'
  else
    { r' with
      flushed := r.flushed ++ [⟨{
          env := settings.env
          service := settings.service
          stats := stats
          tracerVersion := settings.tracerVersion
          version := settings.version
          lang := lit "javascript"
          tags := settings.tags.entries.map fun (key, value) => key ++ lit ":" ++ value
          processTags := settings.processTags }, r.since⟩] }

/-- The end of every recording: a flush where there is no timer. -/
def recorded (settings : Settings) (r : Recorder ω) : Recorder ω :=
  if settings.flushInterval = 0 then r.onInterval settings else r

/-- `recordCheckpoint`. -/
def recordCheckpoint (settings : Settings) (c : Checkpoint) (r : Recorder ω) : Recorder ω :=
  if settings.enabled then
    recorded settings
      { r with
        buckets := r.buckets.change c.currentTimestamp (StatsBucket.record c)
        since := r.since ++ [.checkpoint c] }
  else r

/-- `recordOffset`. -/
def recordOffset [LinearOrder ω] (settings : Settings) (timestamp : ℕ) (data : BacklogData ω)
    (r : Recorder ω) : Recorder ω :=
  if settings.enabled then
    recorded settings
      { r with
        buckets := r.buckets.change timestamp (StatsBucket.forBacklog data)
        since := r.since ++ [.offset timestamp data] }
  else r

/-- `trackTransaction`. -/
def trackTransaction (settings : Settings) (id name : Str) (nowMs : ℕ) (r : Recorder ω) :
    Recorder ω :=
  if settings.enabled then
    match getId r.registry name with
    | (none, _) => r
    | (some checkpointId, registry) =>
      recorded settings
        { r with
          buckets := r.buckets.change (nowMs * 1000000)
            (StatsBucket.addTransaction (transactionEntry checkpointId nowMs id))
          registry := registry
          since := r.since ++ [.transaction id name nowMs] }
  else r

def step [LinearOrder ω] (settings : Settings) (r : Recorder ω) :
    RecordEvent ω → Option (Recorder ω)
  | .checkpoint c => some (r.recordCheckpoint settings c)
  | .offset timestamp data => some (r.recordOffset settings timestamp data)
  | .transaction id name nowMs => some (r.trackTransaction settings id name nowMs)
  | .interval => some (r.onInterval settings)

end Recorder

/-! ## Changes of one bucket -/

/-- The bucket of a time, a new one where there is none. -/
def TimeBuckets.bucket (buckets : TimeBuckets ω) (time : ℕ) : StatsBucket ω :=
  (buckets.get? time).getD .new

theorem bucket_change (buckets : TimeBuckets ω) (timestamp time : ℕ)
    (f : StatsBucket ω → StatsBucket ω) :
    (buckets.change timestamp f).bucket time =
      if time = bucketTime timestamp then f (buckets.bucket time) else buckets.bucket time := by
  unfold TimeBuckets.bucket TimeBuckets.change
  rw [get?_update]
  split
  · next h =>
    rw [h]
    rfl
  · rfl

variable {b : StatsBucket ω}

theorem bucket_of_get? {buckets : TimeBuckets ω} {time : ℕ} (h : buckets.get? time = some b) :
    buckets.bucket time = b := by
  rw [TimeBuckets.bucket, h]
  rfl

/-! ## Every checkpoint is counted once -/

/-- What the points of a bucket were given. -/
def StatsBucket.tally (time : ℕ) (b : StatsBucket ω) : List (ℕ × ℕ × Latencies) :=
  b.checkpoints.entries.flatMap fun e => e.2.accepted.map fun l => (time, e.2.hash, l)

def TimeBuckets.tally (buckets : TimeBuckets ω) : List (ℕ × ℕ × Latencies) :=
  buckets.entries.flatMap fun e => e.2.tally e.1

/-- What a checkpoint gives the point of its hash in its bucket. -/
def RecordEvent.counted : RecordEvent ω → List (ℕ × ℕ × Latencies)
  | .checkpoint c => [(bucketTime c.currentTimestamp, c.hash.value,
      ⟨c.edgeLatencyNs, c.pathwayLatencyNs, c.payloadSize⟩)]
  | _ => []

/-- The points of a bucket have the values of their keys. -/
def StatsBucket.Keyed (b : StatsBucket ω) : Prop :=
  ∀ k p, b.checkpoints.get? k = some p → p.hash = k.value

theorem keyed_new : (StatsBucket.new : StatsBucket ω).Keyed := by
  intro k p h
  cases h

theorem keyed_record (h : b.Keyed) (c : Checkpoint) : (b.record c).Keyed := by
  intro k p hp
  rw [StatsBucket.record, get?_update] at hp
  split at hp
  · next hk =>
    rw [← Option.some.inj hp, hk]
    cases hget : b.checkpoints.get? c.hash with
    | none => rfl
    | some q => exact h _ q hget
  · exact h k p hp

theorem tally_record (h : b.Keyed) (time : ℕ) (c : Checkpoint) :
    ((b.record c).tally time).Perm (b.tally time ++
      [(time, c.hash.value, ⟨c.edgeLatencyNs, c.pathwayLatencyNs, c.payloadSize⟩)]) := by
  refine perm_flatMap_update (T := fun _ p => p.accepted.map fun l => (time, p.hash, l))
    b.checkpoints c.hash (.new c.hash c.parentHash c.edgeTags) (StatsPoint.addLatencies c) rfl ?_
  have hhash : ((b.checkpoints.get? c.hash).getD
      (.new c.hash c.parentHash c.edgeTags)).hash = c.hash.value := by
    cases hget : b.checkpoints.get? c.hash with
    | none => rfl
    | some p => exact h _ p hget
  rw [StatsPoint.addLatencies]
  rw [map_append, map_singleton, hhash]

theorem tally_change {buckets : TimeBuckets ω} {timestamp : ℕ}
    {f : StatsBucket ω → StatsBucket ω} {new : List (ℕ × ℕ × Latencies)}
    (hf : ((f (buckets.bucket (bucketTime timestamp))).tally (bucketTime timestamp)).Perm
      ((buckets.bucket (bucketTime timestamp)).tally (bucketTime timestamp) ++ new)) :
    (buckets.change timestamp f).tally.Perm (buckets.tally ++ new) :=
  perm_flatMap_update (T := fun (time : ℕ) (b : StatsBucket ω) => b.tally time) buckets
    _ .new f rfl hf

/-! ## A backlog has the maximum of its offsets -/

/-- The offset that is handed in, with its tags, for a bucket. -/
def RecordEvent.offered : RecordEvent ω → List (ℕ × List Str × ω)
  | .offset timestamp data => [(bucketTime timestamp, (Backlog.new data).tags, data.offset)]
  | _ => []

/-- The offsets recorded in the bucket of a time. -/
def offersAt (since : List (RecordEvent ω)) (time : ℕ) : List (List Str × ω) :=
  (since.flatMap RecordEvent.offered).filterMap fun x => if x.1 = time then some x.2 else none

theorem offersAt_concat (since : List (RecordEvent ω)) (e : RecordEvent ω) (time : ℕ) :
    offersAt (since ++ [e]) time = offersAt since time ++
      e.offered.filterMap fun x => if x.1 = time then some x.2 else none := by
  rw [offersAt, flatMap_append, flatMap_singleton, filterMap_append, offersAt]

/-- **The backlogs of a bucket are the maxima of some offers**, one for each text of tags. -/
structure StatsBucket.Maximal [LinearOrder ω] (b : StatsBucket ω)
    (offers : List (List Str × ω)) : Prop where
  text : ∀ h e, b.backlogs.get? h = some e → e.hash = h
  offered : ∀ h e, b.backlogs.get? h = some e → (e.tags, e.offset) ∈ offers
  le : ∀ h e, b.backlogs.get? h = some e → ∀ tags o, (tags, o) ∈ offers → tagsText tags = h →
    o ≤ e.offset
  complete : ∀ tags o, (tags, o) ∈ offers → ∃ e, b.backlogs.get? (tagsText tags) = some e

theorem maximal_new [LinearOrder ω] : (StatsBucket.new : StatsBucket ω).Maximal [] := by
  have hnone : ∀ h (e : Backlog ω), (StatsBucket.new : StatsBucket ω).backlogs.get? h ≠ some e := by
    intro h e he
    cases he
  exact ⟨fun h e he => absurd he (hnone h e), fun h e he => absurd he (hnone h e),
    fun h e he => absurd he (hnone h e), fun _ _ ho => absurd ho not_mem_nil⟩

/-- A backlog that is set in place of one with no greater offset. -/
theorem maximal_set [LinearOrder ω] {offers : List (List Str × ω)}
    (h : b.Maximal offers) {new : Backlog ω}
    (hle : ∀ e, b.backlogs.get? new.hash = some e → e.offset ≤ new.offset) :
    StatsBucket.Maximal { b with backlogs := b.backlogs.set new.hash new }
      (offers ++ [(new.tags, new.offset)]) := by
  constructor
  · intro k e he
    rw [get?_set] at he
    split at he
    · next hk => rw [← Option.some.inj he, hk]
    · exact h.text k e he
  · intro k e he
    rw [get?_set] at he
    split at he
    · rw [← Option.some.inj he]
      exact mem_append_right _ (mem_singleton_self _)
    · exact mem_append_left _ (h.offered k e he)
  · intro k e he tags o ho htext
    rw [get?_set] at he
    rcases mem_append.mp ho with ho | ho
    · split at he
      · next hk =>
        rw [← Option.some.inj he]
        obtain ⟨old, hold⟩ := h.complete tags o ho
        rw [htext, hk] at hold
        exact (h.le _ old hold tags o ho (htext.trans hk)).trans (hle old hold)
      · exact h.le k e he tags o ho htext
    · cases mem_singleton.mp ho
      rw [if_pos (show k = new.hash from htext.symm)] at he
      rw [← Option.some.inj he]
  · intro tags o ho
    rw [get?_set]
    rcases mem_append.mp ho with ho | ho
    · split
      · exact ⟨new, rfl⟩
      · exact h.complete tags o ho
    · cases mem_singleton.mp ho
      exact ⟨new, if_pos rfl⟩

/-- **The order of arrival does not matter**: a backlog with a smaller offset is left out. -/
theorem maximal_forBacklog [LinearOrder ω] {offers : List (List Str × ω)}
    (h : b.Maximal offers) (data : BacklogData ω) :
    (b.forBacklog data).Maximal (offers ++ [((Backlog.new data).tags, data.offset)]) := by
  unfold StatsBucket.forBacklog
  dsimp only
  cases hget : b.backlogs.get? (Backlog.new data).hash with
  | none =>
    refine maximal_set h fun e he => ?_
    rw [hget] at he
    cases he
  | some existing =>
    by_cases hgt : existing.offset > (Backlog.new data).offset
    · dsimp only
      rw [if_pos hgt]
      constructor
      · exact h.text
      · exact fun k e he => mem_append_left _ (h.offered k e he)
      · intro k e he tags o ho htext
        rcases mem_append.mp ho with ho | ho
        · exact h.le k e he tags o ho htext
        · cases mem_singleton.mp ho
          rw [← htext] at he
          rw [← Option.some.inj (hget.symm.trans he)]
          exact le_of_lt hgt
      · intro tags o ho
        rcases mem_append.mp ho with ho | ho
        · exact h.complete tags o ho
        · cases mem_singleton.mp ho
          exact ⟨existing, hget⟩
    · dsimp only
      rw [if_neg hgt]
      refine maximal_set h fun e he => ?_
      rw [← Option.some.inj (hget.symm.trans he)]
      exact not_lt.mp hgt

/-! ## One point for a hash -/

/-- The points of a bucket have distinct hashes. -/
def StatsBucket.OnePoint (b : StatsBucket ω) : Prop :=
  (b.checkpoints.values.map StatsPoint.hash).Nodup

theorem hashes_of_keyed (h : b.Keyed) :
    b.checkpoints.values.map StatsPoint.hash = b.checkpoints.keys.map Buf.value := by
  rw [OrderedMap.values, OrderedMap.keys, map_map, map_map]
  refine map_congr_left fun e he => ?_
  exact h e.1 e.2 (mem_entries_iff.mp he)

theorem nodup_map_addKey_iff {κ β : Type*} [DecidableEq κ] {f : κ → β} {ks : List κ} {k : κ}
    (h : (ks.map f).Nodup) :
    ((OrderedMap.addKey ks k).map f).Nodup ↔ ∀ j ∈ ks, f j = f k → j = k := by
  rw [OrderedMap.addKey]
  split
  · next hmem =>
    refine ⟨fun hnodup j hj heq => ?_, fun _ => h⟩
    exact inj_on_of_nodup_map hnodup hj hmem heq
  · next hnotMem =>
    rw [map_append, nodup_append]
    constructor
    · rintro ⟨_, _, hne⟩ j hj heq
      exact absurd heq (hne _ (mem_map_of_mem hj) _ (mem_singleton_self _))
    · intro hown
      refine ⟨h, nodup_singleton _, ?_⟩
      rintro x hx y hy rfl
      obtain ⟨j, hj, heq⟩ := mem_map.mp hx
      rw [mem_singleton.mp hy] at heq
      exact hnotMem (hown j hj heq ▸ hj)

/-- **A checkpoint keeps one point for a hash** just where its hash is the object of the point that
has its value. -/
theorem onePoint_record_iff (hkeyed : b.Keyed) (h : b.OnePoint) (c : Checkpoint) :
    (b.record c).OnePoint ↔ ∀ k ∈ b.checkpoints.keys, k.value = c.hash.value → k = c.hash := by
  rw [StatsBucket.OnePoint, hashes_of_keyed hkeyed] at h
  rw [StatsBucket.OnePoint, hashes_of_keyed (keyed_record hkeyed c), StatsBucket.record]
  rw [OrderedMap.update, keys_set]
  exact nodup_map_addKey_iff h

/-! ## The invariant -/

/-- **What holds of the buckets** and of what was recorded since they were cleared. -/
structure Counts [LinearOrder ω] (buckets : TimeBuckets ω) (since : List (RecordEvent ω)) :
    Prop where
  keyed : ∀ time, (buckets.bucket time).Keyed
  tallied : buckets.tally.Perm (since.flatMap RecordEvent.counted)
  maximal : ∀ time, (buckets.bucket time).Maximal (offersAt since time)
  isEmpty : buckets.entries = [] → since = []

theorem entries_change_ne_nil (buckets : TimeBuckets ω) (timestamp : ℕ)
    (f : StatsBucket ω → StatsBucket ω) : (buckets.change timestamp f).entries ≠ [] := by
  intro hnil
  have hmem := mem_entries_iff.mpr
    ((get?_update buckets (bucketTime timestamp) (bucketTime timestamp) .new f).trans (if_pos rfl))
  rw [TimeBuckets.change] at hnil
  rw [hnil] at hmem
  cases hmem

section Invariant

variable [LinearOrder ω]

theorem counts_empty : Counts (.empty : TimeBuckets ω) [] :=
  ⟨fun _ => keyed_new, List.Perm.refl _, fun _ => maximal_new, fun _ => rfl⟩

variable {buckets : TimeBuckets ω} {since : List (RecordEvent ω)} {registry : CheckpointRegistry}
  {payload : Payload ω}

/-- A change of the bucket that an event is for. -/
theorem counts_change (h : Counts buckets since) {timestamp : ℕ} {f : StatsBucket ω → StatsBucket ω}
    {e : RecordEvent ω}
    (hkeyed : ∀ b : StatsBucket ω, b.Keyed → (f b).Keyed)
    (htally : ∀ b : StatsBucket ω, b.Keyed → ((f b).tally (bucketTime timestamp)).Perm
      (b.tally (bucketTime timestamp) ++ e.counted))
    (hoffered : ∀ x ∈ e.offered, x.1 = bucketTime timestamp)
    (hmaximal : ∀ (b : StatsBucket ω) offers, b.Maximal offers →
      (f b).Maximal (offers ++ e.offered.map Prod.snd)) :
    Counts (buckets.change timestamp f) (since ++ [e]) := by
  constructor
  · intro time
    rw [bucket_change]
    split
    · exact hkeyed _ (h.keyed time)
    · exact h.keyed time
  · refine (tally_change (htally _ (h.keyed _))).trans ?_
    rw [flatMap_append, flatMap_singleton]
    exact h.tallied.append_right _
  · intro time
    rw [bucket_change, offersAt_concat]
    split
    · next htime =>
      have hall : (e.offered.filterMap fun x => if x.1 = time then some x.2 else none) =
          e.offered.map Prod.snd := by
        rw [← filterMap_eq_map]
        refine filterMap_congr fun x hx => ?_
        exact if_pos ((hoffered x hx).trans htime.symm)
      rw [hall]
      exact hmaximal _ _ (h.maximal time)
    · next htime =>
      have hnone : (e.offered.filterMap fun x => if x.1 = time then some x.2 else none) = [] := by
        rw [filterMap_eq_nil_iff]
        intro x hx
        exact if_neg fun hx' => htime (hx'.symm.trans (hoffered x hx))
      rw [hnone, append_nil]
      exact h.maximal time
  · exact fun hnil => absurd hnil (entries_change_ne_nil _ _ _)

theorem counts_checkpoint (h : Counts buckets since) (c : Checkpoint) :
    Counts (buckets.change c.currentTimestamp (StatsBucket.record c))
      (since ++ [.checkpoint c]) := by
  refine counts_change h (fun b hb => keyed_record hb c) (fun b hb => tally_record hb _ c)
    (fun x hx => absurd hx not_mem_nil) fun b offers hb => ?_
  show StatsBucket.Maximal _ (offers ++ [])
  rw [append_nil]
  exact ⟨hb.text, hb.offered, hb.le, hb.complete⟩

theorem counts_offset (h : Counts buckets since) (timestamp : ℕ) (data : BacklogData ω) :
    Counts (buckets.change timestamp (StatsBucket.forBacklog data))
      (since ++ [.offset timestamp data]) := by
  have hcheckpoints : ∀ b : StatsBucket ω, (b.forBacklog data).checkpoints = b.checkpoints := by
    intro b
    unfold StatsBucket.forBacklog
    dsimp only
    split
    · split <;> rfl
    · rfl
  refine counts_change h ?_ ?_ ?_ fun b offers hb => maximal_forBacklog hb data
  · intro b hb k p hp
    rw [hcheckpoints] at hp
    exact hb k p hp
  · intro b _
    rw [StatsBucket.tally, hcheckpoints]
    exact List.Perm.of_eq (append_nil _).symm
  · intro x hx
    rw [mem_singleton.mp hx]

theorem counts_transaction (h : Counts buckets since) (timestamp : ℕ) (bytes : List UInt8)
    (id name : Str) (nowMs : ℕ) :
    Counts (buckets.change timestamp (StatsBucket.addTransaction bytes))
      (since ++ [.transaction id name nowMs]) := by
  refine counts_change h (fun b hb => hb) (fun b _ => List.Perm.of_eq (append_nil _).symm)
    (fun x hx => absurd hx not_mem_nil) fun b offers hb => ?_
  show StatsBucket.Maximal _ (offers ++ [])
  rw [append_nil]
  exact ⟨hb.text, hb.offered, hb.le, hb.complete⟩

/-! ## Payloads of the buckets -/

/-- What the points of a payload were given, as far as `f` reads it. -/
def payloadTally {β : Type*} (f : SerializedPoint → List β) (stats : List (SerializedBucket ω)) :
    List (ℕ × ℕ × β) :=
  stats.flatMap fun b => b.stats.flatMap fun p => (f p).map fun x => (b.start, p.hash, x)

omit [LinearOrder ω] in
theorem payloadTally_serializeBuckets {β : Type*} {f : SerializedPoint → List β}
    {g : Latencies → β} (hf : ∀ p : StatsPoint, f p.encode = p.accepted.map g)
    (registry : CheckpointRegistry) (buckets : TimeBuckets ω) :
    payloadTally f (serializeBuckets registry buckets) =
      buckets.tally.map fun x => (x.1, x.2.1, g x.2.2) := by
  rw [payloadTally, serializeBuckets, flatMap_map, TimeBuckets.tally, map_flatMap]
  congr 1
  funext e
  dsimp only
  rw [OrderedMap.values, map_map, flatMap_map, StatsBucket.tally, map_flatMap]
  congr 1
  funext p
  rw [Function.comp_apply, hf, map_map, map_map]
  rfl

/-- **Every checkpoint is counted in one point**, of its own bucket and hash: each of the three
sketches was given the values of the checkpoints recorded since the last payload. -/
structure Flush.Counted (f : Flush ω) : Prop where
  edgeLatency : (payloadTally SerializedPoint.edgeLatency f.payload.stats).Perm
    ((f.since.flatMap RecordEvent.counted).map fun x => (x.1, x.2.1, x.2.2.edgeLatencyNs))
  pathwayLatency : (payloadTally SerializedPoint.pathwayLatency f.payload.stats).Perm
    ((f.since.flatMap RecordEvent.counted).map fun x => (x.1, x.2.1, x.2.2.pathwayLatencyNs))
  payloadSize : (payloadTally SerializedPoint.payloadSize f.payload.stats).Perm
    ((f.since.flatMap RecordEvent.counted).map fun x => (x.1, x.2.1, x.2.2.payloadSize))

/-- Tag sets recorded in one bucket have different texts. -/
def DistinctTexts (since : List (RecordEvent ω)) : Prop :=
  ∀ time tags tags' o o', (tags, o) ∈ offersAt since time → (tags', o') ∈ offersAt since time →
    tagsText tags = tagsText tags' → tags = tags'

/-- **A backlog reports the maximum of the offsets of its tags** in its bucket; and every tag set has
a backlog, where no two have one text. -/
structure Flush.Maximal (f : Flush ω) : Prop where
  maximum : ∀ b ∈ f.payload.stats, ∀ backlog ∈ b.backlogs,
    (backlog.tags, backlog.offset) ∈ offersAt f.since b.start ∧
      ∀ o, (backlog.tags, o) ∈ offersAt f.since b.start → o ≤ backlog.offset
  complete : DistinctTexts f.since → ∀ time tags o, (tags, o) ∈ offersAt f.since time →
    ∃ b ∈ f.payload.stats, b.start = time ∧ ∃ backlog ∈ b.backlogs, backlog.tags = tags

/-- The points of a bucket of the payload have distinct hashes. -/
def Flush.OnePoint (f : Flush ω) : Prop :=
  ∀ b ∈ f.payload.stats, (b.stats.map SerializedPoint.hash).Nodup

omit [LinearOrder ω] in
theorem mem_serializeBuckets {b : SerializedBucket ω} :
    b ∈ serializeBuckets registry buckets ↔ ∃ time bucket, buckets.get? time = some bucket ∧
      b = ⟨time, bucketSizeNs, bucket.checkpoints.values.map StatsPoint.encode,
        bucket.backlogs.values, bucket.transactions.map fun bytes =>
          (bytes, encodedKeys registry)⟩ := by
  rw [serializeBuckets, mem_map]
  constructor
  · rintro ⟨⟨time, bucket⟩, he, rfl⟩
    exact ⟨time, bucket, mem_entries_iff.mp he, rfl⟩
  · rintro ⟨time, bucket, hget, rfl⟩
    exact ⟨(time, bucket), mem_entries_iff.mpr hget, rfl⟩

theorem counted_serializeBuckets (h : Counts buckets since)
    (hstats : payload.stats = serializeBuckets registry buckets) :
    Flush.Counted ⟨payload, since⟩ := by
  constructor
  all_goals
    rw [hstats, payloadTally_serializeBuckets fun _ => rfl]
    exact h.tallied.map _

theorem maximal_serializeBuckets (h : Counts buckets since)
    (hstats : payload.stats = serializeBuckets registry buckets) :
    Flush.Maximal ⟨payload, since⟩ := by
  constructor
  · intro b hb backlog hbacklog
    obtain ⟨time, bucket, hget, rfl⟩ := mem_serializeBuckets.mp (hstats ▸ hb)
    have hmax := h.maximal time
    rw [bucket_of_get? hget] at hmax
    obtain ⟨k, hk⟩ := mem_values_iff.mp hbacklog
    refine ⟨hmax.offered k backlog hk, fun o ho => ?_⟩
    exact hmax.le k backlog hk _ o ho (hmax.text k backlog hk)
  · intro hdistinct time tags o ho
    obtain ⟨backlog, hbacklog⟩ := (h.maximal time).complete tags o ho
    cases hget : buckets.get? time with
    | none =>
      rw [TimeBuckets.bucket, hget] at hbacklog
      cases hbacklog
    | some bucket =>
      have hmax := h.maximal time
      rw [bucket_of_get? hget] at hbacklog hmax
      refine ⟨_, hstats ▸ mem_serializeBuckets.mpr ⟨time, bucket, hget, rfl⟩, rfl, backlog,
        mem_values_iff.mpr ⟨_, hbacklog⟩, ?_⟩
      exact hdistinct time _ _ _ _ (hmax.offered _ _ hbacklog) ho (hmax.text _ _ hbacklog)

omit [LinearOrder ω] in
theorem onePoint_serializeBuckets_iff (hstats : payload.stats = serializeBuckets registry buckets) :
    Flush.OnePoint ⟨payload, since⟩ ↔ ∀ time, (buckets.bucket time).OnePoint := by
  have hpoint : ∀ bucket : StatsBucket ω,
      (bucket.checkpoints.values.map StatsPoint.encode).map SerializedPoint.hash =
        bucket.checkpoints.values.map StatsPoint.hash := by
    intro bucket
    rw [map_map]
    rfl
  constructor
  · intro h time
    cases hget : buckets.get? time with
    | none =>
      rw [TimeBuckets.bucket, hget]
      exact nodup_nil
    | some bucket =>
      have hnodup := h _ (hstats ▸ mem_serializeBuckets.mpr ⟨time, bucket, hget, rfl⟩)
      rw [bucket_of_get? hget, StatsBucket.OnePoint, ← hpoint]
      exact hnodup
  · intro h b hb
    obtain ⟨time, bucket, hget, rfl⟩ := mem_serializeBuckets.mp (hstats ▸ hb)
    have hone := h time
    rw [bucket_of_get? hget] at hone
    exact (hpoint bucket).symm ▸ hone

/-! ## Runs of the recorder -/

/-- A checkpoint or an offset. -/
def RecordEvent.isRecord : RecordEvent ω → Bool
  | .checkpoint _ => true
  | .offset _ _ => true
  | _ => false

/-- Everything that was recorded so far. -/
def Recorder.records (r : Recorder ω) : List (RecordEvent ω) :=
  (r.flushed.flatMap Flush.since ++ r.since).filter RecordEvent.isRecord

/-- **What holds of a recorder in every run.** -/
structure SoundRecorder (r : Recorder ω) : Prop where
  counts : Counts r.buckets r.since
  flushed : ∀ f ∈ r.flushed, f.Counted ∧ f.Maximal

/-- No bucket, at hand or sent, has two points for a hash. -/
structure Recorder.OnePoint (r : Recorder ω) : Prop where
  buckets : ∀ time, (r.buckets.bucket time).OnePoint
  flushed : ∀ f ∈ r.flushed, f.OnePoint

/-- A checkpoint whose hash has the value of a point of its bucket has the buffer of that point. -/
def OwnBuffer (settings : Settings) (r : Recorder ω) : RecordEvent ω → Prop
  | .checkpoint c => settings.enabled = true →
    ∀ k ∈ (r.buckets.bucket (bucketTime c.currentTimestamp)).checkpoints.keys,
      k.value = c.hash.value → k = c.hash
  | _ => True

variable {settings : Settings} {r : Recorder ω}

theorem soundRecorder_onInterval (h : SoundRecorder r) : SoundRecorder (r.onInterval settings) := by
  unfold Recorder.onInterval
  dsimp only
  split
  · exact ⟨counts_empty, h.flushed⟩
  · refine ⟨counts_empty, fun f hf => ?_⟩
    rcases mem_append.mp hf with hf | hf
    · exact h.flushed f hf
    · rw [mem_singleton.mp hf]
      exact ⟨counted_serializeBuckets h.counts rfl, maximal_serializeBuckets h.counts rfl⟩

/-- A flush without a bucket had nothing to send. -/
theorem records_onInterval (h : SoundRecorder r) : (r.onInterval settings).records = r.records := by
  unfold Recorder.onInterval
  dsimp only
  split
  · next hnil =>
    have hempty : r.buckets.entries = [] := by
      rw [serializeBuckets, length_map] at hnil
      exact length_eq_zero_iff.mp hnil
    rw [Recorder.records, Recorder.records, h.counts.isEmpty hempty]
  · rw [Recorder.records, Recorder.records, flatMap_append, flatMap_singleton, append_nil]

omit [LinearOrder ω] in
theorem onePoint_onInterval_iff : (r.onInterval settings).OnePoint ↔ r.OnePoint := by
  have hempty : ∀ time, (TimeBuckets.bucket (.empty : TimeBuckets ω) time).OnePoint :=
    fun _ => nodup_nil
  unfold Recorder.onInterval
  dsimp only
  split
  · next hnil =>
    have hentries : r.buckets.entries = [] := by
      rw [serializeBuckets, length_map] at hnil
      exact length_eq_zero_iff.mp hnil
    have hbuckets : r.buckets = .empty := OrderedMap.ext hentries
    refine ⟨fun h => ⟨?_, h.flushed⟩, fun h => ⟨hempty, h.flushed⟩⟩
    rw [hbuckets]
    exact hempty
  · constructor
    · intro h
      refine ⟨(onePoint_serializeBuckets_iff rfl).mp
        (h.flushed _ (mem_append_right _ (mem_singleton_self _))), fun f hf => ?_⟩
      exact h.flushed f (mem_append_left _ hf)
    · intro h
      refine ⟨hempty, fun f hf => ?_⟩
      rcases mem_append.mp hf with hf | hf
      · exact h.flushed f hf
      · rw [mem_singleton.mp hf]
        exact (onePoint_serializeBuckets_iff rfl).mpr h.buckets

theorem soundRecorder_recorded (h : SoundRecorder r) : SoundRecorder (r.recorded settings) := by
  unfold Recorder.recorded
  split
  · exact soundRecorder_onInterval h
  · exact h

theorem records_recorded (h : SoundRecorder r) : (r.recorded settings).records = r.records := by
  unfold Recorder.recorded
  split
  · exact records_onInterval h
  · rfl

omit [LinearOrder ω] in
theorem onePoint_recorded_iff : (r.recorded settings).OnePoint ↔ r.OnePoint := by
  unfold Recorder.recorded
  split
  · exact onePoint_onInterval_iff
  · exact Iff.rfl

/-- What an enabled recorder adds to its records. -/
def RecordEvent.recordOf (settings : Settings) (e : RecordEvent ω) : List (RecordEvent ω) :=
  if settings.enabled && e.isRecord then [e] else []

omit [LinearOrder ω] in
theorem records_append (r : Recorder ω) (buckets : TimeBuckets ω)
    (registry : CheckpointRegistry) (e : RecordEvent ω) :
    Recorder.records ⟨buckets, registry, r.flushed, r.since ++ [e]⟩ =
      r.records ++ [e].filter RecordEvent.isRecord := by
  rw [Recorder.records, Recorder.records, ← append_assoc, filter_append]

/-- **One event** keeps the recorder sound, and adds its record. -/
theorem soundRecorder_step (h : SoundRecorder r) (e : RecordEvent ω) {r' : Recorder ω}
    (hstep : r.step settings e = some r') :
    SoundRecorder r' ∧ r'.records = r.records ++ e.recordOf settings := by
  cases e with
  | checkpoint c =>
    rw [← Option.some.inj hstep, Recorder.recordCheckpoint, RecordEvent.recordOf]
    by_cases henabled : settings.enabled = true
    · have hsound : SoundRecorder (⟨r.buckets.change c.currentTimestamp (StatsBucket.record c),
          r.registry, r.flushed, r.since ++ [.checkpoint c]⟩ : Recorder ω) :=
        ⟨counts_checkpoint h.counts c, h.flushed⟩
      rw [if_pos henabled]
      refine ⟨soundRecorder_recorded hsound, ?_⟩
      rw [records_recorded hsound, records_append, henabled]
      rfl
    · rw [if_neg henabled]
      refine ⟨h, ?_⟩
      rw [Bool.not_eq_true] at henabled
      rw [henabled]
      exact (append_nil _).symm
  | offset timestamp data =>
    rw [← Option.some.inj hstep, Recorder.recordOffset, RecordEvent.recordOf]
    by_cases henabled : settings.enabled = true
    · have hsound : SoundRecorder (⟨r.buckets.change timestamp (StatsBucket.forBacklog data),
          r.registry, r.flushed, r.since ++ [.offset timestamp data]⟩ : Recorder ω) :=
        ⟨counts_offset h.counts timestamp data, h.flushed⟩
      rw [if_pos henabled]
      refine ⟨soundRecorder_recorded hsound, ?_⟩
      rw [records_recorded hsound, records_append, henabled]
      rfl
    · rw [if_neg henabled]
      refine ⟨h, ?_⟩
      rw [Bool.not_eq_true] at henabled
      rw [henabled]
      exact (append_nil _).symm
  | transaction id name nowMs =>
    have hnone : RecordEvent.recordOf settings (.transaction id name nowMs : RecordEvent ω) = [] :=
      if_neg (by rw [Bool.and_eq_true]; exact fun hand => by cases hand.2)
    rw [← Option.some.inj hstep, Recorder.trackTransaction, hnone, append_nil]
    by_cases henabled : settings.enabled = true
    · rw [if_pos henabled]
      split
      · exact ⟨h, rfl⟩
      · next checkpointId registry _ =>
        have hsound : SoundRecorder (⟨r.buckets.change (nowMs * 1000000)
            (StatsBucket.addTransaction (transactionEntry checkpointId nowMs id)), registry,
            r.flushed, r.since ++ [.transaction id name nowMs]⟩ : Recorder ω) :=
          ⟨counts_transaction h.counts _ _ id name nowMs, h.flushed⟩
        refine ⟨soundRecorder_recorded hsound, ?_⟩
        rw [records_recorded hsound, records_append]
        exact append_nil _
    · rw [if_neg henabled]
      exact ⟨h, rfl⟩
  | interval =>
    have hnone : RecordEvent.recordOf settings (.interval : RecordEvent ω) = [] :=
      if_neg (by rw [Bool.and_eq_true]; exact fun hand => by cases hand.2)
    rw [← Option.some.inj hstep, hnone, append_nil]
    exact ⟨soundRecorder_onInterval h, records_onInterval h⟩

omit [LinearOrder ω] in
/-- A change of one bucket keeps one point for a hash where it does so in that bucket. -/
theorem onePoint_change_iff (hone : r.OnePoint) (timestamp : ℕ)
    (f : StatsBucket ω → StatsBucket ω) (registry : CheckpointRegistry)
    (since : List (RecordEvent ω)) :
    Recorder.OnePoint ⟨r.buckets.change timestamp f, registry, r.flushed, since⟩ ↔
      (f (r.buckets.bucket (bucketTime timestamp))).OnePoint := by
  constructor
  · intro h
    have hbucket := h.buckets (bucketTime timestamp)
    rwa [bucket_change, if_pos rfl] at hbucket
  · intro h
    refine ⟨fun time => ?_, hone.flushed⟩
    rw [bucket_change]
    split
    · next htime => rwa [htime]
    · exact hone.buckets time

theorem onePoint_forBacklog (b : StatsBucket ω) (data : BacklogData ω) (h : b.OnePoint) :
    (b.forBacklog data).OnePoint := by
  unfold StatsBucket.forBacklog
  dsimp only
  split
  · split <;> exact h
  · exact h

/-- **What one event needs** to keep one point for a hash. -/
theorem ownBuffer_iff (h : SoundRecorder r) (hone : r.OnePoint) (e : RecordEvent ω) :
    OwnBuffer settings r e ↔ ∀ r', r.step settings e = some r' → r'.OnePoint := by
  have hsome : ∀ r' : Recorder ω, (∀ r'', some r' = some r'' → r''.OnePoint) ↔ r'.OnePoint :=
    fun r' => ⟨fun hall => hall r' rfl, fun hr' r'' heq => Option.some.inj heq ▸ hr'⟩
  cases e with
  | checkpoint c =>
    rw [Recorder.step, hsome, Recorder.recordCheckpoint]
    by_cases henabled : settings.enabled = true
    · rw [if_pos henabled, onePoint_recorded_iff, onePoint_change_iff hone,
        onePoint_record_iff (h.counts.keyed _) (hone.buckets _)]
      exact ⟨fun hown => hown henabled, fun hown _ => hown⟩
    · rw [if_neg henabled]
      exact ⟨fun _ => hone, fun _ hen => absurd hen henabled⟩
  | offset timestamp data =>
    rw [Recorder.step, hsome, Recorder.recordOffset]
    refine ⟨fun _ => ?_, fun _ => trivial⟩
    split
    · rw [onePoint_recorded_iff, onePoint_change_iff hone]
      exact onePoint_forBacklog _ data (hone.buckets _)
    · exact hone
  | transaction id name nowMs =>
    rw [Recorder.step, hsome, Recorder.trackTransaction]
    refine ⟨fun _ => ?_, fun _ => trivial⟩
    split
    · split
      · exact hone
      · rw [onePoint_recorded_iff, onePoint_change_iff hone]
        exact hone.buckets _
    · exact hone
  | interval =>
    rw [Recorder.step, hsome]
    exact ⟨fun _ => onePoint_onInterval_iff.mpr hone, fun _ => trivial⟩

theorem soundRecorder_start : SoundRecorder (.start : Recorder ω) :=
  ⟨counts_empty, fun _ hf => absurd hf not_mem_nil⟩

omit [LinearOrder ω] in
theorem onePoint_start : (.start : Recorder ω).OnePoint :=
  ⟨fun _ => nodup_nil, fun _ hf => absurd hf not_mem_nil⟩

end Invariant

/-- A hash of its own bytes in a buffer. -/
def checkpointIn (hash : Buf) : Checkpoint :=
  ⟨10 ^ 10, ENTRY_PARENT_HASH, hash, [lit "direction:in", lit "topic:t"], 5, 5, 0⟩

/-- A processor with a timer. -/
def timerSettings : Settings :=
  ⟨true, 10000, lit "prod", lit "svc", [], lit "5", .empty, none⟩

/-- A checkpoint, an offset and the timer. -/
def oneOfEach : List (RecordEvent ℤ) :=
  [.checkpoint (checkpointIn ⟨1, [1, 2, 3, 4, 5, 6, 7, 8]⟩),
    .offset (10 ^ 10) ⟨7, OrderedMap.empty.set (lit "topic") (lit "t")⟩, .interval]

end DdTrace.Datastreams
