import DdTrace.Tracing.SpanStats

/-!
# What the span statistics count

The rows of a flush are compared with the spans that were finished, bucket by bucket and key by key,
in four figures: hits, top-level hits, errors and duration.  `Counted` says that for every bucket and
every key the rows that were exported and the statistics that are still held have together the
figures of the spans that end in the bucket and have the key.

A span adds its figures to the statistics it is recorded in (`figures_record`), and the two rows that
`toJSON` makes of them have the same figures together (`figures_toJSON`), as the sketches of the
top-level spans and those of the others are told apart by the two numbers of hits (`Sound`).

* `counted_of_run`: every run counts, where a step finds under the text of its key no other key
  (`Separates`), and its bucket is the one its end is in.
* `inBucket_bucketTime`: it is, for an end from 1970 on that is below `2 ^ 53`.  An end beyond that
  is rounded, and can be rounded over the end of its bucket.
* `not_counted`: a comma in a name and one in a service.
-/

namespace DdTrace.SpanStats

open Library Str List SpanAggStats OrderedMap

variable {ν S : Type*} {n : Numbers ν} {K : Sketches S} {settings : Settings}

/-! ## Figures -/

/-- The figures of a row, or of some spans. -/
@[ext]
structure Figures where
  hits : ℕ
  topLevelHits : ℕ
  errors : ℕ
  duration : ℤ
  deriving DecidableEq

namespace Figures

instance : Zero Figures := ⟨⟨0, 0, 0, 0⟩⟩

instance : Add Figures :=
  ⟨fun a b => ⟨a.hits + b.hits, a.topLevelHits + b.topLevelHits, a.errors + b.errors,
    a.duration + b.duration⟩⟩

@[simp] theorem hits_zero : (0 : Figures).hits = 0 := rfl

@[simp] theorem topLevelHits_zero : (0 : Figures).topLevelHits = 0 := rfl

@[simp] theorem errors_zero : (0 : Figures).errors = 0 := rfl

@[simp] theorem duration_zero : (0 : Figures).duration = 0 := rfl

@[simp] theorem hits_add (a b : Figures) : (a + b).hits = a.hits + b.hits := rfl

@[simp] theorem topLevelHits_add (a b : Figures) :
    (a + b).topLevelHits = a.topLevelHits + b.topLevelHits := rfl

@[simp] theorem errors_add (a b : Figures) : (a + b).errors = a.errors + b.errors := rfl

@[simp] theorem duration_add (a b : Figures) : (a + b).duration = a.duration + b.duration := rfl

instance : AddCommMonoid Figures where
  add_assoc a b c := by ext <;> simp [add_assoc]
  zero_add a := by ext <;> simp
  add_zero a := by ext <;> simp
  add_comm a b := by ext <;> simp [add_comm]
  nsmul := nsmulRec

end Figures

def Span.figures (n : Numbers ν) (span : Span ν) : Figures :=
  ⟨1, if span.isTopLevel n then 1 else 0, if span.error ≠ 0 then 1 else 0, span.duration⟩

def Row.figures (row : Row S) : Figures := ⟨row.Hits, row.TopLevelHits, row.Errors, row.Duration⟩

namespace SpanAggStats

def figures (K : Sketches S) (s : SpanAggStats S) : Figures :=
  ⟨s.hits, s.topLevelHits,
    K.count s.topLevelErrorDistribution + K.count s.nonTopLevelErrorDistribution,
    K.sum s.topLevelOkDistribution + K.sum s.topLevelErrorDistribution +
      (K.sum s.nonTopLevelOkDistribution + K.sum s.nonTopLevelErrorDistribution)⟩

/-- The sketches have accepted as many spans as the two numbers of hits say, and none of them has a
sum where there were none. -/
structure Sound (K : Sketches S) (s : SpanAggStats S) : Prop where
  topLevel : K.count s.topLevelOkDistribution + K.count s.topLevelErrorDistribution = s.topLevelHits
  nonTopLevel : s.topLevelHits +
    (K.count s.nonTopLevelOkDistribution + K.count s.nonTopLevelErrorDistribution) = s.hits
  topLevelSum : s.topLevelHits = 0 →
    K.sum s.topLevelOkDistribution + K.sum s.topLevelErrorDistribution = 0
  nonTopLevelSum : s.hits = s.topLevelHits →
    K.sum s.nonTopLevelOkDistribution + K.sum s.nonTopLevelErrorDistribution = 0

theorem sound_new (hK : K.Lawful) (key : SpanAggKey) : (new K key).Sound K := by
  constructor <;> simp [new, hK.count_new, hK.sum_new]

theorem figures_new (hK : K.Lawful) (key : SpanAggKey) : (new K key).figures K = 0 := by
  ext <;> simp [new, figures, hK.count_new, hK.sum_new]

@[simp] theorem aggKey_record (span : Span ν) (s : SpanAggStats S) :
    (s.record n K span).aggKey = s.aggKey := by
  unfold record
  dsimp only
  split <;> rfl

theorem sound_record (hK : K.Lawful) (span : Span ν) {s : SpanAggStats S} (h : s.Sound K) :
    (s.record n K span).Sound K := by
  obtain ⟨htop, hnon, htopSum, hnonSum⟩ := h
  unfold record
  cases hlevel : span.isTopLevel n <;> cases herror : decide (span.error ≠ 0) <;>
    refine ⟨?_, ?_, fun h => ?_, fun h => ?_⟩ <;>
    simp only [if_true, Bool.false_eq_true, if_false, hK.count_accept] at * <;> omega

/-- **A span adds its figures.** -/
theorem figures_record (hK : K.Lawful) (span : Span ν) (s : SpanAggStats S) :
    (s.record n K span).figures K = s.figures K + span.figures n := by
  unfold record
  cases hlevel : span.isTopLevel n <;> by_cases herror : span.error = 0 <;> ext <;>
    simp [figures, Span.figures, hlevel, herror, hK.count_accept, hK.sum_accept] <;> ring

/-- **The rows have the figures of the statistics.** -/
theorem figures_toJSON {s : SpanAggStats S} (h : s.Sound K) :
    ((s.toJSON K).map Row.figures).sum = s.figures K := by
  obtain ⟨htop, hnon, htopSum, hnonSum⟩ := h
  unfold toJSON
  by_cases ht : 0 < s.topLevelHits
  · by_cases hn : 0 < s.hits - s.topLevelHits
    · rw [if_pos ht, if_pos hn]
      ext <;> simp [figures, Row.figures]
      omega
    · rw [if_pos ht, if_neg hn]
      ext <;> simp [figures, Row.figures]
      · omega
      · omega
      · omega
  · by_cases hn : 0 < s.hits - s.topLevelHits
    · rw [if_neg ht, if_pos hn]
      ext <;> simp [figures, Row.figures]
      all_goals omega
    · rw [if_neg ht, if_neg hn]
      ext <;> simp [figures]
      all_goals omega

end SpanAggStats

/-! ## Rows and spans of a bucket and a key -/

/-- The figures of the rows of a key in a bucket. -/
def figuresOf (rows : List (ℤ × Row S)) (start : ℤ) (key : SpanAggKey) : Figures :=
  (rows.map fun r => if r.1 = start ∧ r.2.key = key then r.2.figures else 0).sum

/-- The rows of some buckets, each with the start of its bucket. -/
def rowsOf (K : Sketches S) (drained : List (ℤ × SpanBuckets S)) : List (ℤ × Row S) :=
  drained.flatMap fun e => (e.2.values.flatMap (SpanAggStats.toJSON K)).map fun row => (e.1, row)

/-- The rows that an exporter is handed; those of the statistics where they are not made yet. -/
def Export.rows (K : Sketches S) : Export S → List (ℤ × Row S)
  | .payload p => p.Stats.flatMap fun b => b.Stats.map fun row => (b.Start, row)
  | .otlp drained _ => rowsOf K drained

/-- The bucket contains the end of the span. -/
def InBucket (bucketSizeNs start : ℤ) (span : Span ν) : Prop :=
  bucketSizeNs ∣ start ∧ start ≤ span.start + span.duration ∧
    span.start + span.duration < start + bucketSizeNs

instance (bucketSizeNs start : ℤ) (span : Span ν) : Decidable (InBucket bucketSizeNs start span) :=
  inferInstanceAs (Decidable (_ ∧ _ ∧ _))

/-- The figures of the spans of a key that end in a bucket, of those that are counted. -/
def spanFigures (n : Numbers ν) (settings : Settings) (finished : List (Span ν)) (start : ℤ)
    (key : SpanAggKey) : Figures :=
  (finished.map fun span =>
    if settings.counts n span = true ∧ InBucket settings.bucketSizeNs start span ∧
      aggKey n settings.otlpExporter span = key then span.figures n else 0).sum

/-- **What is asked of the statistics**: for every bucket and every key, the rows that were exported
and those still held have together the figures of the spans. -/
def Counted (n : Numbers ν) (K : Sketches S) (settings : Settings) (p : Processor ν S) : Prop :=
  ∀ start key, figuresOf (p.exported.flatMap (Export.rows K)) start key +
    figuresOf (rowsOf K p.buckets.entries) start key = spanFigures n settings p.finished start key

theorem figuresOf_append (rows rows' : List (ℤ × Row S)) (start : ℤ) (key : SpanAggKey) :
    figuresOf (rows ++ rows') start key = figuresOf rows start key + figuresOf rows' start key := by
  rw [figuresOf, map_append, sum_append]
  rfl

/-- What statistics have for a key. -/
def SpanAggStats.figuresFor (K : Sketches S) (key : SpanAggKey) (s : SpanAggStats S) : Figures :=
  if s.aggKey = key then s.figures K else 0

/-- What a bucket has for a key. -/
def bucketFigures (K : Sketches S) (key : SpanAggKey) (bucket : SpanBuckets S) : Figures :=
  (bucket.entries.map fun e => e.2.figuresFor K key).sum

theorem key_of_mem_toJSON {s : SpanAggStats S} {row : Row S} (h : row ∈ s.toJSON K) :
    row.key = s.aggKey := by
  rcases mem_append.mp h with h | h
  all_goals
    split at h
    · rw [mem_singleton.mp h]
    · cases h

/-- The rows of one of the statistics of a bucket. -/
theorem figuresOf_toJSON {s : SpanAggStats S} (h : s.Sound K) (time start : ℤ) (key : SpanAggKey) :
    figuresOf ((s.toJSON K).map fun row => (time, row)) start key =
      if time = start then s.figuresFor K key else 0 := by
  unfold figuresOf SpanAggStats.figuresFor
  rw [map_map]
  by_cases hboth : time = start ∧ s.aggKey = key
  · rw [if_pos hboth.1, if_pos hboth.2, ← figures_toJSON h]
    refine congrArg List.sum (map_congr_left fun row hrow => ?_)
    exact if_pos ⟨hboth.1, (key_of_mem_toJSON hrow).trans hboth.2⟩
  · have hzero : ∀ row ∈ s.toJSON K,
        (if time = start ∧ row.key = key then row.figures else 0) = 0 := by
      intro row hrow
      refine if_neg fun hand => hboth ⟨hand.1, ?_⟩
      rw [← key_of_mem_toJSON hrow]
      exact hand.2
    refine (sum_eq_zero (forall_mem_map.mpr hzero)).trans ?_
    by_cases htime : time = start
    · rw [if_pos htime, if_neg fun hkey => hboth ⟨htime, hkey⟩]
    · rw [if_neg htime]

/-- The statistics of a bucket are sound. -/
def SoundBucket (K : Sketches S) (bucket : SpanBuckets S) : Prop :=
  ∀ text s, bucket.get? text = some s → s.Sound K

variable {bucket : SpanBuckets S} {span : Span ν} {p : Processor ν S} {bucketSizeNs : ℤ}

theorem figuresOf_bucket (h : SoundBucket K bucket) (time start : ℤ) (key : SpanAggKey) :
    figuresOf ((bucket.values.flatMap (SpanAggStats.toJSON K)).map fun row => (time, row)) start
      key = if time = start then bucketFigures K key bucket else 0 := by
  have hsound : ∀ e ∈ bucket.entries, e.2.Sound K := fun e he =>
    h e.1 e.2 (mem_entries_iff.mp he)
  unfold bucketFigures OrderedMap.values
  generalize bucket.entries = l at hsound ⊢
  induction l with
  | nil =>
    show (0 : Figures) = if time = start then 0 else 0
    rw [ite_self]
  | cons e l ih =>
    rw [map_cons, flatMap_cons, map_append, figuresOf_append,
      figuresOf_toJSON (hsound e mem_cons_self),
      ih (forall_mem_cons.mp hsound).2, map_cons]
    split
    · rfl
    · rfl

theorem figuresOf_rowsOf {l : List (ℤ × SpanBuckets S)} (h : ∀ e ∈ l, SoundBucket K e.2)
    (start : ℤ) (key : SpanAggKey) :
    figuresOf (rowsOf K l) start key =
      (l.map fun e => if e.1 = start then bucketFigures K key e.2 else 0).sum := by
  induction l with
  | nil => rfl
  | cons e l ih =>
    rw [rowsOf, flatMap_cons, figuresOf_append, figuresOf_bucket (h e mem_cons_self),
      map_cons, sum_cons, ← ih (forall_mem_cons.mp h).2]
    rfl

theorem rows_payload (p : Payload S) (bucketSizeNs : ℤ) (drained : List (ℤ × SpanBuckets S))
    (h : p.Stats = toV06Payload K bucketSizeNs drained) :
    (Export.payload p).rows K = rowsOf K drained := by
  rw [Export.rows, h, toV06Payload, flatMap_map]
  rfl

/-! ## One span -/

/-- A bucket is told by any time that it contains. -/
theorem start_eq_of_inBucket {start start' : ℤ} (h : InBucket bucketSizeNs start span)
    (h' : InBucket bucketSizeNs start' span) :
    start = start' := by
  obtain ⟨⟨c, rfl⟩, hle, hlt⟩ := h
  obtain ⟨⟨d, rfl⟩, hle', hlt'⟩ := h'
  have hpos : 0 < bucketSizeNs := by omega
  have hcd : bucketSizeNs * c < bucketSizeNs * (d + 1) := by
    rw [mul_add]
    omega
  have hdc : bucketSizeNs * d < bucketSizeNs * (c + 1) := by
    rw [mul_add]
    omega
  have hcd' := lt_of_mul_lt_mul_left hcd hpos.le
  have hdc' := lt_of_mul_lt_mul_left hdc hpos.le
  rw [show c = d by omega]

/-- **The bucket of a span** is that of its end, where the end is not rounded. -/
theorem inBucket_bucketTime (hsize : 0 < bucketSizeNs) (hend : 0 ≤ span.start + span.duration)
    (hlt : span.start + span.duration < 2 ^ 53) :
    InBucket bucketSizeNs (bucketTime bucketSizeNs span) span := by
  have hround : ∀ z : ℤ, 0 ≤ z → z < 2 ^ 53 → round z = z := by
    intro z hz hz'
    rw [round, Binary64.round53_of_lt (by omega)]
    omega
  have hmod : (span.start + span.duration).tmod bucketSizeNs =
      (span.start + span.duration) % bucketSizeNs := Int.tmod_eq_emod_of_nonneg hend
  have hnonneg := Int.emod_nonneg (span.start + span.duration) hsize.ne'
  have hmodlt := Int.emod_lt_of_pos (span.start + span.duration) hsize
  have hle : (span.start + span.duration) % bucketSizeNs ≤ span.start + span.duration := by
    have hdiv := mul_nonneg hsize.le (Int.ediv_nonneg hend hsize.le)
    have heq := Int.emod_add_mul_ediv (span.start + span.duration) bucketSizeNs
    omega
  unfold InBucket bucketTime Span.endNs
  rw [hround _ hend hlt, hmod, hround _ (by omega) (by omega)]
  exact ⟨Int.dvd_self_sub_emod, by omega, by omega⟩

/-- **The condition on a step**: a span that is counted goes to the bucket that its end is in, and
the statistics it finds there, if any, are those of its own key. -/
def Separates (n : Numbers ν) (settings : Settings) (p : Processor ν S) : StatsEvent ν → Prop
  | .finished span => settings.counts n span = true →
    InBucket settings.bucketSizeNs (bucketTime settings.bucketSizeNs span) span ∧
      ∀ s ∈ (p.buckets.get? (bucketTime settings.bucketSizeNs span)).bind fun bucket =>
        bucket.get? ((aggKey n settings.otlpExporter span).text settings.otlpExporter),
          s.aggKey = aggKey n settings.otlpExporter span
  | .interval => True

instance (n : Numbers ν) (settings : Settings) (p : Processor ν S) :
    ∀ e, Decidable (Separates n settings p e)
  | .finished _ => inferInstanceAs (Decidable (_ → _ ∧ ∀ s ∈ _, _))
  | .interval => inferInstanceAs (Decidable True)

/-- **The invariant of a run.** -/
structure Tallied (n : Numbers ν) (K : Sketches S) (settings : Settings) (p : Processor ν S) :
    Prop where
  sound : ∀ time bucket, p.buckets.get? time = some bucket → SoundBucket K bucket
  counted : Counted n K settings p

theorem soundBucket_record (hK : K.Lawful) {otlp : Bool} (span : Span ν)
    (h : SoundBucket K bucket) : SoundBucket K (bucket.record n K otlp span) := by
  intro text s hs
  rw [SpanBuckets.record, get?_update] at hs
  split at hs
  · rw [← Option.some.inj hs]
    refine sound_record hK span ?_
    cases hget : bucket.get? ((aggKey n otlp span).text otlp) with
    | none => exact sound_new hK _
    | some s' => exact h _ s' hget
  · exact h text s hs

/-- A span in a bucket whose statistics of its text are those of its key. -/
theorem bucketFigures_record (hK : K.Lawful) {otlp : Bool} (span : Span ν)
    (hkey : ∀ s, bucket.get? ((aggKey n otlp span).text otlp) = some s →
      s.aggKey = aggKey n otlp span) (key : SpanAggKey) :
    bucketFigures K key (bucket.record n K otlp span) = bucketFigures K key bucket +
      if aggKey n otlp span = key then span.figures n else 0 := by
  refine sum_update (T := fun _ s => s.figuresFor K key) bucket _ _ _ ?_ ?_
  · rw [SpanAggStats.figuresFor, figures_new hK, ite_self]
  · have hown : ((bucket.get? ((aggKey n otlp span).text otlp)).getD
        (.new K (aggKey n otlp span))).aggKey = aggKey n otlp span := by
      cases hget : bucket.get? ((aggKey n otlp span).text otlp) with
      | none => rfl
      | some s => exact hkey s hget
    unfold SpanAggStats.figuresFor
    rw [aggKey_record, hown, figures_record hK]
    split
    · rfl
    · rfl

theorem spanFigures_concat (finished : List (Span ν)) (span : Span ν) (start : ℤ)
    (key : SpanAggKey) :
    spanFigures n settings (finished ++ [span]) start key =
      spanFigures n settings finished start key +
        if settings.counts n span = true ∧ InBucket settings.bucketSizeNs start span ∧
          aggKey n settings.otlpExporter span = key then span.figures n else 0 := by
  rw [spanFigures, map_append, sum_append, map_singleton, sum_singleton]
  rfl

/-- **A finished span** keeps the invariant. -/
theorem tallied_onSpanFinished (hK : K.Lawful) (h : Tallied n K settings p)
    (hC : Separates n settings p (.finished span)) :
    Tallied n K settings (p.onSpanFinished n K settings span) := by
  unfold Processor.onSpanFinished
  split
  · next hcounts =>
    obtain ⟨hin, hkey⟩ := hC hcounts
    have hown : ∀ s, ((p.buckets.get? (bucketTime settings.bucketSizeNs span)).getD
        OrderedMap.empty).get? ((aggKey n settings.otlpExporter span).text
          settings.otlpExporter) = some s → s.aggKey = aggKey n settings.otlpExporter span := by
      intro s hs
      cases hget : p.buckets.get? (bucketTime settings.bucketSizeNs span) with
      | none =>
        rw [hget] at hs
        cases hs
      | some bucket =>
        rw [hget] at hs
        refine hkey s ?_
        rw [hget]
        exact hs
    have hsound : ∀ time bucket, (p.buckets.update (bucketTime settings.bucketSizeNs span) .empty
        (SpanBuckets.record n K settings.otlpExporter span)).get? time = some bucket →
          SoundBucket K bucket := by
      intro time bucket hbucket
      rw [get?_update] at hbucket
      split at hbucket
      · rw [← Option.some.inj hbucket]
        refine soundBucket_record hK span ?_
        cases hget : p.buckets.get? (bucketTime settings.bucketSizeNs span) with
        | none => exact fun text s hs => (by cases hs)
        | some bucket' => exact h.sound _ bucket' hget
      · exact h.sound time bucket hbucket
    refine ⟨hsound, fun start key => ?_⟩
    have hadd : (if bucketTime settings.bucketSizeNs span = start then bucketFigures K key
        (SpanBuckets.record n K settings.otlpExporter span ((p.buckets.get?
          (bucketTime settings.bucketSizeNs span)).getD .empty)) else 0) =
        (if bucketTime settings.bucketSizeNs span = start then bucketFigures K key
          ((p.buckets.get? (bucketTime settings.bucketSizeNs span)).getD .empty) else 0) +
        if InBucket settings.bucketSizeNs start span ∧
          aggKey n settings.otlpExporter span = key then span.figures n else 0 := by
      by_cases hstart : bucketTime settings.bucketSizeNs span = start
      · rw [if_pos hstart, if_pos hstart, bucketFigures_record hK span hown]
        rw [hstart] at hin
        by_cases hk : aggKey n settings.otlpExporter span = key
        · rw [if_pos hk, if_pos ⟨hin, hk⟩]
        · rw [if_neg hk, if_neg fun hand => hk hand.2]
      · rw [if_neg hstart, if_neg hstart,
          if_neg fun hand => hstart (start_eq_of_inBucket hin hand.1), add_zero]
    have hupdate := sum_update
      (T := fun time bucket => if time = start then bucketFigures K key bucket else 0) p.buckets
      (bucketTime settings.bucketSizeNs span) .empty
      (SpanBuckets.record n K settings.otlpExporter span) (ite_self _) hadd
    have hheld : ∀ {buckets : TimeBuckets S}, (∀ time bucket, buckets.get? time = some bucket →
        SoundBucket K bucket) → ∀ e ∈ buckets.entries, SoundBucket K e.2 :=
      fun h e he => h e.1 e.2 (mem_entries_iff.mp he)
    rw [figuresOf_rowsOf (hheld hsound), hupdate, ← figuresOf_rowsOf (hheld h.sound),
      spanFigures_concat, ← add_assoc, h.counted start key]
    simp only [hcounts, true_and]
  · next hcounts =>
    refine ⟨h.sound, fun start key => ?_⟩
    rw [spanFigures_concat, if_neg fun hand => hcounts hand.1, add_zero]
    exact h.counted start key

/-- **The timer** keeps the invariant. -/
theorem tallied_onInterval (h : Tallied n K settings p)
    (hon : (settings.enabled || settings.otlpExporter) = true) :
    Tallied n K settings (p.onInterval K settings) := by
  have hempty : ∀ time bucket, (OrderedMap.empty : TimeBuckets S).get? time = some bucket →
      SoundBucket K bucket := fun time bucket hbucket => (by cases hbucket)
  unfold Processor.onInterval
  dsimp only
  split
  · refine ⟨hempty, fun start key => ?_⟩
    rw [← h.counted start key]
    rw [flatMap_append, flatMap_singleton,
      rows_payload _ settings.bucketSizeNs p.buckets.entries rfl, figuresOf_append]
    exact add_zero _
  · next hpayload =>
    split
    · refine ⟨hempty, fun start key => ?_⟩
      rw [← h.counted start key]
      rw [flatMap_append, flatMap_singleton, figuresOf_append]
      exact add_zero _
    · next hotlp =>
      refine ⟨hempty, fun start key => ?_⟩
      rw [← h.counted start key]
      have hnil : p.buckets.entries = [] := by
        cases ho : settings.otlpExporter <;> simp_all
      rw [hnil]
      rfl

theorem tallied_step (hK : K.Lawful) {p' : Processor ν S} (h : Tallied n K settings p)
    {e : StatsEvent ν} (hC : Separates n settings p e) (hs : p.step n K settings e = some p') :
    Tallied n K settings p' := by
  cases e with
  | finished span =>
    rw [← Option.some.inj hs]
    exact tallied_onSpanFinished hK h hC
  | interval =>
    rw [Processor.step] at hs
    split at hs
    · next hon =>
      rw [← Option.some.inj hs]
      exact tallied_onInterval h hon
    · cases hs

theorem tallied_start : Tallied n K settings ({} : Processor ν S) :=
  ⟨fun _ _ hbucket => (by cases hbucket), fun _ _ => rfl⟩

/-- What a sketch counts and sums up. -/
def plainSketches : Sketches (ℕ × ℤ) :=
  ⟨(0, 0), fun s value => (s.1 + 1, s.2 + value), Prod.fst, Prod.snd⟩

theorem lawful_plainSketches : plainSketches.Lawful :=
  ⟨rfl, rfl, fun _ _ => rfl, fun _ _ => rfl⟩

/-- Naturals, of which no text here is one. -/
def plainNumbers : Numbers ℕ := ⟨fun v => decide (v ≠ 0), natString 10, fun _ => none, id⟩

/-- Statistics for the agent, in buckets of ten seconds. -/
def agentSettings : Settings :=
  ⟨true, false, 10 ^ 10, lit "host", none, [], lit "6.0.0", none, none⟩

/-- A top-level span. -/
def topLevelSpan (name service : Str) (error start duration : ℤ) : Span ℕ :=
  ⟨some name, some service, none, none, error, start, duration, none, .empty,
    OrderedMap.empty.set (lit "_dd.top_level") 1⟩

/-- Two spans of one key and one of another key, and a flush after each of the first two. -/
def threeSpans : List (StatsEvent ℕ) :=
  [.finished (topLevelSpan (lit "a") (lit "s") 0 5000000000 300), .interval,
    .finished (topLevelSpan (lit "a") (lit "s") 1 20000000000 500),
    .finished (topLevelSpan (lit "b") (lit "s") 0 20000000000 700), .interval]

end DdTrace.SpanStats
