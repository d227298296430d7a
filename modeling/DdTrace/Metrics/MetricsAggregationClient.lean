import DdTrace.Library.Trie
import DdTrace.Metrics.DogStatsDClient

/-!
# The aggregation of runtime metrics

`MetricsAggregationClient` of `dogstatsd.js` keeps three trees of maps, indexed by the name of a
metric and then tag by tag: counters, gauges and histograms.  `_ensureTree` walks to the node of a
path and makes the nodes it lacks; only string keys are stored, so a path with another key leads to
a node that nothing holds.  `flush` walks each tree and reports every node in which a path ended.

The specification is over the calls made since the last flush.  Each call changes at most one
value under one key (`counted`, `gauged`, `recorded`), and what a flush reports is the table of
these values (`tabulate`).  `lookup_ensureTree` says that a walk changes the value at its own path
only; `holds_step` carries the three tables over a call.

* `reported_of_run`: what a flush reports, after any run of calls, flushes and resets.
* `not_reported`: increments that are not monotonic are kept in the tree of the gauges, so a gauge
  of the same key does not report its last value.
-/

namespace DdTrace.Dogstatsd

open Library List

/-! ## The client -/

/-- A name or a tag as the client is given it.  Of the values that are no strings it only matters
that they are none. -/
inductive Label
  | string (text : Str)
  | other
  deriving DecidableEq

/-- The argument `tags`: left out, a boolean, one tag that is no array, or an array. -/
inductive Tags
  | absent
  | boolean (b : Bool)
  | one (tag : Label)
  | list (tags : List Label)
  deriving DecidableEq

/-- The default `[]`, and `[tags]` of what is no array. -/
def Tags.labels : Tags → List Label
  | .absent => []
  | .boolean _ => [.other]
  | .one tag => [tag]
  | .list tags => tags

/-- `_ensureTree`, with the change that is made to the value of the node it returns. -/
def ensureTree {α : Type*} (init : α) (change : α → α) :
    Label → List Label → Trie Str α → Trie Str α
  | .other, _, tree => tree
  | .string key, [], tree => tree.update init key (Trie.Node.touch change)
  | .string key, tag :: tags, tree =>
    tree.update init key (Trie.Node.within (ensureTree init change tag tags))

/-- The sketch that `histogram.js` is made of, with the truth of a number. -/
structure DDSketch (ν σ : Type*) where
  new : σ
  accept : σ → ν → σ
  count : σ → ν
  sum : σ → ν
  min : σ → ν
  max : σ → ν
  getValueAtQuantile : σ → ν → ν
  truthy : ν → Bool

variable {ν σ : Type*}

section Client

variable [Zero ν] [One ν] [Add ν] [Neg ν] [Div ν] [NatCast ν] [DecidableEq ν]

/-! The getters of `Histogram`. -/

namespace DDSketch

variable (D : DDSketch ν σ) (h : σ)

def histogramMin : ν := if D.count h = 0 then 0 else D.min h

def histogramMax : ν := if D.count h = 0 then 0 else D.max h

def avg : ν := if D.count h = 0 then 0 else D.sum h / D.count h

def percentile (percentile : ℕ) : ν :=
  let value := D.getValueAtQuantile h ((percentile : ν) / ((100 : ℕ) : ν))
  if D.truthy value then value else 0

def median : ν := D.percentile h 50

def p95 : ν := D.percentile h 95

end DDSketch

/-- The three trees; a histogram is made when its first value is recorded. -/
structure MetricsAggregationClient (ν σ : Type*) where
  counters : Trie Str ν
  gauges : Trie Str ν
  histograms : Trie Str (Option σ)

namespace MetricsAggregationClient

/-- `reset`. -/
def reset : MetricsAggregationClient ν σ := ⟨.nil, .nil, .nil⟩

variable (c : MetricsAggregationClient ν σ)

def histogram (D : DDSketch ν σ) (name : Label) (value : ν) (tags : Tags) :
    MetricsAggregationClient ν σ :=
  { c with
    histograms := ensureTree none (fun h => some (D.accept (h.getD D.new) value)) name tags.labels
      c.histograms }

/-- Tags that are a boolean stand for `monotonic`. -/
def count (name : Label) (count : ν) (tags : Tags) (monotonic : Bool) :
    MetricsAggregationClient ν σ :=
  let (tags, monotonic) : Tags × Bool :=
    match tags with
    | .boolean b => (.list [], b)
    | tags => (tags, monotonic)
  if monotonic then
    { c with counters := ensureTree 0 (fun value => value + count) name tags.labels c.counters }
  else { c with gauges := ensureTree 0 (fun value => value + count) name tags.labels c.gauges }

def gauge (name : Label) (value : ν) (tags : Tags) : MetricsAggregationClient ν σ :=
  { c with gauges := ensureTree 0 (fun _ => value) name tags.labels c.gauges }

def boolean (name : Label) (value : Bool) (tags : Tags) : MetricsAggregationClient ν σ :=
  c.gauge name (if value then 1 else 0) tags

/-- `monotonic` has the default `true`. -/
def increment (name : Label) (count : Option ν) (tags : Tags) : MetricsAggregationClient ν σ :=
  c.count name (count.getD 1) tags true

def decrement (name : Label) (count : Option ν) (tags : Tags) : MetricsAggregationClient ν σ :=
  c.count name (-count.getD 1) tags true

/-- `_captureCounters`. -/
def captureCounters : List (Metric ν) :=
  c.counters.entries.map fun (name, tags, value) => .increment name value tags

/-- `_captureGauges`. -/
def captureGauges : List (Metric ν) :=
  c.gauges.entries.map fun (name, tags, value) => .gauge name value tags

/-- The metrics of one histogram. -/
def histogramMetrics (D : DDSketch ν σ) (name : Str) (tags : List Str) (stats : σ) :
    List (Metric ν) :=
  [.gauge (name ++ lit ".min") (D.histogramMin stats) tags,
    .gauge (name ++ lit ".max") (D.histogramMax stats) tags,
    .increment (name ++ lit ".sum") (D.sum stats) tags,
    .increment (name ++ lit ".total") (D.sum stats) tags,
    .gauge (name ++ lit ".avg") (D.avg stats) tags,
    .increment (name ++ lit ".count") (D.count stats) tags,
    .gauge (name ++ lit ".median") (D.median stats) tags,
    .gauge (name ++ lit ".95percentile") (D.p95 stats) tags]

/-- `_captureHistograms`; the node in which a path ended has a histogram. -/
def captureHistograms (D : DDSketch ν σ) : List (Metric ν) :=
  c.histograms.entries.flatMap fun (name, tags, stats) =>
    stats.elim [] (histogramMetrics D name tags)

end MetricsAggregationClient

/-- The calls of the client. -/
inductive Call (ν : Type*)
  | gauge (name : Label) (value : ν) (tags : Tags)
  | boolean (name : Label) (value : Bool) (tags : Tags)
  | count (name : Label) (count : ν) (tags : Tags) (monotonic : Bool)
  | increment (name : Label) (count : Option ν) (tags : Tags)
  | decrement (name : Label) (count : Option ν) (tags : Tags)
  | histogram (name : Label) (value : ν) (tags : Tags)
  | distribution (name : Str) (value : ν) (tags : List Str)
  | reset
  | flush

namespace MetricsAggregationClient

/-- One call, with what it makes of the client it writes to. -/
def step (D : DDSketch ν σ) (c : MetricsAggregationClient ν σ) :
    Call ν → MetricsAggregationClient ν σ × List (Event ν)
  | .gauge name value tags => (c.gauge name value tags, [])
  | .boolean name value tags => (c.boolean name value tags, [])
  | .count name count tags monotonic => (c.count name count tags monotonic, [])
  | .increment name count tags => (c.increment name count tags, [])
  | .decrement name count tags => (c.decrement name count tags, [])
  | .histogram name value tags => (c.histogram D name value tags, [])
  | .distribution name value tags => (c, [.metric (.distribution name value tags)])
  | .reset => (reset, [])
  | .flush =>
    (reset, (c.captureCounters ++ c.captureGauges ++ c.captureHistograms D).map .metric ++ [.flush])

/-- The client after some calls. -/
def run (D : DDSketch ν σ) (calls : List (Call ν)) : MetricsAggregationClient ν σ :=
  calls.foldl (fun c call => (c.step D call).1) reset

end MetricsAggregationClient

/-! ## What the calls amount to -/

/-- A change of a gauge. -/
inductive Change (ν : Type*)
  | set (value : ν)
  | add (count : ν)
  deriving DecidableEq

def Change.apply (value : ν) : Change ν → ν
  | .set value => value
  | .add count => value + count

/-- A count with its tags and whether it is monotonic. -/
def countOf (name : Label) (n : ν) : Tags → Bool → Label × List Label × ν × Bool
  | .boolean b, _ => (name, [], n, b)
  | tags, monotonic => (name, tags.labels, n, monotonic)

namespace Call

/-- The count a call makes. -/
def counts : Call ν → Option (Label × List Label × ν × Bool)
  | .count name n tags monotonic => some (countOf name n tags monotonic)
  | .increment name n tags => some (countOf name (n.getD 1) tags true)
  | .decrement name n tags => some (countOf name (-n.getD 1) tags true)
  | _ => none

/-- The value a call gives a gauge. -/
def sets : Call ν → Option (Label × List Label × ν)
  | .gauge name value tags => some (name, tags.labels, value)
  | .boolean name value tags => some (name, tags.labels, if value then 1 else 0)
  | _ => none

/-- The monotonic count of a call. -/
def counted (call : Call ν) : Option (Label × List Label × ν) :=
  match call.counts with
  | some (name, tags, n, true) => some (name, tags, n)
  | _ => none

/-- The gauge that a call sets, or changes by a count that is not monotonic. -/
def gauged (call : Call ν) : Option (Label × List Label × Change ν) :=
  match call.sets, call.counts with
  | some (name, tags, value), _ => some (name, tags, .set value)
  | none, some (name, tags, n, false) => some (name, tags, .add n)
  | _, _ => none

/-- The value a call records in a histogram. -/
def recorded : Call ν → Option (Label × List Label × ν)
  | .histogram name value tags => some (name, tags.labels, value)
  | _ => none

end Call

/-- What calls do under one key. -/
def under {β : Type*} (effect : Call ν → Option (Label × List Label × β)) (calls : List (Call ν))
    (name : Str) (tags : List Str) : List β :=
  calls.filterMap fun call => (effect call).bind fun e =>
    if e.1 = .string name ∧ e.2.1 = tags.map .string then some e.2.2 else none

/-- The value some changes make, if there are any. -/
def tabulate {α β : Type*} (apply : α → β → α) (init : α) : List β → Option α
  | [] => none
  | b :: bs => some (bs.foldl apply (apply init b))

/-- The sum of the monotonic counts under a key. -/
def counter (calls : List (Call ν)) (name : Str) (tags : List Str) : Option ν :=
  tabulate (· + ·) 0 (under Call.counted calls name tags)

/-- The last value of a gauge, with the counts that came after it. -/
def gaugeValue (calls : List (Call ν)) (name : Str) (tags : List Str) : Option ν :=
  tabulate Change.apply 0 (under Call.gauged calls name tags)

/-- The histogram of the values recorded under a key. -/
def recordings (D : DDSketch ν σ) (calls : List (Call ν)) (name : Str) (tags : List Str) :
    Option σ :=
  tabulate D.accept D.new (under Call.recorded calls name tags)

end Client

/-- The calls since the last flush or reset. -/
def sinceFlush (calls : List (Call ν)) : List (Call ν) :=
  calls.foldl (fun since call =>
    match call with
    | .flush => []
    | .reset => []
    | call => since ++ [call]) []

/-! ## The trees and the tables -/

variable {α : Type*} {init : α} {tree : Trie Str α}

/-- **A walk changes the value at its own path only**, and only when all its keys are strings. -/
theorem lookup_ensureTree {change : α → α} (h : tree.WellFormed init) (label : Label)
    (labels : List Label) (name : Str)
    (tags : List Str) :
    (ensureTree init change label labels tree).lookup name tags =
      if label = .string name ∧ labels = tags.map .string then
        some (change ((tree.lookup name tags).getD init))
      else tree.lookup name tags := by
  induction labels generalizing label tree name tags with
  | nil =>
    cases label with
    | other => rw [ensureTree, if_neg fun hp => by cases hp.1]
    | string key =>
      cases tags with
      | nil =>
        rw [ensureTree, Trie.lookup, Trie.find?_update, Trie.lookup]
        by_cases hkey : name = key
        · subst hkey
          rw [if_pos rfl, if_pos ⟨rfl, rfl⟩]
          show some (change ((tree.find? name).getD (.fresh init)).value) = _
          rw [← (h.getD_find? name).getD_own]
          cases tree.find? name <;> rfl
        · rw [if_neg hkey, if_neg fun hp => hkey (Label.string.inj hp.1).symm]
      | cons tag tags =>
        -- the path ends above
        have hno : ¬(Label.string key = .string name ∧ [] = (tag :: tags).map Label.string) :=
          fun hp => by cases hp.2
        rw [if_neg hno, ensureTree, Trie.lookup_cons init, Trie.find?_update, Trie.lookup_cons init]
        by_cases hkey : name = key
        · subst hkey
          rw [if_pos rfl]
          rfl
        · rw [if_neg hkey]
  | cons label' labels ih =>
    cases label with
    | other => rw [ensureTree, if_neg fun hp => by cases hp.1]
    | string key =>
      cases tags with
      | nil =>
        -- the path ends below
        have hno : ¬(Label.string key = .string name ∧ label' :: labels = [].map Label.string) :=
          fun hp => by cases hp.2
        rw [if_neg hno, ensureTree, Trie.lookup, Trie.find?_update, Trie.lookup]
        by_cases hkey : name = key
        · subst hkey
          rw [if_pos rfl]
          cases tree.find? name <;> rfl
        · rw [if_neg hkey]
      | cons tag tags =>
        have hiff : Label.string key = .string name ∧ label' :: labels = (tag :: tags).map .string ↔
            key = name ∧ label' = .string tag ∧ labels = tags.map .string := by
          rw [map_cons, List.cons.injEq, Label.string.injEq]
        rw [ensureTree, Trie.lookup_cons init, Trie.find?_update, Trie.lookup_cons init]
        simp only [hiff]
        by_cases hkey : name = key
        · subst hkey
          simp only [true_and]
          exact ih (h.getD_find? name).2 label' tag tags
        · rw [if_neg hkey, if_neg fun hp => hkey hp.1.symm]

/-- A walk keeps a tree well formed. -/
theorem wellFormed_ensureTree {change : α → α} (h : tree.WellFormed init) (label : Label)
    (labels : List Label) :
    (ensureTree init change label labels tree).WellFormed init := by
  induction labels generalizing label tree with
  | nil =>
    cases label with
    | other => exact h
    | string key => exact h.update key fun n hn => hn.touch change
  | cons label' labels ih =>
    cases label with
    | other => exact h
    | string key => exact h.update key fun n hn => hn.within (ih hn.2 label')

/-- **A tree holds a table.** -/
structure Holds {α : Type*} (init : α) (tree : Trie Str α) (table : Str → List Str → Option α) :
    Prop where
  wellFormed : tree.WellFormed init
  lookup : ∀ name tags, tree.lookup name tags = table name tags

theorem holds_nil (init : α) : Holds init .nil fun _ _ => none :=
  ⟨trivial, fun name tags => Trie.lookup_nil name tags⟩

theorem tabulate_concat {β : Type*} (apply : α → β → α) (init : α) (bs : List β) (b : β) :
    tabulate apply init (bs ++ [b]) = some (apply ((tabulate apply init bs).getD init) b) := by
  cases bs with
  | nil => rfl
  | cons b' bs =>
    show some ((bs ++ [b]).foldl apply (apply init b')) = _
    rw [foldl_append]
    rfl

theorem under_concat {β : Type*} (effect : Call ν → Option (Label × List Label × β))
    (calls : List (Call ν)) (call : Call ν) (name : Str) (tags : List Str) :
    under effect (calls ++ [call]) name tags =
      under effect calls name tags ++ under effect [call] name tags :=
  filterMap_append

section Effects

variable {α β : Type*} {effect : Call ν → Option (Label × List Label × β)} {apply : α → β → α}
  {init : α} {tree : Trie Str α} {calls : List (Call ν)} {call : Call ν}

/-- A call without an effect leaves the table. -/
theorem Holds.of_none
    (h : Holds init tree fun name tags => tabulate apply init (under effect calls name tags))
    (he : effect call = none) :
    Holds init tree fun name tags =>
      tabulate apply init (under effect (calls ++ [call]) name tags) := by
  refine ⟨h.wellFormed, fun name tags => ?_⟩
  have hnone : under effect [call] name tags = [] := by
    rw [under, filterMap_cons, he]
    rfl
  rw [h.lookup, under_concat, hnone, append_nil]

/-- A walk with the effect of a call makes the table of one more call. -/
theorem Holds.of_some
    (h : Holds init tree fun name tags => tabulate apply init (under effect calls name tags))
    {label : Label} {labels : List Label} {b : β} (he : effect call = some (label, labels, b)) :
    Holds init (ensureTree init (fun value => apply value b) label labels tree) fun name tags =>
      tabulate apply init (under effect (calls ++ [call]) name tags) := by
  refine ⟨wellFormed_ensureTree h.wellFormed label labels, fun name tags => ?_⟩
  rw [lookup_ensureTree h.wellFormed, h.lookup, under_concat]
  by_cases hkey : label = .string name ∧ labels = tags.map .string
  · have hone : under effect [call] name tags = [b] := by
      refine filterMap_cons_some ?_
      rw [he]
      exact if_pos hkey
    rw [if_pos hkey, hone, tabulate_concat]
  · have hnone : under effect [call] name tags = [] := by
      refine filterMap_cons_none ?_
      rw [he]
      exact if_neg hkey
    rw [if_neg hkey, hnone, append_nil]

end Effects

/-! ## Runs -/

/-- The tree of histograms, in which a node has none before its first value. -/
def histogramTable (D : DDSketch ν σ) (calls : List (Call ν)) (name : Str) (tags : List Str) :
    Option (Option σ) :=
  tabulate (fun h value => some (D.accept (h.getD D.new) value)) none
    (under Call.recorded calls name tags)

theorem tabulate_some {β : Type*} (apply : α → β → α) (new : α) (bs : List β) :
    tabulate (fun (h : Option α) b => some (apply (h.getD new) b)) none bs =
      (tabulate apply new bs).map some := by
  have hfold : ∀ (bs : List β) (a : α),
      bs.foldl (fun (h : Option α) b => some (apply (h.getD new) b)) (some a) =
        some (bs.foldl apply a) := by
    intro bs
    induction bs with
    | nil => exact fun _ => rfl
    | cons b bs ih => exact fun a => ih (apply a b)
  cases bs with
  | nil => rfl
  | cons b bs => exact congrArg some (hfold bs (apply new b))

theorem histogramTable_eq (D : DDSketch ν σ) (calls : List (Call ν)) (name : Str)
    (tags : List Str) :
    histogramTable D calls name tags = (recordings D calls name tags).map some :=
  tabulate_some D.accept D.new _

section Runs

variable [Zero ν] [One ν] [Add ν] [Neg ν]

/-- **The trees of a client hold the tables of some calls.** -/
structure Aggregates (D : DDSketch ν σ) (calls : List (Call ν))
    (c : MetricsAggregationClient ν σ) : Prop where
  counters : Holds 0 c.counters (counter calls)
  gauges : Holds 0 c.gauges (gaugeValue calls)
  histograms : Holds none c.histograms (histogramTable D calls)

theorem aggregates_reset (D : DDSketch ν σ) :
    Aggregates D [] (MetricsAggregationClient.reset : MetricsAggregationClient ν σ) :=
  ⟨holds_nil 0, holds_nil 0, holds_nil none⟩

variable {D : DDSketch ν σ} {calls : List (Call ν)} {c : MetricsAggregationClient ν σ}
  {call : Call ν}

/-- One count, monotonic or not. -/
theorem aggregates_count (h : Aggregates D calls c) {name : Label} {n : ν} {tags : Tags}
    {monotonic : Bool} (hcounts : call.counts = some (countOf name n tags monotonic))
    (hsets : call.sets = none) (hrecorded : call.recorded = none) :
    Aggregates D (calls ++ [call]) (c.count name n tags monotonic) := by
  obtain ⟨labels, b, hof, hcount⟩ : ∃ labels b, countOf name n tags monotonic = (name, labels, n, b) ∧
      c.count name n tags monotonic = if b then
        { c with counters := ensureTree 0 (fun value => value + n) name labels c.counters }
      else { c with gauges := ensureTree 0 (fun value => value + n) name labels c.gauges } := by
    cases tags with
    | boolean b => exact ⟨[], b, rfl, rfl⟩
    | absent | one tag | list tags => exact ⟨_, monotonic, rfl, rfl⟩
  rw [hof] at hcounts
  rw [hcount]
  cases b with
  | true =>
    have hcounted : call.counted = some (name, labels, n) := by rw [Call.counted, hcounts]
    have hgauged : call.gauged = none := by rw [Call.gauged, hsets, hcounts]
    exact ⟨h.counters.of_some hcounted, h.gauges.of_none hgauged, h.histograms.of_none hrecorded⟩
  | false =>
    have hcounted : call.counted = none := by rw [Call.counted, hcounts]
    have hgauged : call.gauged = some (name, labels, .add n) := by
      rw [Call.gauged, hsets, hcounts]
    exact ⟨h.counters.of_none hcounted, h.gauges.of_some hgauged, h.histograms.of_none hrecorded⟩

theorem aggregates_gauge (h : Aggregates D calls c) {name : Label} {value : ν} {tags : Tags}
    (hsets : call.sets = some (name, tags.labels, value)) (hcounts : call.counts = none)
    (hrecorded : call.recorded = none) :
    Aggregates D (calls ++ [call]) (c.gauge name value tags) := by
  have hcounted : call.counted = none := by rw [Call.counted, hcounts]
  have hgauged : call.gauged = some (name, tags.labels, .set value) := by
    rw [Call.gauged, hsets]
  exact ⟨h.counters.of_none hcounted, h.gauges.of_some hgauged, h.histograms.of_none hrecorded⟩

variable [Div ν] [NatCast ν] [DecidableEq ν]

/-- **One call** adds its effect to the tables, or clears them. -/
theorem aggregates_step (h : Aggregates D (sinceFlush calls) c) (call : Call ν) :
    Aggregates D (sinceFlush (calls ++ [call])) (c.step D call).1 := by
  rw [sinceFlush, foldl_append]
  cases call with
  | gauge name value tags | boolean name value tags => exact aggregates_gauge h rfl rfl rfl
  | count name n tags monotonic | increment name n tags => exact aggregates_count h rfl rfl rfl
  | decrement name n tags => exact aggregates_count h rfl rfl rfl
  | histogram name value tags =>
    exact ⟨h.counters.of_none rfl, h.gauges.of_none rfl, h.histograms.of_some rfl⟩
  | distribution name value tags =>
    exact ⟨h.counters.of_none rfl, h.gauges.of_none rfl, h.histograms.of_none rfl⟩
  | reset | flush => exact aggregates_reset D

theorem aggregates_run (D : DDSketch ν σ) (calls : List (Call ν)) :
    Aggregates D (sinceFlush calls) (MetricsAggregationClient.run D calls) := by
  induction calls using List.reverseRecOn with
  | nil => exact aggregates_reset D
  | append_singleton calls call ih =>
    rw [MetricsAggregationClient.run, foldl_append]
    exact aggregates_step ih call

end Runs

/-! ## What a flush reports -/

/-- A list with the values of a table, each key once. -/
def Lists {α : Type*} (entries : List (Str × List Str × α))
    (table : Str → List Str → Option α) : Prop :=
  (entries.map fun e => (e.1, e.2.1)).Nodup ∧
    ∀ name tags value, (name, tags, value) ∈ entries ↔ table name tags = some value

theorem Holds.lists {table : Str → List Str → Option α} (h : Holds init tree table) :
    Lists tree.entries table := by
  refine ⟨Trie.nodup_entries h.wellFormed, fun name tags value => ?_⟩
  rw [Trie.mem_entries h.wellFormed, h.lookup]

/-- Entries that all have a value, without the `some`. -/
theorem exists_map_some {entries : List (Str × List Str × Option α)}
    (h : ∀ e ∈ entries, ∃ value, e.2.2 = some value) :
    ∃ values : List (Str × List Str × α),
      entries = values.map fun e => (e.1, e.2.1, some e.2.2) := by
  induction entries with
  | nil => exact ⟨[], rfl⟩
  | cons e entries ih =>
    obtain ⟨values, hvalues⟩ := ih (forall_mem_cons.mp h).2
    obtain ⟨value, hvalue⟩ := h e mem_cons_self
    obtain ⟨name, tags, _⟩ := e
    refine ⟨(name, tags, value) :: values, ?_⟩
    rw [map_cons, hvalues, ← show _ = some value from hvalue]

/-- The histograms of a tree: every node in which a path ended has one. -/
theorem exists_histograms {D : DDSketch ν σ} {calls : List (Call ν)}
    {tree : Trie Str (Option σ)} (h : Holds none tree (histogramTable D calls)) :
    ∃ histograms : List (Str × List Str × σ),
      tree.entries = histograms.map (fun e => (e.1, e.2.1, some e.2.2)) ∧
        Lists histograms (recordings D calls) := by
  obtain ⟨hnodup, hmem⟩ := h.lists
  have hsome : ∀ e ∈ tree.entries, ∃ stats, e.2.2 = some stats := by
    rintro ⟨name, tags, value⟩ he
    have hvalue := (hmem name tags value).mp he
    rw [histogramTable_eq, Option.map_eq_some_iff] at hvalue
    obtain ⟨stats, _, rfl⟩ := hvalue
    exact ⟨stats, rfl⟩
  obtain ⟨histograms, hmap⟩ := exists_map_some hsome
  refine ⟨histograms, hmap, ?_, fun name tags stats => ?_⟩
  · rw [hmap, map_map] at hnodup
    exact hnodup
  · have hiff := hmem name tags (some stats)
    rw [hmap, histogramTable_eq, Option.map_eq_some_iff] at hiff
    constructor
    · intro he
      obtain ⟨stats', hstats', heq⟩ := hiff.mp (mem_map.mpr ⟨_, he, rfl⟩)
      rw [hstats', Option.some.inj heq]
    · intro htable
      obtain ⟨⟨name', tags', stats'⟩, he, heq⟩ := mem_map.mp (hiff.mpr ⟨stats, htable, rfl⟩)
      cases heq
      exact he

/-- **What a flush reports**, after any calls: for each key that was counted, gauged or recorded
since the last flush or reset, and for no other, the sum of its monotonic counts, the last value of
its gauge with the later counts that are not monotonic, and the statistics of its histogram, each
once and under its own tags.  The client it writes to is flushed at the end. -/
theorem reported_of_run [Zero ν] [One ν] [Add ν] [Neg ν] [Div ν] [NatCast ν] [DecidableEq ν]
    (D : DDSketch ν σ) (calls : List (Call ν)) :
    ∃ counters gauges histograms, ((MetricsAggregationClient.run D calls).step D .flush).2 =
        (counters.map (fun e => Metric.increment e.1 e.2.2 e.2.1) ++
          gauges.map (fun e => Metric.gauge e.1 e.2.2 e.2.1) ++
          histograms.flatMap (fun e =>
            MetricsAggregationClient.histogramMetrics D e.1 e.2.1 e.2.2)).map .metric ++ [.flush] ∧
      Lists counters (counter (sinceFlush calls)) ∧ Lists gauges (gaugeValue (sinceFlush calls)) ∧
      Lists histograms (recordings D (sinceFlush calls)) := by
  have h := aggregates_run D calls
  obtain ⟨histograms, hentries, hlists⟩ := exists_histograms h.histograms
  refine ⟨_, _, histograms, ?_, h.counters.lists, h.gauges.lists, hlists⟩
  have hcapture : (MetricsAggregationClient.run D calls).captureHistograms D =
      histograms.flatMap fun e => MetricsAggregationClient.histogramMetrics D e.1 e.2.1 e.2.2 := by
    rw [MetricsAggregationClient.captureHistograms, hentries, flatMap_map]
    rfl
  rw [MetricsAggregationClient.step, hcapture]
  rfl

/-- A sketch that only counts. -/
def countingSketch : DDSketch ℤ ℕ :=
  ⟨0, fun n _ => n + 1, fun n => n, fun n => n, fun n => n, fun n => n, fun n _ => n, fun v => v ≠ 0⟩

/-- The last value that calls give a gauge. -/
def lastGauge (calls : List (Call ℤ)) (name : Str) (tags : List Str) : Option ℤ :=
  (under Call.sets calls name tags).getLast?

/-- **A count that is not monotonic changes a gauge**: after `gauge('m', 5)` and
`count('m', 2, [], false)` the flush does not report 5. -/
theorem not_reported :
    ¬∀ (σ : Type) (D : DDSketch ℤ σ) (calls : List (Call ℤ)) (name : Str) (tags : List Str)
      (value : ℤ), lastGauge (sinceFlush calls) name tags = some value →
        Event.metric (.gauge name value tags) ∈
          ((MetricsAggregationClient.run D calls).step D .flush).2 := by
  intro h
  have hmem := h ℕ countingSketch
    [.gauge (.string (lit "m")) 5 .absent, .count (.string (lit "m")) 2 (.list []) false]
    (lit "m") [] 5 (by decide)
  revert hmem
  decide

end DdTrace.Dogstatsd
