import DdTrace.Library.OrderedMap
import DdTrace.Library.Text

/-!
# Which probes are sampled

`debugger/probe_sampler.js` decides in the debuggee whether a probe that is hit is sampled, and
leaves the sampled ones in a shared buffer; the worker takes them when the debuggee pauses, in
`devtools_client/index.js`.  The clock that is read does not go back.

* `spaced_run`: the samples of a probe are as far apart as it asks, unless it was removed.
* `within_run_le`: **in no second are more than `2 * MAX_SNAPSHOTS_PER_SECOND_GLOBALLY` snapshots
  sampled.**  A window of a second may be at its end, and the next one at its start.
* `handed_run`: the worker gets what was sampled, each sample once and in order.
-/

namespace DdTrace.Debugger.ProbeSampler

open Library List

def MAX_SNAPSHOTS_PER_SECOND_GLOBALLY : ℕ := 25

def MAX_SAMPLED_PROBES_PER_PAUSE : ℕ := 256

def oneSecondNs : ℤ := 10 ^ 9

/-- What `makeSampleDecision` is asked. -/
structure Probe where
  probeIndex : ℤ
  probeId : Str
  nsBetweenSampling : ℤ
  isSnapshotProducingProbe : Bool

/-- The variables of `installProbeSampler`, and the shared buffer. -/
structure Sampler where
  lastCaptureNsByProbeId : OrderedMap Str ℤ := .empty
  globalSnapshotSamplingRateWindowStart : ℤ := 0
  snapshotsSampledWithinTheLastSecond : ℕ := 0
  count : ℕ := 0
  overflow : Bool := false
  indexes : ℕ → ℤ := fun _ => 0

namespace Sampler

/-- `makeSampleDecision`, when the clock reads `now`. -/
def makeSampleDecision (s : Sampler) (now : ℤ) (p : Probe) : Bool × Sampler :=
  if (s.lastCaptureNsByProbeId.get? p.probeId).any fun last => now - last < p.nsBetweenSampling then
    (false, s) else
  let shouldReset := now - s.globalSnapshotSamplingRateWindowStart > oneSecondNs
  if p.isSnapshotProducingProbe ∧ ¬ shouldReset ∧
      s.snapshotsSampledWithinTheLastSecond ≥ MAX_SNAPSHOTS_PER_SECOND_GLOBALLY then (false, s) else
  if s.count ≥ MAX_SAMPLED_PROBES_PER_PAUSE then
    (false, { s with count := s.count + 1, overflow := true }) else
  let (start, sampled) :=
    if p.isSnapshotProducingProbe then
      if shouldReset then (now, 1)
      else (s.globalSnapshotSamplingRateWindowStart, s.snapshotsSampledWithinTheLastSecond + 1)
    else (s.globalSnapshotSamplingRateWindowStart, s.snapshotsSampledWithinTheLastSecond)
  (true,
    { s with
      lastCaptureNsByProbeId := s.lastCaptureNsByProbeId.set p.probeId now
      globalSnapshotSamplingRateWindowStart := start
      snapshotsSampledWithinTheLastSecond := sampled
      count := s.count + 1
      indexes := Function.update s.indexes s.count p.probeIndex })

def remove (s : Sampler) (probeId : Str) : Sampler :=
  { s with lastCaptureNsByProbeId := s.lastCaptureNsByProbeId.delete probeId }

/-- The indexes that the worker finds in the buffer. -/
def sampledProbeIndexes (s : Sampler) : List ℤ :=
  (List.range (min s.count MAX_SAMPLED_PROBES_PER_PAUSE)).map s.indexes

/-- The worker takes the indexes, with `Atomics.exchange`. -/
def take (s : Sampler) : Sampler := { s with count := 0, overflow := false }

end Sampler

/-! ## Runs -/

/-- What is kept of a run: a probe was sampled, or removed. -/
inductive Event
  | sampled (now : ℤ) (p : Probe)
  | removed (probeId : Str)

/-- The sampler, the clock, what happened, the last event first, and what the worker got. -/
structure World where
  sampler : Sampler := {}
  clock : ℤ := 0
  events : List Event := []
  handed : List ℤ := []

/-- A probe is hit when some time has passed; the debuggee pauses at any time. -/
inductive Action
  | hit (elapsed : ℕ) (p : Probe)
  | remove (probeId : Str)
  | pause

def step (w : World) : Action → World
  | .hit elapsed p =>
    let now := w.clock + elapsed
    let (decision, sampler) := w.sampler.makeSampleDecision now p
    { w with
      sampler := sampler
      clock := now
      events := bif decision then .sampled now p :: w.events else w.events }
  | .remove id => { w with sampler := w.sampler.remove id, events := .removed id :: w.events }
  | .pause =>
    { w with sampler := w.sampler.take, handed := w.handed ++ w.sampler.sampledProbeIndexes }

def run (as : List Action) : World := as.foldl step {}

/-- When a probe was sampled last, unless it was removed since. -/
def lastSample (id : Str) : List Event → Option ℤ
  | [] => none
  | .sampled now p :: l => if id = p.probeId then some now else lastSample id l
  | .removed removed :: l => if id = removed then none else lastSample id l

/-- Each probe is sampled as long after its last sample as it asks. -/
def Spaced : List Event → Prop
  | [] => True
  | .sampled now p :: l =>
    (∀ last ∈ lastSample p.probeId l, p.nsBetweenSampling ≤ now - last) ∧ Spaced l
  | .removed _ :: l => Spaced l

/-- The indexes of the samples, the first one first. -/
def indexesOf : List Event → List ℤ
  | [] => []
  | .sampled _ p :: l => indexesOf l ++ [p.probeIndex]
  | .removed _ :: l => indexesOf l

/-- The times at which snapshots were sampled. -/
def snapshotTimes : List Event → List ℤ
  | [] => []
  | .sampled now p :: l =>
    if p.isSnapshotProducingProbe then now :: snapshotTimes l else snapshotTimes l
  | .removed _ :: l => snapshotTimes l

/-- How many times lie in the second from `a` on. -/
def within (a : ℤ) (times : List ℤ) : ℕ := times.countP fun t => a ≤ t ∧ t ≤ a + oneSecondNs

/-! ## The snapshots of a second -/

/-- How many times are not before `a`. -/
def since (a : ℤ) (times : List ℤ) : ℕ := times.countP fun t => a ≤ t

/-- What is known of the times of the snapshots in a window with `n` of them. -/
structure Limited (start : ℤ) (n : ℕ) (times : List ℤ) : Prop where
  le_end : ∀ t ∈ times, t ≤ start + oneSecondNs
  length_le : n ≤ MAX_SNAPSHOTS_PER_SECOND_GLOBALLY
  window : since start times = n
  windows : since (start - oneSecondNs) times ≤ n + MAX_SNAPSHOTS_PER_SECOND_GLOBALLY
  within_le : ∀ a, within a times ≤ 2 * MAX_SNAPSHOTS_PER_SECOND_GLOBALLY

variable {now start a b : ℤ} {n m : ℕ} {times : List ℤ}

theorem since_cons : since a (now :: times) = since a times + if a ≤ now then 1 else 0 := by
  simp [since, countP_cons]

theorem since_anti (h : a ≤ b) : since b times ≤ since a times :=
  countP_mono_left fun _ _ ht => decide_eq_true (h.trans (of_decide_eq_true ht))

/-- A second that has the time that is added has, but for that, times of the second before it. -/
theorem within_cons_le (hold : within a times ≤ m) (hnew : since (now - oneSecondNs) times < m) :
    within a (now :: times) ≤ m := by
  rw [within, countP_cons]
  split
  · next h =>
    have ha : now - oneSecondNs ≤ a := by
      have := (of_decide_eq_true h).2
      omega
    have hle : within a times ≤ since a times :=
      countP_mono_left fun _ _ ht => decide_eq_true (of_decide_eq_true ht).1
    exact (hle.trans (since_anti ha)).trans_lt hnew
  · exact hold

/-- A window begins: the snapshots of the second before it are of the last one. -/
theorem Limited.reset (h : Limited start n times) (hnow : now - start > oneSecondNs) :
    Limited now 1 (now :: times) := by
  have hnone : since now times = 0 := by
    rw [since, countP_eq_zero]
    intro t ht hle
    have := h.le_end t ht
    have := of_decide_eq_true hle
    omega
  have hlast : since (now - oneSecondNs) times ≤ MAX_SNAPSHOTS_PER_SECOND_GLOBALLY :=
    (since_anti (by omega)).trans (h.window.le.trans h.length_le)
  refine ⟨forall_mem_cons.mpr ⟨?_, fun t ht => ?_⟩, by decide, ?_, ?_,
    fun a => within_cons_le (h.within_le a) (hlast.trans_lt (by decide))⟩
  · exact Int.le_add_of_nonneg_right (by decide)
  · exact (h.le_end t ht).trans (by unfold oneSecondNs at *; omega)
  · rw [since_cons, hnone, if_pos le_rfl]
  · rw [since_cons]
    split <;> omega

/-- One more snapshot in the window. -/
theorem Limited.sample (h : Limited start n times) (hstart : start ≤ now)
    (hnow : now - start ≤ oneSecondNs) (hroom : n < MAX_SNAPSHOTS_PER_SECOND_GLOBALLY) :
    Limited start (n + 1) (now :: times) := by
  have hlast : since (now - oneSecondNs) times ≤ n + MAX_SNAPSHOTS_PER_SECOND_GLOBALLY :=
    (since_anti (by omega)).trans h.windows
  refine ⟨forall_mem_cons.mpr ⟨by omega, h.le_end⟩, hroom, ?_, ?_,
    fun a => within_cons_le (h.within_le a) (by omega)⟩
  · rw [since_cons, h.window, if_pos hstart]
  · have := h.windows
    rw [since_cons]
    split <;> omega

/-! ## One decision -/

variable {s s' : Sampler} {p : Probe}

/-- The window has begun, and the snapshots so far are limited. -/
def Sampler.Limits (s : Sampler) (now : ℤ) (times : List ℤ) : Prop :=
  s.globalSnapshotSamplingRateWindowStart ≤ now ∧
    Limited s.globalSnapshotSamplingRateWindowStart s.snapshotsSampledWithinTheLastSecond times

/-- What it means that a probe is sampled. -/
structure Sampled (s : Sampler) (now : ℤ) (p : Probe) (s' : Sampler) : Prop where
  spaced : ∀ last ∈ s.lastCaptureNsByProbeId.get? p.probeId, p.nsBetweenSampling ≤ now - last
  last : s'.lastCaptureNsByProbeId = s.lastCaptureNsByProbeId.set p.probeId now
  limits : ∀ times, s.Limits now times →
    s'.Limits now (if p.isSnapshotProducingProbe then now :: times else times)
  indexes : s'.sampledProbeIndexes = s.sampledProbeIndexes ++ [p.probeIndex]

/-- **What a decision does.**  A probe that is not sampled changes nothing that is read later. -/
theorem makeSampleDecision_cases (s : Sampler) (now : ℤ) (p : Probe) :
    (∃ s', s.makeSampleDecision now p = (true, s') ∧ Sampled s now p s') ∨
    ∃ count overflow, s.makeSampleDecision now p = (false, { s with count, overflow }) ∧
      Sampler.sampledProbeIndexes { s with count, overflow } = s.sampledProbeIndexes := by
  unfold Sampler.makeSampleDecision
  split
  · exact .inr ⟨s.count, s.overflow, rfl, rfl⟩
  · next hlast =>
    dsimp only
    split
    · exact .inr ⟨s.count, s.overflow, rfl, rfl⟩
    · next hroom =>
      split
      · next hfull =>
        refine .inr ⟨s.count + 1, true, rfl, ?_⟩
        have hmin : min (s.count + 1) MAX_SAMPLED_PROBES_PER_PAUSE =
            min s.count MAX_SAMPLED_PROBES_PER_PAUSE := by omega
        rw [Sampler.sampledProbeIndexes, hmin]
        rfl
      · next hfull =>
        refine .inl ⟨_, rfl, ?_, rfl, ?_, ?_⟩
        · intro last hmem
          rw [Option.mem_def.mp hmem] at hlast
          simpa using hlast
        · rintro times ⟨hstart, h⟩
          unfold Sampler.Limits
          dsimp only
          split
          · next hsnapshot =>
            split
            · next hreset => exact ⟨le_rfl, h.reset hreset⟩
            · next hreset =>
              have hlt := Nat.not_le.mp fun hle => hroom ⟨hsnapshot, hreset, hle⟩
              exact ⟨hstart, h.sample hstart (Int.not_lt.mp hreset) hlt⟩
          · exact ⟨hstart, h⟩
        · change (List.range (min (s.count + 1) _)).map (Function.update s.indexes s.count _) = _
          rw [Sampler.sampledProbeIndexes, Nat.min_eq_left (by omega), Nat.min_eq_left (by omega),
            range_succ, map_append, map_singleton, Function.update_self]
          congr 1
          exact map_congr_left fun i hi => Function.update_of_ne (mem_range.mp hi).ne _ _

/-! ## Every run -/

/-- What holds in every run. -/
structure Inv (w : World) : Prop where
  last : ∀ id, w.sampler.lastCaptureNsByProbeId.get? id = lastSample id w.events
  spaced : Spaced w.events
  limits : w.sampler.Limits w.clock (snapshotTimes w.events)
  handed : indexesOf w.events = w.handed ++ w.sampler.sampledProbeIndexes

theorem inv_start : Inv {} where
  last _ := rfl
  spaced := trivial
  limits := ⟨le_rfl, nofun, Nat.zero_le _, rfl, Nat.zero_le _, fun _ => Nat.zero_le _⟩
  handed := rfl

/-- **One step.** -/
theorem inv_step {w : World} (h : Inv w) (a : Action) : Inv (step w a) := by
  cases a with
  | pause => exact ⟨h.last, h.spaced, h.limits, h.handed.trans (append_nil _).symm⟩
  | remove id =>
    refine ⟨fun j => ?_, h.spaced, h.limits, h.handed⟩
    exact (OrderedMap.get?_delete _ _ _).trans (congrArg (ite (j = id) none) (h.last j))
  | hit elapsed p =>
    have hlimits : w.sampler.Limits (w.clock + elapsed) (snapshotTimes w.events) :=
      ⟨h.limits.1.trans (by omega), h.limits.2⟩
    rcases makeSampleDecision_cases w.sampler (w.clock + elapsed) p with
      ⟨s', heq, hs⟩ | ⟨count, overflow, heq, hs⟩
    · simp only [step, heq, cond_true]
      refine ⟨fun j => ?_, ⟨?_, h.spaced⟩, hs.limits _ hlimits, ?_⟩
      · rw [hs.last, OrderedMap.get?_set, lastSample, h.last]
      · rw [← h.last]
        exact hs.spaced
      · rw [indexesOf, h.handed, hs.indexes, append_assoc]
    · simp only [step, heq, cond_false]
      exact ⟨h.last, h.spaced, hlimits, h.handed.trans (congrArg (w.handed ++ ·) hs.symm)⟩

theorem inv_run (as : List Action) : Inv (run as) :=
  foldlRecOn as step inv_start fun _ h a _ => inv_step h a

/-- **The samples of a probe are spaced**: one comes at least as long after the last one as the
probe asks, unless the probe was removed in between. -/
theorem spaced_run (as : List Action) : Spaced (run as).events := (inv_run as).spaced

/-- **No second has too many snapshots**, wherever it begins. -/
theorem within_run_le (as : List Action) (a : ℤ) :
    within a (snapshotTimes (run as).events) ≤ 2 * MAX_SNAPSHOTS_PER_SECOND_GLOBALLY :=
  (inv_run as).limits.2.within_le a

/-- **The worker gets every sample once**, in order, but for those that wait for the next pause. -/
theorem handed_run (as : List Action) :
    indexesOf (run as).events = (run as).handed ++ (run as).sampler.sampledProbeIndexes :=
  (inv_run as).handed

end DdTrace.Debugger.ProbeSampler
