import Mathlib.Data.List.Perm.Basic
import Mathlib.Data.List.Nodup
import Mathlib.Data.List.Sort
import DdTrace.Library.Run

/-!
# The span processor

A span registers itself in `trace.started` when it is created and in `trace.finished` when it is
finished, which then runs `SpanProcessor.process`.  A flush walks `started`: the spans with a
duration are exported as one chunk, the others become the new `started`.  It is due when nothing is
active, or when `finished` has reached `flushMinSpans`.

Where the spans of a trace can be is `Accounted`: each is in `started`, in an exported chunk or
dropped, in exactly one of the three.  What is due to the design and not to the two arrays is kept
apart, in two histories that the code does not have: `dropped` collects the spans that were taken
out of `started` without an export, and `wiped` says that the branch of a disabled tracer, which
erases the whole trace, was ever taken.

* `accounted_process`: `process` keeps the accounting, with the recursion of `killAll`.
* `process_of_le`, `finish_eq`: the recursion ends, by the number of spans that are still open.
* `delivered_of_run`: **every run delivers.**  Nothing is exported twice or while active; what left
  the `started` of a recording trace is exported.
* `not_startedAsClaimed`: a filtered trace drops its finished spans.
-/

namespace DdTrace.SpanProcessor

open Library List

/-! ## The code -/

/-- What `process` reads of the configuration.  No count reaches a `flushMinSpans` that is not a
number. -/
structure Config where
  flushMinSpans : Option ℤ
  tracingEnabled : Bool
  deriving DecidableEq

/-- `spanContext._trace`. -/
structure Trace where
  started : List ℕ := []
  finished : List ℕ := []
  record : Bool := true
  isRecording : Bool := true
  deriving DecidableEq

/-- One local trace with its processor.  The spans are named by the order of their creation, and
`closed` lists those whose `_duration` is set. -/
structure State where
  config : Config
  killAll : Bool := false
  trace : Trace := {}
  created : ℕ := 0
  closed : List ℕ := []
  exported : List (List ℕ) := []
  dropped : List ℕ := []
  wiped : Bool := false
  deriving DecidableEq

/-- `_duration !== undefined`. -/
def State.isClosed (s : State) (span : ℕ) : Bool := s.closed.contains span

/-- The spans that a flush leaves in `started`. -/
def State.active (s : State) : List ℕ := s.trace.started.filter fun span => !s.isClosed span

/-- The spans that a flush formats. -/
def State.formatted (s : State) : List ℕ := s.trace.started.filter s.isClosed

/-- `_erase`. -/
def erase (s : State) (active : List ℕ) : State :=
  { s with trace := { s.trace with started := active, finished := [] } }

/-- `finished.length >= flushMinSpans`. -/
def reaches (n : ℕ) : Option ℤ → Bool
  | none => false
  | some m => decide (m ≤ n)

def flushDue (s : State) : Bool :=
  s.trace.started.length == s.trace.finished.length ||
    reaches s.trace.finished.length s.config.flushMinSpans

/-- The export of a flush, for which sampling decides nothing. -/
def exportFormatted (s : State) : State :=
  if !s.formatted.isEmpty && s.trace.isRecording then
    { s with exported := s.exported ++ [s.formatted] }
  else { s with dropped := s.dropped ++ s.formatted }

def flush (s : State) : State := erase (exportFormatted s) s.active

/-- The branch of `DD_TRACE_ENABLED === false`. -/
def discard (s : State) : State :=
  { erase s [] with dropped := s.dropped ++ s.trace.started, wiped := true }

/-- `process`, given `finish`, which it calls on the spans that were started when it began. -/
def processWith (finish : State → ℕ → State) (s : State) : State :=
  if !s.trace.record then s
  else if !s.config.tracingEnabled then discard s
  else
    let flushed := if flushDue s then flush s else s
    if s.killAll then s.trace.started.foldl finish flushed else flushed

/-- What `finish` sets before it calls `process`. -/
def close (s : State) (span : ℕ) : State :=
  { s with
    closed := s.closed ++ [span]
    trace := { s.trace with finished := s.trace.finished ++ [span] } }

/-- `finish`, given `process`. -/
def finishWith (process : State → State) (s : State) (span : ℕ) : State :=
  if s.isClosed span then s else process (close s span)

/-- `process`, to a depth of nested calls of `finish`. -/
def process : ℕ → State → State
  | 0 => processWith fun s _ => s
  | depth + 1 => processWith (finishWith (process depth))

/-- `finish`.  No more calls nest than there are spans. -/
def finish (s : State) (span : ℕ) : State := finishWith (process s.created) s span

/-- The constructor of a span. -/
def start (s : State) : State :=
  { s with
    created := s.created + 1
    trace := { s.trace with started := s.trace.started ++ [s.created] } }

/-- What happens to a trace. -/
inductive Event where
  | start
  | finish (span : ℕ)
  /-- A change of the configuration. -/
  | configure (config : Config)
  /-- The filter of a server integration, which sets `trace.isRecording`. -/
  | filter
  /-- The filter of a client integration, which sets `trace.record`. -/
  | skip
  | killAll
  deriving DecidableEq

def step (s : State) : Event → Option State
  | .start => some (start s)
  | .finish span => if span < s.created then some (finish s span) else none
  | .configure config => some { s with config := config }
  | .filter => some { s with trace := { s.trace with isRecording := false } }
  | .skip => some { s with trace := { s.trace with record := false } }
  | .killAll => some { s with killAll := true }

/-- Before the first span of the trace. -/
def init (config : Config) : State := { config := config }

/-! ## The accounting -/

/-- **Where the spans of a trace are.** -/
structure Accounted (s : State) : Prop where
  /-- Every span is in exactly one place, and there once. -/
  places : (s.trace.started ++ s.exported.flatten ++ s.dropped).Perm (List.range s.created)
  started_lt : s.trace.started.Pairwise (· < ·)
  closed_nodup : s.closed.Nodup
  closed_lt : ∀ span ∈ s.closed, span < s.created
  /-- No active span is exported. -/
  exported_closed : ∀ span ∈ s.exported.flatten, span ∈ s.closed
  /-- No active span is dropped from an enabled tracer. -/
  dropped_closed : s.wiped = false → ∀ span ∈ s.dropped, span ∈ s.closed
  /-- No span at all is dropped from a trace that is recording. -/
  dropped_eq_nil : s.wiped = false → s.trace.isRecording = true → s.dropped = []
  /-- `finished` holds the finished spans of `started`, in the order they were finished. -/
  finished_perm : s.wiped = false → s.trace.finished.Perm s.formatted

/-- Nothing that is finished waits in a trace without active spans. -/
def Settled (s : State) : Prop :=
  s.wiped = false → s.trace.record = true → s.active = [] → s.trace.started = []

theorem isClosed_eq_true {s : State} {span : ℕ} : s.isClosed span = true ↔ span ∈ s.closed := by
  rw [State.isClosed, contains_iff_mem]

theorem isClosed_eq_false {s : State} {span : ℕ} : s.isClosed span = false ↔ span ∉ s.closed := by
  rw [← isClosed_eq_true, Bool.not_eq_true]

theorem mem_active {s : State} {span : ℕ} :
    span ∈ s.active ↔ span ∈ s.trace.started ∧ span ∉ s.closed := by
  simp [State.active, isClosed_eq_false]

theorem mem_formatted {s : State} {span : ℕ} :
    span ∈ s.formatted ↔ span ∈ s.trace.started ∧ span ∈ s.closed := by
  rw [State.formatted, mem_filter, isClosed_eq_true]

/-- A flush splits `started`. -/
theorem started_perm (s : State) : (s.formatted ++ s.active).Perm s.trace.started :=
  filter_append_perm s.isClosed s.trace.started

theorem Accounted.nodup {s : State} (h : Accounted s) :
    (s.trace.started ++ s.exported.flatten ++ s.dropped).Nodup :=
  h.places.nodup_iff.mpr nodup_range

theorem Accounted.mem_iff {s : State} (h : Accounted s) {span : ℕ} : span < s.created ↔
      span ∈ s.trace.started ∨ span ∈ s.exported.flatten ∨ span ∈ s.dropped := by
  rw [← mem_range, ← h.places.mem_iff, mem_append, mem_append, or_assoc]

/-- A span that is still active is where it was started. -/
theorem Accounted.mem_started {s : State} (h : Accounted s) (hw : s.wiped = false) {span : ℕ}
    (hs : span < s.created) (hopen : span ∉ s.closed) : span ∈ s.trace.started := by
  rcases h.mem_iff.mp hs with hmem | hmem | hmem
  · exact hmem
  · exact absurd (h.exported_closed span hmem) hopen
  · exact absurd (h.dropped_closed hw span hmem) hopen

/-- Without active spans the two arrays have one length, so that a flush is due. -/
theorem Accounted.flushDue {s : State} (h : Accounted s) (hw : s.wiped = false)
    (hnone : s.active = []) : flushDue s = true := by
  have hlen : s.trace.started.length = s.trace.finished.length := by
    rw [← (started_perm s).length_eq, hnone, append_nil, (h.finished_perm hw).length_eq]
  rw [SpanProcessor.flushDue, hlen, beq_self_eq_true, Bool.true_or]

/-! ## One operation -/

theorem accounted_init (config : Config) : Accounted (init config) where
  places := List.Perm.refl _
  started_lt := List.Pairwise.nil
  closed_nodup := nodup_nil
  closed_lt := by simp [init]
  exported_closed := by simp [init]
  dropped_closed := by simp [init]
  dropped_eq_nil _ _ := rfl
  finished_perm _ := List.Perm.refl _

theorem accounted_start {s : State} (h : Accounted s) : Accounted (start s) where
  places := by
    have hplaces := h.places
    simp only [perm_iff_count, List.count_append] at hplaces ⊢
    intro span
    have hspan := hplaces span
    simp only [start, range_succ, List.count_append]
    omega
  started_lt := by
    refine pairwise_append.mpr ⟨h.started_lt, pairwise_singleton _ _, ?_⟩
    intro span hspan _ hnew
    rw [mem_singleton.mp hnew]
    exact h.mem_iff.mpr (Or.inl hspan)
  closed_nodup := h.closed_nodup
  closed_lt span hspan := Nat.lt_succ_of_lt (h.closed_lt span hspan)
  exported_closed := h.exported_closed
  dropped_closed := h.dropped_closed
  dropped_eq_nil := h.dropped_eq_nil
  finished_perm hw := by
    have hnew : s.isClosed s.created = false := by
      rw [isClosed_eq_false]
      intro hmem
      exact lt_irrefl _ (h.closed_lt _ hmem)
    have hformatted : (start s).formatted = s.formatted := by
      calc (start s).formatted = (s.trace.started ++ [s.created]).filter s.isClosed := rfl
        _ = s.formatted ++ [] := by
          rw [filter_append, filter_singleton, hnew]
          rfl
        _ = s.formatted := append_nil _
    rw [hformatted]
    exact h.finished_perm hw

/-- A span that is finished joins the finished spans of `started`. -/
theorem formatted_close {s : State} (h : Accounted s) {span : ℕ} (hopen : span ∉ s.closed)
    (hmem : span ∈ s.trace.started) : (close s span).formatted.Perm (s.formatted ++ [span]) := by
  have hnodup : s.trace.started.Nodup := h.started_lt.imp fun hlt => Nat.ne_of_lt hlt
  refine (perm_ext_iff_of_nodup (hnodup.filter _) ?_).mpr ?_
  · refine (hnodup.filter _).append (nodup_singleton _) ?_
    rw [disjoint_singleton]
    intro hspan
    exact hopen (mem_formatted.mp hspan).2
  · intro other
    refine mem_formatted.trans ?_
    rw [mem_append, mem_formatted]
    simp only [close, mem_append, mem_singleton]
    constructor
    · rintro ⟨hs, hc | rfl⟩
      · exact Or.inl ⟨hs, hc⟩
      · exact Or.inr rfl
    · rintro (⟨hs, hc⟩ | rfl)
      · exact ⟨hs, Or.inl hc⟩
      · exact ⟨hmem, Or.inr rfl⟩

theorem accounted_close {s : State} (h : Accounted s) {span : ℕ} (hs : span < s.created)
    (hopen : span ∉ s.closed) : Accounted (close s span) where
  places := h.places
  started_lt := h.started_lt
  closed_nodup := by
    refine h.closed_nodup.append (nodup_singleton _) ?_
    rwa [disjoint_singleton]
  closed_lt other hother := by
    rcases mem_append.mp hother with hmem | hmem
    · exact h.closed_lt other hmem
    · rwa [mem_singleton.mp hmem]
  exported_closed other hother := mem_append_left _ (h.exported_closed other hother)
  dropped_closed hw other hother := mem_append_left _ (h.dropped_closed hw other hother)
  dropped_eq_nil := h.dropped_eq_nil
  finished_perm hw :=
    ((h.finished_perm hw).append_right [span]).trans
      (formatted_close h hopen (h.mem_started hw hs hopen)).symm

/-- What a flush formats leaves `started`. -/
theorem places_flush {s : State} (h : Accounted s) :
    (s.active ++ s.formatted ++ s.exported.flatten ++ s.dropped).Perm (List.range s.created) := by
  have hsplit : (s.active ++ s.formatted).Perm s.trace.started :=
    perm_append_comm.trans (started_perm s)
  exact ((hsplit.append_right _).append_right _).trans h.places

/-- A flush keeps the active spans, and exports or drops all others. -/
theorem accounted_flush {s : State} (h : Accounted s) : Accounted (flush s) := by
  have hplaces := places_flush h
  have hactive : s.active.Pairwise (· < ·) := h.started_lt.filter _
  have hnone : s.active.filter s.isClosed = [] := by
    rw [filter_eq_nil_iff]
    intro span hspan
    rw [isClosed_eq_true]
    exact (mem_active.mp hspan).2
  simp only [perm_iff_count, List.count_append] at hplaces
  unfold flush exportFormatted
  by_cases hexport : (!s.formatted.isEmpty && s.trace.isRecording) = true
  · rw [if_pos hexport]
    refine ⟨?_, hactive, h.closed_nodup, h.closed_lt, ?_, h.dropped_closed, h.dropped_eq_nil, ?_⟩
    · rw [perm_iff_count]
      intro span
      have hspan := hplaces span
      simp only [erase, flatten_append, flatten_singleton, List.count_append]
      omega
    · intro span hspan
      simp only [erase, flatten_append, flatten_singleton, mem_append] at hspan
      rcases hspan with hspan | hspan
      · exact h.exported_closed span hspan
      · exact (mem_formatted.mp hspan).2
    · exact fun _ => (List.Perm.of_eq hnone).symm
  · rw [if_neg hexport]
    refine ⟨?_, hactive, h.closed_nodup, h.closed_lt, h.exported_closed, ?_, ?_, ?_⟩
    · rw [perm_iff_count]
      intro span
      have hspan := hplaces span
      simp only [erase, List.count_append]
      omega
    · intro hw span hspan
      rcases mem_append.mp hspan with hspan | hspan
      · exact h.dropped_closed hw span hspan
      · exact (mem_formatted.mp hspan).2
    · intro hw hrec
      have hempty : s.formatted = [] := by
        have hrec' : s.trace.isRecording = true := hrec
        rw [hrec', Bool.and_true, Bool.not_eq_true', Bool.not_eq_false] at hexport
        exact List.isEmpty_iff.mp hexport
      have hdropped : s.dropped ++ s.formatted = [] := by
        rw [h.dropped_eq_nil hw hrec, hempty]
        rfl
      exact hdropped
    · exact fun _ => (List.Perm.of_eq hnone).symm

theorem accounted_discard {s : State} (h : Accounted s) : Accounted (discard s) where
  places := by
    have hplaces := h.places
    simp only [perm_iff_count, List.count_append] at hplaces ⊢
    intro span
    have hspan := hplaces span
    simp only [discard, erase, List.count_append, count_nil]
    omega
  started_lt := List.Pairwise.nil
  closed_nodup := h.closed_nodup
  closed_lt := h.closed_lt
  exported_closed := h.exported_closed
  dropped_closed hw := absurd hw (by simp [discard])
  dropped_eq_nil hw := absurd hw (by simp [discard])
  finished_perm hw := absurd hw (by simp [discard])

/-! ## `process` -/

/-- What `process` leaves as it is. -/
structure Frame (s t : State) : Prop where
  config : t.config = s.config
  created : t.created = s.created
  closed : s.closed <+: t.closed
  record : t.trace.record = s.trace.record
  isRecording : t.trace.isRecording = s.trace.isRecording
  wiped : s.config.tracingEnabled = true → t.wiped = s.wiped

theorem Frame.refl (s : State) : Frame s s := ⟨rfl, rfl, prefix_rfl, rfl, rfl, fun _ => rfl⟩

theorem Frame.trans {s t u : State} (h : Frame s t) (h' : Frame t u) : Frame s u where
  config := h'.config.trans h.config
  created := h'.created.trans h.created
  closed := h.closed.trans h'.closed
  record := h'.record.trans h.record
  isRecording := h'.isRecording.trans h.isRecording
  wiped hen := (h'.wiped (by rw [h.config, hen])).trans (h.wiped hen)

theorem frame_close (s : State) (span : ℕ) : Frame s (close s span) :=
  ⟨rfl, rfl, prefix_append _ _, rfl, rfl, fun _ => rfl⟩

theorem frame_flush (s : State) : Frame s (flush s) := by
  unfold flush exportFormatted
  split
  all_goals exact ⟨rfl, rfl, prefix_rfl, rfl, rfl, fun _ => rfl⟩

theorem frame_discard {s : State} (hoff : s.config.tracingEnabled = false) :
    Frame s (discard s) := by
  refine ⟨rfl, rfl, prefix_rfl, rfl, rfl, fun hen => ?_⟩
  rw [hoff] at hen
  cases hen

/-- The state in which `process` begins to finish spans. -/
def flushed (s : State) : State := if flushDue s then flush s else s

theorem frame_flushed (s : State) : Frame s (flushed s) := by
  unfold flushed
  split
  · exact frame_flush s
  · exact Frame.refl s

theorem accounted_flushed {s : State} (h : Accounted s) : Accounted (flushed s) := by
  unfold flushed
  split
  · exact accounted_flush h
  · exact h

/-- A flush is due when nothing is active, and leaves nothing but active spans. -/
theorem settled_flushed {s : State} (h : Accounted s) : Settled (flushed s) := by
  intro hw _ hnone
  unfold flushed at hw hnone ⊢
  by_cases hdue : flushDue s = true
  · rw [if_pos hdue] at hnone ⊢
    have hclosed : (flush s).isClosed = s.isClosed := by
      unfold flush exportFormatted
      split <;> rfl
    have hactive : (flush s).active = s.active := by
      have hstarted : (flush s).trace.started = s.active := rfl
      rw [State.active, hstarted, hclosed, State.active, filter_filter]
      simp only [Bool.and_self]
    rw [hactive] at hnone
    exact hnone
  · rw [if_neg hdue] at hw hnone
    exact absurd (h.flushDue hw hnone) hdue

/-- The three ways through `process`. -/
theorem processWith_induct {P : State → Prop} {finish : State → ℕ → State} {s : State}
    (hskip : s.trace.record = false → P s)
    (hdiscard : s.config.tracingEnabled = false → P (discard s))
    (hflushed : P (flushed s))
    (hfinish : ∀ t span, span ∈ s.trace.started → P t → P (finish t span)) :
    P (processWith finish s) := by
  unfold processWith
  by_cases hrecord : s.trace.record = true
  · rw [hrecord, Bool.not_true]
    by_cases hen : s.config.tracingEnabled = true
    · rw [hen, Bool.not_true]
      have hfold : P (s.trace.started.foldl finish (flushed s)) :=
        List.foldlRecOn s.trace.started finish hflushed fun t ht span hspan =>
          hfinish t span hspan ht
      by_cases hkill : s.killAll = true
      · rw [if_pos hkill]
        exact hfold
      · rw [if_neg hkill]
        exact hflushed
    · rw [Bool.not_eq_true] at hen
      rw [hen, Bool.not_false]
      exact hdiscard hen
  · rw [Bool.not_eq_true] at hrecord
    rw [hrecord, Bool.not_false]
    exact hskip hrecord

/-- What holds of `t` when `process` has made it of `s`. -/
structure Processed (s t : State) : Prop where
  accounted : Accounted t
  settled : Settled t
  frame : Frame s t

theorem processed_flushed {s : State} (h : Accounted s) : Processed s (flushed s) :=
  ⟨accounted_flushed h, settled_flushed h, frame_flushed s⟩

theorem processed_processWith {finish : State → ℕ → State} {s : State} (h : Accounted s)
    (hfinish : ∀ t span, span < s.created → Processed s t → Processed s (finish t span)) :
    Processed s (processWith finish s) := by
  apply processWith_induct
  · intro hrecord
    refine ⟨h, fun _ hrec => ?_, Frame.refl s⟩
    rw [hrecord] at hrec
    cases hrec
  · intro hoff
    exact ⟨accounted_discard h, fun hw => absurd hw (by simp [discard]), frame_discard hoff⟩
  · exact processed_flushed h
  · intro t span hspan ht
    exact hfinish t span (h.mem_iff.mpr (Or.inl hspan)) ht

theorem processed_finishWith {process : State → State} {s t : State} {span : ℕ}
    (hprocess : ∀ u, Accounted u → Processed u (process u)) (hspan : span < s.created)
    (ht : Processed s t) : Processed s (finishWith process t span) := by
  unfold finishWith
  by_cases hclosed : t.isClosed span = true
  · rw [if_pos hclosed]
    exact ht
  · rw [if_neg hclosed]
    rw [isClosed_eq_true] at hclosed
    have hcreated : span < t.created := by rwa [ht.frame.created]
    have hnext := hprocess _ (accounted_close ht.accounted hcreated hclosed)
    exact ⟨hnext.accounted, hnext.settled, (ht.frame.trans (frame_close t span)).trans hnext.frame⟩

/-- **`process` keeps the accounting**, to any depth, and leaves a settled trace. -/
theorem accounted_process (depth : ℕ) {s : State} (h : Accounted s) :
    Processed s (process depth s) := by
  induction depth generalizing s with
  | zero => exact processed_processWith h fun _ _ _ ht => ht
  | succ depth ih =>
    exact processed_processWith h fun t span hspan ht =>
      processed_finishWith (fun u hu => ih hu) hspan ht

/-! ## The recursion ends -/

/-- All spans are closed when there are as many closed ones. -/
theorem Accounted.closed_of_le {s : State} (h : Accounted s) (hle : s.created ≤ s.closed.length)
    {span : ℕ} (hspan : span < s.created) : span ∈ s.closed := by
  have hsub : s.closed.Subperm (List.range s.created) :=
    subperm_of_subset h.closed_nodup fun other hother =>
      mem_range.mpr (h.closed_lt other hother)
  have hperm := hsub.perm_of_length_le (by rwa [length_range])
  exact hperm.mem_iff.mpr (mem_range.mpr hspan)

/-- Two ways to finish a span that agree on the states in between give one `process`. -/
theorem processWith_congr {f g : State → ℕ → State} {s : State} {P : State → Prop}
    (hflushed : P (flushed s))
    (hstep : ∀ t span, span ∈ s.trace.started → P t → f t span = g t span ∧ P (g t span)) :
    processWith f s = processWith g s := by
  have hfold : ∀ (l : List ℕ) (t : State), (∀ span ∈ l, span ∈ s.trace.started) → P t →
      l.foldl f t = l.foldl g t := by
    intro l
    induction l with
    | nil => intro t _ _; rfl
    | cons span l ih =>
      intro t hl ht
      obtain ⟨heq, hnext⟩ := hstep t span (hl span mem_cons_self) ht
      rw [foldl_cons, heq]
      exact ih _ (forall_mem_cons.mp hl).2 hnext
  unfold processWith
  have h := hfold s.trace.started (flushed s) (fun _ hspan => hspan) hflushed
  unfold flushed at h
  simp only [h]

/-- Finishing a span depends on the depth no more than `process` does for one open span less. -/
theorem finishWith_congr {p q : State → State} {depth : ℕ} {t : State} {span : ℕ}
    (h : Accounted t) (hspan : span < t.created) (hdepth : t.created ≤ t.closed.length + depth + 1)
    (hpq : ∀ u, Accounted u → u.created ≤ u.closed.length + depth → p u = q u) :
    finishWith p t span = finishWith q t span := by
  unfold finishWith
  by_cases hclosed : t.isClosed span = true
  · rw [if_pos hclosed, if_pos hclosed]
  · rw [if_neg hclosed, if_neg hclosed]
    rw [isClosed_eq_true] at hclosed
    apply hpq _ (accounted_close h hspan hclosed)
    have hlen : (close t span).closed.length = t.closed.length + 1 := length_append
    have hcreated : (close t span).created = t.created := rfl
    omega

/-- One more level changes nothing when there is a level for every open span. -/
theorem process_succ {depth : ℕ} {s : State} (h : Accounted s)
    (hdepth : s.created ≤ s.closed.length + depth) : process (depth + 1) s = process depth s := by
  induction depth generalizing s with
  | zero =>
    refine processWith_congr (P := Processed s) (processed_flushed h) fun t span hspan ht =>
      ⟨?_, ht⟩
    have hcreated := ht.frame.created
    have hclosed := ht.frame.closed.length_le
    have hlt : span < t.created := by rw [hcreated]; exact h.mem_iff.mpr (Or.inl hspan)
    have hmem := ht.accounted.closed_of_le (by omega) hlt
    rw [finishWith, if_pos (isClosed_eq_true.mpr hmem)]
  | succ depth ih =>
    refine processWith_congr (P := Processed s) (processed_flushed h) fun t span hspan ht => ?_
    have hcreated := ht.frame.created
    have hclosed := ht.frame.closed.length_le
    have hlt : span < s.created := h.mem_iff.mpr (Or.inl hspan)
    refine ⟨?_, processed_finishWith (fun u hu => accounted_process depth hu) hlt ht⟩
    have hdepth' : t.created ≤ t.closed.length + depth + 1 := by omega
    exact finishWith_congr ht.accounted (by rwa [hcreated]) hdepth' fun u hu hle => ih hu hle

/-- **The depth of `process` does not matter** once it covers the open spans. -/
theorem process_of_le {depth depth' : ℕ} {s : State} (h : Accounted s)
    (hdepth : s.created ≤ s.closed.length + depth) (hle : depth ≤ depth') :
    process depth' s = process depth s := by
  induction depth', hle using Nat.le_induction with
  | base => rfl
  | succ n hn ih => rw [process_succ h (by omega), ih]

/-- **`finish` as the source has it**, with the calls of `finish` that its `process` makes. -/
theorem finish_eq {s : State} (h : Accounted s) {span : ℕ} (hspan : span < s.created) :
    finish s span = if s.isClosed span then s else processWith finish (close s span) := by
  have hprocess : ∀ {t}, Accounted t → process t.created t = processWith finish t := by
    intro t ht
    rw [← process_succ ht (by omega)]
    refine processWith_congr (P := Processed t) (processed_flushed ht) fun u other hother hu => ?_
    have hcreated := hu.frame.created
    have hlt : other < t.created := ht.mem_iff.mpr (Or.inl hother)
    refine ⟨?_, ?_⟩
    · rw [finish, hcreated]
    · exact processed_finishWith (fun v hv => accounted_process u.created hv) hlt hu
  rw [finish, finishWith]
  by_cases hclosed : s.isClosed span = true
  · rw [if_pos hclosed, if_pos hclosed]
  · rw [if_neg hclosed, if_neg hclosed]
    rw [isClosed_eq_true] at hclosed
    exact hprocess (accounted_close h hspan hclosed)

theorem processed_finish {s : State} (h : Accounted s) (hset : Settled s) {span : ℕ}
    (hspan : span < s.created) : Processed s (finish s span) :=
  processed_finishWith (fun _ hu => accounted_process s.created hu) hspan ⟨h, hset, Frame.refl s⟩

/-! ## Runs -/

/-- A span that was just started is active. -/
theorem settled_start {s : State} (h : Accounted s) : Settled (start s) := by
  intro _ _ hnone
  have hmem : s.created ∈ (start s).active := by
    rw [mem_active]
    refine ⟨mem_append_right _ (mem_singleton_self _), fun hclosed => ?_⟩
    exact lt_irrefl _ (h.closed_lt _ hclosed)
  rw [hnone] at hmem
  cases hmem

/-- One event keeps the accounting. -/
theorem accounted_step {s t : State} {event : Event} (h : Accounted s ∧ Settled s)
    (ht : step s event = some t) : Accounted t ∧ Settled t := by
  obtain ⟨h, hset⟩ := h
  obtain ⟨h1, h2, h3, h4, h5, h6, h7, h8⟩ := id h
  cases event with
  | start =>
    rw [← Option.some_inj.mp ht]
    exact ⟨accounted_start h, settled_start h⟩
  | finish span =>
    simp only [step, Option.ite_none_right_eq_some, Option.some_inj] at ht
    obtain ⟨hspan, rfl⟩ := ht
    have hp := processed_finish h hset hspan
    exact ⟨hp.accounted, hp.settled⟩
  | configure config | killAll =>
    rw [← Option.some_inj.mp ht]
    exact ⟨⟨h1, h2, h3, h4, h5, h6, h7, h8⟩, hset⟩
  | filter =>
    rw [← Option.some_inj.mp ht]
    exact ⟨⟨h1, h2, h3, h4, h5, h6, fun _ hrec => absurd hrec Bool.false_ne_true, h8⟩, hset⟩
  | skip =>
    rw [← Option.some_inj.mp ht]
    exact ⟨⟨h1, h2, h3, h4, h5, h6, h7, h8⟩,
      fun _ hrec => absurd hrec Bool.false_ne_true⟩

/-- The tracer is disabled by this event. -/
def Event.disables : Event → Bool
  | .configure config => !config.tracingEnabled
  | _ => false

/-- What each event can change of the three switches. -/
theorem switches_step {s t : State} {event : Event} (h : Accounted s ∧ Settled s)
    (ht : step s event = some t) :
    (event ≠ .filter → t.trace.isRecording = s.trace.isRecording) ∧
      (event ≠ .skip → t.trace.record = s.trace.record) ∧
      (event.disables = false → s.config.tracingEnabled = true →
        t.config.tracingEnabled = true ∧ t.wiped = s.wiped) := by
  cases event with
  | finish span =>
    simp only [step, Option.ite_none_right_eq_some, Option.some_inj] at ht
    obtain ⟨hspan, rfl⟩ := ht
    have hframe := (processed_finish h.1 h.2 hspan).frame
    exact ⟨fun _ => hframe.isRecording, fun _ => hframe.record,
      fun _ hen => ⟨by rw [hframe.config, hen], hframe.wiped hen⟩⟩
  | configure config =>
    rw [← Option.some_inj.mp ht]
    refine ⟨fun _ => rfl, fun _ => rfl, fun hdis _ => ⟨?_, rfl⟩⟩
    rwa [Event.disables, Bool.not_eq_false'] at hdis
  | start | killAll =>
    rw [← Option.some_inj.mp ht]
    exact ⟨fun _ => rfl, fun _ => rfl, fun _ hen => ⟨hen, rfl⟩⟩
  | filter =>
    rw [← Option.some_inj.mp ht]
    exact ⟨fun hne => absurd rfl hne, fun _ => rfl, fun _ hen => ⟨hen, rfl⟩⟩
  | skip =>
    rw [← Option.some_inj.mp ht]
    exact ⟨fun _ => rfl, fun hne => absurd rfl hne, fun _ hen => ⟨hen, rfl⟩⟩

section

variable {config : Config} {events : List Event} {s : State}

theorem settled_init (config : Config) : Settled (init config) := fun _ _ _ => rfl

theorem invariant_of_run (hrun : Run.exec step (init config) events = some s) :
    Accounted s ∧ Settled s :=
  Run.invariant (C := fun _ _ => True) (fun _ _ _ h _ ht => accounted_step h ht)
    ⟨accounted_init config, settled_init config⟩
    (Run.every_of_forall_mem (fun _ _ _ => trivial) _) hrun

/-- A property of the switches that every event of the run keeps. -/
theorem switch_of_run {C : Event → Prop} {P : State → Prop}
    (hstep : ∀ t u event, Accounted t ∧ Settled t → C event → P t → step t event = some u → P u)
    (hinit : P (init config)) (hC : ∀ event ∈ events, C event)
    (hrun : Run.exec step (init config) events = some s) : P s := by
  refine (Run.invariant (I := fun t => (Accounted t ∧ Settled t) ∧ P t) (C := fun _ => C) ?_
    ⟨⟨accounted_init config, settled_init config⟩, hinit⟩
    (Run.every_of_forall_mem (fun event hevent _ => hC event hevent) _) hrun).2
  intro t event u ht hevent hu
  exact ⟨accounted_step ht.1 hu, hstep t u event ht.1 hevent ht.2 hu⟩

theorem isRecording_of_run (hevents : ∀ event ∈ events, event ≠ .filter)
    (hrun : Run.exec step (init config) events = some s) : s.trace.isRecording = true :=
  switch_of_run (P := fun t => t.trace.isRecording = true)
    (fun _ _ _ h hne ht hu => ((switches_step h hu).1 hne).trans ht) rfl hevents hrun

theorem record_of_run (hevents : ∀ event ∈ events, event ≠ .skip)
    (hrun : Run.exec step (init config) events = some s) : s.trace.record = true :=
  switch_of_run (P := fun t => t.trace.record = true)
    (fun _ _ _ h hne ht hu => ((switches_step h hu).2.1 hne).trans ht) rfl hevents hrun

theorem wiped_of_run (hen : config.tracingEnabled = true)
    (hevents : ∀ event ∈ events, event.disables = false)
    (hrun : Run.exec step (init config) events = some s) : s.wiped = false :=
  (switch_of_run (P := fun t => t.config.tracingEnabled = true ∧ t.wiped = false)
    (fun _ _ _ h hdis ht hu => by
      have hswitch := (switches_step h hu).2.2 hdis ht.1
      exact ⟨hswitch.1, hswitch.2.trans ht.2⟩) ⟨hen, rfl⟩ hevents hrun).2

/-! ## What is delivered -/

/-- What the two arrays and the exporter hold, for a tracer that was never disabled, of a trace
that may be filtered. -/
structure Delivered (s : State) : Prop where
  /-- `started` is the active spans and those finished ones that no flush has taken. -/
  started_iff : ∀ span, span ∈ s.trace.started ↔ span < s.created ∧
      (span ∉ s.closed ∨ span ∈ s.closed ∧ span ∉ s.exported.flatten ∧ span ∉ s.dropped)
  /-- No span is exported twice. -/
  exported_nodup : s.exported.flatten.Nodup
  /-- No span is exported while it is active. -/
  exported_closed : ∀ span ∈ s.exported.flatten, span ∈ s.closed
  /-- What is dropped is finished, and is never exported. -/
  dropped_closed : ∀ span ∈ s.dropped, span ∈ s.closed ∧ span ∉ s.exported.flatten
  /-- Nothing is dropped from a trace that is recording. -/
  dropped_eq_nil : s.trace.isRecording = true → s.dropped = []
  /-- When nothing is active everything is delivered, exactly once. -/
  delivered : s.trace.record = true → (∀ span < s.created, span ∈ s.closed) →
    (s.exported.flatten ++ s.dropped).Perm (List.range s.created)

theorem delivered_of_accounted (h : Accounted s) (hset : Settled s) (hw : s.wiped = false) :
    Delivered s := by
  have hnodup := h.nodup
  rw [append_assoc, nodup_append'] at hnodup
  obtain ⟨-, hrest, hdisjoint⟩ := hnodup
  rw [nodup_append'] at hrest
  refine ⟨fun span => ?_, hrest.1, h.exported_closed, ?_, h.dropped_eq_nil hw, ?_⟩
  · constructor
    · intro hmem
      have hout : span ∉ s.exported.flatten ++ s.dropped := fun hspan => hdisjoint hmem hspan
      rw [mem_append, not_or] at hout
      refine ⟨h.mem_iff.mpr (Or.inl hmem), ?_⟩
      by_cases hclosed : span ∈ s.closed
      · exact Or.inr ⟨hclosed, hout⟩
      · exact Or.inl hclosed
    · rintro ⟨hspan, hopen | ⟨-, hexported, hdropped⟩⟩
      · exact h.mem_started hw hspan hopen
      · rcases h.mem_iff.mp hspan with hmem | hmem | hmem
        · exact hmem
        · exact absurd hmem hexported
        · exact absurd hmem hdropped
  · exact fun span hspan => ⟨h.dropped_closed hw span hspan, fun hmem => hrest.2.2 hmem hspan⟩
  · intro hrecord hall
    have hnone : s.active = [] := by
      rw [eq_nil_iff_forall_not_mem]
      intro span hspan
      obtain ⟨hstarted, hopen⟩ := mem_active.mp hspan
      exact hopen (hall span (h.mem_iff.mpr (Or.inl hstarted)))
    have hplaces := h.places
    rwa [hset hw hrecord hnone] at hplaces

/-- **Every run delivers.**  Whatever spans start and finish, and whatever `flushMinSpans` is at
the time, no span is exported twice or while active, even when the tracer is disabled in between.
A tracer that is never disabled keeps in `started` what is active or waits; it drops nothing unless
the trace is filtered, and once all spans of a recorded trace are finished it has exported all of
them. -/
theorem delivered_of_run (hrun : Run.exec step (init config) events = some s) :
    s.exported.flatten.Nodup ∧ (∀ span ∈ s.exported.flatten, span ∈ s.closed) ∧
      (config.tracingEnabled = true → (∀ event ∈ events, event.disables = false) → Delivered s) ∧
      ((∀ event ∈ events, event ≠ .filter) → s.trace.isRecording = true) ∧
      ((∀ event ∈ events, event ≠ .skip) → s.trace.record = true) := by
  obtain ⟨h, hset⟩ := invariant_of_run hrun
  refine ⟨?_, h.exported_closed, fun hen hevents => ?_, fun hevents => ?_, fun hevents => ?_⟩
  · have hnodup := h.nodup
    rw [nodup_append', nodup_append'] at hnodup
    exact hnodup.1.2.1
  · exact delivered_of_accounted h hset (wiped_of_run hen hevents hrun)
  · exact isRecording_of_run hevents hrun
  · exact record_of_run hevents hrun

end

/-- A child is finished while its parent is active, with a flush after every finished span, and
then the parent. -/
theorem delivered_of_run_child :
    ∃ s, Run.exec step (init ⟨some 1, true⟩) [.start, .start, .finish 1, .finish 0] = some s ∧
      s.exported = [[1], [0]] ∧ s.trace.started = [] ∧ Delivered s := by
  have hrun : Run.exec step (init ⟨some 1, true⟩) [.start, .start, .finish 1, .finish 0] = some _ :=
    rfl
  exact ⟨_, hrun, rfl, rfl, (delivered_of_run hrun).2.2.1 rfl (by decide)⟩

/-- `started` would be the active spans and the finished ones that are not exported. -/
def StartedAsClaimed (s : State) : Prop :=
  ∀ span, span ∈ s.trace.started ↔ span < s.created ∧ (span ∉ s.closed ∨ span ∉ s.exported.flatten)

/-- A filtered trace drops its finished spans: they are neither in `started` nor exported. -/
theorem not_startedAsClaimed :
    ¬ ∀ config events s, Run.exec step (init config) events = some s → StartedAsClaimed s := by
  intro h
  have hclaim := h ⟨none, true⟩ [.start, .filter, .finish 0] _ rfl 0
  have hspan := hclaim.mpr ⟨by decide, Or.inr (by decide)⟩
  exact absurd hspan (by decide)

end DdTrace.SpanProcessor
