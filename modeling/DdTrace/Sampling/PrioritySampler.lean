import DdTrace.Library.Run
import DdTrace.Sampling.Sampler

/-!
# The priority sampler

`priority_sampler.js`, with the tags of `opentracing/span.js` that call it.  The spans of a local
trace share the sampling decision and the tags of the trace.  A decision is made by `sample`, from
the tags of a span or automatically, as long as there is none, and by `setPriority` at any time.

The tag `_dd.p.dm` names the mechanism of a decision that keeps the trace.  A decision to drop
clears it, and a decision to keep writes it only where there is none.  So it names the first of the
keep decisions since the last drop decision, and what has arrived with a remote context stays until
a drop decision.

* `step_spec`: one operation, by the decision that it makes.
* `accounted_of_run`: the decision and the tag after a run, from the decisions made on the way.
* `decisionMaker_names`: **which decision the tag names, over every run.**
-/

namespace DdTrace

open Library List Option

/-- What `_getPriorityFromTags` sees of the value of a tag: whether it is `false` or `undefined`,
and what `Math.trunc` makes of it. -/
structure TagValue where
  isFalse : Bool := false
  isUndefined : Bool := false
  trunc : Option ℤ := none
  deriving DecidableEq

namespace PrioritySampler

def USER_REJECT : Integral := .ofInt (-1) (by decide)
def AUTO_REJECT : Integral := .zero
def AUTO_KEEP : Integral := .one
def USER_KEEP : Integral := .two

def SAMPLING_MECHANISM_DEFAULT : Integral := .zero
def SAMPLING_MECHANISM_AGENT : Integral := .one
def SAMPLING_MECHANISM_RULE : Integral := .ofInt 3 (by decide)
def SAMPLING_MECHANISM_MANUAL : Integral := .ofInt 4 (by decide)
def SAMPLING_MECHANISM_REMOTE_USER : Integral := .ofInt 11 (by decide)
def SAMPLING_MECHANISM_REMOTE_DYNAMIC : Integral := .ofInt 12 (by decide)

def MANUAL_KEEP : Str := lit "manual.keep"
def MANUAL_DROP : Str := lit "manual.drop"
def SAMPLING_PRIORITY : Str := lit "sampling.priority"
def DECISION_MAKER_KEY : Str := lit "_dd.p.dm"
def SAMPLING_KNUTH_RATE : Str := lit "_dd.p.ksr"

/-! ## The shared state -/

/-- What the spans of a trace share.  A tag that has been set to `undefined` keeps its place. -/
structure SharedTrace where
  ruleDecision : Option Binary64 := none
  limitDecision : Option Binary64 := none
  agentDecision : Option Binary64 := none
  tags : OrderedMap Str (Option Str) := .empty

variable {ι : Type*}

/-- A local trace.  `started` are its spans, the first of them the root. -/
structure LocalTrace (ι : Type*) where
  sampling : Sampling := {}
  trace : SharedTrace := {}
  started : List ι := []
  tags : ι → OrderedMap Str TagValue := fun _ => .empty

/-- A rule, with the text of `formatKnuthRate` for its rate. -/
structure Rule where
  sampleRate : Binary64
  knuthRate : Str
  provenance : Option Str := none

/-- What an automatic decision finds: the first rule that matches the root, what it and the rate
limiter say, and the sampler of the agent for the service. -/
structure Circumstances where
  rule : Option Rule := none
  ruleSamples : Bool := false
  isAllowed : Bool := false
  effectiveRate : Binary64
  isDefaultSampler : Bool := true
  agentRate : Binary64
  agentKnuthRate : Str := []
  agentSamples : Bool := false

/-! ## Decisions -/

def validate (samplingPriority : Integral) : Bool :=
  samplingPriority.val == -1 || samplingPriority.val == 2 || samplingPriority.val == 0 ||
    samplingPriority.val == 1

/-- `_getPriorityFromTags`. -/
def getPriorityFromTags (tags : OrderedMap Str TagValue) : Option Integral :=
  if ((tags.get? MANUAL_KEEP).filter fun v => !v.isFalse).isSome then some USER_KEEP
  else if ((tags.get? MANUAL_DROP).filter fun v => !v.isFalse).isSome then some USER_REJECT
  else
    match (tags.get? SAMPLING_PRIORITY).filter (fun v => !v.isUndefined) with
    | none => none
    | some rawPriority =>
      if rawPriority.trunc = some 1 ∨ rawPriority.trunc = some 2 then some USER_KEEP
      else if rawPriority.trunc = some 0 ∨ rawPriority.trunc = some (-1) then some USER_REJECT
      else none

/-- The mechanism of a rule. -/
def ruleMechanism (rule : Rule) : Integral :=
  if rule.provenance = some (lit "customer") then SAMPLING_MECHANISM_REMOTE_USER
  else if rule.provenance = some (lit "dynamic") then SAMPLING_MECHANISM_REMOTE_DYNAMIC
  else SAMPLING_MECHANISM_RULE

/-- `#getPriorityByRule`.  The rate limiter is asked only when the rule samples. -/
def getPriorityByRule (c : Circumstances) (rule : Rule) (t : LocalTrace ι) :
    LocalTrace ι × Integral :=
  ({ t with
      sampling := { t.sampling with mechanism := some (ruleMechanism rule) }
      trace := { t.trace with
        ruleDecision := some rule.sampleRate
        limitDecision := if c.ruleSamples then some c.effectiveRate else t.trace.limitDecision
        tags := t.trace.tags.set SAMPLING_KNUTH_RATE (some rule.knuthRate) } },
    if c.ruleSamples && c.isAllowed then USER_KEEP else USER_REJECT)

/-- `#getPriorityByAgent`. -/
def getPriorityByAgent (c : Circumstances) (t : LocalTrace ι) : LocalTrace ι × Integral :=
  ({ t with
      sampling := { t.sampling with mechanism := some (if c.isDefaultSampler then
        SAMPLING_MECHANISM_DEFAULT else SAMPLING_MECHANISM_AGENT) }
      trace := { t.trace with
        agentDecision := some c.agentRate
        tags := if c.isDefaultSampler then t.trace.tags
          else t.trace.tags.set SAMPLING_KNUTH_RATE (some c.agentKnuthRate) } },
    if c.agentSamples then AUTO_KEEP else AUTO_REJECT)

/-- `_getPriorityFromAuto`. -/
def getPriorityFromAuto (c : Circumstances) (t : LocalTrace ι) : LocalTrace ι × Integral :=
  match c.rule with
  | some rule => getPriorityByRule c rule t
  | none => getPriorityByAgent c t

/-- What a decision to keep says. -/
def isKeep (s : Sampling) : Bool :=
  match s.priority with
  | some priority => 1 ≤ priority.val
  | none => false

/-- `-${mechanism}`. -/
def makerOf (s : Sampling) : Str :=
  unit '-' :: ((s.mechanism.map Integral.toString).getD (lit "undefined"))

/-- The decision maker that a reader of the tags finds. -/
def decisionMaker (t : LocalTrace ι) : Option Str := (t.trace.tags.get? DECISION_MAKER_KEY).join

/-- `#addDecisionMaker`.  The tag is cleared by setting it to `undefined`. -/
def addDecisionMaker (t : LocalTrace ι) : LocalTrace ι :=
  let set := fun v : Option Str =>
    { t with trace := { t.trace with tags := t.trace.tags.set DECISION_MAKER_KEY v } }
  if isKeep t.sampling then
    if ((decisionMaker t).filter (· ≠ [])).isSome then t else set (some (makerOf t.sampling))
  else if (decisionMaker t).isSome then set none
  else t

/-- `sample`.  The circumstances are there when it may decide automatically. -/
def sample (t : LocalTrace ι) (span : ι) (auto : Option Circumstances) : LocalTrace ι :=
  if t.sampling.priority.isSome then t
  else if t.started = [] then t
  else
    match (getPriorityFromTags (t.tags span)).filter validate, auto with
    | some tag, _ =>
      addDecisionMaker { t with sampling := ⟨some tag, some SAMPLING_MECHANISM_MANUAL⟩ }
    | none, some c =>
      let (t, priority) := getPriorityFromAuto c t
      addDecisionMaker { t with sampling := { t.sampling with priority := some priority } }
    | none, none => t

/-- `setPriority`. -/
def setPriority (t : LocalTrace ι) (samplingPriority : Integral) (mechanism : Option Integral) :
    LocalTrace ι :=
  if validate samplingPriority = false then t
  else if t.started = [] then t
  else
    addDecisionMaker { t with
      sampling := ⟨some samplingPriority, some (mechanism.getD SAMPLING_MECHANISM_MANUAL)⟩ }

/-! ## The operations on the spans -/

def isSamplingPriorityTag (key : Str) : Bool :=
  key == MANUAL_KEEP || key == MANUAL_DROP || key == SAMPLING_PRIORITY

variable [DecidableEq ι]

/-- The tags of a span, with one more. -/
def putTag (t : LocalTrace ι) (span : ι) (key : Str) (value : TagValue) : LocalTrace ι :=
  { t with tags := Function.update t.tags span ((t.tags span).set key value) }

/-- `setTag` of a span. -/
def setTag (t : LocalTrace ι) (span : ι) (key : Str) (value : TagValue) : LocalTrace ι :=
  let t := putTag t span key value
  if isSamplingPriorityTag key && t.sampling.priority.isNone then sample t span none else t

/-- `addTags` of a span. -/
def addTags (t : LocalTrace ι) (span : ι) (keyValueMap : OrderedMap Str TagValue) : LocalTrace ι :=
  let t := keyValueMap.entries.foldl (fun t e => putTag t span e.1 e.2) t
  if keyValueMap.keys.any isSamplingPriorityTag && t.sampling.priority.isNone then
    sample t span none
  else t

/-- A span joins the trace, with the tags that it starts with. -/
def start (t : LocalTrace ι) (span : ι) (tags : OrderedMap Str TagValue) : LocalTrace ι :=
  { t with started := t.started ++ [span], tags := Function.update t.tags span tags }

inductive Op (ι : Type*) where
  | start (span : ι) (tags : OrderedMap Str TagValue)
  | sample (span : ι) (auto : Option Circumstances)
  | setPriority (samplingPriority : Integral) (mechanism : Option Integral)
  | setTag (span : ι) (key : Str) (value : TagValue)
  | addTags (span : ι) (keyValueMap : OrderedMap Str TagValue)

def step (t : LocalTrace ι) : Op ι → LocalTrace ι
  | .start span tags => start t span tags
  | .sample span auto => sample t span auto
  | .setPriority priority mechanism => setPriority t priority mechanism
  | .setTag span key value => setTag t span key value
  | .addTags span keyValueMap => addTags t span keyValueMap

/-! ## The decision that an operation makes -/

/-- The decision of the rules or the agent. -/
def autoDecision (c : Circumstances) : Sampling :=
  match c.rule with
  | some rule =>
    ⟨some (if c.ruleSamples && c.isAllowed then USER_KEEP else USER_REJECT),
      some (ruleMechanism rule)⟩
  | none =>
    ⟨some (if c.agentSamples then AUTO_KEEP else AUTO_REJECT),
      some (if c.isDefaultSampler then SAMPLING_MECHANISM_DEFAULT else SAMPLING_MECHANISM_AGENT)⟩

omit [DecidableEq ι] in
/-- The decision that `sample` makes: none when there is one, or without a root. -/
def sampleDecision (t : LocalTrace ι) (span : ι) (auto : Option Circumstances) : Option Sampling :=
  if t.sampling.priority.isSome ∨ t.started = [] then none
  else
    match getPriorityFromTags (t.tags span) with
    | some tag => some ⟨some tag, some SAMPLING_MECHANISM_MANUAL⟩
    | none => auto.map autoDecision

def decision (t : LocalTrace ι) : Op ι → Option Sampling
  | .start _ _ => none
  | .sample span auto => sampleDecision t span auto
  | .setPriority priority mechanism =>
    if validate priority = false ∨ t.started = [] then none
    else some ⟨some priority, some (mechanism.getD SAMPLING_MECHANISM_MANUAL)⟩
  | .setTag span key value =>
    if isSamplingPriorityTag key then sampleDecision (putTag t span key value) span none else none
  | .addTags span keyValueMap =>
    if keyValueMap.keys.any isSamplingPriorityTag then
      sampleDecision (keyValueMap.entries.foldl (fun t e => putTag t span e.1 e.2) t) span none
    else none

/-- The tag after a decision. -/
def nextMaker (maker : Option Str) (d : Sampling) : Option Str :=
  if isKeep d then
    if (maker.filter (· ≠ [])).isSome then maker else some (makerOf d)
  else none

section Shared

omit [DecidableEq ι]

theorem sampling_addDecisionMaker (t : LocalTrace ι) :
    (addDecisionMaker t).sampling = t.sampling := by
  unfold addDecisionMaker
  split_ifs <;> rfl

theorem decisionMaker_addDecisionMaker (t : LocalTrace ι) :
    decisionMaker (addDecisionMaker t) = nextMaker (decisionMaker t) t.sampling := by
  have hset : ∀ v, decisionMaker { t with trace := { t.trace with
      tags := t.trace.tags.set DECISION_MAKER_KEY v } } = v := fun v =>
    (congrArg Option.join (OrderedMap.get?_set_self t.trace.tags DECISION_MAKER_KEY v)).trans rfl
  unfold addDecisionMaker nextMaker
  by_cases hkeep : isKeep t.sampling = true
  · split_ifs
    · rfl
    · exact hset _
  · split_ifs with hmaker
    · exact hset none
    · rwa [not_isSome_iff_eq_none] at hmaker

/-- The tags give a valid priority or none. -/
theorem filter_getPriorityFromTags (tags : OrderedMap Str TagValue) :
    (getPriorityFromTags tags).filter validate = getPriorityFromTags tags := by
  have hkeep : validate USER_KEEP = true := by decide
  have hreject : validate USER_REJECT = true := by decide
  unfold getPriorityFromTags
  split_ifs
  · exact filter_some_pos hkeep
  · exact filter_some_pos hreject
  · split
    · rfl
    · split_ifs
      · exact filter_some_pos hkeep
      · exact filter_some_pos hreject
      · rfl

/-- The automatic decision leaves the decision maker alone. -/
theorem getPriorityFromAuto_spec (c : Circumstances) (t : LocalTrace ι) :
    (⟨some (getPriorityFromAuto c t).2, (getPriorityFromAuto c t).1.sampling.mechanism⟩ : Sampling) =
        autoDecision c ∧
      decisionMaker (getPriorityFromAuto c t).1 = decisionMaker t := by
  have hne : DECISION_MAKER_KEY ≠ SAMPLING_KNUTH_RATE := by decide
  have hset : ∀ v, ((t.trace.tags.set SAMPLING_KNUTH_RATE v).get? DECISION_MAKER_KEY).join =
      decisionMaker t := fun v => congrArg Option.join (OrderedMap.get?_set_of_ne _ hne v)
  unfold getPriorityFromAuto autoDecision
  rcases c.rule with _ | rule
  · refine ⟨rfl, ?_⟩
    rw [getPriorityByAgent]
    dsimp only
    split_ifs
    · rfl
    · exact hset _
  · exact ⟨rfl, hset _⟩

/-- What `sample` does, by the decision that it makes. -/
theorem sample_spec (t : LocalTrace ι) (span : ι) (auto : Option Circumstances) :
    (sample t span auto).sampling = (sampleDecision t span auto).getD t.sampling ∧
      decisionMaker (sample t span auto) =
        ((sampleDecision t span auto).map (nextMaker (decisionMaker t))).getD
          (decisionMaker t) := by
  unfold sample sampleDecision
  rw [filter_getPriorityFromTags]
  by_cases hpriority : t.sampling.priority.isSome = true
  · rw [if_pos hpriority, if_pos (.inl hpriority)]
    exact ⟨rfl, rfl⟩
  by_cases hroot : t.started = []
  · rw [if_neg hpriority, if_pos hroot, if_pos (.inr hroot)]
    exact ⟨rfl, rfl⟩
  rw [if_neg hpriority, if_neg hroot, if_neg (not_or.mpr ⟨hpriority, hroot⟩)]
  rcases getPriorityFromTags (t.tags span) with _ | tag
  · rcases auto with _ | c
    · exact ⟨rfl, rfl⟩
    · obtain ⟨hdecision, hmaker⟩ := getPriorityFromAuto_spec c t
      dsimp only [map_some, getD_some]
      rw [sampling_addDecisionMaker, decisionMaker_addDecisionMaker, ← hdecision]
      exact ⟨rfl, congrArg (fun m => nextMaker m _) hmaker⟩
  · rw [sampling_addDecisionMaker, decisionMaker_addDecisionMaker]
    exact ⟨rfl, rfl⟩

end Shared

theorem foldl_putTag (span : ι) (l : List (Str × TagValue)) (t : LocalTrace ι) :
    (l.foldl (fun t e => putTag t span e.1 e.2) t).sampling = t.sampling ∧
      (l.foldl (fun t e => putTag t span e.1 e.2) t).trace = t.trace := by
  induction l generalizing t with
  | nil => exact ⟨rfl, rfl⟩
  | cons e l ih => exact ih (putTag t span e.1 e.2)

/-- **What an operation does, by the decision that it makes.** -/
theorem step_spec (t : LocalTrace ι) (op : Op ι) :
    (step t op).sampling = (decision t op).getD t.sampling ∧ decisionMaker (step t op) =
        ((decision t op).map (nextMaker (decisionMaker t))).getD (decisionMaker t) := by
  have htag : ∀ (t' : LocalTrace ι) (span : ι) (b : Bool), t'.sampling = t.sampling →
      t'.trace = t.trace →
      (if b && t'.sampling.priority.isNone then sample t' span none else t').sampling =
          (if b then sampleDecision t' span none else none).getD t.sampling ∧
        decisionMaker (if b && t'.sampling.priority.isNone then sample t' span none else t') =
          ((if b then sampleDecision t' span none else none).map
            (nextMaker (decisionMaker t))).getD (decisionMaker t) := by
    intro t' span b hsampling htrace
    have hmaker : decisionMaker t' = decisionMaker t := by rw [decisionMaker, htrace]; rfl
    obtain ⟨h1, h2⟩ := sample_spec t' span none
    cases b
    · exact ⟨hsampling, hmaker⟩
    · rw [Bool.true_and, if_pos rfl]
      by_cases hnone : t'.sampling.priority.isNone = true
      · rw [if_pos hnone, h1, h2, hmaker, hsampling]
        exact ⟨rfl, rfl⟩
      · have hsome : t'.sampling.priority.isSome = true := by
          rwa [Bool.not_eq_true, isNone_eq_false_iff] at hnone
        rw [if_neg hnone, sampleDecision, if_pos (.inl hsome)]
        exact ⟨hsampling, hmaker⟩
  cases op with
  | start span tags => exact ⟨rfl, rfl⟩
  | sample span auto => exact sample_spec t span auto
  | setPriority priority mechanism =>
    rw [step, decision, setPriority]
    by_cases hvalid : validate priority = false
    · rw [if_pos hvalid, if_pos (.inl hvalid)]
      exact ⟨rfl, rfl⟩
    by_cases hroot : t.started = []
    · rw [if_neg hvalid, if_pos hroot, if_pos (.inr hroot)]
      exact ⟨rfl, rfl⟩
    rw [if_neg hvalid, if_neg hroot, if_neg (not_or.mpr ⟨hvalid, hroot⟩),
      sampling_addDecisionMaker, decisionMaker_addDecisionMaker]
    exact ⟨rfl, rfl⟩
  | setTag span key value => exact htag (putTag t span key value) span _ rfl rfl
  | addTags span keyValueMap =>
    obtain ⟨hsampling, htrace⟩ := foldl_putTag span keyValueMap.entries t
    exact htag _ span _ hsampling htrace

/-! ## Runs -/

/-- A trace and the decisions that have been made on the way. -/
structure History (ι : Type*) where
  current : LocalTrace ι
  decisions : List Sampling := []

/-- One operation. -/
def next (h : History ι) (op : Op ι) : Option (History ι) :=
  some ⟨step h.current op, h.decisions ++ (decision h.current op).toList⟩

/-- The decision in force is the last one, and the tag is what the decisions make of the one that
was there. -/
structure Accounted (t : LocalTrace ι) (h : History ι) : Prop where
  sampling : h.current.sampling = (h.decisions.getLast?).getD t.sampling
  maker : decisionMaker h.current = h.decisions.foldl nextMaker (decisionMaker t)

variable {t : LocalTrace ι}

theorem accounted_next {h h' : History ι} {op : Op ι} (hi : Accounted t h)
    (hn : next h op = some h') : Accounted t h' := by
  obtain ⟨hsampling, hmaker⟩ := step_spec h.current op
  rw [next, some_inj] at hn
  subst hn
  cases hd : decision h.current op with
  | none =>
    rw [hd] at hsampling hmaker
    rw [toList_none, append_nil]
    exact ⟨hsampling.trans hi.sampling, hmaker.trans hi.maker⟩
  | some d =>
    rw [hd] at hsampling hmaker
    refine ⟨?_, ?_⟩
    · rw [toList_some, getLast?_concat]
      exact hsampling
    · rw [toList_some, foldl_concat, ← hi.maker]
      exact hmaker

/-- Every run accounts for the decision and the tag. -/
theorem accounted_of_run {h : History ι} {ops : List (Op ι)}
    (hr : Run.exec next ⟨t, []⟩ ops = some h) : Accounted t h :=
  Run.invariant (C := fun _ _ => True) (fun _ _ _ hi _ hn => accounted_next hi hn)
    ⟨rfl, rfl⟩ (Run.every_of_forall_mem (fun _ _ _ => trivial) _) hr

/-! ## Which decision the tag names -/

theorem makerOf_ne_nil (d : Sampling) : makerOf d ≠ [] := cons_ne_nil _ _

theorem isSome_filter {v : Str} (h : v ≠ []) : ((some v).filter (· ≠ [])).isSome = true := by
  rw [filter_some_pos (by simpa using h)]
  rfl

/-- Keep decisions leave a tag that is there. -/
theorem foldl_nextMaker_of_keep {l : List Sampling} (hl : ∀ d ∈ l, isKeep d = true) {v : Str}
    (hv : v ≠ []) : l.foldl nextMaker (some v) = some v := by
  induction l with
  | nil => rfl
  | cons d l ih =>
    have hd : nextMaker (some v) d = some v := by
      rw [nextMaker, if_pos (hl d mem_cons_self), if_pos (isSome_filter hv)]
    rw [foldl_cons, hd]
    exact ih (forall_mem_cons.mp hl).2

theorem nextMaker_of_drop {d : Sampling} (h : isKeep d = false) (maker : Option Str) :
    nextMaker maker d = none := by
  rw [nextMaker, h, if_neg (by simp)]

/-- The first keep decision of a series writes the tag, where there is none. -/
theorem foldl_nextMaker_series {maker : Option Str} (hm : maker.filter (· ≠ []) = none)
    {d : Sampling} {l : List Sampling} (h : ∀ x ∈ d :: l, isKeep x = true) :
    (d :: l).foldl nextMaker maker = some (makerOf d) := by
  have hd : nextMaker maker d = some (makerOf d) := by
    rw [nextMaker, if_pos (h d mem_cons_self), hm, if_neg (by simp)]
  rw [foldl_cons, hd]
  exact foldl_nextMaker_of_keep (forall_mem_cons.mp h).2 (makerOf_ne_nil d)

/-- What a tag of the decision maker says, after decisions that started from a tag. -/
structure Names (arrived : Option Str) (decisions : List Sampling) (maker : Option Str) :
    Prop where
  /-- Without a decision it is what has arrived. -/
  untouched : decisions = [] → maker = arrived
  /-- After a decision it is there exactly when the last one keeps the trace. -/
  present : ∀ l d, decisions = l ++ [d] → (maker.isSome = true ↔ isKeep d = true)
  /-- What has arrived stays as long as every decision keeps the trace. -/
  stays : ∀ v, arrived = some v → v ≠ [] → (∀ d ∈ decisions, isKeep d = true) → maker = arrived
  /-- Otherwise it names the first decision of the series of keep decisions at the end. -/
  first : ∀ l d series, decisions = l ++ d :: series → (∀ x ∈ d :: series, isKeep x = true) →
    (l = [] ∧ arrived.filter (· ≠ []) = none ∨ ∃ l' x, l = l' ++ [x] ∧ isKeep x = false) →
    maker = some (makerOf d)

theorem isSome_nextMaker (maker : Option Str) (d : Sampling) :
    (nextMaker maker d).isSome = isKeep d := by
  unfold nextMaker
  by_cases hkeep : isKeep d = true
  · rw [if_pos hkeep, hkeep]
    split_ifs with h
    · rcases maker with _ | v
      · cases h
      · rfl
    · rfl
  · rw [Bool.not_eq_true] at hkeep
    rw [hkeep]
    rfl

theorem names_foldl (arrived : Option Str) (decisions : List Sampling) :
    Names arrived decisions (decisions.foldl nextMaker arrived) := by
  refine ⟨?_, ?_, ?_, ?_⟩
  · rintro rfl
    rfl
  · rintro l d rfl
    rw [foldl_concat, isSome_nextMaker]
  · rintro v rfl hv hall
    exact foldl_nextMaker_of_keep hall hv
  · rintro l d series rfl hall hstart
    rw [foldl_append]
    rcases hstart with ⟨rfl, harrived⟩ | ⟨l', x, rfl, hx⟩
    · exact foldl_nextMaker_series harrived hall
    · rw [foldl_concat, nextMaker_of_drop hx]
      exact foldl_nextMaker_series rfl hall

/-- `setPriority` aside, no operation makes a decision where there is one. -/
theorem decision_eq_none (h : t.sampling.priority.isSome = true) {op : Op ι}
    (hop : ∀ p m, op ≠ .setPriority p m) : decision t op = none := by
  have hsample : ∀ (t' : LocalTrace ι) (span : ι) (auto : Option Circumstances),
      t'.sampling = t.sampling → sampleDecision t' span auto = none := by
    intro t' span auto hs
    rw [sampleDecision, if_pos (.inl (by rw [hs]; exact h))]
  cases op with
  | start span tags => rfl
  | sample span auto => exact hsample t span auto rfl
  | setPriority priority mechanism => exact absurd rfl (hop priority mechanism)
  | setTag span key value =>
    rw [decision, hsample (putTag t span key value) span none rfl, ite_self]
  | addTags span keyValueMap =>
    rw [decision, hsample _ span none (foldl_putTag span keyValueMap.entries t).1, ite_self]

/-- **Over every run, the priority changes only through `setPriority` once it is set, and the tag
is there exactly when the decision in force keeps the trace.  It names the first of the keep
decisions since the last drop decision; what has arrived with the trace stays until one.** -/
theorem decisionMaker_names {t : LocalTrace ι} {h : History ι} {ops : List (Op ι)}
    (hr : Run.exec next ⟨t, []⟩ ops = some h) :
    (∀ op, h.current.sampling.priority.isSome = true → (∀ p m, op ≠ .setPriority p m) →
      (step h.current op).sampling = h.current.sampling) ∧
    h.current.sampling = (h.decisions.getLast?).getD t.sampling ∧
    Names (decisionMaker t) h.decisions (decisionMaker h.current) ∧
    -- a trace that begins here
    (t.sampling.priority = none → decisionMaker t = none →
      ((decisionMaker h.current).isSome = true ↔ isKeep h.current.sampling = true)) := by
  obtain ⟨hsampling, hmaker⟩ := accounted_of_run hr
  have hnames : Names (decisionMaker t) h.decisions (decisionMaker h.current) := by
    rw [hmaker]
    exact names_foldl _ _
  refine ⟨fun op hset hop => ?_, hsampling, hnames, fun hpriority harrived => ?_⟩
  · rw [(step_spec h.current op).1, decision_eq_none hset hop]
    rfl
  · rcases eq_nil_or_concat h.decisions with hnil | ⟨l, d, hl⟩
    · rw [hnames.untouched hnil, harrived, hsampling, hnil, getLast?_nil, getD_none,
        isKeep, hpriority]
      simp
    · rw [concat_eq_append] at hl
      rw [hnames.present l d hl, hsampling, hl, getLast?_concat, getD_some]

/-- Circumstances in which the default sampler keeps a trace. -/
def keepByDefault : Circumstances where
  effectiveRate := Sampler.oneRate
  agentRate := Sampler.oneRate
  agentSamples := true

/-- An automatic decision to keep, and a product that keeps the trace after it. -/
def keptTwice : List (Op Unit) :=
  [.start () .empty, .sample () (some keepByDefault),
    .setPriority USER_KEEP (some (.ofInt 5 (by decide)))]

/-- **The tag does not name the decision in force**: the product has kept the trace, and the tag
still names the default sampler. -/
theorem not_names_current : ¬ ∀ (t : LocalTrace Unit) (ops : List (Op Unit)) (h : History Unit),
      Run.exec next ⟨t, []⟩ ops = some h → t.sampling.priority = none → decisionMaker t = none →
      isKeep h.current.sampling = true →
      decisionMaker h.current = some (makerOf h.current.sampling) := by
  intro hall
  have hnames := hall {} keptTwice _ rfl rfl rfl (by decide +kernel)
  revert hnames
  decide +kernel

theorem decisionMaker_names_keptTwice : ∃ h : History Unit,
    (∀ op, h.current.sampling.priority.isSome = true → (∀ p m, op ≠ .setPriority p m) →
      (step h.current op).sampling = h.current.sampling) ∧
    h.current.sampling = (h.decisions.getLast?).getD {} ∧
    Names none h.decisions (decisionMaker h.current) ∧
    ((decisionMaker h.current).isSome = true ↔ isKeep h.current.sampling = true) := by
  have hr : Run.exec next ⟨({} : LocalTrace Unit), []⟩ keptTwice = some _ := rfl
  obtain ⟨h1, h2, h3, h4⟩ := decisionMaker_names hr
  exact ⟨_, h1, h2, h3, h4 rfl rfl⟩

end PrioritySampler
end DdTrace
