import DdTrace.Library.Substring
import DdTrace.Library.Unicode
import DdTrace.Propagation.DatadogRoundTrip

/-!
# The tags that LLM Observability adds to a request

`handleLLMObsInjection` of `llmobs/index.js` runs after the propagator has written its headers, and
appends the parent, the app, the session, the sampling decision and the trace of the active LLMObs
span to `x-datadog-tags`, and last its agent.  The header is a list of `key=value` between commas,
of at most `DD_TRACE_X_DATADOG_TAGS_MAX_LENGTH` code units.  The extractor drops a longer one, and
one with an entry that fails its patterns.  Only the agent is checked against both.

* `strip_join`, `append_join`: what the two helpers do to a header of entries.
* `datadogTags_handle`: the header, when the appended values have no comma.
* `get?_readTags`: what the extractor reads of a list of entries.
* `carries_iff_wireable`: **the header fits and is accepted, keeps the tags it had and carries the
  values of the span exactly when these are tag values and fit, beside entries that are accepted,
  and no name of an agent arrived when the span has none**.
-/

namespace DdTrace.Llmobs

open Library TextMap List Option OrderedMap Str

/-! ## The code -/

def PROPAGATED_PARENT_ID_KEY : Str := lit "_dd.p.llmobs_parent_id"

def PROPAGATED_ML_APP_KEY : Str := lit "_dd.p.llmobs_ml_app"

def PROPAGATED_SESSION_ID_KEY : Str := lit "_dd.p.llmobs_sid"

def PROPAGATED_SAMPLE_RATE_KEY : Str := lit "_dd.p.llmobs_sr"

def PROPAGATED_SAMPLING_DECISION_KEY : Str := lit "_dd.p.llmobs_sd"

def PROPAGATED_TRACE_ID_KEY : Str := lit "_dd.p.llmobs_trace_id"

def PROPAGATED_PARENT_AGENT_ID_KEY : Str := lit "_dd.p.llmobs_pagent_span_id"

def PROPAGATED_PARENT_AGENT_NAME_KEY : Str := lit "_dd.p.llmobs_pagent_name"

/-- A key of the tags of a trace that is not propagated. -/
def SESSION_ID_TRACE_DEFAULT_KEY : Str := lit "_ml_obs.trace_session_id"

/-- What the registry has of an LLMObs span. -/
structure SpanTags where
  spanKind : Str
  name : Option Str := none
  mlApp : Option Str := none
  sessionId : Option Str := none
  sampleRate : Option Str := none
  samplingDecision : Option Str := none
  traceId : Option Str := none
  parentAgentName : Option Str := none
  parentAgentSpanId : Option Str := none

/-- The active span: its id and name, the tags of its trace and what the registry has of it. -/
structure ActiveSpan where
  spanId : Identifier
  name : Str
  traceTags : OrderedMap Str Str := .empty
  tags : Option SpanTags := none

structure InjectionConfig extends Config where
  mlApp : Option Str := none

/-- A string that is not empty. -/
def truthyText (s : Option Str) : Option Str := s.filter (· ≠ [])

/-- `HEX_TRACE_ID_REGEX` is 32 digits in either case. -/
def llmObsTraceIdToWire (traceId : Str) : Option Str :=
  if traceId = [] then none
  else if isHexOfLength 32 traceId = false then some traceId
  else some (Str.natString 10 (Str.readDigits 16 0 traceId))

def agentNameWireSafe (name : Str) : Bool :=
  Unicode.byteLength name ≤ 256 && name.all fun code => inRange 0x20 0x7E code && code != unit ','

/-- A name and a span id, either of which can be missing. -/
structure AgentAttribution where
  name : Option Str
  spanId : Option Str

def resolveAgentAttribution (span : ActiveSpan) : AgentAttribution :=
  match span.tags with
  | none => ⟨none, none⟩
  | some tags =>
    if tags.spanKind = lit "agent" then
      ⟨(truthyText tags.name).or (some span.name), some (span.spanId.toNumberString 10)⟩
    else ⟨tags.parentAgentName, tags.parentAgentSpanId⟩

def stripTagsetEntry (tags key : Str) : Str :=
  if (indexOf key tags).isNone then tags
  else Str.join (unit ',')
    ((Str.split (unit ',') tags).filter fun entry => !(key ++ [unit '=']).isPrefixOf entry)

/-- `${tags}${tags ? ',' : ''}${key}=${value}` -/
def appendTag (tags : Str) (e : Str × Str) : Str :=
  tags ++ (if tags = [] then [] else [unit ',']) ++ tagPair e

def appendOptionalPropagatedTag (tags key : Str) (value : Option Str) (safeguard : Str → Bool)
    (maxTagSetLength : ℕ) : Str :=
  match truthyText value with
  | none => tags
  | some value =>
    if safeguard value = false then tags
    else if maxTagSetLength < (appendTag tags (key, value)).length then tags
    else appendTag tags (key, value)

/-- What is propagated of the active span, apart from its agent. -/
structure Propagated where
  parentId : Option Str
  mlApp : Option Str
  sessionId : Option Str
  sampleRate : Option Str
  samplingDecision : Option Str
  traceId : Option Str

def propagated (config : InjectionConfig) (parent : Option ActiveSpan) : Propagated where
  parentId := parent.map fun span => span.spanId.toNumberString 10
  mlApp :=
    (truthyText (parent.bind fun span => span.tags.bind SpanTags.mlApp)).or
      ((truthyText (parent.bind fun span => span.traceTags.get? PROPAGATED_ML_APP_KEY)).or
        (truthyText config.mlApp))
  sessionId := truthyText ((parent.bind fun span => span.tags.bind SpanTags.sessionId).or
      ((parent.bind fun span => span.traceTags.get? SESSION_ID_TRACE_DEFAULT_KEY).or
        (parent.bind fun span => span.traceTags.get? PROPAGATED_SESSION_ID_KEY)))
  sampleRate :=
    (parent.bind fun span => span.tags.bind SpanTags.sampleRate).or
      (parent.bind fun span => span.traceTags.get? PROPAGATED_SAMPLE_RATE_KEY)
  samplingDecision :=
    (parent.bind fun span => span.tags.bind SpanTags.samplingDecision).or
      (parent.bind fun span => span.traceTags.get? PROPAGATED_SAMPLING_DECISION_KEY)
  traceId :=
    match parent.bind fun span => span.tags.bind SpanTags.traceId with
    | some traceId => llmObsTraceIdToWire traceId
    | none => parent.bind fun span => span.traceTags.get? PROPAGATED_TRACE_ID_KEY

/-- Whether there is nothing to propagate. -/
def Propagated.isEmpty (p : Propagated) : Bool :=
  p.parentId.isNone && p.mlApp.isNone && p.samplingDecision.isNone && p.sessionId.isNone &&
    (truthyText p.traceId).isNone

/-- The entries, in the order of the header. -/
def Propagated.entries (p : Propagated) : List (Str × Str) :=
  (p.parentId.map (PROPAGATED_PARENT_ID_KEY, ·)).toList ++
    (p.mlApp.map (PROPAGATED_ML_APP_KEY, ·)).toList ++
    (p.sessionId.map (PROPAGATED_SESSION_ID_KEY, ·)).toList ++
    (p.sampleRate.map (PROPAGATED_SAMPLE_RATE_KEY, ·)).toList ++
    (p.samplingDecision.map (PROPAGATED_SAMPLING_DECISION_KEY, ·)).toList ++
    (p.traceId.map (PROPAGATED_TRACE_ID_KEY, ·)).toList

/-- The agent of the active span. -/
def agentOf (parent : Option ActiveSpan) : AgentAttribution :=
  match parent with
  | none => ⟨none, none⟩
  | some span => resolveAgentAttribution span

/-- Old entries of an agent are dropped when there is one. -/
def stripAgent (agent : AgentAttribution) (tags : Str) : Str :=
  if (truthyText agent.spanId).isSome then
    stripTagsetEntry (stripTagsetEntry tags PROPAGATED_PARENT_AGENT_ID_KEY)
      PROPAGATED_PARENT_AGENT_NAME_KEY
  else tags

/-- The id of the agent is appended, and its name when the id was. -/
def appendAgent (config : InjectionConfig) (agent : AgentAttribution) (tags : Str) : Str :=
  let tagsWithId := appendOptionalPropagatedTag tags PROPAGATED_PARENT_AGENT_ID_KEY agent.spanId
    (fun _ => true) config.tagsMaxLength
  if tagsWithId = tags then tagsWithId
  else appendOptionalPropagatedTag tagsWithId PROPAGATED_PARENT_AGENT_NAME_KEY agent.name
    agentNameWireSafe config.tagsMaxLength

def handleLLMObsInjection (config : InjectionConfig) (parent : Option ActiveSpan)
    (carrier : Carrier) : Carrier :=
  if config.tagsMaxLength = 0 then carrier
  else
    let p := propagated config parent
    if p.isEmpty then carrier
    else
      let agent := agentOf parent
      let tags := appendAgent config agent
        (stripAgent agent (p.entries.foldl appendTag (carrier.datadogTags.getD [])))
      if some tags = carrier.datadogTags then carrier else { carrier with datadogTags := some tags }

/-! ## What is asked of the header -/

/-- The keys of the entries that are appended as they are. -/
def CURRENT_KEYS : List Str :=
  [PROPAGATED_PARENT_ID_KEY, PROPAGATED_ML_APP_KEY, PROPAGATED_SESSION_ID_KEY,
    PROPAGATED_SAMPLE_RATE_KEY, PROPAGATED_SAMPLING_DECISION_KEY, PROPAGATED_TRACE_ID_KEY]

/-- The keys of an agent. -/
def AGENT_KEYS : List Str := [PROPAGATED_PARENT_AGENT_ID_KEY, PROPAGATED_PARENT_AGENT_NAME_KEY]

section Spec

variable (config : InjectionConfig) (span : ActiveSpan) (carrier : Carrier)

/-- What is propagated of the span. -/
def entriesOf : List (Str × Str) := (propagated config (some span)).entries

/-- The id of the agent of the span. -/
def agentIdOf : Option Str := truthyText (resolveAgentAttribution span).spanId

/-- The tags that are read of the header keep the old ones, carry the values of the span and have of
an agent either that of the span or no name. -/
structure CarriedTags (tags : OrderedMap Str Str) : Prop where
  kept : ∀ old, extractTags config.toConfig carrier = some old →
    ∀ k, k ∉ CURRENT_KEYS ++ AGENT_KEYS → ∀ v, old.get? k = some v → tags.get? k = some v
  current : ∀ e ∈ entriesOf config span, tags.get? e.1 = some e.2
  agentId : ∀ id, agentIdOf span = some id → ∀ v,
    tags.get? PROPAGATED_PARENT_AGENT_ID_KEY = some v → v = id
  agentName : ∀ name, tags.get? PROPAGATED_PARENT_AGENT_NAME_KEY = some name →
    (resolveAgentAttribution span).name = some name ∧ ∃ id, agentIdOf span = some id ∧
      tags.get? PROPAGATED_PARENT_AGENT_ID_KEY = some id

/-- The header after the hook fits and is accepted, and its tags are as asked. -/
def Carries : Prop :=
  ∃ header tags, (handleLLMObsInjection config (some span) carrier).datadogTags = some header ∧
    header.length ≤ config.tagsMaxLength ∧
    extractTags config.toConfig (handleLLMObsInjection config (some span) carrier) = some tags ∧
    CarriedTags config span carrier tags

/-! ## When it is met -/

/-- The key and the value of an entry, as the extractor reads them. -/
def pairOf (segment : Str) : Str × Str := (segment.cut (unit '=')).getD (segment, [])

/-- The patterns of the extractor. -/
def Accepted (e : Str × Str) : Prop := tagKeyExpr e.1 = true ∧ tagValueExpr e.2 = true

def isEntryOf (key entry : Str) : Bool := (key ++ [unit '=']).isPrefixOf entry

/-- The old entries that stay: those of an agent do not when the span has one. -/
def staying (existing : Str) : List Str :=
  (Str.split (unit ',') existing).filter fun entry =>
    !((agentIdOf span).isSome && (isEntryOf PROPAGATED_PARENT_AGENT_ID_KEY entry ||
      isEntryOf PROPAGATED_PARENT_AGENT_NAME_KEY entry))

/-- The entries of the header before those of the agent of the span. -/
def mandatory (existing : Str) : List Str :=
  staying span existing ++ (entriesOf config span).map tagPair

/-- The old entries that stay are accepted; the values of the span are tag values; they fit beside
the entries that stay; so is the id of the agent, when it still fits; and where the span has no
agent, no name of one arrived. -/
structure Wireable (existing : Str) : Prop where
  accepted : ∀ s ∈ staying span existing, Accepted (pairOf s)
  values : ∀ e ∈ entriesOf config span, tagValueExpr e.2 = true
  room : (Str.join (unit ',') (mandatory config span existing)).length ≤ config.tagsMaxLength
  agentId : ∀ id, agentIdOf span = some id → (Str.join (unit ',') (mandatory config span existing ++
      [tagPair (PROPAGATED_PARENT_AGENT_ID_KEY, id)])).length ≤ config.tagsMaxLength →
    tagValueExpr id = true
  agentName : agentIdOf span = none → ∀ s ∈ staying span existing,
    (pairOf s).1 ≠ PROPAGATED_PARENT_AGENT_NAME_KEY

end Spec

/-! ## Texts of entries -/

section Texts

variable {segments : List Str} {key : Str}

theorem join_append {l m : List Str} (hl : l ≠ []) (hm : m ≠ []) :
    Str.join (unit ',') (l ++ m) = Str.join (unit ',') l ++ unit ',' :: Str.join (unit ',') m := by
  induction l with
  | nil => exact absurd rfl hl
  | cons s l ih =>
    by_cases h : l = []
    · subst h
      rw [singleton_append, join_cons _ s hm, join_singleton]
    · rw [cons_append, join_cons _ s (by simp [h]), ih h, join_cons _ s h,
        append_assoc, cons_append]

theorem length_join_le (l m : List Str) :
    (Str.join (unit ',') l).length ≤ (Str.join (unit ',') (l ++ m)).length := by
  by_cases hl : l = []
  · subst hl
    exact Nat.zero_le _
  · by_cases hm : m = []
    · rw [hm, append_nil]
    · rw [join_append hl hm, length_append]
      exact Nat.le_add_right _ _

/-- What comes before a comma is split as it is. -/
theorem split_join_append (hl : ∀ s ∈ segments, unit ',' ∉ s) (hne : segments ≠ []) (t : Str) :
    Str.split (unit ',') (Str.join (unit ',') segments ++ unit ',' :: t) =
      segments ++ Str.split (unit ',') t := by
  induction segments with
  | nil => exact absurd rfl hne
  | cons s l ih =>
    have hs := hl s mem_cons_self
    by_cases h : l = []
    · subst h
      rw [join_singleton, split_append_cons hs, singleton_append]
    · rw [join_cons _ s h, append_assoc, cons_append, split_append_cons hs,
        ih (forall_mem_cons.mp hl).2 h, cons_append]

/-- The text of a list with an entry is not empty. -/
theorem join_ne_nil {e : Str × Str} (h : tagPair e ∈ segments) :
    Str.join (unit ',') segments ≠ [] := by
  intro hnil
  have hinfix : tagPair e <:+: Str.join (unit ',') segments := isInfix_join_of_mem h
  rw [hnil, infix_nil, tagPair, append_eq_nil_iff] at hinfix
  cases hinfix.2

/-- **Appending an entry.** -/
theorem append_join (h : Str.join (unit ',') segments ≠ []) (e : Str × Str) :
    appendTag (Str.join (unit ',') segments) e = Str.join (unit ',') (segments ++ [tagPair e]) := by
  have hne : segments ≠ [] := by
    rintro rfl
    exact h rfl
  rw [appendTag, if_neg h, join_concat _ hne, append_assoc, singleton_append]

theorem foldl_append_join (h : Str.join (unit ',') segments ≠ []) (es : List (Str × Str)) :
    es.foldl appendTag (Str.join (unit ',') segments) =
      Str.join (unit ',') (segments ++ es.map tagPair) := by
  induction es generalizing segments with
  | nil => rw [foldl_nil, map_nil, append_nil]
  | cons e es ih =>
    have hnext : Str.join (unit ',') (segments ++ [tagPair e]) ≠ [] :=
      join_ne_nil (mem_append_right _ mem_cons_self)
    rw [foldl_cons, append_join h, ih hnext, append_assoc, singleton_append, map_cons]

/-- **Stripping a key.** -/
theorem strip_join (h : ∀ s ∈ segments, unit ',' ∉ s) (hne : segments ≠ []) :
    stripTagsetEntry (Str.join (unit ',') segments) key =
      Str.join (unit ',') (segments.filter fun s => !isEntryOf key s) := by
  unfold stripTagsetEntry
  split
  · next hnone =>
    have hall : ∀ s ∈ segments, (!isEntryOf key s) = true := by
      intro s hs
      rw [Bool.not_eq_true', Bool.eq_false_iff]
      intro hentry
      have hpre : key <+: s := by
        have hprefix := isPrefixOf_iff_prefix.mp hentry
        exact (prefix_append key _).trans hprefix
      have hinfix : key <:+: Str.join (unit ',') segments :=
        hpre.isInfix.trans (isInfix_join_of_mem hs)
      rw [← isSome_indexOf_iff, isSome_iff_ne_none] at hinfix
      exact hinfix (by simpa using hnone)
    rw [filter_eq_self.mpr hall]
  · rw [split_join h hne]
    rfl

theorem pairOf_tagPair {e : Str × Str} (h : unit '=' ∉ e.1) : pairOf (tagPair e) = e := by
  rw [pairOf, tagPair, cut_append h, getD_some]

/-- An entry is one of a key when it is read as one. -/
theorem isEntryOf_iff {s : Str} (hkey : unit '=' ∉ key) (hs : unit '=' ∈ s) :
    isEntryOf key s = true ↔ (pairOf s).1 = key := by
  rw [isEntryOf, isPrefixOf_iff_prefix]
  constructor
  · rintro ⟨t, rfl⟩
    rw [append_assoc, singleton_append, pairOf, cut_append hkey, getD_some]
  · intro h
    obtain ⟨k, v, rfl, hk⟩ := eq_append_cons_of_mem hs
    rw [pairOf, cut_append hk, getD_some] at h
    rw [← h]
    exact ⟨v, by rw [append_assoc, singleton_append]⟩

end Texts

/-! ## What the extractor reads -/

section Reading

variable {l : List Str} {tags : OrderedMap Str Str} {k v : Str}

theorem readTags_cons (s : Str) (l : List Str) (m : OrderedMap Str Str) : readTags (s :: l) m =
    if tagKeyExpr (pairOf s).1 = false ∨ tagValueExpr (pairOf s).2 = false then none
    else if (pairOf s).1 = TRACE_ID_128 ∧ hex16 (pairOf s).2 = false then readTags l m
    else readTags l (m.set (pairOf s).1 (pairOf s).2) := rfl

theorem accepted_of_readTags {m : OrderedMap Str Str} (h : readTags l m = some tags) :
    ∀ s ∈ l, Accepted (pairOf s) := by
  induction l generalizing m with
  | nil => exact fun s hs => absurd hs not_mem_nil
  | cons segment rest ih =>
    rw [readTags_cons] at h
    split at h
    · cases h
    · next hvalid =>
      rw [not_or, Bool.not_eq_false, Bool.not_eq_false] at hvalid
      intro s hs
      rcases mem_cons.mp hs with rfl | hs
      · exact hvalid
      · split at h
        · exact ih h s hs
        · exact ih h s hs

theorem readTags_of_accepted (h : ∀ s ∈ l, Accepted (pairOf s)) (m : OrderedMap Str Str) :
    readTags l m = some (((l.map pairOf).filter isRead).foldl (fun m e => m.set e.1 e.2) m) := by
  induction l generalizing m with
  | nil => rfl
  | cons segment rest ih =>
    obtain ⟨hk, hv⟩ := h segment mem_cons_self
    have hrest := ih (forall_mem_cons.mp h).2
    have hvalid : ¬ (tagKeyExpr (pairOf segment).1 = false ∨
        tagValueExpr (pairOf segment).2 = false) := by
      rw [not_or, Bool.not_eq_false, Bool.not_eq_false]
      exact ⟨hk, hv⟩
    rw [readTags_cons, if_neg hvalid, map_cons]
    by_cases hread : isRead (pairOf segment) = true
    · rw [if_neg (isRead_iff.mp hread), hrest, filter_cons_of_pos hread, foldl_cons]
    · rw [if_pos (not_not.mp (mt isRead_iff.mpr hread)), hrest, filter_cons_of_neg hread]

/-- **The tags that are read** are the last values of the entries. -/
theorem get?_readTags (h : readTags l .empty = some tags) (k : Str) :
    tags.get? k = OrderedMap.lastValue ((l.map pairOf).filter isRead) k := by
  rw [readTags_of_accepted (accepted_of_readTags h), some_inj] at h
  rw [← h, get?_foldl_set, get?_empty, or_none]

/-- A value that is read is one that is accepted. -/
theorem tagValueExpr_of_get? (h : readTags l .empty = some tags) (hget : tags.get? k = some v) :
    tagValueExpr v = true := by
  rw [get?_readTags h] at hget
  obtain ⟨s, hs, heq⟩ := List.mem_map.mp (mem_of_mem_filter (mem_of_lastValue hget))
  have haccepted := (accepted_of_readTags h s hs).2
  rwa [heq] at haccepted

/-- Apart from `_dd.p.tid`, the key of an entry is read. -/
theorem exists_get? (h : readTags l .empty = some tags) {s : Str} (hs : s ∈ l)
    (hk : (pairOf s).1 ≠ TRACE_ID_128) : ∃ v, tags.get? (pairOf s).1 = some v := by
  rw [get?_readTags h, ← isSome_iff_exists, isSome_iff_ne_none, Ne, lastValue_eq_none_iff, not_not]
  refine List.mem_map_of_mem (mem_filter.mpr ⟨List.mem_map_of_mem hs, ?_⟩)
  exact isRead_iff.mpr fun htid => hk htid.1

/-- Entries of other keys do not matter for a key. -/
theorem lastValue_filter {q : Str → Bool} (h : ∀ s ∈ l, q s = false → (pairOf s).1 ≠ k) :
    OrderedMap.lastValue (((l.filter q).map pairOf).filter isRead) k =
      OrderedMap.lastValue ((l.map pairOf).filter isRead) k := by
  induction l with
  | nil => rfl
  | cons s l ih =>
    have hrest := ih (forall_mem_cons.mp h).2
    by_cases hq : q s = true
    · rw [filter_cons_of_pos hq, map_cons, map_cons]
      by_cases hread : isRead (pairOf s) = true
      · rw [filter_cons_of_pos hread, filter_cons_of_pos hread, OrderedMap.lastValue,
          OrderedMap.lastValue, hrest]
      · rw [filter_cons_of_neg hread, filter_cons_of_neg hread, hrest]
    · have hne := h s mem_cons_self (by simpa using hq)
      rw [filter_cons_of_neg hq, map_cons, hrest]
      by_cases hread : isRead (pairOf s) = true
      · rw [filter_cons_of_pos hread, OrderedMap.lastValue, if_neg hne, or_none]
      · rw [filter_cons_of_neg hread]

end Reading

/-! ## The keys -/

section Keys

variable {config : InjectionConfig} {span : ActiveSpan} {e : Str × Str}

theorem keys_sublist (p : Propagated) : (p.entries.map Prod.fst).Sublist CURRENT_KEYS := by
  have hone : ∀ (k : Str) (v : Option Str), ((v.map (k, ·)).toList.map Prod.fst).Sublist [k] := by
    intro k v
    cases v with
    | none => exact nil_sublist _
    | some v => exact List.Sublist.refl _
  rw [Propagated.entries]
  simp only [map_append]
  exact (((((hone _ _).append (hone _ _)).append (hone _ _)).append (hone _ _)).append
    (hone _ _)).append (hone _ _)

theorem key_mem_of_entriesOf (h : e ∈ entriesOf config span) : e.1 ∈ CURRENT_KEYS :=
  (keys_sublist _).subset (List.mem_map_of_mem h)

theorem nodup_keys_entriesOf : ((entriesOf config span).map Prod.fst).Nodup :=
  (show CURRENT_KEYS.Nodup by decide).sublist (keys_sublist _)

/-- What the keys have in common. -/
theorem key_spec {k : Str} (h : k ∈ CURRENT_KEYS ++ AGENT_KEYS) :
    tagKeyExpr k = true ∧ unit '=' ∉ k ∧ k ≠ TRACE_ID_128 := by
  have hall : (CURRENT_KEYS ++ AGENT_KEYS).all (fun k =>
      tagKeyExpr k && !includes k (unit '=') && decide (k ≠ TRACE_ID_128)) = true := by decide
  have hk := List.all_eq_true.mp hall k h
  rw [Bool.and_eq_true, Bool.and_eq_true, Bool.not_eq_true', decide_eq_true_eq] at hk
  exact ⟨hk.1.1, includes_eq_false_iff.mp hk.1.2, hk.2⟩

theorem current_ne_agent {k : Str} (h : k ∈ CURRENT_KEYS) : k ∉ AGENT_KEYS := by
  have hall : CURRENT_KEYS.all (fun k => !includes AGENT_KEYS k) = true := by decide
  have hk := List.all_eq_true.mp hall k h
  rw [Bool.not_eq_true'] at hk
  exact includes_eq_false_iff.mp hk

theorem mem_agentId : PROPAGATED_PARENT_AGENT_ID_KEY ∈ AGENT_KEYS := mem_cons_self

theorem mem_agentName : PROPAGATED_PARENT_AGENT_NAME_KEY ∈ AGENT_KEYS :=
  mem_cons_of_mem _ mem_cons_self

theorem agentName_ne_agentId :
    PROPAGATED_PARENT_AGENT_NAME_KEY ≠ PROPAGATED_PARENT_AGENT_ID_KEY := by decide

theorem parent_mem_entriesOf : (PROPAGATED_PARENT_ID_KEY, span.spanId.toNumberString 10) ∈
    entriesOf config span := by
  simp [entriesOf, Propagated.entries, propagated]

/-- An entry with a key of the list and a tag value has no comma. -/
theorem comma_notMem (hk : e.1 ∈ CURRENT_KEYS ++ AGENT_KEYS) (hv : tagValueExpr e.2 = true) :
    unit ',' ∉ tagPair e := comma_notMem_tagPair (key_spec hk).1 hv

theorem accepted_tagPair (hk : e.1 ∈ CURRENT_KEYS ++ AGENT_KEYS) (hv : tagValueExpr e.2 = true) :
    Accepted (pairOf (tagPair e)) := by
  rw [pairOf_tagPair (key_spec hk).2.1]
  exact ⟨(key_spec hk).1, hv⟩

end Keys

/-! ## The header after the hook -/

section Header

variable {config : InjectionConfig} {span : ActiveSpan} {carrier : Carrier} {existing : Str}
  {segments : List Str} {e : Str × Str}

theorem length_append_lt (h : Str.join (unit ',') segments ≠ []) (e : Str × Str) :
    (Str.join (unit ',') segments).length <
      (Str.join (unit ',') (segments ++ [tagPair e])).length := by
  rw [← append_join h, appendTag, if_neg h, length_append, length_append, length_singleton]
  omega

/-- **What an optional entry does**: it is appended, or it is absent, unsafe or too long. -/
theorem appendOptional_cases (h : Str.join (unit ',') segments ≠ []) (key : Str)
    (value : Option Str) (safeguard : Str → Bool) (max : ℕ) :
    (appendOptionalPropagatedTag (Str.join (unit ',') segments) key value safeguard max =
        Str.join (unit ',') segments ∧ ∀ v, truthyText value = some v → safeguard v = true →
        max < (Str.join (unit ',') (segments ++ [tagPair (key, v)])).length) ∨
      ∃ v, truthyText value = some v ∧ safeguard v = true ∧
        (Str.join (unit ',') (segments ++ [tagPair (key, v)])).length ≤ max ∧
        appendOptionalPropagatedTag (Str.join (unit ',') segments) key value safeguard max =
          Str.join (unit ',') (segments ++ [tagPair (key, v)]) := by
  unfold appendOptionalPropagatedTag
  cases hvalue : truthyText value with
  | none => exact Or.inl ⟨rfl, fun v hv => by cases hv⟩
  | some v =>
    dsimp only
    by_cases hsafe : safeguard v = false
    · rw [if_pos hsafe]
      refine Or.inl ⟨rfl, fun w hw htrue => ?_⟩
      cases hw
      rw [hsafe] at htrue
      cases htrue
    · rw [if_neg hsafe, append_join h]
      split
      · next hlong =>
        refine Or.inl ⟨rfl, fun w hw _ => ?_⟩
        cases hw
        exact hlong
      · next hfits => exact Or.inr ⟨v, rfl, by simpa using hsafe, Nat.not_lt.mp hfits, rfl⟩

/-- What the agent of the span adds to a header. -/
structure AgentEntries (config : InjectionConfig) (span : ActiveSpan) (segments : List Str)
    (entries : List (Str × Str)) : Prop where
  shape : entries = [] ∨ ∃ id, agentIdOf span = some id ∧
    (entries = [(PROPAGATED_PARENT_AGENT_ID_KEY, id)] ∨
      ∃ name, (resolveAgentAttribution span).name = some name ∧ agentNameWireSafe name = true ∧
        entries = [(PROPAGATED_PARENT_AGENT_ID_KEY, id), (PROPAGATED_PARENT_AGENT_NAME_KEY, name)])
  room : entries ≠ [] →
    (Str.join (unit ',') (segments ++ entries.map tagPair)).length ≤ config.tagsMaxLength
  absent : entries = [] → ∀ id, agentIdOf span = some id → config.tagsMaxLength <
    (Str.join (unit ',') (segments ++ [tagPair (PROPAGATED_PARENT_AGENT_ID_KEY, id)])).length
  id_room : ∀ id, agentIdOf span = some id → entries ≠ [] →
    (Str.join (unit ',') (segments ++ [tagPair (PROPAGATED_PARENT_AGENT_ID_KEY, id)])).length ≤
      config.tagsMaxLength

theorem exists_appendAgent (h : Str.join (unit ',') segments ≠ []) :
    ∃ entries, appendAgent config (resolveAgentAttribution span) (Str.join (unit ',') segments) =
      Str.join (unit ',') (segments ++ entries.map tagPair) ∧
      AgentEntries config span segments entries := by
  unfold appendAgent
  rcases appendOptional_cases h PROPAGATED_PARENT_AGENT_ID_KEY (resolveAgentAttribution span).spanId
    (fun _ => true) config.tagsMaxLength with ⟨hsame, hlong⟩ | ⟨id, hid, -, hroom, happend⟩
  · rw [hsame, if_pos rfl]
    exact ⟨[], by rw [map_nil, append_nil], Or.inl rfl, fun hne => absurd rfl hne,
      fun _ id hid => hlong id hid rfl, fun _ _ hne => absurd rfl hne⟩
  · have hlt := length_append_lt h (PROPAGATED_PARENT_AGENT_ID_KEY, id)
    have hne : Str.join (unit ',') (segments ++ [tagPair (PROPAGATED_PARENT_AGENT_ID_KEY, id)]) ≠
        Str.join (unit ',') segments := by
      intro heq
      rw [heq] at hlt
      exact Nat.lt_irrefl _ hlt
    have hnext : Str.join (unit ',')
        (segments ++ [tagPair (PROPAGATED_PARENT_AGENT_ID_KEY, id)]) ≠ [] :=
      join_ne_nil (mem_append_right _ mem_cons_self)
    have hidroom : ∀ id', agentIdOf span = some id' →
        (Str.join (unit ',') (segments ++ [tagPair (PROPAGATED_PARENT_AGENT_ID_KEY, id')])).length ≤
          config.tagsMaxLength := by
      intro id' hid'
      have heq : some id' = some id := hid'.symm.trans hid
      rw [some_inj.mp heq]
      exact hroom
    rw [happend, if_neg hne]
    rcases appendOptional_cases hnext PROPAGATED_PARENT_AGENT_NAME_KEY
      (resolveAgentAttribution span).name agentNameWireSafe config.tagsMaxLength with
      ⟨hsame, -⟩ | ⟨name, hname, hsafe, hfits, hlast⟩
    · rw [hsame]
      exact ⟨[(PROPAGATED_PARENT_AGENT_ID_KEY, id)], rfl, Or.inr ⟨id, hid, Or.inl rfl⟩,
        fun _ => hroom, fun hnil => (by cases hnil), fun id' hid' _ => hidroom id' hid'⟩
    · rw [hlast]
      rw [append_assoc] at hfits ⊢
      refine ⟨[(PROPAGATED_PARENT_AGENT_ID_KEY, id), (PROPAGATED_PARENT_AGENT_NAME_KEY, name)], rfl,
        Or.inr ⟨id, hid, Or.inr ⟨name, ?_, hsafe, rfl⟩⟩, fun _ => hfits,
        fun hnil => (by cases hnil), fun id' hid' _ => hidroom id' hid'⟩
      exact (filter_eq_some_iff.mp hname).1

theorem not_isEntryOf_tagPair {key : Str} (hkey : key ∈ AGENT_KEYS) (he : e.1 ∈ CURRENT_KEYS) :
    isEntryOf key (tagPair e) = false := by
  rw [Bool.eq_false_iff]
  intro hentry
  have hspec := key_spec (mem_append_right CURRENT_KEYS hkey)
  have hequals : unit '=' ∈ tagPair e := mem_append_right _ mem_cons_self
  have hread := (isEntryOf_iff hspec.2.1 hequals).mp hentry
  rw [pairOf_tagPair (key_spec (mem_append_left AGENT_KEYS he)).2.1] at hread
  rw [hread] at he
  exact current_ne_agent he hkey

theorem comma_notMem_split {s : Str} (hs : s ∈ Str.split (unit ',') existing) : unit ',' ∉ s :=
  fun hmem => (mem_split hs _ hmem).1 rfl

theorem comma_notMem_mandatory (hvalues : ∀ e ∈ entriesOf config span, tagValueExpr e.2 = true) :
    ∀ s ∈ mandatory config span existing, unit ',' ∉ s := by
  intro s hs
  rcases mem_append.mp hs with hs | hs
  · exact comma_notMem_split (mem_of_mem_filter hs)
  · obtain ⟨e, he, rfl⟩ := List.mem_map.mp hs
    exact comma_notMem (mem_append_left _ (key_mem_of_entriesOf he)) (hvalues e he)

theorem mandatory_ne_nil : mandatory config span existing ≠ [] :=
  ne_nil_of_mem (mem_append_right _ (List.mem_map_of_mem parent_mem_entriesOf))

theorem join_mandatory_ne_nil : Str.join (unit ',') (mandatory config span existing) ≠ [] :=
  join_ne_nil (mem_append_right _ (List.mem_map_of_mem parent_mem_entriesOf))

/-- **The entries of an agent are stripped** when the span has one. -/
theorem strip_eq (hvalues : ∀ e ∈ entriesOf config span, tagValueExpr e.2 = true) :
    stripAgent (resolveAgentAttribution span)
      (Str.join (unit ',') (Str.split (unit ',') existing ++ (entriesOf config span).map tagPair)) =
      Str.join (unit ',') (mandatory config span existing) := by
  have hcomma : ∀ s ∈ Str.split (unit ',') existing ++ (entriesOf config span).map tagPair,
      unit ',' ∉ s := by
    intro s hs
    rcases mem_append.mp hs with hs | hs
    · exact comma_notMem_split hs
    · obtain ⟨e, he, rfl⟩ := List.mem_map.mp hs
      exact comma_notMem (mem_append_left _ (key_mem_of_entriesOf he)) (hvalues e he)
  have hkeep : ∀ {key : Str}, key ∈ AGENT_KEYS → ∀ s ∈ (entriesOf config span).map tagPair,
      (!isEntryOf key s) = true := by
    intro key hkey s hs
    obtain ⟨e, he, rfl⟩ := List.mem_map.mp hs
    rw [not_isEntryOf_tagPair hkey (key_mem_of_entriesOf he)]
    rfl
  unfold stripAgent mandatory staying agentIdOf
  by_cases hagent : (truthyText (resolveAgentAttribution span).spanId).isSome = true
  · have hparent : tagPair (PROPAGATED_PARENT_ID_KEY, span.spanId.toNumberString 10) ∈
        (entriesOf config span).map tagPair := List.mem_map_of_mem parent_mem_entriesOf
    have hmem := mem_append_right (Str.split (unit ',') existing) hparent
    rw [if_pos hagent, strip_join hcomma (ne_nil_of_mem hmem), strip_join]
    · rw [List.filter_filter, filter_append]
      refine congrArg _ (congrArg₂ _ (filter_congr fun s _ => ?_) ?_)
      · rw [hagent, Bool.true_and, Bool.not_or, Bool.and_comm]
      · refine filter_eq_self.mpr fun s hs => ?_
        rw [hkeep mem_agentName s hs, hkeep mem_agentId s hs]
        rfl
    · exact fun s hs => hcomma s (mem_of_mem_filter hs)
    · exact ne_nil_of_mem (mem_filter.mpr ⟨hmem, hkeep mem_agentId _ hparent⟩)
  · simp [hagent]

/-- **The header after the hook.** -/
theorem datadogTags_handle (hmax : config.tagsMaxLength ≠ 0)
    (hold : carrier.datadogTags = some existing) (hne : existing ≠ [])
    (hvalues : ∀ e ∈ entriesOf config span, tagValueExpr e.2 = true) :
    ∃ entries, (handleLLMObsInjection config (some span) carrier).datadogTags =
      some (Str.join (unit ',') (mandatory config span existing ++ entries.map tagPair)) ∧
      AgentEntries config span (mandatory config span existing) entries := by
  have hmandatory : Str.join (unit ',') (mandatory config span existing) ≠ [] :=
    join_mandatory_ne_nil
  obtain ⟨entries, happend, hentries⟩ := exists_appendAgent hmandatory
  refine ⟨entries, ?_, hentries⟩
  have hjoin : Str.join (unit ',') (Str.split (unit ',') existing) = existing :=
    intercalate_splitOn _
  have hfold : (entriesOf config span).foldl appendTag existing = Str.join (unit ',')
        (Str.split (unit ',') existing ++ (entriesOf config span).map tagPair) := by
    have hsplit : Str.join (unit ',') (Str.split (unit ',') existing) ≠ [] := by rwa [hjoin]
    have hfold := foldl_append_join hsplit (entriesOf config span)
    rwa [hjoin] at hfold
  have hempty : (propagated config (some span)).isEmpty = false := by
    simp [Propagated.isEmpty, propagated]
  have htags : appendAgent config (agentOf (some span)) (stripAgent (agentOf (some span))
      ((propagated config (some span)).entries.foldl appendTag (carrier.datadogTags.getD []))) =
      Str.join (unit ',') (mandatory config span existing ++ entries.map tagPair) := by
    rw [hold]
    show appendAgent config (resolveAgentAttribution span)
      (stripAgent (resolveAgentAttribution span)
        ((entriesOf config span).foldl appendTag existing)) = _
    rw [hfold, strip_eq hvalues, happend]
  unfold handleLLMObsInjection
  rw [if_neg hmax]
  dsimp only
  rw [hempty, if_neg Bool.false_ne_true, htags]
  split
  · next hsame => exact hsame.symm
  · rfl

end Header

/-! ## Main results -/

section Main

variable {config : InjectionConfig} {span : ActiveSpan} {carrier : Carrier} {existing header : Str}
  {ctx : SpanContext} {tags : OrderedMap Str Str}

theorem readTags_of_extractTags (hheader : carrier.datadogTags = some header)
    (h : extractTags config.toConfig carrier = some tags) :
    readTags (Str.split (unit ',') header) .empty = some tags := by
  rw [extractTags, hheader] at h
  simp only [bind_eq_bind, bind_eq_some_iff, filter_eq_some_iff] at h
  obtain ⟨text, ⟨htext, -⟩, h⟩ := h
  cases htext
  split at h
  · cases h
  · split at h
    · cases h
    · exact h

theorem extractTags_of_readTags (hheader : carrier.datadogTags = some header) (hne : header ≠ [])
    (hmax : config.tagsMaxLength ≠ 0) (hfits : header.length ≤ config.tagsMaxLength)
    (h : readTags (Str.split (unit ',') header) .empty = some tags) :
    extractTags config.toConfig carrier = some tags := by
  rw [extractTags, hheader, filter_some_pos (by simpa using hne)]
  simp only [bind_eq_bind, bind_some]
  rw [if_neg hmax, if_neg (Nat.not_lt.mpr hfits), h]

/-- What a header of the propagator is. -/
theorem written_spec (h : tagsHeader config.toConfig ctx = some existing) :
    config.tagsMaxLength ≠ 0 ∧ existing ≠ [] ∧
      ∀ s ∈ Str.split (unit ',') existing, unit '=' ∈ s := by
  unfold tagsHeader at h
  split at h
  · cases h
  next hmax =>
  split at h
  · cases h
  next hvalid =>
  split at h
  · cases h
  split at h
  · cases h
  next hne =>
  cases h
  refine ⟨hmax, hne, fun s hs => ?_⟩
  rw [Bool.not_eq_false, List.all_eq_true] at hvalid
  have hpairs : (injectedTags ctx).map tagPair ≠ [] := by
    intro hnil
    exact hne (by rw [tagsText, hnil]; rfl)
  rw [tagsText, split_join _ hpairs] at hs
  · obtain ⟨e, -, rfl⟩ := List.mem_map.mp hs
    exact mem_append_right _ mem_cons_self
  · intro s hs
    obtain ⟨e, he, rfl⟩ := List.mem_map.mp hs
    have hboth := hvalid e he
    rw [Bool.and_eq_true] at hboth
    exact comma_notMem_tagPair hboth.1 hboth.2

/-- The entries that do not stay are those of an agent. -/
theorem staying_spec (hequals : ∀ s ∈ Str.split (unit ',') existing, unit '=' ∈ s)
    (hagent : (agentIdOf span).isSome = true) {s : Str} (hs : s ∈ staying span existing) :
    (pairOf s).1 ∉ AGENT_KEYS := by
  obtain ⟨hmem, hstay⟩ := mem_filter.mp hs
  rw [hagent, Bool.true_and, Bool.not_eq_true', Bool.or_eq_false_iff] at hstay
  have hread : ∀ {key : Str}, key ∈ AGENT_KEYS → isEntryOf key s = false → (pairOf s).1 ≠ key := by
    intro key hkey hfalse hpair
    have hspec := key_spec (mem_append_right CURRENT_KEYS hkey)
    have htrue := (isEntryOf_iff hspec.2.1 (hequals s hmem)).mpr hpair
    rw [hfalse] at htrue
    cases htrue
  intro hkey
  rcases mem_cons.mp hkey with hid | hkey
  · exact hread mem_agentId hstay.1 hid
  · exact hread mem_agentName hstay.2 (mem_singleton.mp hkey)

/-- The first part of an entry whose value may have a comma. -/
theorem exists_mem_split {k : Str} (hk : unit ',' ∉ k) (v : Str) :
    ∃ a, tagPair (k, a) ∈ Str.split (unit ',') (tagPair (k, v)) := by
  have hhead : ∀ a : Str, unit ',' ∉ a → unit ',' ∉ tagPair (k, a) := by
    intro a ha hmem
    rcases mem_append.mp hmem with hmem | hmem
    · exact hk hmem
    · rcases mem_cons.mp hmem with hmem | hmem
      · exact absurd hmem (by decide)
      · exact ha hmem
  by_cases hv : unit ',' ∈ v
  · obtain ⟨a, b, rfl, ha⟩ := eq_append_cons_of_mem hv
    have hcut : tagPair (k, a ++ unit ',' :: b) = tagPair (k, a) ++ unit ',' :: b := by
      simp [tagPair]
    rw [hcut, split_append_cons (hhead a ha)]
    exact ⟨a, mem_cons_self⟩
  · rw [split_of_notMem (hhead v hv)]
    exact ⟨v, mem_cons_self⟩

/-- The entries that are there before the agent are parts of the header, whatever follows. -/
theorem split_header {entries : List (Str × Str)}
    (hvalues : ∀ e ∈ entriesOf config span, tagValueExpr e.2 = true) (hne : entries ≠ []) :
    Str.split (unit ',') (Str.join (unit ',') (mandatory config span existing ++
      entries.map tagPair)) = mandatory config span existing ++
      Str.split (unit ',') (Str.join (unit ',') (entries.map tagPair)) := by
  have hmap : entries.map tagPair ≠ [] := by simpa using hne
  rw [join_append mandatory_ne_nil hmap,
    split_join_append (comma_notMem_mandatory hvalues) mandatory_ne_nil]

theorem wireable_of_carries (hwritten : tagsHeader config.toConfig ctx = some existing)
    (hold : carrier.datadogTags = some existing) (h : Carries config span carrier) :
    Wireable config span existing := by
  obtain ⟨header, tags, hheader, hlength, hextract, hcarried⟩ := h
  obtain ⟨hmax, hne, -⟩ := written_spec hwritten
  have hread := readTags_of_extractTags hheader hextract
  have hvalues : ∀ e ∈ entriesOf config span, tagValueExpr e.2 = true := fun e he =>
    tagValueExpr_of_get? hread (hcarried.current e he)
  obtain ⟨entries, hafter, hentries⟩ := datadogTags_handle hmax hold hne hvalues
  rw [hheader, some_inj] at hafter
  have hparts : ∀ s ∈ mandatory config span existing, s ∈ Str.split (unit ',') header := by
    intro s hs
    by_cases hnil : entries = []
    · rw [hafter, hnil, map_nil, append_nil,
        split_join (comma_notMem_mandatory hvalues) mandatory_ne_nil]
      exact hs
    · rw [hafter, split_header hvalues hnil]
      exact mem_append_left _ hs
  refine ⟨fun s hs => ?_, hvalues, ?_, fun id hid hroom => ?_, fun hnone s hs hname => ?_⟩
  · exact accepted_of_readTags hread s (hparts s (mem_append_left _ hs))
  · refine le_trans ?_ hlength
    rw [hafter]
    exact length_join_le _ _
  · -- the id was appended, so that its first part is read
    have happended : entries ≠ [] := by
      intro hnil
      exact absurd hroom (Nat.not_le.mpr (hentries.absent hnil id hid))
    obtain ⟨tail, htail⟩ : ∃ tail, Str.join (unit ',') (entries.map tagPair) =
        tagPair (PROPAGATED_PARENT_AGENT_ID_KEY, id ++ tail) := by
      rcases hentries.shape with hnil | ⟨id', hid', hshape⟩
      · exact absurd hnil happended
      · have heq : id' = id := some_inj.mp (hid'.symm.trans hid)
        subst heq
        rcases hshape with rfl | ⟨name, -, -, rfl⟩
        · exact ⟨[], by simp⟩
        · rw [map_cons, map_singleton, join_cons _ _ (by simp)]
          simp [tagPair]
    obtain ⟨a, ha⟩ := exists_mem_split
      (show unit ',' ∉ PROPAGATED_PARENT_AGENT_ID_KEY by decide) (id ++ tail)
    have hspec := key_spec (mem_append_right CURRENT_KEYS mem_agentId)
    have hmem : tagPair (PROPAGATED_PARENT_AGENT_ID_KEY, a) ∈ Str.split (unit ',') header := by
      rw [hafter, split_header hvalues happended, htail]
      exact mem_append_right _ ha
    obtain ⟨v, hv⟩ := exists_get? hread hmem (by exact hspec.2.2)
    rw [← hcarried.agentId id hid v hv]
    exact tagValueExpr_of_get? hread hv
  · have hmem := hparts s (mem_append_left _ hs)
    have hspec := key_spec (mem_append_right CURRENT_KEYS mem_agentName)
    obtain ⟨v, hv⟩ := exists_get? hread hmem (by rw [hname]; exact hspec.2.2)
    rw [hname] at hv
    obtain ⟨-, id, hid, -⟩ := hcarried.agentName v hv
    rw [hnone] at hid
    cases hid

theorem tagValueExpr_of_wireSafe {name : Str} (h : agentNameWireSafe name = true) :
    tagValueExpr name = true := by
  rw [agentNameWireSafe, Bool.and_eq_true, List.all_eq_true] at h
  rw [tagValueExpr, List.all_eq_true]
  intro u hu
  have hcode := h.2 u hu
  have hcomma : (unit ',').toNat = 0x2C := rfl
  rw [Bool.and_eq_true, bne_iff_ne, inRange, Bool.and_eq_true, decide_eq_true_eq,
    decide_eq_true_eq] at hcode
  have hne : u.toNat ≠ 0x2C := fun heq => hcode.2 (UInt16.toNat.inj (heq.trans hcomma.symm))
  rw [Bool.or_eq_true, inRange, inRange, Bool.and_eq_true, Bool.and_eq_true]
  simp only [decide_eq_true_eq]
  omega

/-- The keys and values of the entries of an agent. -/
theorem AgentEntries.valid {segments : List Str} {entries : List (Str × Str)}
    (h : AgentEntries config span segments entries)
    (hid : ∀ id, agentIdOf span = some id → entries ≠ [] → tagValueExpr id = true) :
    ∀ e ∈ entries, e.1 ∈ AGENT_KEYS ∧ tagValueExpr e.2 = true := by
  intro e he
  rcases h.shape with rfl | ⟨id, hagent, rfl | ⟨name, -, hsafe, rfl⟩⟩
  · cases he
  · rw [mem_singleton.mp he]
    exact ⟨mem_agentId, hid id hagent (cons_ne_nil _ _)⟩
  · rcases mem_cons.mp he with rfl | he
    · exact ⟨mem_agentId, hid id hagent (cons_ne_nil _ _)⟩
    · rw [mem_singleton.mp he]
      exact ⟨mem_agentName, tagValueExpr_of_wireSafe hsafe⟩

/-- What is read of entries with keys of the list. -/
theorem filter_pairOf {entries : List (Str × Str)}
    (h : ∀ e ∈ entries, e.1 ∈ CURRENT_KEYS ++ AGENT_KEYS) :
    ((entries.map tagPair).map pairOf).filter isRead = entries := by
  have hmap : (entries.map tagPair).map pairOf = entries := by
    rw [List.map_map]
    refine (map_congr_left fun e he => ?_).trans (List.map_id entries)
    exact pairOf_tagPair (key_spec (h e he)).2.1
  rw [hmap, filter_eq_self]
  exact fun e he => isRead_iff.mpr fun htid => (key_spec (h e he)).2.2 htid.1

/-- No entry of a list of keys is one of another key. -/
theorem lastValue_eq_none {entries : List (Str × Str)} {keys : List Str} {k : Str}
    (h : ∀ e ∈ entries, e.1 ∈ keys) (hk : k ∉ keys) : OrderedMap.lastValue entries k = none := by
  rw [lastValue_eq_none_iff]
  intro hmem
  obtain ⟨e, he, rfl⟩ := List.mem_map.mp hmem
  exact hk (h e he)

theorem carries_of_wireable (hwritten : tagsHeader config.toConfig ctx = some existing)
    (hold : carrier.datadogTags = some existing) (h : Wireable config span existing) :
    Carries config span carrier := by
  obtain ⟨hmax, hne, hequals⟩ := written_spec hwritten
  obtain ⟨entries, hafter, hentries⟩ := datadogTags_handle hmax hold hne h.values
  have hvalid := hentries.valid fun id hid hnil => h.agentId id hid (hentries.id_room id hid hnil)
  have hcurrent : ∀ e ∈ entriesOf config span, e.1 ∈ CURRENT_KEYS ++ AGENT_KEYS := fun e he =>
    mem_append_left _ (key_mem_of_entriesOf he)
  have hagent : ∀ e ∈ entries, e.1 ∈ CURRENT_KEYS ++ AGENT_KEYS := fun e he =>
    mem_append_right _ (hvalid e he).1
  have hsplit : Str.split (unit ',') (Str.join (unit ',') (mandatory config span existing ++
      entries.map tagPair)) = mandatory config span existing ++ entries.map tagPair := by
    refine split_join (fun s hs => ?_) (append_ne_nil_of_left_ne_nil mandatory_ne_nil _)
    rcases mem_append.mp hs with hs | hs
    · exact comma_notMem_mandatory h.values s hs
    · obtain ⟨e, he, rfl⟩ := List.mem_map.mp hs
      exact comma_notMem (hagent e he) (hvalid e he).2
  have haccepted : ∀ s ∈ mandatory config span existing ++ entries.map tagPair,
      Accepted (pairOf s) := by
    intro s hs
    rw [mandatory, append_assoc, mem_append, mem_append] at hs
    rcases hs with hs | hs | hs
    · exact h.accepted s hs
    · obtain ⟨e, he, rfl⟩ := List.mem_map.mp hs
      exact accepted_tagPair (hcurrent e he) (h.values e he)
    · obtain ⟨e, he, rfl⟩ := List.mem_map.mp hs
      exact accepted_tagPair (hagent e he) (hvalid e he).2
  have hread := readTags_of_accepted haccepted .empty
  obtain ⟨tags, htags⟩ : ∃ tags, readTags (mandatory config span existing ++ entries.map tagPair)
      .empty = some tags := ⟨_, hread⟩
  have hget : ∀ k, tags.get? k = (OrderedMap.lastValue entries k).or
      ((OrderedMap.lastValue (entriesOf config span) k).or
        (OrderedMap.lastValue (((staying span existing).map pairOf).filter isRead) k)) := by
    intro k
    rw [get?_readTags htags, mandatory, map_append, map_append, filter_append, filter_append,
      filter_pairOf hcurrent, filter_pairOf hagent, lastValue_append, lastValue_append]
  have hfits : (Str.join (unit ',') (mandatory config span existing ++
      entries.map tagPair)).length ≤ config.tagsMaxLength := by
    by_cases hnil : entries = []
    · rw [hnil, map_nil, append_nil]
      exact h.room
    · exact hentries.room hnil
  have hheader : Str.join (unit ',') (mandatory config span existing ++ entries.map tagPair) ≠ [] :=
    join_ne_nil (mem_append_left _ (mem_append_right _ (List.mem_map_of_mem parent_mem_entriesOf)))
  have hextract := extractTags_of_readTags hafter hheader hmax hfits (hsplit.symm ▸ htags)
  -- an old entry of an agent is read only where the span has none
  have hstay : ∀ k ∈ AGENT_KEYS, ∀ v,
      OrderedMap.lastValue (((staying span existing).map pairOf).filter isRead) k = some v →
      agentIdOf span = none ∧ ∃ s ∈ staying span existing, (pairOf s).1 = k := by
    intro k hk v hv
    obtain ⟨s, hs, hpair⟩ :=
      List.mem_map.mp (mem_of_mem_filter (mem_of_lastValue hv))
    have hkey : (pairOf s).1 = k := congrArg Prod.fst hpair
    refine ⟨?_, s, hs, hkey⟩
    by_contra hsome
    have hnone := staying_spec hequals (isSome_iff_ne_none.mpr hsome) hs
    rw [hkey] at hnone
    exact hnone hk
  have hcur : ∀ k ∈ AGENT_KEYS, OrderedMap.lastValue (entriesOf config span) k = none := by
    intro k hk
    exact lastValue_eq_none (fun e he => key_mem_of_entriesOf he) fun hc => current_ne_agent hc hk
  refine ⟨_, tags, hafter, hfits, hextract, ?_⟩
  refine ⟨fun old hextract k hk v hv => ?_, fun e he => ?_, fun id hid v hv => ?_,
    fun name hname => ?_⟩
  · rw [mem_append, not_or] at hk
    have hreadOld := readTags_of_extractTags hold hextract
    rw [get?_readTags hreadOld] at hv
    rw [hget, lastValue_eq_none (fun e he => (hvalid e he).1) hk.2,
      lastValue_eq_none (fun e he => key_mem_of_entriesOf he) hk.1, none_or, none_or,
      staying, lastValue_filter, hv]
    intro s hs hgone hkey
    rw [Bool.not_eq_false', Bool.and_eq_true, Bool.or_eq_true] at hgone
    have hread : ∀ {key : Str}, key ∈ AGENT_KEYS → isEntryOf key s = true → False := by
      intro key hmem hentry
      have hspec := key_spec (mem_append_right CURRENT_KEYS hmem)
      rw [isEntryOf_iff hspec.2.1 (hequals s hs), hkey] at hentry
      exact hk.2 (hentry ▸ hmem)
    rcases hgone.2 with hentry | hentry
    · exact hread mem_agentId hentry
    · exact hread mem_agentName hentry
  · have hlast : OrderedMap.lastValue (entriesOf config span) e.1 = some e.2 :=
      (lastValue_eq_some_iff nodup_keys_entriesOf).mpr he
    rw [hget, lastValue_eq_none (fun e he => (hvalid e he).1)
      (current_ne_agent (key_mem_of_entriesOf he)), hlast, none_or, some_or]
  · rw [hget, hcur _ mem_agentId] at hv
    rcases hentries.shape with hnil | ⟨id', hid', rfl | ⟨name, -, -, rfl⟩⟩
    · rw [hnil, OrderedMap.lastValue] at hv
      obtain ⟨hnone, -⟩ := hstay _ mem_agentId v hv
      rw [hnone] at hid
      cases hid
    · have heq : id' = id := some_inj.mp (hid'.symm.trans hid)
      rw [OrderedMap.lastValue, if_pos rfl, OrderedMap.lastValue, none_or, some_or, some_inj] at hv
      exact hv ▸ heq
    · have heq : id' = id := some_inj.mp (hid'.symm.trans hid)
      rw [OrderedMap.lastValue, OrderedMap.lastValue, if_pos rfl, if_neg agentName_ne_agentId,
        OrderedMap.lastValue, none_or, none_or, some_or, some_inj] at hv
      exact hv ▸ heq
  · rw [hget, hcur _ mem_agentName] at hname
    rcases hentries.shape with hnil | ⟨id, hid, rfl | ⟨name', hname', -, rfl⟩⟩
    · rw [hnil, OrderedMap.lastValue] at hname
      obtain ⟨hnone, s, hs, hkey⟩ := hstay _ mem_agentName name hname
      exact absurd hkey (h.agentName hnone s hs)
    · obtain ⟨hnone, -⟩ := hstay _ mem_agentName name hname
      rw [hnone] at hid
      cases hid
    · refine ⟨hname ▸ hname', id, hid, ?_⟩
      rw [hget, OrderedMap.lastValue, OrderedMap.lastValue, if_pos rfl, if_neg agentName_ne_agentId,
        OrderedMap.lastValue, none_or, none_or, some_or]

/-- **The header of a request that an LLMObs span makes.**  Where the propagator wrote a header, the
one after the hook fits the budget, is accepted by the extractor, has the tags that were there,
carries the values of the span and has of an agent that of the span or no name, exactly when the
entries that stay are accepted, the values of the span are tag values and fit beside them, the id of
its agent is one unless it is left out, and no name of an agent arrived when the span has none. -/
theorem carries_iff_wireable (hwritten : tagsHeader config.toConfig ctx = some existing)
    (hold : carrier.datadogTags = some existing) :
    Carries config span carrier ↔ Wireable config span existing :=
  ⟨wireable_of_carries hwritten hold, carries_of_wireable hwritten hold⟩

end Main

/-- A context with one propagated tag. -/
def injectedContext : SpanContext where
  traceId := Identifier.word 1
  spanId := some (Identifier.word 2)
  trace := { tags := .ofEntries [(lit "_dd.p.dm", lit "-1")] }

/-- An LLMObs span of an app. -/
def llmobsSpan (mlApp : String) : ActiveSpan where
  spanId := Identifier.word 2
  name := lit "chat"
  tags := some { spanKind := lit "agent", mlApp := some (lit mlApp) }

/-- `carries_iff_wireable` at a span whose app is named by a word. -/
theorem carries_llmobsSpan :
    Carries {} (llmobsSpan "shop") { datadogTags := some (lit "_dd.p.dm=-1") } := by
  have hwritten : tagsHeader {} injectedContext = some (lit "_dd.p.dm=-1") := by decide
  refine (carries_iff_wireable hwritten rfl).mpr ⟨?_, ?_, ?_, ?_, ?_⟩
  · show ∀ s ∈ _, tagKeyExpr (pairOf s).1 = true ∧ tagValueExpr (pairOf s).2 = true
    decide +kernel
  · decide +kernel
  · decide +kernel
  · rintro id hid -
    have hnumber : some ((llmobsSpan "shop").spanId.toNumberString 10) = some id := hid
    rw [← some_inj.mp hnumber]
    decide +kernel
  · intro hnone
    cases hnone

/-- **A comma in the name of the app makes the receiver drop the whole header.** -/
theorem not_carries_comma : tagsHeader {} injectedContext = some (lit "_dd.p.dm=-1") ∧
      ¬ Carries {} (llmobsSpan "shop,eu") { datadogTags := some (lit "_dd.p.dm=-1") } := by
  refine ⟨by decide, ?_⟩
  rintro ⟨header, tags, -, -, hextract, -⟩
  have hnone : (extractTags ({} : Config) (handleLLMObsInjection {} (some (llmobsSpan "shop,eu"))
      { datadogTags := some (lit "_dd.p.dm=-1") })).isNone = true := by decide +kernel
  rw [isNone_iff_eq_none] at hnone
  rw [hnone] at hextract
  cases hextract

end DdTrace.Llmobs
