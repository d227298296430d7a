import DdTrace.Propagation.B3RoundTrip
import DdTrace.Propagation.Baggage

/-!
# Extraction over several styles

`_extractSpanContext` of `opentracing/propagation/text_map.js`.  The configured styles are tried in
order, and the first that yields a context gives its trace.  A later style yields a link when its
trace is another one.  When `tracecontext` comes later with the same trace and another span, its
span takes over, and the Datadog parent is recorded in a tag: the value `p` of `tracestate`, else
the parent id of the Datadog headers.

Two tests of sameness stand in the code where one is meant.  Trace ids are compared as text, where
a tag in upper case differs from the digits of `traceparent`; and the Datadog headers are not
compared at all before their parent id is recorded, although `_extractDatadogContext` compares them
before it borrows from `traceparent`.

* `extractLoop_found`: the loop after the first context, in one step.
* `resolve_eq`: what becomes of the first context when `traceparent` comes later.
* `links_iff`, `followsFirst_overtake_iff`: where the links and the recorded parent are right.
* `extract_iff`: extraction follows the first context, exactly when neither test goes wrong.
-/

namespace DdTrace.TextMap

open Library List Option OrderedMap

/-! ## The loop -/

inductive BehaviorExtract where
  | continue
  | restart
  | ignore
  deriving DecidableEq

/-- What `_extractSpanContext` reads from the configuration. -/
structure ExtractConfig extends Config where
  /-- The alias `b3` stands for the single header. -/
  b3IsSingle : Bool := true
  behaviorExtract : BehaviorExtract := .continue
  baggage : Baggage.Config := {}

/-- The headers of a request with `baggage`, and the carrier that the header of SQS holds. -/
structure Headers extends Carrier where
  baggage : Option Str := none
  sqsd : Option Carrier := none

/-- A span link. -/
structure Link where
  context : SpanContext
  reason : Str
  contextHeaders : Str
  deriving DecidableEq

def tracecontext : Str := lit "tracecontext"

/-- The methods of `EXTRACT_STYLE_METHODS`, and of the alias. -/
def extractStyle (config : ExtractConfig) (style : Str) (random : Identifier) (headers : Headers) :
    Option SpanContext :=
  if style = lit "b3" then
    if config.b3IsSingle then extractB3SingleContext random headers.toCarrier
    else extractB3MultiContext random headers.toCarrier
  else if style = lit "datadog" then
    extractDatadogContext config.toConfig random headers.toCarrier
  else if style = tracecontext then extractTraceparentContext random headers.toCarrier
  else if style = lit "b3 single header" then extractB3SingleContext random headers.toCarrier
  else if style = lit "b3multi" then extractB3MultiContext random headers.toCarrier
  else none

/-- `toSpanId()`, in decimal.  A context without a span id makes it throw. -/
def toSpanIdDecimal (ctx : SpanContext) : Option Str :=
  ctx.spanId.map fun i => i.toNumberString 10

/-- `_hasTraceIdConflict`. -/
def hasTraceIdConflict (first : SpanContext) : Option SpanContext → Option Bool
  | none => some false
  | some w3c =>
    if first.toTraceId = w3c.toTraceId then do
      let a ← toSpanIdDecimal first
      let b ← toSpanIdDecimal w3c
      some (a != b)
    else some false

/-- `_updateParentIdFromDdHeaders`, from the context of the Datadog headers. -/
def updateParentIdFromDdHeaders (dd : Option SpanContext) (first : SpanContext) : SpanContext :=
  match dd.bind SpanContext.toSpanId with
  | some parentId => setTraceTag first DD_PARENT_ID parentId
  | none => first

/-- The first context, once the span of `tracecontext` has taken over. -/
def overtake (dd : Option SpanContext) (first w3c : SpanContext) : SpanContext :=
  let first :=
    match w3c.trace.tags.get? DD_PARENT_ID with
    | some p => setTraceTag first DD_PARENT_ID p
    | none => updateParentIdFromDdHeaders dd first
  { first with spanId := w3c.spanId }

/-- `_resolveTraceContextConflicts`. -/
def resolveTraceContextConflicts (dd : Option SpanContext) (first : SpanContext)
    (w3c : Option SpanContext) : Option SpanContext := do
  let conflict ← hasTraceIdConflict first w3c
  match w3c with
  | some w3c => if conflict then some (overtake dd first w3c) else some first
  | none => some first

/-- The variables of the loop. -/
structure Found where
  context : SpanContext
  style : Str
  links : List Link := []

/-- The link to the context of a later style. -/
def linkTo (context : SpanContext) (e : Str × SpanContext) : Option Link :=
  if e.2.spanId ≠ none ∧ e.2.toTraceId ≠ context.toTraceId then
    some ⟨e.2, lit "terminated_context", e.1⟩
  else none

/-- A style that has yielded a context after another one. -/
def extractNext (config : ExtractConfig) (headers : Headers) (random : Identifier) (found : Found)
    (style : Str) (extracted : SpanContext) : Option Found := do
  let context ←
    if style = tracecontext then
      resolveTraceContextConflicts (extractDatadogContext config.toConfig random headers.toCarrier)
        found.context (extractTraceparentContext random headers.toCarrier)
    else some found.context
  some { found with context, links := found.links ++ (linkTo context (style, extracted)).toList }

/-- The loop over the styles.  Each comes with the random identifier that it would draw. -/
def extractLoop (config : ExtractConfig) (headers : Headers) :
    Option Found → List (Str × Identifier) → Option (Option Found)
  | found, [] => some found
  | found, (style, random) :: l =>
    match extractStyle config style random headers, found with
    | none, found => extractLoop config headers found l
    | some extracted, none =>
      if config.extractFirst then some (some { context := extracted, style })
      else extractLoop config headers (some { context := extracted, style }) l
    | some extracted, some found => do
      let found ← extractNext config headers random found style extracted
      extractLoop config headers (some found) l

/-- What extraction hands out.  The store of baggage may be left alone. -/
structure Extracted where
  context : Option SpanContext
  links : List Link
  baggage : Option Baggage.Store

/-- `_extractBaggageItems`, with its tags on the context. -/
def withBaggage (config : ExtractConfig) (headers : Headers) (context : Option SpanContext) :
    Option SpanContext × Baggage.Store :=
  let (store, tags) :=
    Baggage.extractBaggageItems config.baggage headers.baggage (context.map (·.trace.tags))
  (context.map fun ctx =>
    { ctx with trace := { ctx.trace with tags := tags.getD ctx.trace.tags } }, store)

/-- `_extractSqsdContext`. -/
def extractSqsdContext (config : ExtractConfig) (random : Identifier) (headers : Headers) :
    Option SpanContext :=
  headers.sqsd.bind fun carrier => extractDatadogContext config.toConfig random carrier

/-- `_extractSpanContext`.  The link of a restart holds the context itself. -/
def extractSpanContext (config : ExtractConfig) (headers : Headers) (random : Identifier)
    (styles : List (Str × Identifier)) : Option Extracted :=
  (extractLoop config headers none styles).map fun found =>
    let context := found.map Found.context
    let links := (found.map Found.links).getD []
    match config.behaviorExtract with
    | .ignore => ⟨context.or (extractSqsdContext config random headers), [], none⟩
    | .restart =>
      let (context, store) := withBaggage config headers context
      let links := match context, found with
        | some ctx, some found => [⟨ctx, lit "propagation_behavior_extract", found.style⟩]
        | _, _ => []
      ⟨context.or (extractSqsdContext config random headers), links, some store⟩
    | .continue =>
      let (context, store) := withBaggage config headers context
      ⟨context.or (extractSqsdContext config random headers), links, some store⟩

/-! ## Identifiers that are not random -/

theorem createBuffer_congr {value : Str} (h : value ≠ []) (r r' : Identifier) :
    Identifier.createBuffer r value = Identifier.createBuffer r' value := by
  unfold Identifier.createBuffer
  rw [dif_neg h, dif_neg h]

theorem ne_nil_of_takeHex {n : ℕ} {s t u : Str} (h : takeHex (n + 1) s = some (t, u)) :
    t ≠ [] := by
  rw [takeHex, ite_none_right_eq_some, some_inj] at h
  obtain ⟨hhex, rfl, -⟩ := h
  rw [isHexOfLength, Bool.and_eq_true] at hhex
  intro hnil
  rw [hnil] at hhex
  cases hhex.1

theorem ne_nil_of_matchTraceparent {s : Str} {m : TraceparentMatch}
    (h : matchTraceparent s = some m) : m.traceId ≠ [] ∧ m.spanId ≠ [] := by
  simp only [matchTraceparent, bind_eq_bind, bind_eq_some_iff, Prod.exists, some_inj] at h
  obtain ⟨version, s1, -, s2, -, traceId, s3, htrace, s4, -, spanId, s5, hspan, h⟩ := h
  obtain ⟨s6, -, flags, s7, -, tail, -, rfl⟩ := h
  exact ⟨ne_nil_of_takeHex htrace, ne_nil_of_takeHex hspan⟩

/-- No identifier of `traceparent` is random. -/
theorem extractTraceparentContext_congr (r r' : Identifier) (carrier : Carrier) :
    extractTraceparentContext r carrier = extractTraceparentContext r' carrier := by
  unfold extractTraceparentContext
  rcases carrier.traceparent.filter (· ≠ []) with _ | headerValue
  · rfl
  simp only [bind_eq_bind, bind_some]
  rcases hm : (matchTraceparent (Str.trim headerValue)).filter fun m => !isRejected m with _ | m
  · rfl
  · obtain ⟨htrace, hspan⟩ := ne_nil_of_matchTraceparent (filter_eq_some_iff.mp hm).1
    simp only [bind_some, Identifier.id, if_true]
    rw [createBuffer_congr htrace r r', createBuffer_congr hspan r r']

/-- Nor is one of the Datadog headers, which are in decimal. -/
theorem extractDatadogContext_congr (config : Config) (r r' : Identifier) (carrier : Carrier) :
    extractDatadogContext config r carrier = extractDatadogContext config r' carrier := by
  unfold extractDatadogContext
  rw [extractTraceparentContext_congr r r']
  rfl

theorem spanId_extract128BitTraceId (t : Str) (ctx : SpanContext) :
    (extract128BitTraceId t ctx).spanId = ctx.spanId := by
  unfold extract128BitTraceId
  split
  · rfl
  · simp only
    split <;> rfl

/-- The context of `traceparent` has a span id. -/
theorem exists_spanId_of_traceparent {random : Identifier} {carrier : Carrier} {w3c : SpanContext}
    (h : extractTraceparentContext random carrier = some w3c) : ∃ i, w3c.spanId = some i := by
  simp only [extractTraceparentContext, bind_eq_bind, bind_eq_some_iff, some_inj] at h
  obtain ⟨_, -, m, -, traceId, -, spanId, -, rfl⟩ := h
  refine ⟨spanId, ?_⟩
  rw [contextOfMatch, (ids_foldl_extractDdEntry _ _).2, spanId_extract128BitTraceId]

/-! ## The later styles in one step -/

theorem filterMap_cons_eq_append {α β : Type*} (f : α → Option β) (a : α) (l : List α) :
    (a :: l).filterMap f = (f a).toList ++ l.filterMap f := by
  rw [filterMap_cons]
  rcases f a with _ | b <;> rfl

variable {config : ExtractConfig} {headers : Headers}

/-- The styles that yield a context, with the contexts. -/
def yields (config : ExtractConfig) (headers : Headers) (styles : List (Str × Identifier)) :
    List (Str × SpanContext) :=
  styles.filterMap fun s => (extractStyle config s.1 s.2 headers).map fun ctx => (s.1, ctx)

theorem yields_cons (s : Str × Identifier) (l : List (Str × Identifier)) :
    yields config headers (s :: l) =
      ((extractStyle config s.1 s.2 headers).map fun ctx => (s.1, ctx)).toList ++
        yields config headers l := by
  rw [yields, filterMap_cons]
  rcases extractStyle config s.1 s.2 headers with _ | ctx <;> rfl

theorem extractStyle_tracecontext (random : Identifier) :
    extractStyle config tracecontext random headers =
      extractTraceparentContext random headers.toCarrier := by
  rw [extractStyle, if_neg (by decide), if_neg (by decide), if_pos rfl]

theorem toTraceId_setTraceTag {key : Str} (h : TRACE_ID_128 ≠ key) (ctx : SpanContext)
    (value : Str) : (setTraceTag ctx key value).toTraceId = ctx.toTraceId := by
  have hget : (setTraceTag ctx key value).trace.tags.get? TRACE_ID_128 =
      ctx.trace.tags.get? TRACE_ID_128 := get?_set_of_ne _ h _
  rw [SpanContext.toTraceId, hget]
  rfl

theorem toTraceId_overtake (dd : Option SpanContext) (first w3c : SpanContext) :
    (overtake dd first w3c).toTraceId = first.toTraceId := by
  have hne : TRACE_ID_128 ≠ DD_PARENT_ID := by decide
  rw [overtake]
  rcases w3c.trace.tags.get? DD_PARENT_ID with _ | p
  · dsimp only [updateParentIdFromDdHeaders]
    rcases dd.bind SpanContext.toSpanId with _ | parentId
    · rfl
    · exact toTraceId_setTraceTag hne first parentId
  · exact toTraceId_setTraceTag hne first p

variable {ctx ctx' : SpanContext} {r : Identifier} {styles : List (Str × Identifier)}
  {e : Str × SpanContext} {tags : OrderedMap Str Str}

/-- A resolved context is the context itself, or one whose span is that of `traceparent`. -/
theorem eq_or_overtake_of_resolve {dd w3c : Option SpanContext}
    (h : resolveTraceContextConflicts dd ctx w3c = some ctx') :
    ctx' = ctx ∨ ∃ w, w3c = some w ∧ ctx' = overtake dd ctx w := by
  simp only [resolveTraceContextConflicts, bind_eq_bind, bind_eq_some_iff] at h
  obtain ⟨conflict, -, h⟩ := h
  rcases w3c with _ | w
  · exact .inl (some_inj.mp h).symm
  · dsimp only at h
    split at h
    · exact .inr ⟨w, rfl, (some_inj.mp h).symm⟩
    · exact .inl (some_inj.mp h).symm

theorem toTraceId_resolve {dd w3c : Option SpanContext}
    (h : resolveTraceContextConflicts dd ctx w3c = some ctx') : ctx'.toTraceId = ctx.toTraceId := by
  rcases eq_or_overtake_of_resolve h with rfl | ⟨w, -, rfl⟩
  · rfl
  · exact toTraceId_overtake dd ctx w

/-- The second time there is nothing to resolve. -/
theorem resolve_resolve {dd w3c : Option SpanContext}
    (hw : ∀ w, w3c = some w → ∃ i, w.spanId = some i)
    (h : resolveTraceContextConflicts dd ctx w3c = some ctx') :
    resolveTraceContextConflicts dd ctx' w3c = some ctx' := by
  rcases eq_or_overtake_of_resolve h with rfl | ⟨w, rfl, rfl⟩
  · exact h
  · obtain ⟨i, hi⟩ := hw w rfl
    have hspan : (overtake dd ctx w).spanId = some i := hi
    have hconflict : hasTraceIdConflict (overtake dd ctx w) (some w) = some false := by
      simp only [hasTraceIdConflict, toSpanIdDecimal, hspan, hi, map_some,
        bind_eq_bind, bind_some, bne_self_eq_false, ite_self]
    rw [resolveTraceContextConflicts, hconflict]
    rfl

theorem linkTo_congr (h : ctx'.toTraceId = ctx.toTraceId) :
    linkTo ctx' = linkTo ctx := by
  ext e
  rw [linkTo, linkTo, h]

theorem extractLoop_of_none {s : Str × Identifier} {l : List (Str × Identifier)}
    (h : extractStyle config s.1 s.2 headers = none) (found : Option Found) :
    extractLoop config headers found (s :: l) = extractLoop config headers found l := by
  rw [extractLoop.eq_def]
  simp only [h]

theorem extractLoop_of_some {s : Str × Identifier} {l : List (Str × Identifier)}
    {extracted : SpanContext} (h : extractStyle config s.1 s.2 headers = some extracted)
    (found : Found) :
    extractLoop config headers (some found) (s :: l) =
      (extractNext config headers s.2 found s.1 extracted).bind fun found =>
        extractLoop config headers (some found) l := by
  rw [extractLoop.eq_def]
  simp only [h]
  rfl

theorem extractNext_eq (random r : Identifier) (found : Found) (style : Str)
    (extracted : SpanContext) :
    extractNext config headers r found style extracted = (if style = tracecontext then
        resolveTraceContextConflicts
          (extractDatadogContext config.toConfig random headers.toCarrier) found.context
          (extractTraceparentContext random headers.toCarrier)
      else some found.context).map fun context => { found with
        context, links := found.links ++ (linkTo context (style, extracted)).toList } := by
  rw [← extractDatadogContext_congr _ r random, ← extractTraceparentContext_congr r random]
  unfold extractNext
  split
  · rcases resolveTraceContextConflicts _ found.context _ with _ | ctx <;> rfl
  · rfl

/-- **The loop after the first context.**  It is resolved once, wherever `tracecontext` stands, and
the links follow in order. -/
theorem extractLoop_found (random : Identifier) (found : Found) (styles : List (Str × Identifier)) :
    extractLoop config headers (some found) styles =
      (if includes ((yields config headers styles).map Prod.fst) tracecontext then
        resolveTraceContextConflicts
          (extractDatadogContext config.toConfig random headers.toCarrier) found.context
          (extractTraceparentContext random headers.toCarrier)
      else some found.context).map fun context => some { found with
        context, links := found.links ++
          (yields config headers styles).filterMap (linkTo found.context) } := by
  induction styles generalizing found with
  | nil =>
    simp [extractLoop, yields]
  | cons s l ih =>
    obtain ⟨style, r⟩ := s
    rw [yields_cons]
    rcases hx : extractStyle config style r headers with _ | extracted
    · rw [extractLoop_of_none hx]
      exact ih found
    rw [extractLoop_of_some hx, map_some, toList_some, singleton_append,
      map_cons, filterMap_cons_eq_append, extractNext_eq random]
    by_cases hstyle : style = tracecontext
    · have hincludes : includes (style :: (yields config headers l).map Prod.fst) tracecontext =
          true := by
        rw [includes_eq_true_iff, hstyle]
        exact mem_cons_self
      rw [if_pos hstyle, hincludes]
      rcases hres : resolveTraceContextConflicts
          (extractDatadogContext config.toConfig random headers.toCarrier) found.context
          (extractTraceparentContext random headers.toCarrier) with _ | ctx
      · rfl
      · have hagain := resolve_resolve (fun w hw => exists_spanId_of_traceparent hw) hres
        have hlink := linkTo_congr (toTraceId_resolve hres)
        rw [map_some, bind_some, ih, hagain, ite_self, map_some, hlink, append_assoc]
        rfl
    · have hincludes : includes (style :: (yields config headers l).map Prod.fst) tracecontext =
          includes ((yields config headers l).map Prod.fst) tracecontext := by
        rw [includes, any_cons, decide_eq_false hstyle, Bool.false_or, includes]
      rw [if_neg hstyle, hincludes, map_some, bind_some, ih, append_assoc]

/-- The loop up to the first context. -/
theorem exists_extractLoop_first (hfirst : config.extractFirst = false)
    {later : List (Str × SpanContext)}
    (h : yields config headers styles = e :: later) :
    ∃ rest, yields config headers rest = later ∧ extractLoop config headers none styles =
      extractLoop config headers (some { context := e.2, style := e.1 }) rest := by
  induction styles with
  | nil => cases h
  | cons s l ih =>
    rw [yields_cons] at h
    rcases hx : extractStyle config s.1 s.2 headers with _ | extracted
    · rw [hx] at h
      obtain ⟨rest, hrest, hloop⟩ := ih h
      exact ⟨rest, hrest, (extractLoop_of_none hx none).trans hloop⟩
    · rw [hx, map_some, toList_some, singleton_append, List.cons.injEq] at h
      obtain ⟨rfl, hlater⟩ := h
      refine ⟨l, hlater, ?_⟩
      rw [extractLoop.eq_def]
      simp only [hx]
      rw [hfirst]
      rfl

theorem mem_yields (h : e ∈ yields config headers styles) :
    ∃ r, extractStyle config e.1 r headers = some e.2 := by
  obtain ⟨s, -, hs⟩ := mem_filterMap.mp h
  obtain ⟨ctx, hctx, rfl⟩ := map_eq_some_iff.mp hs
  exact ⟨s.2, hctx⟩

/-! ## The first context -/

/-- The number that a span id is. -/
def spanNumber (ctx : SpanContext) : Option ℕ :=
  ctx.spanId.map fun i => Bytes.ofBytes i.toArray

/-- What becomes of the first context when `traceparent` gives another one. -/
theorem resolve_eq (dd : Option SpanContext) (first : SpanContext) {w3c : SpanContext}
    (hw : ∃ i, w3c.spanId = some i) :
    resolveTraceContextConflicts dd first (some w3c) =
      if first.toTraceId = w3c.toTraceId then
        if first.spanId = none then none
        else if spanNumber first = spanNumber w3c then some first
        else some (overtake dd first w3c)
      else some first := by
  obtain ⟨j, hj⟩ := hw
  unfold resolveTraceContextConflicts hasTraceIdConflict toSpanIdDecimal spanNumber
  dsimp only
  by_cases htext : first.toTraceId = w3c.toTraceId
  · rw [if_pos htext, if_pos htext, hj]
    rcases first.spanId with _ | i
    · rfl
    · have hiff : i.toNumberString 10 = j.toNumberString 10 ↔
          Bytes.ofBytes i.toArray = Bytes.ofBytes j.toArray := by
        rw [Identifier.toNumberString_eq, Identifier.toNumberString_eq]
        exact ⟨Str.natString_injective, fun h => by rw [h]⟩
      simp only [map_some, bind_eq_bind, bind_some, bne_iff_ne, ne_eq,
        some_inj, hiff, ite_not, reduceCtorEq, if_false]
  · rw [if_neg htext, if_neg htext]
    rfl

theorem get?_overtake {k : Str} (h : k ≠ DD_PARENT_ID) (dd : Option SpanContext)
    (first w3c : SpanContext) :
    (overtake dd first w3c).trace.tags.get? k = first.trace.tags.get? k := by
  rw [overtake]
  rcases w3c.trace.tags.get? DD_PARENT_ID with _ | p
  · dsimp only [updateParentIdFromDdHeaders]
    rcases dd.bind SpanContext.toSpanId with _ | parentId
    · rfl
    · exact get?_set_of_ne _ h _
  · exact get?_set_of_ne _ h _

theorem get?_overtake_parent (dd : Option SpanContext) (first w3c : SpanContext) :
    (overtake dd first w3c).trace.tags.get? DD_PARENT_ID =
      ((w3c.trace.tags.get? DD_PARENT_ID).or (dd.bind SpanContext.toSpanId)).or
        (first.trace.tags.get? DD_PARENT_ID) := by
  rw [overtake]
  rcases w3c.trace.tags.get? DD_PARENT_ID with _ | p
  · dsimp only [updateParentIdFromDdHeaders]
    rcases dd.bind SpanContext.toSpanId with _ | parentId
    · rfl
    · exact get?_set_self _ _ _
  · exact get?_set_self _ _ _

theorem fields_overtake (dd : Option SpanContext) (first w3c : SpanContext) :
    (overtake dd first w3c).traceId = first.traceId ∧
      (overtake dd first w3c).sampling = first.sampling ∧
      (overtake dd first w3c).trace.origin = first.trace.origin := by
  rw [overtake]
  rcases w3c.trace.tags.get? DD_PARENT_ID with _ | p
  · dsimp only [updateParentIdFromDdHeaders]
    rcases dd.bind SpanContext.toSpanId with _ | parentId <;> exact ⟨rfl, rfl, rfl⟩
  · exact ⟨rfl, rfl, rfl⟩

/-- The tags of the Datadog header have the prefix. -/
theorem isPrefixOf_of_readTags {l : List Str} {tags' : OrderedMap Str Str}
    (h : readTags l tags = some tags') (hkeys : ∀ k ∈ tags.keys, tagPrefix.isPrefixOf k = true) :
    ∀ k ∈ tags'.keys, tagPrefix.isPrefixOf k = true := by
  induction l generalizing tags with
  | nil =>
    rw [readTags, some_inj] at h
    exact h ▸ hkeys
  | cons segment rest ih =>
    rw [readTags] at h
    dsimp only at h
    split at h
    · cases h
    · next hvalid =>
      rw [not_or, Bool.not_eq_false] at hvalid
      split at h
      · exact ih h hkeys
      · refine ih h fun k hk => ?_
        rcases mem_keys_set.mp hk with rfl | hk
        · have hkey := hvalid.1
          rw [tagKeyExpr, Bool.and_eq_true, Bool.and_eq_true] at hkey
          exact hkey.1.1
        · exact hkeys k hk

theorem get?_parentId_of_propagated (h : ∀ k ∈ tags.keys, tagPrefix.isPrefixOf k = true) :
    tags.get? DD_PARENT_ID = none := by
  rw [get?_eq_none_iff]
  intro hmem
  have hprefix := h _ hmem
  revert hprefix
  decide

theorem tags_extract128BitTraceId {k : Str} (h : k ≠ TRACE_ID_128) (t : Str) (ctx : SpanContext) :
    (extract128BitTraceId t ctx).trace.tags.get? k = ctx.trace.tags.get? k := by
  unfold extract128BitTraceId
  split
  · rfl
  · simp only
    split
    · rfl
    · exact get?_set_of_ne _ h _

theorem tags_extractGenericContext {t i : Option Str} {radix : ℕ}
    (h : extractGenericContext r t i radix = some ctx) :
    ctx.trace.tags = .empty ∧ ∃ j, ctx.spanId = some j := by
  simp only [extractGenericContext, bind_eq_bind, bind_eq_some_iff, some_inj] at h
  obtain ⟨_, -, _, -, _, -, j, -, rfl⟩ := h
  exact ⟨rfl, j, rfl⟩

theorem parentId_extractB3Context {b3 : B3} (h : extractB3Context r b3 = some ctx) :
    ctx.trace.tags.get? DD_PARENT_ID = none := by
  have hne : DD_PARENT_ID ≠ TRACE_ID_128 := by decide
  unfold extractB3Context at h
  dsimp only at h
  split at h
  · cases h
  · rw [some_inj] at h
    rw [← h]
    rfl
  · next hgeneric _ =>
    rw [some_inj] at h
    rw [← h, tags_extract128BitTraceId hne, (tags_extractGenericContext hgeneric).1]
    rfl
  · next hgeneric _ =>
    rw [some_inj] at h
    rw [← h, tags_extract128BitTraceId hne]
    rw [(tags_extractGenericContext hgeneric).1]
    rfl

/-- The Datadog headers give a span id, and no parent in the tags. -/
theorem fields_extractDatadogContext {c : Config} {carrier : Carrier}
    (h : extractDatadogContext c r carrier = some ctx) :
    (∃ i, ctx.spanId = some i) ∧ ctx.trace.tags.get? DD_PARENT_ID = none := by
  simp only [extractDatadogContext, bind_eq_bind, bind_eq_some_iff] at h
  obtain ⟨ctx0, hgeneric, h⟩ := h
  obtain ⟨htags, i, hi⟩ := tags_extractGenericContext hgeneric
  have hread : (extractTraceTags c carrier
      (extractSamplingPriority carrier (extractOrigin carrier ctx0))).spanId = some i ∧
      (extractTraceTags c carrier (extractSamplingPriority carrier
        (extractOrigin carrier ctx0))).trace.tags.get? DD_PARENT_ID = none := by
    have horigin : (extractOrigin carrier ctx0).spanId = some i ∧
        (extractOrigin carrier ctx0).trace.tags = .empty := by
      unfold extractOrigin
      split <;> exact ⟨hi, htags⟩
    have hpriority : (extractSamplingPriority carrier (extractOrigin carrier ctx0)).spanId = some i ∧
        (extractSamplingPriority carrier (extractOrigin carrier ctx0)).trace.tags = .empty := by
      unfold extractSamplingPriority
      split <;> exact horigin
    unfold extractTraceTags
    split
    · next tags hextract =>
      simp only [extractTags, bind_eq_bind, bind_eq_some_iff] at hextract
      obtain ⟨_, -, hextract⟩ := hextract
      split at hextract
      · cases hextract
      split at hextract
      · cases hextract
      exact ⟨hpriority.1, get?_parentId_of_propagated
        (isPrefixOf_of_readTags hextract fun k hk => absurd hk not_mem_nil)⟩
    · exact ⟨hpriority.1, by rw [hpriority.2]; rfl⟩
  split at h
  · rw [some_inj] at h
    rw [← h]
    exact ⟨⟨i, hread.1⟩, hread.2⟩
  · rw [some_inj] at h
    rw [← h]
    unfold adoptTraceparent
    split
    · split <;> exact ⟨⟨i, hread.1⟩, hread.2⟩
    · exact ⟨⟨i, hread.1⟩, hread.2⟩

/-- Only `tracecontext` gives a context with a parent in its tags. -/
theorem parentId_of_ne_tracecontext {style : Str}
    (h : extractStyle config style r headers = some ctx) (hstyle : style ≠ tracecontext) :
    ctx.trace.tags.get? DD_PARENT_ID = none := by
  have hsingle : ∀ r, extractB3SingleContext r headers.toCarrier = some ctx →
      ctx.trace.tags.get? DD_PARENT_ID = none := by
    intro r h
    simp only [extractB3SingleContext, bind_eq_bind, bind_eq_some_iff] at h
    obtain ⟨_, -, h⟩ := h
    exact parentId_extractB3Context h
  have hmulti : ∀ r, extractB3MultiContext r headers.toCarrier = some ctx →
      ctx.trace.tags.get? DD_PARENT_ID = none := by
    intro r h
    obtain ⟨_, -, h⟩ := bind_eq_some_iff.mp h
    exact parentId_extractB3Context h
  rw [extractStyle] at h
  split at h
  · split at h
    · exact hsingle r h
    · exact hmulti r h
  split at h
  · exact (fields_extractDatadogContext h).2
  split at h
  · exact hsingle r h
  split at h
  · exact hmulti r h
  · cases h

/-! ## Baggage on the context -/

/-- Baggage writes no tags but its own. -/
theorem withBaggage_some (config : ExtractConfig) (headers : Headers) (ctx : SpanContext) :
    ∃ tags store, withBaggage config headers (some ctx) =
      (some { ctx with trace := { ctx.trace with tags } }, store) ∧
      ∀ k, Baggage.tagPrefix.isPrefixOf k = false → tags.get? k = ctx.trace.tags.get? k := by
  obtain ⟨tags, htags, hkept⟩ :=
    Baggage.exists_tags_extractBaggageItems config.baggage headers.baggage ctx.trace.tags
  refine ⟨tags, (Baggage.extractBaggageItems config.baggage headers.baggage
    (some ctx.trace.tags)).1, ?_, hkept⟩
  rw [withBaggage, map_some]
  dsimp only
  rw [htags]
  rfl

/-- Extraction of a request that some style reads. -/
theorem extractSpanContext_eq (hfirst : config.extractFirst = false)
    (hcontinue : config.behaviorExtract = .continue) (random : Identifier)
    {later : List (Str × SpanContext)}
    (h : yields config headers styles = e :: later) :
    extractSpanContext config headers random styles =
      (if includes (later.map Prod.fst) tracecontext then
        resolveTraceContextConflicts
          (extractDatadogContext config.toConfig random headers.toCarrier) e.2
          (extractTraceparentContext random headers.toCarrier)
      else some e.2).map fun ctx =>
        ⟨(withBaggage config headers (some ctx)).1, later.filterMap (linkTo e.2),
          some (withBaggage config headers (some ctx)).2⟩ := by
  obtain ⟨rest, hrest, hloop⟩ := exists_extractLoop_first hfirst h
  rw [extractSpanContext, hloop, extractLoop_found random, hrest, hcontinue, Option.map_map]
  refine Option.map_congr fun ctx _ => ?_
  obtain ⟨tags, store, hbaggage, -⟩ := withBaggage_some config headers ctx
  simp only [Function.comp_apply, map_some, hbaggage, some_or, getD_some, List.nil_append]

/-! ## Following the first context -/

/-- A later `traceparent` of the same 128-bit trace has another span. -/
def Overtakes (later : List (Str × SpanContext)) (first w3c : SpanContext) : Prop :=
  (tracecontext, w3c) ∈ later ∧ traceIdNumber w3c = traceIdNumber first ∧
    spanNumber w3c ≠ spanNumber first

/-- The last Datadog parent: the value `p`, else the span id of the Datadog headers of the trace. -/
def lastParent (dd : Option SpanContext) (first w3c : SpanContext) : Option Str :=
  (w3c.trace.tags.get? DD_PARENT_ID).or
    ((dd.filter fun d => traceIdNumber d = traceIdNumber first).bind SpanContext.toSpanId)

/-- The link to a later context, when it has ids and is of another trace. -/
def otherTrace (first : SpanContext) (e : Str × SpanContext) : Option Link :=
  if e.2.spanId ≠ none ∧ traceIdNumber e.2 ≠ traceIdNumber first then
    some ⟨e.2, lit "terminated_context", e.1⟩
  else none

/-- What extraction over several styles is meant to hand out. -/
structure FollowsFirst (dd : Option SpanContext) (first : SpanContext)
    (later : List (Str × SpanContext)) (out : SpanContext) (links : List Link) : Prop where
  traceId : out.traceId = first.traceId
  priority : out.sampling.priority = first.sampling.priority
  origin : out.trace.origin = first.trace.origin
  tags : ∀ k, tagPrefix.isPrefixOf k = true → out.trace.tags.get? k = first.trace.tags.get? k
  overtaken : ∀ w3c, Overtakes later first w3c → out.spanId = w3c.spanId ∧
    out.trace.tags.get? DD_PARENT_ID = lastParent dd first w3c
  kept : (∀ w3c, ¬ Overtakes later first w3c) → out.spanId = first.spanId
  links : links = later.filterMap (otherTrace first)

/-- Where the code's two tests of sameness mean the same trace. -/
structure Unmixed (dd : Option SpanContext) (first : SpanContext)
    (later : List (Str × SpanContext)) : Prop where
  /-- A later context of the trace writes its id like the first one. -/
  text : ∀ e ∈ later, e.2.spanId ≠ none → traceIdNumber e.2 = traceIdNumber first →
    e.2.toTraceId = first.toTraceId
  /-- A first context without ids, whose trace id is random, does not meet that id. -/
  span : ∀ w3c, (tracecontext, w3c) ∈ later → traceIdNumber w3c = traceIdNumber first →
    first.spanId ≠ none
  /-- Datadog headers that would lend their parent id are of the trace. -/
  parent : ∀ w3c, Overtakes later first w3c → w3c.trace.tags.get? DD_PARENT_ID = none →
    ∀ d, dd = some d → traceIdNumber d = traceIdNumber first

theorem links_iff (first : SpanContext) (later : List (Str × SpanContext)) :
    later.filterMap (linkTo first) = later.filterMap (otherTrace first) ↔
      ∀ e ∈ later, e.2.spanId ≠ none → traceIdNumber e.2 = traceIdNumber first →
        e.2.toTraceId = first.toTraceId := by
  constructor
  · intro h e he hspan hnumber
    by_contra htext
    have hlink : (⟨e.2, lit "terminated_context", e.1⟩ : Link) ∈
        later.filterMap (otherTrace first) := by
      rw [← h]
      exact mem_filterMap.mpr ⟨e, he, if_pos ⟨hspan, htext⟩⟩
    obtain ⟨e', -, hlink⟩ := mem_filterMap.mp hlink
    rw [otherTrace, ite_none_right_eq_some, some_inj, Link.mk.injEq] at hlink
    obtain ⟨⟨-, hne⟩, hctx, -⟩ := hlink
    rw [hctx] at hne
    exact hne hnumber
  · intro h
    refine filterMap_congr fun e he => ?_
    rw [linkTo, otherTrace]
    by_cases hspan : e.2.spanId = none
    · rw [if_neg (fun hl => hl.1 hspan), if_neg (fun hl => hl.1 hspan)]
    · by_cases hnumber : traceIdNumber e.2 = traceIdNumber first
      · rw [if_neg (fun hl => hl.2 (h e he hspan hnumber)), if_neg (fun hl => hl.2 hnumber)]
      · have htext : e.2.toTraceId ≠ first.toTraceId := fun ht =>
          hnumber (congrArg (Str.readDigits 16 0) ht)
        rw [if_pos ⟨hspan, htext⟩, if_pos ⟨hspan, hnumber⟩]

variable {dd w3c : Option SpanContext} {first : SpanContext} {later : List (Str × SpanContext)}

/-- The first context as it is, when no other span takes over. -/
theorem followsFirst_self_iff (h : ∀ w, ¬ Overtakes later first w) (links : List Link) :
    FollowsFirst dd first later first links ↔ links = later.filterMap (otherTrace first) := by
  constructor
  · exact fun hf => hf.links
  · exact fun hl => ⟨rfl, rfl, rfl, fun _ _ => rfl, fun w hw => absurd hw (h w), fun _ => rfl, hl⟩

/-- The first context with the span of `traceparent`. -/
theorem followsFirst_overtake_iff (hdd : ∀ d, dd = some d → ∃ i, d.spanId = some i)
    (hparent : first.trace.tags.get? DD_PARENT_ID = none) {w : SpanContext}
    (hw : Overtakes later first w) (hunique : ∀ w', Overtakes later first w' → w' = w)
    (links : List Link) :
    FollowsFirst dd first later (overtake dd first w) links ↔
      links = later.filterMap (otherTrace first) ∧ (w.trace.tags.get? DD_PARENT_ID = none →
        ∀ d, dd = some d → traceIdNumber d = traceIdNumber first) := by
  have hlast : (overtake dd first w).trace.tags.get? DD_PARENT_ID = lastParent dd first w ↔
      (w.trace.tags.get? DD_PARENT_ID = none →
        ∀ d, dd = some d → traceIdNumber d = traceIdNumber first) := by
    rw [get?_overtake_parent, hparent, lastParent]
    rcases w.trace.tags.get? DD_PARENT_ID with _ | p
    · rcases dd with _ | d
      · simp
      · obtain ⟨i, hi⟩ := hdd d rfl
        rw [filter_some]
        by_cases hd : traceIdNumber d = traceIdNumber first
        · simp [hd]
        · simp [hd, SpanContext.toSpanId, hi]
    · simp
  constructor
  · exact fun hf => ⟨hf.links, hlast.mp (hf.overtaken w hw).2⟩
  · rintro ⟨hlinks, hsame⟩
    obtain ⟨htrace, hsampling, horigin⟩ := fields_overtake dd first w
    refine ⟨htrace, by rw [hsampling], horigin, fun k hk => get?_overtake ?_ dd first w,
      fun w' hw' => ?_, fun h => absurd hw (h w), hlinks⟩
    · rintro rfl
      revert hk
      decide
    · rw [hunique w' hw']
      exact ⟨rfl, hlast.mpr hsame⟩

/-- What becomes of the first context follows it, exactly when the tests of sameness do not
err. -/
theorem follows_iff (hw3c : ∀ w, (tracecontext, w) ∈ later → w3c = some w ∧ ∃ i, w.spanId = some i)
    (hdd : ∀ d, dd = some d → ∃ i, d.spanId = some i)
    (hparent : ∀ w, Overtakes later first w → first.trace.tags.get? DD_PARENT_ID = none) :
    (∃ ctx, (if includes (later.map Prod.fst) tracecontext then
        resolveTraceContextConflicts dd first w3c else some first) = some ctx ∧
        FollowsFirst dd first later ctx (later.filterMap (linkTo first))) ↔
      Unmixed dd first later := by
  -- without another span, what is left is to tell the links apart
  have hself : (∀ w, ¬ Overtakes later first w) → (∀ w, (tracecontext, w) ∈ later →
      traceIdNumber w = traceIdNumber first → first.spanId ≠ none) →
      ((∃ ctx, some first = some ctx ∧
        FollowsFirst dd first later ctx (later.filterMap (linkTo first))) ↔
        Unmixed dd first later) := by
    intro hno hspan
    constructor
    · rintro ⟨ctx, hctx, hf⟩
      rw [← some_inj.mp hctx, followsFirst_self_iff hno, links_iff] at hf
      exact ⟨hf, hspan, fun w hw => absurd hw (hno w)⟩
    · intro hu
      exact ⟨first, rfl, (followsFirst_self_iff hno _).mpr ((links_iff first later).mpr hu.text)⟩
  by_cases hmem : ∃ w, (tracecontext, w) ∈ later
  · obtain ⟨w, hw⟩ := hmem
    obtain ⟨rfl, hspanw⟩ := hw3c w hw
    have hunique : ∀ w', (tracecontext, w') ∈ later → w' = w := fun w' hw' =>
      (some_inj.mp (hw3c w' hw').1).symm
    have hincludes : includes (later.map Prod.fst) tracecontext = true :=
      includes_eq_true_iff.mpr (List.mem_map_of_mem hw)
    rw [hincludes, resolve_eq dd first hspanw]
    by_cases htext : first.toTraceId = w.toTraceId
    · have hnumber : traceIdNumber w = traceIdNumber first :=
        congrArg (Str.readDigits 16 0) htext.symm
      rw [if_pos htext]
      by_cases hspan : first.spanId = none
      · rw [if_pos hspan]
        constructor
        · rintro ⟨ctx, hctx, -⟩
          cases hctx
        · exact fun hu => absurd hspan (hu.span w hw hnumber)
      rw [if_neg hspan]
      by_cases hnum : spanNumber first = spanNumber w
      · rw [if_pos hnum]
        refine hself (fun w' hw' => ?_) fun _ _ _ => hspan
        rw [hunique w' hw'.1] at hw'
        exact hw'.2.2 hnum.symm
      · have hover : Overtakes later first w := ⟨hw, hnumber, fun h => hnum h.symm⟩
        have hfollows := followsFirst_overtake_iff hdd (hparent w hover) hover
          (fun w' hw' => hunique w' hw'.1) (later.filterMap (linkTo first))
        rw [links_iff] at hfollows
        rw [if_neg hnum]
        constructor
        · rintro ⟨ctx, hctx, hf⟩
          rw [← some_inj.mp hctx, hfollows] at hf
          refine ⟨hf.1, fun _ _ _ => hspan, fun w' hw' => ?_⟩
          rw [hunique w' hw'.1]
          exact hf.2
        · exact fun hu => ⟨_, rfl, hfollows.mpr ⟨hu.text, hu.parent w hover⟩⟩
    · rw [if_neg htext]
      by_cases hnumber : traceIdNumber w = traceIdNumber first
      · -- the same trace under another text: the link gives it away
        have hnot : ¬ ∀ e ∈ later, e.2.spanId ≠ none → traceIdNumber e.2 = traceIdNumber first →
            e.2.toTraceId = first.toTraceId := by
          intro h
          obtain ⟨i, hi⟩ := hspanw
          exact htext (h _ hw (by rw [hi]; simp) hnumber).symm
        constructor
        · rintro ⟨ctx, -, hf⟩
          exact absurd ((links_iff first later).mp hf.links) hnot
        · exact fun hu => absurd hu.text hnot
      · have hdiffers : ∀ w', (tracecontext, w') ∈ later →
            traceIdNumber w' ≠ traceIdNumber first := by
          intro w' hw'
          rw [hunique w' hw']
          exact hnumber
        exact hself (fun w' hw' => hdiffers w' hw'.1 hw'.2.1)
          fun w' hw' hn => absurd hn (hdiffers w' hw')
  · have hincludes : includes (later.map Prod.fst) tracecontext = false := by
      rw [includes_eq_false_iff, List.mem_map]
      rintro ⟨e, he, hstyle⟩
      exact hmem ⟨e.2, hstyle ▸ he⟩
    rw [hincludes]
    exact hself (fun w hw => hmem ⟨w, hw.1⟩) fun w hw => absurd ⟨w, hw⟩ hmem

/-- A tag that is propagated is none of baggage. -/
theorem not_baggage_of_propagated {k : Str} (h : tagPrefix.isPrefixOf k = true) :
    Baggage.tagPrefix.isPrefixOf k = false := by
  rcases k with _ | ⟨u, k⟩
  · rfl
  · have hu : (unit '_' == u) = true := (Bool.and_eq_true_iff.mp h).1
    rw [← beq_iff_eq.mp hu]
    rfl

/-- The tags of baggage make no difference. -/
theorem followsFirst_tags_iff
    (h : ∀ k, Baggage.tagPrefix.isPrefixOf k = false → tags.get? k = ctx.trace.tags.get? k)
    (links : List Link) :
    FollowsFirst dd first later { ctx with trace := { ctx.trace with tags } } links ↔
      FollowsFirst dd first later ctx links := by
  have hparent : tags.get? DD_PARENT_ID = ctx.trace.tags.get? DD_PARENT_ID := h _ (by decide)
  constructor
  · intro hf
    refine ⟨hf.traceId, hf.priority, hf.origin, fun k hk => ?_, fun w hw => ?_, hf.kept, hf.links⟩
    · rw [← h k (not_baggage_of_propagated hk)]
      exact hf.tags k hk
    · rw [← hparent]
      exact hf.overtaken w hw
  · intro hf
    refine ⟨hf.traceId, hf.priority, hf.origin, fun k hk => ?_, fun w hw => ?_, hf.kept, hf.links⟩
    · exact (h k (not_baggage_of_propagated hk)).trans (hf.tags k hk)
    · exact ⟨(hf.overtaken w hw).1, hparent.trans (hf.overtaken w hw).2⟩

/-- **Extraction over several styles follows the first context, exactly when the tests of
sameness do not err.** -/
theorem extract_iff (hfirst : config.extractFirst = false)
    (hcontinue : config.behaviorExtract = .continue) (random : Identifier)
    {styles : List (Str × Identifier)} {e : Str × SpanContext}
    (h : yields config headers styles = e :: later) :
    (∃ out ctx, extractSpanContext config headers random styles = some out ∧
      out.context = some ctx ∧
      FollowsFirst (extractDatadogContext config.toConfig random headers.toCarrier) e.2 later ctx
        out.links) ↔
      Unmixed (extractDatadogContext config.toConfig random headers.toCarrier) e.2 later := by
  have hw3c : ∀ w, (tracecontext, w) ∈ e :: later →
      extractTraceparentContext random headers.toCarrier = some w := by
    intro w hw
    obtain ⟨r, hr⟩ := mem_yields (h ▸ hw)
    rw [extractStyle_tracecontext] at hr
    rw [extractTraceparentContext_congr random r, hr]
  have hparent : ∀ w, Overtakes later e.2 w → e.2.trace.tags.get? DD_PARENT_ID = none := by
    intro w hw
    obtain ⟨r, hr⟩ := mem_yields (h ▸ mem_cons_self : e ∈ yields config headers styles)
    refine parentId_of_ne_tracecontext hr fun hstyle => ?_
    have hsame := hw3c w (mem_cons_of_mem _ hw.1)
    rw [hw3c e.2 (by rw [← hstyle]; exact mem_cons_self), some_inj] at hsame
    exact hw.2.2 (by rw [hsame])
  have hlater : ∀ w, (tracecontext, w) ∈ later →
      extractTraceparentContext random headers.toCarrier = some w ∧ ∃ i, w.spanId = some i :=
    fun w hw => ⟨hw3c w (mem_cons_of_mem _ hw),
      exists_spanId_of_traceparent (hw3c w (mem_cons_of_mem _ hw))⟩
  rw [← follows_iff hlater (fun d hd => (fields_extractDatadogContext hd).1) hparent,
    extractSpanContext_eq hfirst hcontinue random h]
  constructor
  · rintro ⟨out, ctx, hout, hctx, hf⟩
    obtain ⟨ctx0, hresolved, rfl⟩ := map_eq_some_iff.mp hout
    obtain ⟨tags, store, hbaggage, hkept⟩ := withBaggage_some config headers ctx0
    rw [hbaggage, some_inj] at hctx
    rw [← hctx, followsFirst_tags_iff hkept] at hf
    exact ⟨ctx0, hresolved, hf⟩
  · rintro ⟨ctx0, hresolved, hf⟩
    obtain ⟨tags, store, hbaggage, hkept⟩ := withBaggage_some config headers ctx0
    refine ⟨_, { ctx0 with trace := { ctx0.trace with tags } },
      map_eq_some_iff.mpr ⟨ctx0, hresolved, rfl⟩, ?_, ?_⟩
    · rw [hbaggage]
    · exact (followsFirst_tags_iff hkept _).mpr hf

/-- Headers of one trace in B3 and `traceparent`, and of another one in Datadog's. -/
def mixedHeaders : Headers where
  b3TraceId := some (lit "0000000000000001")
  b3SpanId := some (lit "0000000000000002")
  traceparent := some (lit "00-00000000000000000000000000000001-0000000000000003-01")
  datadogTraceId := some (lit "999")
  datadogParentId := some (lit "15")

/-- The styles, with the identifiers they would draw. -/
def mixedStyles : List (Str × Identifier) :=
  [lit "b3multi", tracecontext, lit "datadog"].map fun style => (style, .word 7)

def mixedFirst : SpanContext where
  traceId := .word 1
  spanId := some (.word 2)

def mixedTraceparent : SpanContext where
  traceId := ⟨Bytes.toBytes 16 1, by decide⟩
  spanId := some (.word 3)
  sampling := { priority := some .one }
  traceparent := some (lit "00")
  tracestate := some (.fromString none)

def mixedDatadog : SpanContext where
  traceId := .word 999
  spanId := some (.word 15)

/-- The contexts of the three styles. -/
def mixedLater : List (Str × SpanContext) :=
  [(tracecontext, mixedTraceparent), (lit "datadog", mixedDatadog)]

/-- **The parent of an unrelated trace is recorded.** -/
theorem not_followsFirst :
    yields {} mixedHeaders mixedStyles = (lit "b3multi", mixedFirst) :: mixedLater ∧
      ¬ ∃ out ctx, extractSpanContext {} mixedHeaders (.word 7) mixedStyles = some out ∧
        out.context = some ctx ∧
        FollowsFirst (extractDatadogContext {} (.word 7) mixedHeaders.toCarrier) mixedFirst
          mixedLater ctx out.links := by
  refine ⟨by decide +kernel, ?_⟩
  rintro ⟨out, ctx, hout, hctx, hf⟩
  have hover : Overtakes mixedLater mixedFirst mixedTraceparent :=
    ⟨mem_cons_self, by decide +kernel, by decide +kernel⟩
  have hparent : ((extractSpanContext {} mixedHeaders (.word 7) mixedStyles).bind
      Extracted.context).bind (fun ctx => ctx.trace.tags.get? DD_PARENT_ID) =
      some (lit "000000000000000f") := by decide +kernel
  have hlast : lastParent (extractDatadogContext {} (.word 7) mixedHeaders.toCarrier) mixedFirst
      mixedTraceparent = none := by decide +kernel
  rw [hout, bind_some, hctx, bind_some, (hf.overtaken _ hover).2] at hparent
  cases hparent

/-- Headers of one trace in all styles. -/
def sameHeaders : Headers where
  datadogTraceId := some (lit "1")
  datadogParentId := some (lit "2")
  traceparent := some (lit "00-00000000000000000000000000000001-0000000000000003-01")

theorem extract_iff_same : (∃ out ctx, extractSpanContext {} sameHeaders (.word 7)
        [(lit "datadog", .word 7), (tracecontext, .word 7)] = some out ∧ out.context = some ctx ∧
        FollowsFirst (extractDatadogContext {} (.word 7) sameHeaders.toCarrier)
          { mixedFirst with traceparent := some (lit "00"), tracestate := some (.fromString none) }
          [(tracecontext, mixedTraceparent)] ctx out.links) ↔
      Unmixed (extractDatadogContext {} (.word 7) sameHeaders.toCarrier)
        { mixedFirst with traceparent := some (lit "00"), tracestate := some (.fromString none) }
        [(tracecontext, mixedTraceparent)] :=
  extract_iff (e := (lit "datadog",
    { mixedFirst with traceparent := some (lit "00"), tracestate := some (.fromString none) }))
    rfl rfl (.word 7) (by decide +kernel)

end DdTrace.TextMap
