import DdTrace.Encode.AgentEncoder05
import DdTrace.Encode.AgentEncoderPayload

/-!
# The two encoders compared

The agent makes the same of a span whether it is a map of its fields or twelve values that refer to
a table.  `V04.denote` and `V05.denote` say what it makes of a payload of either form, and for spans
without events and without a `meta_struct` the two have the same to say.

Both encoders write the same strings, each as it is or as the place where it is, so that whatever
happens to a string on the way happens to it in both.  The numbers are written by one function, but
not all of them are the span's: the v0.5 encoder writes zero for a start or a duration that is no
number, and the v0.4 encoder cuts a start that it writes in the block to its integer part.

The strings of the table are different strings of the program.  As they are read they can be equal,
where two of them differ in lone surrogates only.

* `V04.denote_of_isPayload`, `V05.denote_of_isPayload`: what a payload of either form denotes.
* `written_iff`: the strings of the table are those of the spans, and the empty one.
* `agree_iff`: **the payloads denote the same spans, and the table has different strings, exactly
  when every start and duration is a number, every start in the block is an integer, and no two
  strings are read as one**.
-/

open Library

namespace DdTrace.Encode

open MsgpackChunk List Option Log.Growth

/-! ## What the agent makes of a payload -/

/-- A span, from either form. -/
structure Denoted where
  service : Msgpack
  name : Msgpack
  resource : Msgpack
  type : Msgpack
  traceId : Msgpack
  spanId : Msgpack
  parentId : Msgpack
  start : Msgpack
  duration : Msgpack
  error : Msgpack
  «meta» : List (Msgpack × Msgpack)
  metrics : List (Msgpack × Msgpack)

namespace Denoted

def isStr (k : Str) : Msgpack → Bool
  | .str s => s == k
  | _ => false

/-- The value under a key. -/
def field (key : String) (es : List (Msgpack × Msgpack)) : Option Msgpack :=
  (es.find? fun e => isStr (lit key) e.1).map Prod.snd

def entries : Msgpack → Option (List (Msgpack × Msgpack))
  | .map es => some es
  | _ => none

def items : Msgpack → Option (List Msgpack)
  | .array vs => some vs
  | _ => none

/-- A span of v0.4, whose type can be absent. -/
def ofMap (m : Msgpack) : Option Denoted := do
  let es ← entries m
  pure {
    service := ← field "service" es
    name := ← field "name" es
    resource := ← field "resource" es
    type := (field "type" es).getD (.str [])
    traceId := ← field "trace_id" es
    spanId := ← field "span_id" es
    parentId := ← field "parent_id" es
    start := ← field "start" es
    duration := ← field "duration" es
    error := ← field "error" es
    «meta» := ← (field "meta" es).bind entries
    metrics := ← (field "metrics" es).bind entries }

/-- A string of the table, by the number of its place. -/
def resolve (table : List Msgpack) : Msgpack → Option Msgpack
  | .int i => if 0 ≤ i then table[i.toNat]? else none
  | _ => none

/-- A span of v0.5. -/
def ofArray (table : List Msgpack) (m : Msgpack) : Option Denoted := do
  match ← items m with
  | [service, name, resource, traceId, spanId, parentId, start, duration, error, tags, metrics,
      type] =>
    pure {
      service := ← resolve table service
      name := ← resolve table name
      resource := ← resolve table resource
      type := ← resolve table type
      traceId, spanId, parentId, start, duration, error
      «meta» := ← (← entries tags).mapM fun e => do
        pure (← resolve table e.1, ← resolve table e.2)
      metrics := ← (← entries metrics).mapM fun e => do
        pure (← resolve table e.1, e.2) }
  | _ => none

end Denoted

/-- The traces that a payload of v0.4 denotes. -/
def V04.denote (m : Msgpack) : Option (List (List Denoted)) := do
  (← Denoted.items m).mapM fun trace => do (← Denoted.items trace).mapM Denoted.ofMap

/-- The strings of a payload of v0.5 and its traces. -/
def V05.parts (m : Msgpack) : Option (List Msgpack × List Msgpack) := do
  match ← Denoted.items m with
  | [table, traces] => pure (← Denoted.items table, ← Denoted.items traces)
  | _ => none

/-- The traces that a payload of v0.5 denotes. -/
def V05.denote (m : Msgpack) : Option (List (List Denoted)) := do
  let (table, traces) ← V05.parts m
  traces.mapM fun trace => do (← Denoted.items trace).mapM (Denoted.ofArray table)

/-- **The two payloads denote the same spans.** -/
def Agree (p p' : List UInt8) : Prop :=
  ∃ d, (Msgpack.decodeAll p).bind V04.denote = some d ∧
    (Msgpack.decodeAll p').bind V05.denote = some d

/-- The table of a payload has different strings. -/
def DistinctTable (p : List UInt8) : Prop :=
  ∀ table traces, (Msgpack.decodeAll p).bind V05.parts = some (table, traces) → table.Nodup

/-! ## What a span denotes -/

/-- What is read of a formatted span, but for its start and its duration. -/
def denoted (span : Span) (start duration : Msgpack) : Denoted where
  service := textImage span.service.key
  name := textImage span.name.key
  resource := textImage span.resource.key
  type := textImage (V05.orEmpty span.type).key
  traceId := idImage span.traceId
  spanId := idImage span.spanId
  parentId := idImage span.parentId
  start := start
  duration := duration
  error := numberRead span.error
  «meta» := entriesImage numberRead (span.meta.getD OrderedMap.empty)
  metrics := entriesImage numberRead (span.metrics.getD OrderedMap.empty)

/-- What a span of v0.4 denotes. -/
def V04.denoted (span : Span) : Denoted :=
  Encode.denoted span (startImage span) (numberRead span.duration)

/-- What a span of v0.5 denotes. -/
def V05.denoted (span : Span) : Denoted :=
  Encode.denoted span (numberRead (V05.orZero span.start)) (numberRead (V05.orZero span.duration))

/-- A span without events and `meta_struct`, whose `meta` has strings and whose `metrics` has
numbers. -/
structure Plain (span : Span) : Prop where
  spanEvents : span.spanEvents = none
  metaStruct : span.metaStruct = none
  type : span.type = .undefined ∨ span.type.isString = true
  tags : ∃ tags, span.meta = some tags ∧ ∀ e ∈ tags.entries, ∃ s, e.2 = .str s
  metrics : ∃ metrics, span.metrics = some metrics ∧ ∀ e ∈ metrics.entries, ∃ d, e.2 = .num d

variable {span : Span} {env : Env}

theorem plain_normalizeSpan (h : Plain span) : Plain (normalizeSpan span) := by
  refine ⟨h.spanEvents, h.metaStruct, ?_, h.tags, h.metrics⟩
  show span.type.cut MAX_TYPE_LENGTH = .undefined ∨ (span.type.cut MAX_TYPE_LENGTH).isString = true
  cases htype : span.type with
  | undefined => exact .inl rfl
  | str s =>
    right
    unfold Text.cut
    dsimp only
    split <;> rfl
  | other k => simpa [htype, Text.isString] using h.type

theorem formatSpan_plain (env : Env) (h : Plain span) :
    V04.formatSpan env span = some (normalizeSpan span) := by
  have hevents : (normalizeSpan span).spanEvents = none := h.spanEvents
  unfold V04.formatSpan V04.formatSpanWithLegacyEvents
  split
  · rfl
  · dsimp only
    rw [hevents]

theorem formatSpan_plain05 (env : Env) (h : Plain span) :
    V05.formatSpan env span = some (normalizeSpan span) := by
  have hevents : (normalizeSpan span).spanEvents = none := h.spanEvents
  unfold V05.formatSpan V04.formatSpanWithLegacyEvents
  dsimp only
  rw [hevents]

/-! ### v0.4 -/

theorem key_orEmpty (h : Plain span) : textImage (V05.orEmpty span.type).key =
    if span.type.truthy then textImage span.type.key else .str [] := by
  cases htype : span.type with
  | undefined => rfl
  | str s =>
    cases s with
    | nil => rfl
    | cons c s => rfl
  | other k => simpa [htype, Text.isString] using h.type

theorem ofMap_spanIs {objects : ℕ → JsObject} {m : Msgpack}
    (h : Plain span) (hm : SpanIs env objects span m) :
    Denoted.ofMap m = some (V04.denoted span) := by
  obtain ⟨tags, metrics, struct, htags, hmetrics, hstruct, rfl⟩ := hm
  rw [h.metaStruct] at hstruct
  have hnone : struct = [] := hstruct
  rw [V04.denoted, Encode.denoted, h.spanEvents, hnone, htags, hmetrics, key_orEmpty h, headImage]
  by_cases htruthy : span.type.truthy = true
  · rw [if_pos htruthy, if_pos htruthy]
    rfl
  · rw [if_neg htruthy, if_neg htruthy]
    rfl

theorem V04.denote_of_isPayload {q : List (Unit × Trace)} {p : List UInt8}
    (hq : ∀ x ∈ q, ∀ span ∈ x.2.spans, Plain span) (h : V04.IsPayload env q p) :
    (Msgpack.decodeAll p).bind V04.denote =
      some (q.map fun x => x.2.spans.map fun span => V04.denoted (normalizeSpan span)) := by
  obtain ⟨ms, hdecode, hms⟩ := h
  rw [hdecode]
  refine mapM_eq_some hms fun x hx m hm => ?_
  obtain ⟨spans, rfl, hspans⟩ := hm
  refine mapM_eq_some hspans fun span hspan m hm => ?_
  obtain ⟨formatted, hformat, hm⟩ := hm
  have hplain := hq x hx span hspan
  rw [formatSpan_plain env hplain, some_inj] at hformat
  subst hformat
  exact ofMap_spanIs (plain_normalizeSpan hplain) hm

/-! ### v0.5 -/

section Table

variable {table : List Str}

theorem resolve_textAt {k : Str} {m : Msgpack}
    (h : V05.TextAt (fun k i => table[i]? = some k) k m) :
    Denoted.resolve (table.map textImage) m = some (textImage k) := by
  obtain ⟨i, hi, rfl⟩ := h
  rw [Denoted.resolve, if_pos (Int.natCast_nonneg i), Int.toNat_natCast, getElem?_map, hi, map_some]

/-- The entries of a map, each as `f` has it. -/
theorem mapM_mapAt {value : OrderedMap Str Scalar} {m : Msgpack}
    {f : Msgpack × Msgpack → Option (Msgpack × Msgpack)}
    (hf : ∀ e ∈ value.entries, V05.writtenEntry e = some e ∧
      ∀ x, V05.EntryAt (fun k i => table[i]? = some k) e x →
        f x = entryImage numberRead e ∧ (entryImage numberRead e).isSome = true)
    (hm : V05.MapAt (fun k i => table[i]? = some k) (some value) m) :
    (Denoted.entries m).bind (List.mapM f) = some (entriesImage numberRead value) := by
  obtain ⟨es, hes, rfl⟩ := hm
  rw [getD_some] at hes
  show es.mapM f = some (value.entries.filterMap (entryImage numberRead))
  generalize value.entries = l at hf hes
  induction l generalizing es with
  | nil =>
    cases hes
    rfl
  | cons e l ih =>
    obtain ⟨hwritten, himage⟩ := hf e mem_cons_self
    rw [filterMap_cons_some hwritten] at hes
    cases hes with
    | cons hx hes =>
      obtain ⟨hfx, hsome⟩ := himage _ hx
      obtain ⟨y, hy⟩ := isSome_iff_exists.mp hsome
      rw [filterMap_cons_some hy, mapM_cons, hfx, hy,
        ih _ (forall_mem_cons.mp hf).2 hes]
      rfl

theorem ofArray_spanAt {span : Span} {m : Msgpack} (h : Plain span)
    (hm : V05.SpanAt (fun k i => table[i]? = some k) span m) :
    Denoted.ofArray (table.map textImage) m = some (V05.denoted span) := by
  obtain ⟨service, name, resource, tags, metrics, type, hservice, hname, hresource, htags, hmetrics,
    htype, rfl⟩ := hm
  obtain ⟨m, hm, hstrings⟩ := h.tags
  obtain ⟨n, hn, hnumbers⟩ := h.metrics
  rw [hm] at htags
  rw [hn] at hmetrics
  have htags' := mapM_mapAt (f := fun e => do
    pure (← Denoted.resolve (table.map textImage) e.1,
      ← Denoted.resolve (table.map textImage) e.2)) (fun e he => ?_) htags
  have hmetrics' := mapM_mapAt (f := fun e => do
    pure (← Denoted.resolve (table.map textImage) e.1, e.2)) (fun e he => ?_) hmetrics
  · obtain ⟨es, hes, htags'⟩ := bind_eq_some_iff.mp htags'
    obtain ⟨es', hes', hmetrics'⟩ := bind_eq_some_iff.mp hmetrics'
    simp only [Option.pure_def, bind_eq_bind] at htags' hmetrics'
    simp [Denoted.ofArray, Denoted.items, resolve_textAt hservice, resolve_textAt hname,
      resolve_textAt hresource, resolve_textAt htype, hes, hes', htags', hmetrics', V05.denoted,
      Encode.denoted, hm, hn]
  · obtain ⟨k, v⟩ := e
    obtain ⟨d, rfl⟩ := hnumbers _ he
    refine ⟨rfl, fun x hx => ⟨?_, rfl⟩⟩
    obtain ⟨hkey, hvalue⟩ := hx
    obtain ⟨x, y⟩ := x
    have hy : y = numberRead d := hvalue
    simp only [resolve_textAt hkey, hy]
    rfl
  · obtain ⟨k, v⟩ := e
    obtain ⟨s, rfl⟩ := hstrings _ he
    refine ⟨rfl, fun x hx => ⟨?_, rfl⟩⟩
    obtain ⟨hkey, hvalue⟩ := hx
    simp only [resolve_textAt hkey, resolve_textAt hvalue]
    rfl

end Table

/-! ## The strings of the table -/

namespace V05

/-- The strings that are written of an entry. -/
def entryStrings (e : Str × Scalar) : List Str :=
  match e.2 with
  | .str s => [e.1, s]
  | .num _ => [e.1]
  | _ => []

/-- The strings that are written of a map. -/
def mapStrings (value : Option (OrderedMap Str Scalar)) : List Str :=
  (value.getD OrderedMap.empty).entries.flatMap entryStrings

/-- The strings that are written of a formatted span. -/
def spanStrings (span : Span) : List Str :=
  [span.service.key, span.name.key, span.resource.key, (orEmpty span.type).key] ++
    mapStrings span.meta ++ mapStrings span.metrics

/-- A string that is written of a trace. -/
def WrittenOf (env : Env) (trace : Trace) (k : Str) : Prop :=
  ∃ span ∈ trace.spans, ∃ formatted, formatSpan env span = some formatted ∧
    k ∈ spanStrings formatted

/-- **A string of the table** of some traces. -/
def Written (env : Env) (q : List Trace) (k : Str) : Prop :=
  k = [] ∨ ∃ trace ∈ q, WrittenOf env trace k

/-- The strings grow by some of which `P` holds. -/
def origins (P : Str → Prop) : (traceLog ℕ).Growth where
  Inv _ := True
  Le s t := s.strings.map.keys ⊆ t.strings.map.keys ∧
    ∀ k ∈ t.strings.map.keys, k ∈ s.strings.map.keys ∨ P k
  inv_setOut _ _ h := h
  le_setOut _ _ := ⟨List.Subset.refl _, fun _ h => .inl h⟩
  refl _ := ⟨List.Subset.refl _, fun _ h => .inl h⟩
  trans _ _ _ h h' := ⟨List.Subset.trans h.1 h'.1, fun k hk => (h'.2 k hk).elim (h.2 k) .inr⟩

/-- A program that only writes strings of which `P` holds. -/
def Keeps {α : Type} (P : Str → Prop) (x : Writer ℕ α) : Prop :=
  (origins P).Adds (fun _ => True) x fun _ _ => True

section Keeps

variable {P : Str → Prop} {α β : Type}

theorem keeps_pure (a : α) : Keeps P (pure a) := adds_pure trivial

theorem keeps_bind {x : Writer ℕ α} {f : α → Writer ℕ β} (hx : Keeps P x)
    (hf : ∀ a, Keeps P (f a)) : Keeps P (x >>= f) :=
  Log.Growth.adds_bind hx fun a _ _ => hf a

theorem keeps_put (l : List UInt8) : Keeps P (put l) :=
  adds_append (fun _ _ => trivial) trivial

theorem keeps_retract (l room : List UInt8) : Keeps P ((traceLog ℕ).retract l room) :=
  Log.Growth.Emits.mono (emits_retract fun _ _ => trivial) fun _ _ _ _ => trivial

theorem keeps_count {bs : List β} {f : β → Writer ℕ Bool} (hf : ∀ b ∈ bs, Keeps P (f b)) :
    Keeps P (Prog.count bs f) :=
  emits_count (Q := fun _ _ _ _ => True) (R := fun _ _ _ _ => True) hf
    (fun _ _ _ _ _ _ _ => trivial) (fun _ => trivial) fun _ _ _ _ _ _ _ _ _ => trivial

theorem keeps_each {bs : List β} {f : β → Writer ℕ Unit} (hf : ∀ b ∈ bs, Keeps P (f b)) :
    Keeps P (Prog.each bs f) :=
  emits_each (Q := fun _ _ _ => True) (R := fun _ _ _ => True) hf
    (fun _ _ _ _ _ _ => trivial) (fun _ => trivial) fun _ _ _ _ _ _ _ => trivial

theorem keeps_counted {hd : List UInt8} {number : α → ℕ} {body : Writer ℕ α}
    (hbody : Keeps P body) : Keeps P (counted hd number body) :=
  emits_counted (fun _ _ => trivial) (fun _ => rfl) hbody (mono_const _) fun _ _ _ _ => trivial

/-- A string that is looked up is the only one that is added. -/
theorem keeps_cached {value : Text} (h : P value.key) : Keeps P (cached value) := by
  have hadd : ∀ s : StringTable ℕ, Prog.Runs (cacheIndex value) s (fun _ t =>
      s.map.keys ⊆ t.map.keys ∧ ∀ k ∈ t.map.keys, k ∈ s.map.keys ∨ P k) (fun _ => True) := by
    intro s
    refine Prog.runs_bind (Prog.runs_get ?_)
    split
    · exact Prog.runs_pure ⟨List.Subset.refl _, fun _ h => .inl h⟩
    · refine Prog.runs_bind (Prog.runs_modify (Prog.runs_bind ?_))
      have hkeys : ∀ k, k ∈ (s.map.set value.key s.count).keys ↔ k = value.key ∨ k ∈ s.map.keys :=
        fun k => OrderedMap.mem_keys_set
      have hle : ∀ bytes, s.map.keys ⊆ (s.map.set value.key s.count).keys ∧
          ∀ k ∈ (StringTable.mk (s.count + 1) bytes (s.map.set value.key s.count)).map.keys,
            k ∈ s.map.keys ∨ P k := by
        intro bytes
        refine ⟨fun k hk => (hkeys k).mpr (.inr hk), fun k hk => ?_⟩
        rcases (hkeys k).mp hk with rfl | hold
        · exact .inr h
        · exact .inl hold
      unfold Prog.Runs writeString
      cases value with
      | undefined => trivial
      | other key => trivial
      | str key =>
        dsimp only
        split
        · next hx =>
          split at hx
          · cases hx
            exact hle _
          · cases hx
        · trivial
  intro s _ hcap
  rcases (hadd s.strings).cases with ⟨a, t, hx, ht⟩ | ⟨e, t, hx, -⟩
  · unfold Prog.Runs cached onStrings
    rw [hx]
    exact ⟨trivial, ht, hcap, [], by rw [append_nil]; rfl, trivial⟩
  · unfold Prog.Runs cached onStrings
    rw [hx]
    trivial

theorem keeps_encodeMapEntry {e : Str × Scalar} (h : ∀ k ∈ entryStrings e, P k) :
    Keeps P (encodeMapEntry e) := by
  obtain ⟨key, v⟩ := e
  cases v with
  | null | other => exact keeps_pure false
  | str value =>
    refine keeps_bind (keeps_cached (h key mem_cons_self)) fun i => ?_
    refine keeps_bind (keeps_cached (h value (mem_cons_of_mem _ mem_cons_self)))
      fun j => ?_
    exact keeps_bind (keeps_put _) fun _ => keeps_pure true
  | num d =>
    refine keeps_bind (keeps_cached (h key mem_cons_self)) fun i => ?_
    by_cases hfix : isFixint d = true
    · rw [if_pos hfix]
      exact keeps_bind (keeps_put _) fun _ => keeps_pure true
    · rw [if_neg hfix]
      exact keeps_bind (keeps_retract _ _) fun _ => keeps_bind (keeps_put _) fun _ =>
        keeps_pure true

theorem keeps_encodeMap {value : Option (OrderedMap Str Scalar)}
    (h : ∀ k ∈ mapStrings value, P k) : Keeps P (encodeMap value) :=
  keeps_bind (keeps_counted (keeps_count fun e he => keeps_encodeMapEntry fun k hk =>
    h k (mem_flatMap.mpr ⟨e, he, hk⟩))) fun _ => keeps_pure ()

theorem keeps_encodeSpan {span : Span} (h : ∀ k ∈ spanStrings span, P k) :
    Keeps P (encodeSpan span) := by
  simp only [spanStrings, mem_append, mem_cons, not_mem_nil, or_false] at h
  refine keeps_bind (keeps_cached (h _ (by simp))) fun _ => ?_
  refine keeps_bind (keeps_cached (h _ (by simp))) fun _ => ?_
  refine keeps_bind (keeps_cached (h _ (by simp))) fun _ => ?_
  refine keeps_bind (keeps_put _) fun _ => ?_
  refine keeps_bind (keeps_put _) fun _ => ?_
  refine keeps_bind (keeps_put _) fun _ => ?_
  refine keeps_bind (keeps_put _) fun _ => ?_
  refine keeps_bind (keeps_encodeMap fun k hk => h k (.inl (.inr hk))) fun _ => ?_
  refine keeps_bind (keeps_encodeMap fun k hk => h k (.inr hk)) fun _ => ?_
  exact keeps_bind (keeps_cached (h _ (by simp))) fun _ => keeps_put _

/-- **A trace** adds strings that are written of it. -/
theorem keeps_encode (env : Env) (trace : Trace) :
    Keeps (WrittenOf env trace) (encode env trace) := by
  refine keeps_bind (keeps_put _) fun _ => keeps_each fun span hspan => ?_
  unfold encodeFormatted
  cases hformat : formatSpan env span with
  | none => exact fun s => emitsAt_fail trivial
  | some formatted =>
    exact keeps_encodeSpan fun k hk => ⟨span, hspan, formatted, hformat, hk⟩

end Keeps

open Encoder Encoder.Reading

/-- The table is that of the traces that are queued. -/
structure TableOf (env : Env) (s : State ℕ Unit) (q : List (Unit × Trace)) : Prop where
  cap : s.chunks.traceBytes.length ≤ MAX_SIZE
  empty : [] ∈ s.chunks.strings.map.keys
  written : ∀ k ∈ s.chunks.strings.map.keys, Written env (q.map Prod.snd) k

theorem follows_tableOf (env : Env) (limit : ℕ) :
    Follows (K := encoder env limit) (TableOf env) where
  init := by
    refine ⟨Nat.zero_le _, mem_singleton_self _, fun k hk => .inl ?_⟩
    exact mem_singleton.mp hk
  reset s := by
    refine ⟨Nat.zero_le _, mem_singleton_self _, fun k hk => .inl ?_⟩
    exact mem_singleton.mp hk
  change _ _ c _ := c.elim
  encodeTrace s q trace a t hs hx := by
    have hruns := keeps_encode env trace s.chunks trivial hs.cap
    have hx' : (encode env trace s.chunks).1 = .ok a ∧
        t.chunks = (encode env trace s.chunks).2 := by
      refine ⟨congrArg Prod.fst hx, ?_⟩
      exact (congrArg (fun r => r.2.chunks) hx).symm
    rcases hruns.cases with ⟨b, u, hu, -, ⟨hsub, hkeys⟩, hlen, -⟩ | ⟨e, u, hu, -⟩
    · rw [hu] at hx'
      obtain ⟨-, ht⟩ := hx'
      refine ⟨?_, ?_, ?_⟩
      · rw [ht]
        exact hlen
      · rw [ht]
        exact hsub hs.empty
      · intro k hk
        rw [ht] at hk
        rcases hkeys k hk with hold | hnew
        · rcases hs.written k hold with rfl | ⟨trace', htrace, hk'⟩
          · exact .inl rfl
          · obtain ⟨x, hx, rfl⟩ := List.mem_map.mp htrace
            exact .inr ⟨x.2, List.mem_map_of_mem (mem_append_left _ hx), hk'⟩
        · exact .inr ⟨trace, List.mem_map_of_mem (f := Prod.snd) (a := ((), trace))
            (mem_append_right _ (mem_singleton_self _)), hnew⟩
    · rw [hu] at hx'
      cases hx'.1

/-! ## Payloads -/

/-- A string that is written of a span is where the table has it. -/
theorem mem_of_spanAt {At : Str → ℕ → Prop} {span : Span} {m : Msgpack} (hm : SpanAt At span m)
    {k : Str} (hk : k ∈ spanStrings span) : ∃ i, At k i := by
  obtain ⟨service, name, resource, tags, metrics, type, hservice, hname, hresource, htags, hmetrics,
    htype, -⟩ := hm
  have htext : ∀ {k m}, TextAt At k m → ∃ i, At k i := fun ⟨i, hi, _⟩ => ⟨i, hi⟩
  have hmap : ∀ {value m}, MapAt At value m → k ∈ mapStrings value → ∃ i, At k i := by
    rintro value m ⟨es, hes, -⟩ hmem
    obtain ⟨e, he, hke⟩ := mem_flatMap.mp hmem
    have hwritten : e ∈ (value.getD OrderedMap.empty).entries.filterMap writtenEntry := by
      refine mem_filterMap.mpr ⟨e, he, ?_⟩
      obtain ⟨key, v⟩ := e
      cases v with
      | str s => rfl
      | num d => rfl
      | null => cases hke
      | other => cases hke
    obtain ⟨x, -, hkey, hvalue⟩ := exists_of_forall₂ hes hwritten
    obtain ⟨key, v⟩ := e
    cases v with
    | null => cases hke
    | other => cases hke
    | num d =>
      rw [mem_singleton.mp hke]
      exact htext hkey
    | str s =>
      rcases mem_cons.mp hke with rfl | hke
      · exact htext hkey
      · rw [mem_singleton.mp hke]
        exact htext hvalue
  simp only [spanStrings, mem_append, mem_cons, not_mem_nil, or_false] at hk
  rcases hk with (((rfl | rfl | rfl | rfl) | hk) | hk)
  · exact htext hservice
  · exact htext hname
  · exact htext hresource
  · exact htext htype
  · exact hmap htags hk
  · exact hmap hmetrics hk

/-- **The strings of the table** are those of the spans, and the empty one. -/
theorem written_iff {env : Env} {s : State ℕ Unit} {q : List (Unit × Trace)} {ms : List Msgpack}
    (hs : TableOf env s q) (hms : List.Forall₂ (fun x m =>
      TraceAt (fun k i => s.chunks.strings.map.keys[i]? = some k) env x.2 m) q ms) (k : Str) :
    k ∈ s.chunks.strings.map.keys ↔ Written env (q.map Prod.snd) k := by
  refine ⟨hs.written k, ?_⟩
  rintro (rfl | ⟨trace, htrace, span, hspan, formatted, hformat, hk⟩)
  · exact hs.empty
  · obtain ⟨x, hx, rfl⟩ := List.mem_map.mp htrace
    obtain ⟨m, -, spans, -, hspans⟩ := exists_of_forall₂ hms hx
    obtain ⟨n, -, formatted', hformat', hn⟩ := exists_of_forall₂ hspans hspan
    rw [hformat, some_inj] at hformat'
    subst hformat'
    obtain ⟨i, hi⟩ := mem_of_spanAt hn hk
    exact mem_of_getElem? hi

/-- **What a payload of v0.5 denotes**, and its table. -/
theorem denote_of_assembled {env : Env} {limit : ℕ} {s : State ℕ Unit} {q : List (Unit × Trace)}
    {p : List UInt8} (hq : ∀ x ∈ q, ∀ span ∈ x.2.spans, Plain span)
    (hs : Assembled (reading env limit) s q p) (hJ : TableOf env s q) :
    (Msgpack.decodeAll p).bind denote =
        some (q.map fun x => x.2.spans.map fun span => V05.denoted (normalizeSpan span)) ∧
      (DistinctTable p ↔ ∀ k k', Written env (q.map Prod.snd) k → Written env (q.map Prod.snd) k' →
        Unicode.toWellFormed k = Unicode.toWellFormed k' → k = k') := by
  obtain ⟨chunks, heq⟩ := hs.eq
  have hruns := runs_assemble_of_holds hs.holds
  unfold Prog.Runs at hruns
  have heq' : assemble s.traceCount s.chunks = (.ok p, chunks) := heq
  rw [heq'] at hruns
  obtain ⟨ms, hdecode, hnodup, hms⟩ := hruns
  have hparts : (Msgpack.decodeAll p).bind parts =
      some (s.chunks.strings.map.keys.map textImage, ms) := by
    rw [hdecode]
    rfl
  refine ⟨?_, ?_⟩
  · rw [hdecode]
    refine mapM_eq_some hms fun x hx m hm => ?_
    obtain ⟨spans, rfl, hspans⟩ := hm
    refine mapM_eq_some hspans fun span hspan m hm => ?_
    obtain ⟨formatted, hformat, hm⟩ := hm
    have hplain := hq x hx span hspan
    rw [formatSpan_plain05 env hplain, some_inj] at hformat
    subst hformat
    exact ofArray_spanAt (plain_normalizeSpan hplain) hm
  · have hwritten := written_iff hJ hms
    have hdistinct : DistinctTable p ↔ (s.chunks.strings.map.keys.map textImage).Nodup := by
      unfold DistinctTable
      rw [hparts]
      constructor
      · exact fun h => h _ _ rfl
      · intro h table traces heq
        cases heq
        exact h
    rw [hdistinct, nodup_map_iff_inj_on hnodup]
    simp only [hwritten, textImage, Msgpack.str.injEq]
    exact ⟨fun h k k' hk hk' => h k hk k' hk', fun h k hk k' hk' => h k k' hk hk'⟩

end V05

/-- A span whose times are read alike: they are numbers, and the start that is written in the block
of v0.4 is an integer. -/
def SameTimes (span : Span) : Prop :=
  span.start.isNaN = false ∧ span.duration.isNaN = false ∧
    ((V04.fuseTail span).isSome = true → span.start.isInteger = true)

theorem numberRead_orZero_iff (d : Binary64) :
    numberRead d = numberRead (V05.orZero d) ↔ d.isNaN = false := by
  have hzero : numberRead (Binary64.ofBits 0) = .int 0 := by
    rw [numberRead, if_pos (by decide +kernel)]
    exact congrArg Msgpack.int (by decide +kernel)
  unfold V05.orZero
  by_cases hnan : d.isNaN = true
  · have hint : d.isInteger = false := by
      rw [Binary64.isNaN, Bool.and_eq_true, beq_iff_eq] at hnan
      simp [Binary64.isInteger, Binary64.isFinite, hnan.1]
    rw [hnan, Bool.true_or, if_pos rfl, hzero, numberRead, hint]
    simp
  · rw [Bool.not_eq_true] at hnan
    rw [hnan]
    by_cases hmag : d.mag = 0
    · have hexp : d.exp.val = 0 := by
        by_contra hne
        have hpos : 0 < d.mag := by
          unfold Binary64.mag Binary64.sig
          rw [if_neg hne]
          positivity
        omega
      have hint : d.isInteger = true := by
        simp [Binary64.isInteger, Binary64.isFinite, hexp, hmag]
      have hto : d.toInt = 0 := by
        simp [Binary64.toInt, hmag]
      rw [if_pos (by rw [hmag]; rfl), hzero, numberRead, if_pos hint, hto]
      simp [wrap]
    · rw [if_neg (by simpa using hmag)]
      simp

theorem startImage_eq_orZero_iff (span : Span) :
    startImage span = numberRead (V05.orZero span.start) ↔ span.start.isNaN = false ∧
      ((V04.fuseTail span).isSome = true → span.start.isInteger = true) := by
  unfold startImage
  by_cases hfuse : (V04.fuseTail span).isSome = true
  · have hlarge := atLeast32_of_fuseTail hfuse
    have hnan : span.start.isNaN = false := by
      rw [V04.atLeast32, Bool.and_eq_true, Bool.and_eq_true] at hlarge
      simpa using hlarge.1.1
    rw [if_pos hfuse, ← (numberRead_orZero_iff span.start).mpr hnan]
    unfold numberRead
    by_cases hint : span.start.isInteger = true
    · obtain ⟨htruncated, hle⟩ := truncated_of_isInteger hlarge hint
      rw [if_pos hint, htruncated, wrap, if_pos (by omega)]
      simp [hint, hnan]
    · simp [hint, hfuse]
  · rw [if_neg hfuse, numberRead_orZero_iff]
    simp [hfuse]

theorem denoted_eq_iff (span : Span) : V04.denoted (normalizeSpan span) =
    V05.denoted (normalizeSpan span) ↔ SameTimes span := by
  have hstart := startImage_eq_orZero_iff (normalizeSpan span)
  have hduration := numberRead_orZero_iff (normalizeSpan span).duration
  have hall : V04.denoted (normalizeSpan span) = V05.denoted (normalizeSpan span) ↔
      startImage (normalizeSpan span) = numberRead (V05.orZero (normalizeSpan span).start) ∧
      numberRead (normalizeSpan span).duration =
        numberRead (V05.orZero (normalizeSpan span).duration) := by
    simp [V04.denoted, V05.denoted, Encode.denoted]
  rw [hall, hstart, hduration]
  exact ⟨fun h => ⟨h.1.1, h.2, h.1.2⟩, fun h => ⟨⟨h.1, h.2.2⟩, h.2.1⟩⟩

/-! ## Agreement -/

open Encoder Encoder.Reading

theorem agree_iff_of_assembled {env' : Env} {limit limit' : ℕ} {s : State Slice Unit}
    {s' : State ℕ Unit} {q : List (Unit × Trace)} {p p' : List UInt8}
    (hq : ∀ x ∈ q, ∀ span ∈ x.2.spans, Plain span)
    (hs : Assembled (V04.reading env limit) s q p)
    (hs' : Assembled (V05.reading env' limit') s' q p') (hJ : V05.TableOf env' s' q) :
    (∃ d d', (Msgpack.decodeAll p).bind V04.denote = some d ∧
      (Msgpack.decodeAll p').bind V05.denote = some d') ∧
    (Agree p p' ↔ ∀ x ∈ q, ∀ span ∈ x.2.spans, SameTimes span) ∧
    (DistinctTable p' ↔ ∀ k k', V05.Written env' (q.map Prod.snd) k →
      V05.Written env' (q.map Prod.snd) k' → Unicode.toWellFormed k = Unicode.toWellFormed k' →
        k = k') := by
  have hdenote := V04.denote_of_isPayload hq (hs.isPayload (V04.lawful env limit))
  obtain ⟨hdenote', hdistinct⟩ := V05.denote_of_assembled hq hs' hJ
  refine ⟨⟨_, _, hdenote, hdenote'⟩, ?_, hdistinct⟩
  unfold Agree
  simp only [hdenote, hdenote', some.injEq, exists_eq_left', map_inj_left, ← denoted_eq_iff]
  exact ⟨fun h x hx span hspan => (h x hx span hspan).symm,
    fun h x hx span hspan => (h x hx span hspan).symm⟩

section Agreement

variable {env env' : Env} {limit limit' : ℕ} {calls : List (V04.encoder env limit).Call}
  {calls' : List (V05.encoder env' limit').Call} {w : (V04.encoder env limit).World}
  {w' : (V05.encoder env' limit').World} {q : List (Unit × Trace)} {p p' : List UInt8}

/-- What the payloads of two runs were made from. -/
theorem assembled_of_makes (hr : Run.exec step (World.init (V04.encoder env limit)) calls = some w)
    (hquiet : Run.Every step (QuietCall (V04.reading env limit)) (World.init _) calls)
    (hr' : Run.exec step (World.init (V05.encoder env' limit')) calls' = some w')
    (hquiet' : Run.Every step (QuietCall (V05.reading env' limit')) (World.init _) calls')
    (hp : Makes w q p) (hp' : Makes w' q p') :
    (∃ s, Assembled (V04.reading env limit) s q p) ∧
      ∃ s, Assembled (V05.reading env' limit') s q p' ∧ V05.TableOf env' s q := by
  have hw' := accounted_of_quiet (V05.lawful env' limit') hr' hquiet'
  exact ⟨(accounted_of_quiet (V04.lawful env limit) hr hquiet).assembled hp,
    hw'.assembled_of_followedBy (followedBy (V05.follows_tableOf env' limit') hr' hw'.notRaised)
      hp'⟩

/-- **The two encoders agree.**  After runs of either with traces that can be encoded, payloads
that are made from the same plain traces denote traces.  They denote the same ones, and the strings
of the table are different, exactly when the times of all spans are read alike and no two strings
that are written are read as one. -/
theorem agree_iff (hr : Run.exec step (World.init (V04.encoder env limit)) calls = some w)
    (hquiet : Run.Every step (QuietCall (V04.reading env limit)) (World.init _) calls)
    (hr' : Run.exec step (World.init (V05.encoder env' limit')) calls' = some w')
    (hquiet' : Run.Every step (QuietCall (V05.reading env' limit')) (World.init _) calls')
    (hp : Makes w q p) (hp' : Makes w' q p')
    (hq : ∀ x ∈ q, ∀ span ∈ x.2.spans, Plain span) :
    (∃ d d', (Msgpack.decodeAll p).bind V04.denote = some d ∧
      (Msgpack.decodeAll p').bind V05.denote = some d') ∧
    (Agree p p' ∧ DistinctTable p' ↔ (∀ x ∈ q, ∀ span ∈ x.2.spans, SameTimes span) ∧
      ∀ k k', V05.Written env' (q.map Prod.snd) k → V05.Written env' (q.map Prod.snd) k' →
        Unicode.toWellFormed k = Unicode.toWellFormed k' → k = k') := by
  obtain ⟨⟨s, hs⟩, s', hs', hJ⟩ := assembled_of_makes hr hquiet hr' hquiet' hp hp'
  obtain ⟨hdenote, hagree, hdistinct⟩ := agree_iff_of_assembled hq hs hs' hJ
  refine ⟨hdenote, ?_⟩
  rw [hagree, hdistinct]

end Agreement

/-- A span of the given duration. -/
def spanLasting (duration : Binary64) : Span := { V04.spanWith twoBytes with duration := duration }

def traceLasting (duration : Binary64) : Trace := ⟨[spanLasting duration], fun _ => .array []⟩

theorem plain_spanLasting (duration : Binary64) : Plain (spanLasting duration) where
  spanEvents := rfl
  metaStruct := rfl
  type := .inr rfl
  tags := ⟨_, rfl, fun e he => ⟨lit "js", by rw [mem_singleton.mp he]⟩⟩
  metrics := ⟨_, rfl, fun e he => ⟨twoBytes, by rw [mem_singleton.mp he]⟩⟩

theorem quiet_traceLasting (duration : Binary64) :
    Run.Every step (QuietCall (V04.reading V04.plainEnv V04.SOFT_LIMIT))
      (World.init (V04.encoder V04.plainEnv V04.SOFT_LIMIT))
      [.encode (traceLasting duration) true] := by
  refine Run.every_of_forall_mem (fun c hc s => ?_) _
  rw [mem_singleton.mp hc]
  intro span hspan
  rw [mem_singleton.mp hspan]
  exact ⟨spanLasting duration, rfl, fun _ => rfl, rfl, rfl, rfl, rfl, rfl, fun n h => by cases h⟩

theorem quiet_traceLasting05 (duration : Binary64) :
    Run.Every step (QuietCall (V05.reading V04.plainEnv V04.SOFT_LIMIT))
      (World.init (V05.encoder V04.plainEnv V04.SOFT_LIMIT))
      [.encode (traceLasting duration) true] := by
  refine Run.every_of_forall_mem (fun c hc s => ?_) _
  rw [mem_singleton.mp hc]
  intro span hspan
  rw [mem_singleton.mp hspan]
  exact ⟨spanLasting duration, rfl, rfl, rfl, rfl, rfl⟩

/-- The payloads that the two encoders make of one trace. -/
def MadeOf (trace : Trace) (w : (V04.encoder V04.plainEnv V04.SOFT_LIMIT).World)
    (w' : (V05.encoder V04.plainEnv V04.SOFT_LIMIT).World) (p p' : List UInt8) : Prop :=
  Run.exec step (World.init _) [.encode trace true] = some w ∧
    Run.exec step (World.init _) [.encode trace true] = some w' ∧
    Makes w [((), trace)] p ∧ Makes w' [((), trace)] p'

theorem agree_traceLasting : ∃ w w' p p', MadeOf (traceLasting twoBytes) w w' p p' ∧
    (∃ d d', (Msgpack.decodeAll p).bind V04.denote = some d ∧
      (Msgpack.decodeAll p').bind V05.denote = some d') ∧
    (Agree p p' ∧ DistinctTable p' ↔
      (∀ x ∈ [((), traceLasting twoBytes)], ∀ span ∈ x.2.spans, SameTimes span) ∧
      ∀ k k', V05.Written V04.plainEnv ([((), traceLasting twoBytes)].map Prod.snd) k →
        V05.Written V04.plainEnv ([((), traceLasting twoBytes)].map Prod.snd) k' →
        Unicode.toWellFormed k = Unicode.toWellFormed k' → k = k') := by
  obtain ⟨w, p, hr, hp⟩ := makes_first (K := V04.encoder V04.plainEnv V04.SOFT_LIMIT)
    (traceLasting twoBytes) (by decide +kernel) (by decide +kernel) rfl
  obtain ⟨w', p', hr', hp'⟩ := makes_first (K := V05.encoder V04.plainEnv V04.SOFT_LIMIT)
    (traceLasting twoBytes) (by decide +kernel) (by decide +kernel) (by decide +kernel)
  refine ⟨w, w', p, p', ⟨hr, hr', hp, hp'⟩, agree_iff hr (quiet_traceLasting twoBytes) hr'
    (quiet_traceLasting05 twoBytes) hp hp' fun x hx span hspan => ?_⟩
  rw [mem_singleton.mp hx] at hspan
  rw [mem_singleton.mp hspan]
  exact plain_spanLasting twoBytes

/-- **A duration that is no number** is zero for one encoder and not for the other. -/
theorem not_agree_nan : ∃ w w' p p',
    MadeOf (traceLasting (.ofBits 0x7FF8000000000000)) w w' p p' ∧ ¬Agree p p' := by
  obtain ⟨w, p, hr, hp⟩ := makes_first (K := V04.encoder V04.plainEnv V04.SOFT_LIMIT)
    (traceLasting (.ofBits 0x7FF8000000000000)) (by decide +kernel) (by decide +kernel) rfl
  obtain ⟨w', p', hr', hp'⟩ := makes_first (K := V05.encoder V04.plainEnv V04.SOFT_LIMIT)
    (traceLasting (.ofBits 0x7FF8000000000000)) (by decide +kernel) (by decide +kernel)
    (by decide +kernel)
  refine ⟨w, w', p, p', ⟨hr, hr', hp, hp'⟩, fun hagree => ?_⟩
  obtain ⟨⟨s, hs⟩, s', hs', hJ⟩ := assembled_of_makes hr (quiet_traceLasting _) hr'
    (quiet_traceLasting05 _) hp hp'
  have hsame := (agree_iff_of_assembled (fun x hx span hspan => by
    rw [mem_singleton.mp hx] at hspan
    rw [mem_singleton.mp hspan]
    exact plain_spanLasting _) hs hs' hJ).2.1.mp hagree _ (mem_singleton_self _) _
      (mem_singleton_self _)
  exact absurd hsame.2.1 (by decide +kernel)

end DdTrace.Encode
