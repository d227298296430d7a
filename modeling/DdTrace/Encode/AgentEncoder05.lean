import DdTrace.Encode.AgentEncoderTrace

/-!
# The v0.5 encoder

`encode/0.5.js` inherits from the v0.4 encoder and writes a span as an array of twelve values, in
which a string is the number of its place in a table.  The table is the other half of the payload,
and is kept in a chunk of its own as the strings are met.

What is written refers to the table, which grows until the payload is assembled.  A number never
changes what it stands for, so that a span that was written early is read in the last table as in
the one it was written with: `Located` is what a value is read as in a table, and `Located.mono`
that it is read so in a longer one.

* `emits_encodeMap`, `emits_encodeSpan`: what is added to the chunk of the traces.
* `lawful`: what the encoder keeps between payloads; with it the rules of `Encoder` hold.
* `runs_assemble`: the payload is no longer than `MAX_SIZE`, or what is assembled overflows.
-/

open Library

namespace DdTrace.Encode

open MsgpackChunk

namespace V05

open Log.Growth Msgpack List

/-! ## The source -/

/-- `formatSpan`, which always writes the events as a string. -/
def formatSpan (env : Env) (span : Span) : Option Span := V04.formatSpanWithLegacyEvents env span

/-- `_stringMap[value] ?? _cacheString(value)`. -/
def cached (value : Text) : Writer ℕ ℕ := onStrings (cacheIndex value)

/-- `value || 0`. -/
def orZero (value : Binary64) : Binary64 :=
  if value.isNaN || value.mag == 0 then Binary64.ofBits 0 else value

/-- What `_encodeString` takes for a text, the empty string where there is none. -/
def orEmpty : Text → Text
  | .undefined => .str []
  | value => value

def encodeString (value : Text) : Writer ℕ Unit := do
  let index ← cached (orEmpty value)
  put (writeInteger index)

/-- The body of the loop of `_encodeMap`. -/
def encodeMapEntry (e : Str × Scalar) : Writer ℕ Bool :=
  match e.2 with
  | .str s => do
    let keyIndex ← cached (.str e.1)
    let valueIndex ← cached (.str s)
    put (writeInteger keyIndex ++ writeInteger valueIndex)
    pure true
  | .num d => do
    let keyIndex ← cached (.str e.1)
    if isFixint d then do
      put (writeInteger keyIndex ++ [byte d.toInt 0])
      pure true
    else do
      (traceLog ℕ).retract (writeInteger keyIndex) [0]
      put (writeIntOrFloat d)
      pure true
  | _ => pure false

/-- `_encodeMap`, of no entries where there is no map. -/
def encodeMap (value : Option (OrderedMap Str Scalar)) : Writer ℕ Unit := do
  let _ ← counted [0xDF] id (Prog.count (value.getD OrderedMap.empty).entries encodeMapEntry)

/-- The block in front of a span: the head of an array of twelve, three strings and the ids. -/
def headBlock (span : Span) (serviceIndex nameIndex resourceIndex : ℕ) : List UInt8 :=
  [0x9C] ++ writeInteger serviceIndex ++ writeInteger nameIndex ++ writeInteger resourceIndex ++
    (0xCF :: idBytes span.traceId) ++ (0xCF :: idBytes span.spanId) ++
    (0xCF :: idBytes span.parentId)

/-- What is written for a formatted span. -/
def encodeSpan (span : Span) : Writer ℕ Unit := do
  let serviceIndex ← cached span.service
  let nameIndex ← cached span.name
  let resourceIndex ← cached span.resource
  put (headBlock span serviceIndex nameIndex resourceIndex)
  put (writeIntOrFloat (orZero span.start))
  put (writeIntOrFloat (orZero span.duration))
  put (writeIntOrFloat span.error)
  encodeMap span.meta
  encodeMap span.metrics
  encodeString span.type

/-- The body of the loop over the spans. -/
def encodeFormatted (env : Env) (span : Span) : Writer ℕ Unit :=
  match formatSpan env span with
  | none => Prog.fail .raised
  | some span => encodeSpan span

/-- `_encode`. -/
def encode (env : Env) (trace : Trace) : Writer ℕ Unit := do
  put (writeArrayPrefix trace.spans.length)
  Prog.each trace.spans (encodeFormatted env)

/-- `makePayload` up to the reset: the two chunks are capped by themselves, and their sum here. -/
def assemble (traceCount : ℕ) : Writer ℕ (List UInt8) := do
  let s ← Prog.get
  let prefixSize := 1
  let stringSize := s.strings.bytes.length + 5
  let traceSize := s.traceBytes.length + 5
  let payloadSize := prefixSize + stringSize + traceSize
  if payloadSize > MAX_SIZE then Prog.fail (.overflow payloadSize)
  else
    pure ([0x92] ++ (writeArrayPrefix s.strings.count ++ s.strings.bytes) ++
      (writeArrayPrefix traceCount ++ s.traceBytes))

/-- `AgentEncoder` of v0.5. -/
def encoder (env : Env) (limit : ℕ) : Encoder where
  Entry := ℕ
  Own := Unit
  Change := Empty
  start := ()
  limit := limit
  cacheString := cacheIndex
  encodeTrace trace := onChunks (encode env trace)
  assemble traceCount _ := assemble traceCount
  clear := id
  change c _ := c.elim

/-! ## What it is read as -/

section Located

variable (At : Str → ℕ → Prop)

/-- A string as the number of its place. -/
def TextAt (k : Str) (m : Msgpack) : Prop := ∃ i : ℕ, At k i ∧ m = .int i

/-- The entries of a map that are written. -/
def writtenEntry (e : Str × Scalar) : Option (Str × Scalar) :=
  match e.2 with
  | .str _ | .num _ => some e
  | _ => none

def EntryAt (e : Str × Scalar) (x : Msgpack × Msgpack) : Prop :=
  TextAt At e.1 x.1 ∧
    match e.2 with
    | .str s => TextAt At s x.2
    | .num d => x.2 = numberRead d
    | _ => False

def MapAt (value : Option (OrderedMap Str Scalar)) (m : Msgpack) : Prop :=
  ∃ es, List.Forall₂ (EntryAt At)
    ((value.getD OrderedMap.empty).entries.filterMap writtenEntry) es ∧ m = .map es

/-- **What a formatted span is read as**, with its strings where they are. -/
def SpanAt (span : Span) (m : Msgpack) : Prop :=
  ∃ service name resource tags metrics type,
    TextAt At span.service.key service ∧ TextAt At span.name.key name ∧
    TextAt At span.resource.key resource ∧ MapAt At span.meta tags ∧
    MapAt At span.metrics metrics ∧ TextAt At (orEmpty span.type).key type ∧
    m = .array [service, name, resource, idImage span.traceId, idImage span.spanId,
      idImage span.parentId, numberRead (orZero span.start), numberRead (orZero span.duration),
      numberRead span.error, tags, metrics, type]

def FormattedAt (env : Env) (span : Span) (m : Msgpack) : Prop :=
  ∃ formatted, formatSpan env span = some formatted ∧ SpanAt At formatted m

def TraceAt (env : Env) (trace : Trace) (m : Msgpack) : Prop :=
  ∃ ms, m = .array ms ∧ List.Forall₂ (FormattedAt At env) trace.spans ms

variable {At} {At' : Str → ℕ → Prop} (h : ∀ k i, At k i → At' k i)

include h

variable {m : Msgpack}

theorem TextAt.mono {k : Str} (ht : TextAt At k m) : TextAt At' k m := by
  obtain ⟨i, hi, rfl⟩ := ht
  exact ⟨i, h k i hi, rfl⟩

theorem EntryAt.mono {e : Str × Scalar} {x : Msgpack × Msgpack} (he : EntryAt At e x) :
    EntryAt At' e x := by
  obtain ⟨k, v⟩ := e
  refine ⟨he.1.mono h, ?_⟩
  cases v with
  | str s => exact he.2.mono h
  | num d => exact he.2
  | null => exact he.2
  | other => exact he.2

theorem MapAt.mono {value : Option (OrderedMap Str Scalar)} (hm : MapAt At value m) :
    MapAt At' value m := by
  obtain ⟨es, hes, rfl⟩ := hm
  exact ⟨es, hes.imp fun _ _ he => he.mono h, rfl⟩

theorem SpanAt.mono {span : Span} (hm : SpanAt At span m) : SpanAt At' span m := by
  obtain ⟨service, name, resource, tags, metrics, type, h1, h2, h3, h4, h5, h6, rfl⟩ := hm
  exact ⟨service, name, resource, tags, metrics, type, h1.mono h, h2.mono h, h3.mono h,
    h4.mono h, h5.mono h, h6.mono h, rfl⟩

theorem FormattedAt.mono {env : Env} {span : Span} (hm : FormattedAt At env span m) :
    FormattedAt At' env span m := by
  obtain ⟨formatted, hf, hs⟩ := hm
  exact ⟨formatted, hf, hs.mono h⟩

/-- **A longer table** reads what a shorter one does. -/
theorem TraceAt.mono {env : Env} {trace : Trace} (hm : TraceAt At env trace m) :
    TraceAt At' env trace m := by
  obtain ⟨ms, rfl, hms⟩ := hm
  exact ⟨ms, rfl, hms.imp fun _ _ hf => hf.mono h⟩

end Located

/-- A formatted span for which no error is raised. -/
structure QuietSpan (span : Span) : Prop where
  name : span.name.isString = true
  resource : span.resource.isString = true
  service : span.service.isString = true
  type : (orEmpty span.type).isString = true

def QuietFormatted (env : Env) (span : Span) : Prop :=
  ∃ formatted, formatSpan env span = some formatted ∧ QuietSpan formatted

def Quiet (env : Env) (trace : Trace) : Prop := ∀ span ∈ trace.spans, QuietFormatted env span

/-! ## Strings and maps -/

/-- The strings of v0.5. -/
abbrev strings : (traceLog ℕ).Growth := growth Indices

/-- Where a table has its strings. -/
def Located (t : StringTable ℕ) (k : Str) (i : ℕ) : Prop := t.map.get? k = some i

variable {t : StringTable ℕ}

theorem Located.mono {s : StringTable ℕ} (h : s.Le t) : ∀ k i, Located s k i → Located t k i :=
  h.map

/-- There are fewer strings than bytes. -/
theorem lt_of_located (ht : Indices t) {k : Str} {i : ℕ} (h : Located t k i) : i < 2 ^ 32 := by
  have hi : i < t.map.keys.length := (List.getElem?_eq_some_iff.mp (ht.getElem k i h)).1
  have hlen : t.map.keys.length ≤ t.bytes.length := by
    rw [ht.bytes]
    generalize t.map.keys = ks
    induction ks with
    | nil => exact Nat.zero_le _
    | cons k ks ih =>
      have hpos := (encodes_write k).1
      rw [flatMap_cons, length_append, length_cons]
      omega
  have hcap : t.bytes.length ≤ MAX_SIZE := ht.cap
  exact lt_trans (lt_of_lt_of_le hi (hlen.trans hcap)) (by decide)

theorem encodes_writeInteger {i : ℕ} (h : i < 2 ^ 32) :
    Msgpack.Encodes Msgpack.decode (.int i) (writeInteger i) :=
  encodes_of_reads (reads_leaf (isHead_int32 (b := 0xCE) (k := fun n => .leaf (.int n)) rfl h))

theorem isHead_twelve : Msgpack.IsHead [0x9C] (.array 12) := by
  have hhead := isHead_fixarray (n := 12) (by decide)
  have hbyte : (0x90 + 12 : ℕ).toUInt8 = 0x9C := by decide
  rwa [hbyte] at hhead

theorem isHead_two : Msgpack.IsHead [0x92] (.array 2) := by
  have hhead := isHead_fixarray (n := 2) (by decide)
  have hbyte : (0x90 + 2 : ℕ).toUInt8 = 0x92 := by decide
  rwa [hbyte] at hhead

/-- An array behind a head of one byte. -/
theorem encodes_smallArray {d : UInt8} {vs : List Msgpack} {l : List UInt8}
    (hvs : Msgpack.EncodesAll Msgpack.decode vs l)
    (hd : Msgpack.IsHead [d] (.array vs.length)) :
    Msgpack.Encodes Msgpack.decode (.array vs) ([d] ++ l) :=
  encodes_array (fun _ => hd) (Nat.succ_pos 0) hvs

theorem emitsAt_cached (value : Text) (s : Chunks ℕ) :
    strings.EmitsAt (Fails (value.isString = true)) (cached value) s (fun t i l =>
      l = [] ∧ Located t.strings value.key i) :=
  emitsAt_onStrings fun hs => runs_cacheIndex_text value hs

theorem emitsAt_cachedStr (k : Str) (s : Chunks ℕ) :
    strings.EmitsAt Recovers (cached (.str k)) s (fun t i l => l = [] ∧ Located t.strings k i) :=
  emitsAt_onStrings fun hs => runs_cacheIndex k hs

/-- The bytes of an index are read as where the string is. -/
theorem textAt_of_located (ht : Indices t) {k : Str} {i : ℕ} (h : Located t k i) :
    TextAt (Located t) k (.int i) ∧ Msgpack.Encodes Msgpack.decode (.int i) (writeInteger i) :=
  ⟨⟨i, h, rfl⟩, encodes_writeInteger (lt_of_located ht h)⟩

theorem emits_encodeString (value : Text) :
    strings.Emits (Fails ((orEmpty value).isString = true)) (encodeString value) (fun t _ l =>
      ∃ m, TextAt (Located t.strings) (orEmpty value).key m ∧
        Msgpack.Encodes Msgpack.decode m l) := by
  intro s
  refine emitsAt_bind (emitsAt_cached (orEmpty value) s) ?_
  rintro t i _ ht _ ⟨rfl, hi⟩
  refine ((emits_put (writeInteger i) t).weaken fun _ he => Fails.of_recovers he).mono ?_
  rintro u _ l hu hle rfl
  have hread := textAt_of_located hu (Located.mono hle _ _ hi)
  exact ⟨.int i, hread.1, hread.2⟩

theorem emits_encodeMapEntry (e : Str × Scalar) :
    strings.Emits Recovers (encodeMapEntry e) (fun t =>
      ChosenRel Msgpack.entry (EntryAt (Located t.strings)) (writtenEntry e)) := by
  obtain ⟨k, v⟩ := e
  intro s
  cases v with
  | str value =>
    refine emitsAt_bind (emitsAt_cachedStr k s) ?_
    rintro t i _ _ _ ⟨rfl, hi⟩
    refine emitsAt_bind (emitsAt_cachedStr value t) ?_
    rintro u j _ _ htu ⟨rfl, hj⟩
    refine emitsAt_bind (emits_put _ u) ?_
    rintro w _ _ hw huw rfl
    refine (emitsAt_pure true).mono ?_
    rintro _ _ _ _ _ ⟨rfl, rfl, rfl⟩
    have hkey := textAt_of_located hw (Located.mono (htu.trans huw) _ _ hi)
    have hvalue := textAt_of_located hw (Located.mono huw _ _ hj)
    simp only [List.nil_append, append_nil]
    exact ⟨rfl, _, ⟨hkey.1, hvalue.1⟩, encodes_entry hkey.2 hvalue.2⟩
  | num d =>
    refine emitsAt_bind (emitsAt_cachedStr k s) ?_
    rintro t i _ _ _ ⟨rfl, hi⟩
    have hentry : ∀ {u : Chunks ℕ}, Indices u.strings → t.strings.Le u.strings →
        ChosenRel Msgpack.entry (EntryAt (Located u.strings)) (writtenEntry (k, .num d)) true
          (writeInteger i ++ writeIntOrFloat d) := by
      intro u hu hle
      have hkey := textAt_of_located hu (Located.mono hle _ _ hi)
      exact ⟨rfl, (.int i, numberRead d), ⟨hkey.1, rfl⟩, encodes_entry hkey.2
        (encodes_of_reads (reads_writeIntOrFloat d))⟩
    by_cases hfix : isFixint d = true
    · rw [if_pos hfix]
      refine emitsAt_bind (emits_put _ t) ?_
      rintro u _ _ hu hle rfl
      refine (emitsAt_pure true).mono ?_
      rintro _ _ _ _ _ ⟨rfl, rfl, rfl⟩
      have hchosen := hentry hu hle
      rw [writeIntOrFloat, if_pos hfix] at hchosen
      exact hchosen
    · rw [if_neg hfix]
      refine emitsAt_bind (emits_retract (fun _ h => h) t) ?_
      rintro u _ _ _ htu rfl
      refine emitsAt_bind (emits_put _ u) ?_
      rintro w _ _ hw huw rfl
      refine (emitsAt_pure true).mono ?_
      rintro _ _ _ _ _ ⟨rfl, rfl, rfl⟩
      rw [append_nil]
      exact hentry hw (htu.trans huw)
  | null | other =>
    refine (emitsAt_pure false).mono ?_
    rintro _ _ _ _ _ ⟨rfl, rfl, rfl⟩
    exact ⟨rfl, rfl⟩

/-- **`_encodeMap`** writes the strings and the numbers of a map. -/
theorem emits_encodeMap (value : Option (OrderedMap Str Scalar)) :
    strings.Emits Recovers (encodeMap value) (fun t _ l => ∃ m,
      MapAt (Located t.strings) value m ∧ Msgpack.Encodes Msgpack.decode m l) := by
  have hcount : strings.Emits Recovers
      (Prog.count (value.getD OrderedMap.empty).entries encodeMapEntry)
      (fun t n l => ∃ xs, List.Forall₂ (EntryAt (Located t.strings))
        ((value.getD OrderedMap.empty).entries.filterMap writtenEntry) xs ∧ n = xs.length ∧
          Msgpack.EncodesAll Msgpack.entry xs l) :=
    emits_countRel (R := fun t => EntryAt (Located t))
      (fun _ _ _ _ hle he => he.mono (Located.mono hle)) fun e _ => emits_encodeMapEntry e
  have hcounted : strings.Emits Recovers
      (counted [0xDF] id (Prog.count (value.getD OrderedMap.empty).entries encodeMapEntry))
      (fun t _ l => ∃ m, MapAt (Located t.strings) value m ∧
        Msgpack.Encodes Msgpack.decode m l) := by
    refine emits_counted (fun _ h => h) (fun _ => rfl) hcount ?_ ?_
    · rintro s t n l hle ⟨es, hes, hn, hl⟩
      exact ⟨es, hes.imp fun _ _ he => he.mono (Located.mono hle), hn, hl⟩
    · rintro t n l ⟨es, hes, hn, hl⟩
      exact ⟨.map es, ⟨es, hes, rfl⟩, encodes_countedMap hn hl⟩
  intro s
  refine emitsAt_bind (hcounted s) ?_
  rintro t n l _ _ hl
  refine (emitsAt_pure ()).mono ?_
  rintro _ _ _ _ _ ⟨rfl, rfl, rfl⟩
  rwa [append_nil]

/-! ## A span -/

/-- **A span** is read as an array of twelve values. -/
theorem emits_encodeSpan (span : Span) :
    strings.Emits (Fails (QuietSpan span)) (encodeSpan span) (fun t _ l => ∃ m,
      SpanAt (Located t.strings) span m ∧ Msgpack.Encodes Msgpack.decode m l) := by
  have hloud : ∀ e, Recovers e → Fails (QuietSpan span) e := fun _ he => Fails.of_recovers he
  intro s
  refine emitsAt_bind ((emitsAt_cached span.service s).weaken
    fun _ he => he.mono QuietSpan.service) ?_
  rintro t1 serviceIndex _ _ _ ⟨rfl, hservice⟩
  refine emitsAt_bind ((emitsAt_cached span.name t1).weaken
    fun _ he => he.mono QuietSpan.name) ?_
  rintro t2 nameIndex _ _ h12 ⟨rfl, hname⟩
  refine emitsAt_bind ((emitsAt_cached span.resource t2).weaken
    fun _ he => he.mono QuietSpan.resource) ?_
  rintro t3 resourceIndex _ _ h23 ⟨rfl, hresource⟩
  refine emitsAt_bind ((emits_put _ t3).weaken hloud) ?_
  rintro t4 _ _ _ h34 rfl
  refine emitsAt_bind ((emits_put _ t4).weaken hloud) ?_
  rintro t5 _ _ _ h45 rfl
  refine emitsAt_bind ((emits_put _ t5).weaken hloud) ?_
  rintro t6 _ _ _ h56 rfl
  refine emitsAt_bind ((emits_put _ t6).weaken hloud) ?_
  rintro t7 _ _ _ h67 rfl
  refine emitsAt_bind ((emits_encodeMap span.meta t7).weaken hloud) ?_
  rintro t8 _ tagBytes _ h78 ⟨tags, htags, htagBytes⟩
  refine emitsAt_bind ((emits_encodeMap span.metrics t8).weaken hloud) ?_
  rintro t9 _ metricBytes _ h89 ⟨metrics, hmetrics, hmetricBytes⟩
  refine ((emits_encodeString span.type t9).weaken fun _ he => he.mono QuietSpan.type).mono ?_
  rintro t _ typeBytes ht h9 ⟨type, htype, htypeBytes⟩
  have h8 : t8.strings.Le t.strings := h89.trans h9
  have h3 : t3.strings.Le t.strings :=
    h34.trans (h45.trans (h56.trans (h67.trans (h78.trans h8))))
  have h2 : t2.strings.Le t.strings := h23.trans h3
  have hs := textAt_of_located ht (Located.mono (h12.trans h2) _ _ hservice)
  have hn := textAt_of_located ht (Located.mono h2 _ _ hname)
  have hr := textAt_of_located ht (Located.mono h3 _ _ hresource)
  refine ⟨_, ⟨_, _, _, tags, metrics, type, hs.1, hn.1, hr.1, htags.mono (Located.mono h8),
    hmetrics.mono (Located.mono h9), htype, rfl⟩, ?_⟩
  have hnumber : ∀ d : Binary64,
      Msgpack.Encodes Msgpack.decode (numberRead d) (writeIntOrFloat d) :=
    fun d => encodes_of_reads (reads_writeIntOrFloat d)
  have hall := encodesAll_cons hs.2 <| encodesAll_cons hn.2 <|
    encodesAll_cons hr.2 <| encodesAll_cons (encodes_idBytes span.traceId) <|
    encodesAll_cons (encodes_idBytes span.spanId) <|
    encodesAll_cons (encodes_idBytes span.parentId) <|
    encodesAll_cons (hnumber (orZero span.start)) <|
    encodesAll_cons (hnumber (orZero span.duration)) <|
    encodesAll_cons (hnumber span.error) <| encodesAll_cons htagBytes <|
    encodesAll_cons hmetricBytes <| encodesAll_singleton htypeBytes
  have harray := encodes_smallArray hall isHead_twelve
  simp only [headBlock, append_assoc, List.nil_append, cons_append] at harray ⊢
  exact harray

theorem emits_encodeFormatted (env : Env) (span : Span) :
    strings.Emits (Fails (QuietFormatted env span)) (encodeFormatted env span) (fun t _ l => ∃ m,
      FormattedAt (Located t.strings) env span m ∧ Msgpack.Encodes Msgpack.decode m l) := by
  unfold encodeFormatted QuietFormatted FormattedAt
  cases hformat : formatSpan env span with
  | none =>
    refine fun s => emitsAt_fail ?_
    rintro ⟨formatted, hf, -⟩
    cases hf
  | some formatted =>
    intro s
    refine ((emits_encodeSpan formatted s).weaken fun _ he => he.mono ?_).mono ?_
    · rintro ⟨f, hf, hquiet⟩
      rw [Option.some_inj] at hf
      rwa [hf]
    · rintro t _ l _ _ ⟨m, hm, hl⟩
      exact ⟨m, ⟨formatted, rfl, hm⟩, hl⟩

/-- **`_encode`** writes a trace that is read as the array of its spans. -/
theorem emits_encode (env : Env) (trace : Trace) :
    strings.Emits (Fails (Quiet env trace)) (encode env trace) (fun t _ l => ∃ m,
      TraceAt (Located t.strings) env trace m ∧ Msgpack.Encodes Msgpack.decode m l) := by
  have hloop : strings.Emits (Fails (Quiet env trace))
      (Prog.each trace.spans (encodeFormatted env)) (fun t _ l => ∃ ms,
        List.Forall₂ (FormattedAt (Located t.strings) env) trace.spans ms ∧
          Msgpack.EncodesAll Msgpack.decode ms l) := by
    refine emits_each
      (Q := fun span (t : Chunks ℕ) l => ∃ m, FormattedAt (Located t.strings) env span m ∧
        Msgpack.Encodes Msgpack.decode m l)
      (R := fun spans (t : Chunks ℕ) l => ∃ ms,
        List.Forall₂ (FormattedAt (Located t.strings) env) spans ms ∧
          Msgpack.EncodesAll Msgpack.decode ms l)
      (fun span hspan s => ?_) ?_ (fun _ => ⟨[], .nil, encodesAll_nil⟩) ?_
    · exact (emits_encodeFormatted env span s).weaken fun _ he => he.mono fun hq => hq span hspan
    · rintro span s t l hle ⟨m, hm, hl⟩
      exact ⟨m, hm.mono (Located.mono hle), hl⟩
    · rintro span spans _ l r ⟨m, hm, hl⟩ ⟨ms, hms, hr⟩
      exact ⟨m :: ms, .cons hm hms, encodesAll_cons hl hr⟩
  intro s
  refine emitsAt_bind ((emits_put _ s).weaken fun _ he => Fails.of_recovers he) ?_
  rintro t _ _ _ _ rfl
  refine (hloop t).mono ?_
  rintro u _ l _ _ ⟨ms, hms, hl⟩
  exact ⟨.array ms, ⟨ms, rfl, hms⟩, encodes_countedArray hms.length_eq hl⟩

/-! ## Payloads -/

/-- **A payload of v0.5**: a table of different strings, and an array of the traces, whose strings
are where the table has them. -/
def IsPayload (env : Env) (q : List (Unit × Trace)) (p : List UInt8) : Prop :=
  ∃ (table : List Str) (ms : List Msgpack),
    Msgpack.decodeAll p = some (.array [.array (table.map textImage), .array ms]) ∧
    table.Nodup ∧ List.Forall₂ (fun x m => TraceAt (fun k i => table[i]? = some k) env x.2 m) q ms

def reading (env : Env) (limit : ℕ) : (encoder env limit).Reading where
  Inv := Indices
  Item t x xs := ∃ m, xs = [m] ∧ TraceAt (Located t) env x.2 m
  Counted _ _ := True
  IsPayload _ := IsPayload env
  Quiet _ := Quiet env

theorem indices_emptyTable (env : Env) (limit : ℕ) : Indices (encoder env limit).emptyTable := by
  rcases (runs_cacheIndex [] indices_empty).cases with ⟨entry, t, hx, ht, -⟩ | ⟨e, t, hx, -⟩
  · show Indices (cacheIndex (.str []) ⟨0, [], OrderedMap.empty⟩).2
    rw [hx]
    exact ht
  · cases congrArg Prod.fst hx

theorem runs_assemble {traceCount : ℕ} {s : Chunks ℕ} {Q : List UInt8 → Chunks ℕ → Prop}
    (h : 1 + (s.strings.bytes.length + 5) + (s.traceBytes.length + 5) ≤ MAX_SIZE →
      Q ([0x92] ++ (writeArrayPrefix s.strings.count ++ s.strings.bytes) ++
        (writeArrayPrefix traceCount ++ s.traceBytes)) s) :
    Prog.Runs (assemble traceCount) s Q Recovers := by
  refine Prog.runs_bind (Prog.runs_get ?_)
  by_cases hlen : 1 + (s.strings.bytes.length + 5) + (s.traceBytes.length + 5) > MAX_SIZE
  · rw [if_pos hlen]
    exact Prog.runs_fail hlen
  · rw [if_neg hlen]
    exact Prog.runs_pure (h (by omega))

theorem length_writeArrayPrefix (n : ℕ) : (writeArrayPrefix n).length = 5 := rfl

/-- The table that the chunk of the strings holds. -/
theorem encodes_table (ht : Indices t) :
    Msgpack.Encodes Msgpack.decode (.array (t.map.keys.map textImage))
      (writeArrayPrefix t.count ++ t.bytes) := by
  have hall : ∀ ks : List Str, Msgpack.EncodesAll Msgpack.decode (ks.map textImage)
      (ks.flatMap write) := by
    intro ks
    induction ks with
    | nil => exact encodesAll_nil
    | cons k ks ih => exact encodesAll_cons (encodes_write k) ih
  refine encodes_countedArray ?_ (ht.bytes ▸ hall t.map.keys)
  rw [length_map, ht.count]

/-- **A payload is made from the strings and the traces**, with the table the strings have then. -/
theorem runs_assemble_of_holds {env : Env} {limit : ℕ} {s : State ℕ Unit}
    {q : List (Unit × Trace)} (hs : (reading env limit).Holds s q) :
    Prog.Runs (assemble s.traceCount) s.chunks (fun p _ => ∃ ms, Msgpack.decodeAll p =
        some (.array [.array (s.chunks.strings.map.keys.map textImage), .array ms]) ∧
      s.chunks.strings.map.keys.Nodup ∧ List.Forall₂ (fun x m =>
        TraceAt (fun k i => s.chunks.strings.map.keys[i]? = some k) env x.2 m) q ms) Recovers := by
  obtain ⟨xss, hxss, hall⟩ := hs.items
  have hms := Encoder.Reading.flatten_of_forall₂ hxss
  have hinv : Indices s.chunks.strings := hs.inv
  refine runs_assemble fun hlen => ?_
  refine ⟨xss.flatten, ?_, OrderedMap.nodup_keys _, hms.imp fun _ _ hm => hm.mono hinv.getElem⟩
  have hpair := encodesAll_cons (encodes_table hinv) (encodesAll_singleton
    (encodes_countedArray (hs.count.trans hms.length_eq) hall))
  have harray := encodes_smallArray hpair isHead_two
  refine decodeAll_of_encodes harray ?_
  have hshort : 1 + (s.chunks.strings.bytes.length + 5) + (s.chunks.traceBytes.length + 5) <
      2 ^ 32 := lt_of_le_of_lt hlen (by decide)
  simp only [length_append, length_writeArrayPrefix, length_cons, length_nil]
  omega

theorem lawful (env : Env) (limit : ℕ) : (reading env limit).Lawful where
  inv_emptyTable := indices_emptyTable env limit
  item_mono hle := by
    rintro ⟨m, rfl, hm⟩
    exact ⟨m, rfl, hm.mono (Located.mono hle)⟩
  counted_start := trivial
  counted_clear _ := trivial
  counted_change _ _ _ _ := trivial
  traceCount _ _ := rfl
  clear _ _ := rfl
  encodeTrace trace s q hinv hcap _ := by
    refine Prog.runs_mono (runs_onChunks (emits_encode env trace s.chunks) hinv hcap) ?_
    rintro _ t ⟨ht, hle, hlen, hcount, hown, l, hl, m, hm, hread⟩
    exact ⟨ht, hle, hlen, hcount, trivial, [m], l, hl, ⟨m, rfl, hm⟩, encodesAll_singleton hread⟩
  assemble s q hs :=
    Prog.runs_mono (runs_assemble_of_holds hs) fun _ _ ⟨ms, hp⟩ => ⟨_, ms, hp⟩

end V05
end DdTrace.Encode
