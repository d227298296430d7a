import DdTrace.Encode.AgentEncoderSpec
import DdTrace.Encode.Encoder

/-!
# A trace of the v0.4 encoder

What is written for a span is read as a map of its fields, and what is written for a trace as the
array of its spans.  The views of the texts of a span are taken one after another and read when all
four are there: that a view goes on showing its string is what makes this right.

A `meta_struct` holds byte strings, each of which is a msgpack value of its own; the image of its
object is what these are read as.  Below it are objects of the program, whose getters can throw and
which can nest deeper than calls may.  The encoder throws there, and where a text is no string or
`meta` and `metrics` are not there.  Otherwise only a chunk that is full stops it.

* `follows_encodeObject`, `adds_encodeMetaStruct`: the objects below a `meta_struct`.
* `adds_encodeSpan`: a span is read as the map of its fields, with as many entries as its head says.
* `adds_encode`: a trace is read as the array of its spans; `Quiet`: the traces for which the
  encoder raises no error of its own.
-/

open Library

namespace DdTrace.Encode

open MsgpackChunk List Option Msgpack Log.Growth Fails

/-! ## Images -/

/-- The items of an array that are written, with what they are read as, and the objects that have
been met; none if reading one of them throws. -/
def itemsImage (image : List ℕ → JsValue → Option (List ℕ × Msgpack)) :
    List ℕ → List JsValue → Option (List ℕ × List Msgpack)
  | visited, [] => some (visited, [])
  | visited, v :: items =>
    if V04.JsValue.isItem visited v then
      (image visited v).bind fun r =>
        (itemsImage image r.1 items).map fun q => (q.1, r.2 :: q.2)
    else itemsImage image visited items

/-- The properties of an object that are written. -/
def propertiesImage (image : List ℕ → JsValue → Option (List ℕ × Msgpack)) :
    List ℕ → List (Str × Option JsValue) → Option (List ℕ × List (Msgpack × Msgpack))
  | visited, [] => some (visited, [])
  | _, (_, none) :: _ => none
  | visited, (key, some v) :: entries =>
    if V04.JsValue.isProperty visited v then
      (image visited v).bind fun r =>
        (propertiesImage image r.1 entries).map fun q => (q.1, (textImage key, r.2) :: q.2)
    else propertiesImage image visited entries

/-- A value below a `meta_struct`, if it nests no deeper than calls may and no getter throws. -/
def objectImage (objects : ℕ → JsObject) : ℕ → List ℕ → JsValue → Option (List ℕ × Msgpack)
  | 0, _, _ => none
  | depth + 1, visited, value =>
    match value with
    | .ref n =>
      match objects n with
      | .array items =>
        (itemsImage (objectImage objects depth) (n :: visited) items).map fun r =>
          (r.1, .array r.2)
      | .object entries =>
        (propertiesImage (objectImage objects depth) (n :: visited) entries.entries).map fun r =>
          (r.1, .map r.2)
    | .str s => some (visited, textImage s)
    | .num d => some (visited, .float d)
    | .bool b => some (visited, .bool b)
    | .other => none

/-- An entry of a `meta_struct`, if it is written; none at all if that throws. -/
def structEntry (env : Env) (objects : ℕ → JsObject) (e : Str × Option JsValue) :
    Option (Option (Str × Msgpack)) :=
  match e.2 with
  | none => none
  | some v =>
    if V04.JsValue.isEntry v then
      (objectImage objects env.depth [] v).map fun r => some (e.1, r.2)
    else some none

def structEntries (objects : ℕ → JsObject) (n : ℕ) : List (Str × Option JsValue) :=
  match objects n with
  | .array _ => []
  | .object entries => entries.entries

/-- The keys of a `meta_struct` with what the byte strings under them are read as. -/
def structImage (env : Env) (objects : ℕ → JsObject) (n : ℕ) : List (Str × Msgpack) :=
  (structEntries objects n).filterMap fun e => (structEntry env objects e).join

/-- An entry whose value is the byte string of a msgpack value. -/
def IsBinEntry (e : Str × Msgpack) (x : Msgpack × Msgpack) : Prop :=
  ∃ l, x = (textImage e.1, .bin l) ∧ Msgpack.decodeAll l = some e.2

/-! ### Spans -/

/-- The last eight bytes of an identifier as a number. -/
def idImage (identifier : Identifier) : Msgpack := .int (Bytes.ofBytes (idBytes identifier))

/-- A start that is written with 64 bits of its own keeps its integer part. -/
def startImage (span : Span) : Msgpack :=
  if (V04.fuseTail span).isSome then .int (V04.truncated span.start % 2 ^ 64)
  else numberRead span.start

/-- The entries of a span up to its start. -/
def headImage (span : Span) : List (Msgpack × Msgpack) :=
  (if span.type.truthy then [keyed "type" (textImage span.type.key)] else []) ++
    [keyed "trace_id" (idImage span.traceId), keyed "span_id" (idImage span.spanId),
      keyed "parent_id" (idImage span.parentId), keyed "name" (textImage span.name.key),
      keyed "resource" (textImage span.resource.key),
      keyed "service" (textImage span.service.key), keyed "error" (numberRead span.error),
      keyed "start" (startImage span)]

/-- The entry for the span events, where there are some. -/
def eventsEntry (env : Env) (spanEvents : Option (List SpanEvent)) : List (Msgpack × Msgpack) :=
  match spanEvents with
  | none => []
  | some es => [keyed "span_events" (.array (es.filterMap (eventImage env)))]

/-- The entry for the `meta_struct`, where there is one. -/
def StructEntryIs (env : Env) (objects : ℕ → JsObject) (metaStruct : Option ℕ)
    (es : List (Msgpack × Msgpack)) : Prop :=
  match metaStruct with
  | none => es = []
  | some n => ∃ fields, List.Forall₂ IsBinEntry (structImage env objects n) fields ∧
      es = [keyed "meta_struct" (.map fields)]

/-- What a formatted span is read as. -/
def SpanIs (env : Env) (objects : ℕ → JsObject) (span : Span) (m : Msgpack) : Prop :=
  ∃ tags metrics struct, span.meta = some tags ∧ span.metrics = some metrics ∧
    StructEntryIs env objects span.metaStruct struct ∧
    m = .map (headImage span ++ [keyed "duration" (numberRead span.duration),
      keyed "meta" (.map (entriesImage numberRead tags)),
      keyed "metrics" (.map (entriesImage numberRead metrics))] ++
        eventsEntry env span.spanEvents ++ struct)

/-- What a span is read as once it is formatted. -/
def FormattedIs (env : Env) (objects : ℕ → JsObject) (span : Span) (m : Msgpack) : Prop :=
  ∃ formatted, V04.formatSpan env span = some formatted ∧ SpanIs env objects formatted m

/-- What a trace is read as: the formatted spans, in order. -/
def TraceIs (env : Env) (trace : Trace) (m : Msgpack) : Prop :=
  ∃ ms, m = .array ms ∧ List.Forall₂ (FormattedIs env trace.objects) trace.spans ms

/-! ### What is written without an error -/

/-- A formatted span for which the encoder raises no error of its own. -/
structure QuietSpan (env : Env) (objects : ℕ → JsObject) (span : Span) : Prop where
  type : span.type.truthy = true → span.type.isString = true
  name : span.name.isString = true
  resource : span.resource.isString = true
  service : span.service.isString = true
  tags : span.meta.isSome = true
  metrics : span.metrics.isSome = true
  struct : ∀ n, span.metaStruct = some n → ∀ e ∈ structEntries objects n,
    (structEntry env objects e).isSome = true

/-- The same of a span that can be formatted. -/
def QuietFormatted (env : Env) (objects : ℕ → JsObject) (span : Span) : Prop :=
  ∃ formatted, V04.formatSpan env span = some formatted ∧ QuietSpan env objects formatted

/-- A trace of such spans. -/
def Quiet (env : Env) (trace : Trace) : Prop :=
  ∀ span ∈ trace.spans, QuietFormatted env trace.objects span

/-- An identifier is read as the number of its last eight bytes. -/
theorem encodes_idBytes (identifier : Identifier) :
    Msgpack.Encodes Msgpack.decode (idImage identifier) (0xCF :: idBytes identifier) := by
  have hlen : (idBytes identifier).length = 8 := by
    have hsize := identifier.size
    rw [idBytes, length_drop]
    omega
  have hlt := Bytes.ofBytes_lt (idBytes identifier)
  have hbytes := Bytes.toBytes_ofBytes (idBytes identifier)
  rw [hlen] at hlt hbytes
  have hread := reads_leaf (isHead_of_format (b := 0xCF) rfl hlt)
  rw [hbytes] at hread
  exact encodes_of_reads hread

namespace V04

/-! ## Objects -/

section Objects

variable {encode : List ℕ → JsValue → Writer Slice (List ℕ)}
  {image : List ℕ → JsValue → Option (List ℕ × Msgpack)}

/-- A writer of values that follows their images, and fails where there is none. -/
def Follows (encode : List ℕ → JsValue → Writer Slice (List ℕ))
    (image : List ℕ → JsValue → Option (List ℕ × Msgpack)) : Prop :=
  ∀ visited v, v ≠ .other →
    strings.Adds (Fails ((image visited v).isSome = true)) (encode visited v)
      (fun after l => ∃ r, image visited v = some r ∧ after = r.1 ∧
        Msgpack.Encodes Msgpack.decode r.2 l)

theorem adds_encodeItems (h : Follows encode image) (items : List JsValue) (visited : List ℕ) :
    strings.Adds (Fails ((itemsImage image visited items).isSome = true))
      (encodeItems encode visited items)
      (fun q l => ∃ r, itemsImage image visited items = some r ∧ q = (r.1, r.2.length) ∧
        Msgpack.EncodesAll Msgpack.decode r.2 l) := by
  induction items generalizing visited with
  | nil => exact adds_pure ⟨(visited, []), rfl, rfl, encodesAll_nil⟩
  | cons v items ih =>
    rw [itemsImage, encodeItems]
    by_cases hv : JsValue.isItem visited v = true
    · have hne : v ≠ .other := by
        rintro rfl
        cases hv
      rw [if_pos hv, if_pos hv]
      refine Log.Growth.adds_bind ((h visited v hne).weaken fun e he => he.mono ?_) ?_
      · intro hsome
        obtain ⟨q, hq⟩ := isSome_iff_exists.mp hsome
        obtain ⟨r, hr, -⟩ := bind_eq_some_iff.mp hq
        rw [hr]
        rfl
      rintro _ l ⟨r, hr, rfl, hl⟩
      rw [hr, bind_some]
      refine Log.Growth.adds_bind ((ih r.1).weaken fun e he => he.mono ?_) ?_
      · intro hsome
        rwa [isSome_map] at hsome
      rintro _ m ⟨q, hq, rfl, hm⟩
      refine adds_pure ⟨(q.1, r.2 :: q.2), ?_, rfl, ?_⟩
      · rw [hq]
        rfl
      · rw [append_nil]
        exact encodesAll_cons hl hm
    · rw [if_neg hv, if_neg hv]
      exact ih visited

theorem adds_encodeProperties (h : Follows encode image) (entries : List (Str × Option JsValue))
    (visited : List ℕ) :
    strings.Adds (Fails ((propertiesImage image visited entries).isSome = true))
      (encodeProperties encode visited entries)
      (fun q l => ∃ r, propertiesImage image visited entries = some r ∧
        q = (r.1, r.2.length) ∧ Msgpack.EncodesAll Msgpack.entry r.2 l) := by
  induction entries generalizing visited with
  | nil => exact adds_pure ⟨(visited, []), rfl, rfl, encodesAll_nil⟩
  | cons e entries ih =>
    obtain ⟨key, v⟩ := e
    cases v with
    | none => exact fun s => emitsAt_fail Bool.false_ne_true
    | some v =>
      rw [propertiesImage, encodeProperties]
      by_cases hv : JsValue.isProperty visited v = true
      · have hne : v ≠ .other := by
          rintro rfl
          cases hv
        rw [if_pos hv, if_pos hv]
        refine Log.Growth.adds_bind
          ((adds_encodeText key).weaken fun e he => of_recovers he) fun _ k hk => ?_
        refine Log.Growth.adds_bind ((h visited v hne).weaken fun e he => he.mono ?_) ?_
        · intro hsome
          obtain ⟨q, hq⟩ := isSome_iff_exists.mp hsome
          obtain ⟨r, hr, -⟩ := bind_eq_some_iff.mp hq
          rw [hr]
          rfl
        rintro _ l ⟨r, hr, rfl, hl⟩
        rw [hr, bind_some]
        refine Log.Growth.adds_bind ((ih r.1).weaken fun e he => he.mono ?_) ?_
        · intro hsome
          rwa [isSome_map] at hsome
        rintro _ m ⟨q, hq, rfl, hm⟩
        refine adds_pure ⟨(q.1, (textImage key, r.2) :: q.2), ?_, rfl, ?_⟩
        · rw [hq]
          rfl
        · rw [append_nil, ← append_assoc]
          exact encodesAll_cons (encodes_entry hk hl) hm
      · rw [if_neg hv, if_neg hv]
        exact ih visited

/-- **`#encodeObject`** writes the image of a value, and has met the objects of it. -/
theorem follows_encodeObject (objects : ℕ → JsObject) (depth : ℕ) :
    Follows (encodeObject objects depth) (objectImage objects depth) := by
  induction depth with
  | zero =>
    intro visited v _ s
    exact emitsAt_fail Bool.false_ne_true
  | succ depth ih =>
    intro visited v hne
    unfold objectImage encodeObject
    have hput : ∀ {m : Msgpack} {x : Writer Slice Unit},
        strings.Adds Recovers x (fun _ l => Msgpack.Encodes Msgpack.decode m l) →
        strings.Adds (Fails ((some (visited, m)).isSome = true)) (do x; pure visited)
          (fun after l => ∃ r, some (visited, m) = some r ∧ after = r.1 ∧
            Msgpack.Encodes Msgpack.decode r.2 l) := by
      intro m x hx
      refine Log.Growth.adds_bind (hx.weaken fun e he => of_recovers he) fun _ l hl => ?_
      refine adds_pure ⟨(visited, m), rfl, rfl, ?_⟩
      rw [append_nil]
      exact hl
    cases v with
    | other => exact absurd rfl hne
    | str s => exact hput (adds_encodeText s)
    | num d => exact hput (adds_put (encodes_of_reads (reads_writeFloat d)))
    | bool b => exact hput (adds_put (encodes_of_reads (reads_writeBoolean b)))
    | ref n =>
      dsimp only
      cases objects n with
      | array items =>
        dsimp only
        rw [isSome_map]
        refine Log.Growth.adds_bind (adds_counted (fun _ h => h)
          (adds_encodeItems ih items (n :: visited))
          (R := fun a l => ∃ r, itemsImage (objectImage objects depth) (n :: visited) items =
            some r ∧ a.1 = r.1 ∧ Msgpack.Encodes Msgpack.decode (.array r.2) l) ?_) ?_
        · rintro a m ⟨r, hr, rfl, hm⟩
          exact ⟨r, hr, rfl, encodes_countedArray rfl hm⟩
        · rintro a l ⟨r, hr, ha, hl⟩
          refine adds_pure ⟨(r.1, .array r.2), ?_, ha, ?_⟩
          · rw [hr]
            rfl
          · rw [append_nil]
            exact hl
      | object entries =>
        dsimp only
        rw [isSome_map]
        refine Log.Growth.adds_bind (adds_counted (fun _ h => h)
          (adds_encodeProperties ih entries.entries (n :: visited))
          (R := fun a l => ∃ r, propertiesImage (objectImage objects depth) (n :: visited)
            entries.entries = some r ∧ a.1 = r.1 ∧
              Msgpack.Encodes Msgpack.decode (.map r.2) l) ?_) ?_
        · rintro a m ⟨r, hr, rfl, hm⟩
          exact ⟨r, hr, rfl, encodes_countedMap rfl hm⟩
        · rintro a l ⟨r, hr, ha, hl⟩
          refine adds_pure ⟨(r.1, .map r.2), ?_, ha, ?_⟩
          · rw [hr]
            rfl
          · rw [append_nil]
            exact hl

end Objects

variable (env : Env) (objects : ℕ → JsObject)

/-- **`#encodeObjectAsByteArray`** writes the length of what follows, which is read by itself. -/
theorem adds_encodeObjectAsByteArray {v : JsValue} (hv : v ≠ .other) :
    strings.Adds (Fails ((objectImage objects env.depth [] v).isSome = true))
      (encodeObjectAsByteArray env objects v)
      (fun _ l => ∃ r b, objectImage objects env.depth [] v = some r ∧
        Msgpack.decodeAll b = some r.2 ∧ Msgpack.Encodes Msgpack.decode (.bin b) l) := by
  have hsized : strings.Adds (Fails ((objectImage objects env.depth [] v).isSome = true))
      ((traceLog Slice).sized [0, 0, 0, 0, 0] (fun length => 0xC6 :: int32 length)
        (encodeObject objects env.depth [] v))
      (fun _ l => ∃ r b, objectImage objects env.depth [] v = some r ∧
        Msgpack.Encodes Msgpack.decode r.2 b ∧ l = (0xC6 :: int32 b.length) ++ b) := by
    refine emits_sized (fun _ h => h) (fun _ => rfl)
      (follows_encodeObject objects env.depth [] v hv) (mono_const _) ?_
    rintro _ a b ⟨r, hr, -, hb⟩
    exact ⟨r, b, hr, hb, rfl⟩
  refine adds_discard (hsized.mono_of_le ?_) fun _ _ h => h
  rintro _ l hlen ⟨r, b, hr, hb, rfl⟩
  have hcap : b.length < 2 ^ 32 := by
    rw [length_append] at hlen
    have hle : b.length ≤ MAX_SIZE := le_trans (Nat.le_add_left _ _) hlen
    exact lt_of_le_of_lt hle (by decide)
  exact ⟨r, b, hr, decodeAll_of_encodes hb hcap,
    encodes_bin (fun h => isHead_int32 rfl h) (Nat.succ_pos _)⟩

theorem adds_structEntry (e : Str × Option JsValue) :
    strings.Adds (Fails ((structEntry env objects e).isSome = true)) (match e.2 with
        | none => Prog.fail .raised
        | some v =>
          if JsValue.isEntry v then do
            encodeString (.str e.1)
            encodeObjectAsByteArray env objects v
            pure true
          else pure false)
      (ChosenRel Msgpack.entry IsBinEntry (structEntry env objects e).join) := by
  obtain ⟨key, v⟩ := e
  cases v with
  | none => exact fun s => emitsAt_fail Bool.false_ne_true
  | some v =>
    unfold structEntry
    dsimp only
    by_cases hv : JsValue.isEntry v = true
    · have hne : v ≠ .other := by
        rintro rfl
        cases hv
      rw [if_pos hv, if_pos hv, isSome_map]
      refine Log.Growth.adds_bind
        ((adds_encodeText key).weaken fun e he => of_recovers he) fun _ k hk => ?_
      refine Log.Growth.adds_bind (adds_encodeObjectAsByteArray env objects hne) ?_
      rintro _ l ⟨r, b, hr, hb, hl⟩
      refine adds_pure ?_
      rw [hr, append_nil]
      exact ⟨rfl, (textImage key, .bin b), ⟨b, rfl, hb⟩, encodes_entry hk hl⟩
    · rw [if_neg hv, if_neg hv]
      exact adds_pure ⟨rfl, rfl⟩

/-- **`#encodeMetaStruct`** writes the entries that hold strings, numbers and objects. -/
theorem adds_encodeMetaStruct (n : ℕ) : strings.Adds
      (Fails (∀ e ∈ structEntries objects n, (structEntry env objects e).isSome = true))
      (encodeMetaStruct env objects n)
      (fun _ l => ∃ es, List.Forall₂ IsBinEntry (structImage env objects n) es ∧
        Msgpack.Encodes Msgpack.decode (.map es) l) := by
  unfold encodeMetaStruct structImage structEntries
  cases objects n with
  | array items =>
    refine (adds_put (Q := fun _ l => ∃ es, List.Forall₂ IsBinEntry [] es ∧
      Msgpack.Encodes Msgpack.decode (.map es) l) ⟨[], .nil, ?_⟩).weaken
        fun _ he => of_recovers he
    exact encodes_countedMap rfl encodesAll_nil
  | object entries =>
    refine adds_discard (adds_counted (fun _ h => h) (adds_countRel
      (R := IsBinEntry) (p := Msgpack.entry)
      (g := fun e => (structEntry env objects e).join) fun e he => ?_)
      (R := fun _ l => ∃ es, List.Forall₂ IsBinEntry (entries.entries.filterMap fun e =>
        (structEntry env objects e).join) es ∧ Msgpack.Encodes Msgpack.decode (.map es) l) ?_)
      fun _ _ h => h
    · exact (adds_structEntry env objects e).weaken fun _ h => h.mono fun hall => hall e he
    · rintro k m ⟨es, hes, hk, hm⟩
      exact ⟨es, hes, encodes_countedMap hk hm⟩

/-! ## A span -/

theorem encodes_id (key : String) (h : isKey key = true) (identifier : Identifier) :
    Msgpack.Encodes Msgpack.entry (keyed key (idImage identifier))
      (buildKeyWithPrefix (lit key) 0xCF ++ idBytes identifier) := by
  have hentry := encodes_keyed key h (encodes_idBytes identifier)
  rw [buildKeyWithPrefix, append_assoc]
  exact hentry

theorem encodes_errorEntry {span : Span} {l : List UInt8} (h : errorEntry span = some l) :
    Msgpack.Encodes Msgpack.entry (keyed "error" (numberRead span.error)) l := by
  unfold errorEntry at h
  have hsmall : ∀ {n : ℕ}, n < 0x80 → span.error.isInteger = true → span.error.toInt = n →
      Msgpack.Encodes Msgpack.entry (keyed "error" (numberRead span.error))
        (KEY_ERROR ++ [n.toUInt8]) := by
    intro n hn hint hval
    have hwrap : wrap (n : ℤ) = n := wrap_eq_self_iff.mpr (by omega)
    rw [numberRead, if_pos hint, hval, hwrap]
    exact encodes_keyed _ (by decide) (encodes_of_reads (reads_leaf (isHead_fixint hn)))
  by_cases h0 : (span.error.isInteger && span.error.toInt == 0) = true
  · rw [if_pos h0, some_inj] at h
    rw [Bool.and_eq_true, beq_iff_eq] at h0
    subst h
    exact hsmall (n := 0) (by decide) h0.1 h0.2
  rw [if_neg h0] at h
  by_cases h1 : (span.error.isInteger && span.error.toInt == 1) = true
  · rw [if_pos h1, some_inj] at h
    rw [Bool.and_eq_true, beq_iff_eq] at h1
    subst h
    exact hsmall (n := 1) (by decide) h1.1 h1.2
  · rw [if_neg h1] at h
    cases h

variable (span : Span)

/-- **The four views** show their texts when the last of them has been taken. -/
theorem emitsAt_headEntries {env : Env} {objects : ℕ → JsObject} (s : Chunks Slice) :
    strings.EmitsAt (Fails (QuietSpan env objects span)) (headEntries span) s (fun t r l =>
      l = [] ∧
      r.1.map (fun entry => entry.read t.strings.bytes) =
        (if span.type.truthy then some (write span.type.key) else none) ∧
      r.2.1.read t.strings.bytes = write span.name.key ∧
      r.2.2.1.read t.strings.bytes = write span.resource.key ∧
      r.2.2.2.read t.strings.bytes = write span.service.key) := by
  have htype : strings.EmitsAt (Fails (QuietSpan env objects span)) (cachedType span) s
      (fun t r l => l = [] ∧ (r = if span.type.truthy then r else none) ∧
        (span.type.truthy = true → ∃ entry, r = some entry ∧
          t.strings.map.get? span.type.key = some entry)) := by
    unfold cachedType
    by_cases htruthy : span.type.truthy = true
    · rw [if_pos htruthy]
      refine emitsAt_bind ((emitsAt_cachedText span.type s).weaken
        fun e he => he.mono fun hq => hq.type htruthy) ?_
      rintro t entry _ _ _ ⟨rfl, hentry⟩
      refine (emitsAt_pure _).mono ?_
      rintro u r l _ _ ⟨rfl, rfl, rfl⟩
      exact ⟨rfl, (if_pos htruthy).symm, fun _ => ⟨entry, rfl, hentry⟩⟩
    · rw [if_neg htruthy]
      refine (emitsAt_pure _).mono ?_
      rintro u r l _ _ ⟨rfl, rfl, rfl⟩
      exact ⟨rfl, (if_neg htruthy).symm, fun h => absurd h htruthy⟩
  refine emitsAt_bind htype ?_
  rintro t typeEntry _ _ _ ⟨rfl, hnone, htypeEntry⟩
  refine emitsAt_bind ((emitsAt_cachedText span.name t).weaken
    fun e he => he.mono fun hq => hq.name) ?_
  rintro u nameEntry _ _ htu ⟨rfl, hname⟩
  refine emitsAt_bind ((emitsAt_cachedText span.resource u).weaken
    fun e he => he.mono fun hq => hq.resource) ?_
  rintro v resourceEntry _ _ huv ⟨rfl, hresource⟩
  refine emitsAt_bind ((emitsAt_cachedText span.service v).weaken
    fun e he => he.mono fun hq => hq.service) ?_
  rintro w serviceEntry _ _ hvw ⟨rfl, hservice⟩
  refine (emitsAt_pure _).mono ?_
  rintro x r l hx _ ⟨rfl, rfl, rfl⟩
  have huw : u.strings.Le x.strings := huv.trans hvw
  refine ⟨rfl, ?_, hx.read_eq _ _ (huw.map _ _ hname), hx.read_eq _ _ (hvw.map _ _ hresource),
    hx.read_eq _ _ hservice⟩
  by_cases htruthy : span.type.truthy = true
  · obtain ⟨entry, rfl, hentry⟩ := htypeEntry htruthy
    rw [if_pos htruthy, map_some, hx.read_eq _ _ ((htu.trans huw).map _ _ hentry)]
  · rw [if_neg htruthy] at hnone ⊢
    rw [hnone]
    rfl

theorem encodes_headFields : Msgpack.EncodesAll Msgpack.entry
      ((if span.type.truthy then [keyed "type" (textImage span.type.key)] else []) ++
        [keyed "trace_id" (idImage span.traceId), keyed "span_id" (idImage span.spanId),
          keyed "parent_id" (idImage span.parentId), keyed "name" (textImage span.name.key),
          keyed "resource" (textImage span.resource.key),
          keyed "service" (textImage span.service.key)])
      (headFields span (if span.type.truthy then some (write span.type.key) else none)
        (write span.name.key) (write span.resource.key) (write span.service.key)) := by
  have htext : ∀ key : String, isKey key = true → ∀ k : Str,
      Msgpack.Encodes Msgpack.entry (keyed key (textImage k)) (buildKey (lit key) ++ write k) :=
    fun key h k => encodes_keyed key h (encodes_write k)
  have hrest := encodesAll_cons (encodes_id "trace_id" (by decide) span.traceId) <|
    encodesAll_cons (encodes_id "span_id" (by decide) span.spanId) <|
    encodesAll_cons (encodes_id "parent_id" (by decide) span.parentId) <|
    encodesAll_cons (htext "name" (by decide) span.name.key) <|
    encodesAll_cons (htext "resource" (by decide) span.resource.key) <|
    encodesAll_singleton (htext "service" (by decide) span.service.key)
  unfold headFields
  by_cases htruthy : span.type.truthy = true
  · have hall := encodesAll_cons (htext "type" (by decide) span.type.key) hrest
    rw [if_pos htruthy, if_pos htruthy]
    simp only [append_assoc] at hall ⊢
    exact hall
  · rw [if_neg htruthy, if_neg htruthy]
    simp only [append_assoc, List.nil_append] at hrest ⊢
    exact hrest

/-- The error and the start, in the block or behind it. -/
theorem adds_encodeTail : strings.Adds Recovers (encodeTail span) (fun _ l => ∃ b,
      headTail span ++ l = b ++ KEY_DURATION ∧
      Msgpack.EncodesAll Msgpack.entry
        [keyed "error" (numberRead span.error), keyed "start" (startImage span)] b) := by
  unfold encodeTail headTail startImage
  cases hfuse : fuseTail span with
  | some error =>
    have herror : errorEntry span = some error := by
      unfold fuseTail at hfuse
      split at hfuse
      · exact hfuse
      · cases hfuse
    refine adds_pure ⟨error ++ (KEY_START_PREFIX ++ int64 (truncated span.start)), ?_,
      encodesAll_cons (encodes_errorEntry herror) (encodesAll_singleton ?_)⟩
    · rw [append_nil]
    · rw [isSome_some, int64_eq]
      have hread := reads_unsigned (b := 0xCF) (w := 8) (v := truncated span.start % 2 ^ 64)
        rfl (by omega) (by omega)
      have hentry := encodes_keyed "start" (by decide) (encodes_of_reads hread)
      exact hentry
  | none =>
    have hput : ∀ l : List UInt8, strings.Adds Recovers (put l) (fun _ m => m = l) :=
      fun l => adds_put rfl
    have hrest : strings.Adds Recovers
        (do put KEY_START; put (writeIntOrFloat span.start); put KEY_DURATION)
        (fun _ l => l = KEY_START ++ (writeIntOrFloat span.start ++ KEY_DURATION)) := by
      refine Log.Growth.adds_bind (hput _) ?_
      rintro _ _ rfl
      refine Log.Growth.adds_bind (hput _) ?_
      rintro _ _ rfl
      exact (hput _).mono fun _ _ h => by rw [h]
    have hstart : Msgpack.Encodes Msgpack.entry (keyed "start" (numberRead span.start))
        (KEY_START ++ writeIntOrFloat span.start) :=
      encodes_keyed _ (by decide) (encodes_of_reads (reads_writeIntOrFloat span.start))
    have hall : ∀ {error : List UInt8},
        Msgpack.Encodes Msgpack.entry (keyed "error" (numberRead span.error)) error →
        ∃ b, [] ++ (error ++ (KEY_START ++ (writeIntOrFloat span.start ++ KEY_DURATION))) =
            b ++ KEY_DURATION ∧
          Msgpack.EncodesAll Msgpack.entry [keyed "error" (numberRead span.error),
            keyed "start" (numberRead span.start)] b := by
      intro error herror
      refine ⟨error ++ (KEY_START ++ writeIntOrFloat span.start), ?_,
        encodesAll_cons herror (encodesAll_singleton hstart)⟩
      simp only [append_assoc, List.nil_append]
    cases herror : errorEntry span with
    | some error =>
      refine Log.Growth.adds_bind (hput error) ?_
      rintro _ _ rfl
      refine hrest.mono ?_
      rintro _ _ rfl
      exact hall (encodes_errorEntry herror)
    | none =>
      refine Log.Growth.adds_bind (hput KEY_ERROR) ?_
      rintro _ _ rfl
      refine Log.Growth.adds_bind (hput (writeIntOrFloat span.error)) ?_
      rintro _ _ rfl
      refine hrest.mono ?_
      rintro _ _ rfl
      exact hall (encodes_keyed _ (by decide) (encodes_of_reads (reads_writeIntOrFloat span.error)))

theorem adds_encodeSpanEventsIfAny (spanEvents : Option (List SpanEvent)) :
    strings.Adds Recovers (encodeSpanEventsIfAny env spanEvents)
      (fun _ l => Msgpack.EncodesAll Msgpack.entry (eventsEntry env spanEvents) l) := by
  cases spanEvents with
  | none => exact adds_pure encodesAll_nil
  | some es =>
    refine Log.Growth.adds_bind (adds_put (Q := fun _ l => l = KEY_SPAN_EVENTS) rfl) ?_
    rintro _ _ rfl
    refine (adds_encodeSpanEvents env es).mono fun _ l hl => ?_
    exact encodesAll_singleton (encodes_keyed "span_events" (by decide) hl)

theorem adds_encodeMetaStructIfAny (metaStruct : Option ℕ) :
    strings.Adds (Fails (∀ n, metaStruct = some n → ∀ e ∈ structEntries objects n,
        (structEntry env objects e).isSome = true))
      (encodeMetaStructIfAny env objects metaStruct)
      (fun _ l => ∃ es, StructEntryIs env objects metaStruct es ∧
        Msgpack.EncodesAll Msgpack.entry es l) := by
  cases metaStruct with
  | none => exact adds_pure ⟨[], rfl, encodesAll_nil⟩
  | some n =>
    refine Log.Growth.adds_bind ((adds_put (Q := fun _ l => l = KEY_META_STRUCT) rfl).weaken
      fun _ he => of_recovers he) ?_
    rintro _ _ rfl
    refine ((adds_encodeMetaStruct env objects n).weaken fun _ he =>
      he.mono fun hall => hall n rfl).mono ?_
    rintro _ l ⟨es, hes, hl⟩
    exact ⟨_, ⟨es, hes, rfl⟩, encodesAll_singleton (encodes_keyed "meta_struct" (by decide) hl)⟩

/-- A map that is there is written behind its key; one that is not stops the encoder. -/
theorem adds_tags (key : String) (h : isKey key = true) (m : Option (OrderedMap Str Scalar)) :
    strings.Adds (Fails (m.isSome = true)) (encodeMetaEntries (buildKeyWithPrefix (lit key) 0xDF) m)
      (fun _ l => ∃ tags, m = some tags ∧
        Msgpack.Encodes Msgpack.entry (keyed key (.map (entriesImage numberRead tags))) l) := by
  cases m with
  | none => exact fun s => emitsAt_fail Bool.false_ne_true
  | some tags =>
    refine ((adds_encodeMetaEntries (encodes_buildKey key h) tags).weaken
      fun _ he => of_recovers he).mono fun _ l hl => ⟨tags, rfl, hl⟩

theorem length_headImage : (headImage span).length = 8 + if span.type.truthy then 1 else 0 := by
  unfold headImage
  by_cases htruthy : span.type.truthy = true
  · rw [if_pos htruthy, if_pos htruthy]
    rfl
  · rw [if_neg htruthy, if_neg htruthy]
    rfl

theorem mapSize_lt : mapSize span < 0x10 := by
  unfold mapSize
  split <;> split <;> split <;> omega

/-- The head of a span says how many entries there are. -/
theorem length_spanEntries {env : Env} {objects : ℕ → JsObject} {span : Span}
    {fields es : List (Msgpack × Msgpack)} (hfields : fields.length = 3)
    (hes : StructEntryIs env objects span.metaStruct es) :
    (headImage span ++ fields ++ eventsEntry env span.spanEvents ++ es).length =
      mapSize span := by
  have hevents : (eventsEntry env span.spanEvents).length =
      if span.spanEvents.isSome then 1 else 0 := by
    cases span.spanEvents <;> rfl
  have hstruct : es.length = if span.metaStruct.isSome then 1 else 0 := by
    cases hs : span.metaStruct with
    | none =>
      rw [hs] at hes
      subst hes
      rfl
    | some n =>
      rw [hs] at hes
      obtain ⟨fields, -, rfl⟩ := hes
      rfl
  simp only [length_append, length_headImage, hfields, hevents, hstruct, mapSize]
  omega

/-- **A span** is read as the map of its fields. -/
theorem adds_encodeSpan :
    strings.Adds (Fails (QuietSpan env objects span)) (encodeSpan env objects span)
      (fun _ l => ∃ m, SpanIs env objects span m ∧ Msgpack.Encodes Msgpack.decode m l) := by
  intro s
  refine emitsAt_bind (emitsAt_headEntries span s) ?_
  rintro t ⟨typeEntry, nameEntry, resourceEntry, serviceEntry⟩ _ _ _
    ⟨rfl, htype, hname, hresource, hservice⟩
  refine emitsAt_bind emitsAt_get ?_
  rintro _ u _ _ _ ⟨rfl, rfl, rfl⟩
  dsimp only at htype hname hresource hservice ⊢
  rw [htype, hname, hresource, hservice]
  have hloud : ∀ e, Recovers e → Fails (QuietSpan env objects span) e :=
    fun _ he => of_recovers he
  refine Log.Growth.adds_bind ((adds_put (Q := fun _ l => l = headBlock span
    (if span.type.truthy then some (write span.type.key) else none) (write span.name.key)
    (write span.resource.key) (write span.service.key)) rfl).weaken hloud) ?_ u
  rintro _ _ rfl
  refine Log.Growth.adds_bind ((adds_encodeTail span).weaken hloud) ?_
  rintro _ tail ⟨b, hb, htail⟩
  refine Log.Growth.adds_bind ((adds_put (Q := fun _ l => l = writeIntOrFloat span.duration)
    rfl).weaken hloud) ?_
  rintro _ _ rfl
  refine Log.Growth.adds_bind ((adds_tags "meta" (by decide) span.meta).weaken
    fun _ he => he.mono QuietSpan.tags) ?_
  rintro _ metaBytes ⟨tags, htags, hmeta⟩
  refine Log.Growth.adds_bind ((adds_tags "metrics" (by decide) span.metrics).weaken
    fun _ he => he.mono QuietSpan.metrics) ?_
  rintro _ metricsBytes ⟨metrics, hsome, hmetrics⟩
  refine Log.Growth.adds_bind ((adds_encodeSpanEventsIfAny env span.spanEvents).weaken hloud)
    fun _ events hevents => ?_
  refine ((adds_encodeMetaStructIfAny env objects span.metaStruct).weaken
    fun _ he => he.mono QuietSpan.struct).mono ?_
  rintro _ struct ⟨es, hes, hstruct⟩
  refine ⟨_, ⟨tags, metrics, es, htags, hsome, hes, rfl⟩, ?_⟩
  have hhead := encodesAll_append (encodes_headFields span) htail
  rw [append_assoc] at hhead
  have hfields := encodesAll_cons (encodes_keyed "duration" (by decide)
      (encodes_of_reads (reads_writeIntOrFloat span.duration)))
    (encodesAll_cons hmeta (encodesAll_singleton hmetrics))
  have hall := encodesAll_append
    (encodesAll_append (encodesAll_append hhead hfields) hevents) hstruct
  have hmap := encodes_fixmap (mapSize_lt span) (length_spanEntries rfl hes) hall
  have hswap : ∀ r : List UInt8, headTail span ++ (tail ++ r) = b ++ (KEY_DURATION ++ r) := by
    intro r
    rw [← append_assoc, hb, append_assoc]
  simp only [headBlock, append_assoc, List.nil_append, cons_append, hswap]
  simp only [append_assoc] at hmap
  exact hmap

/-! ## A trace -/

theorem adds_encodeFormatted :
    strings.Adds (Fails (QuietFormatted env objects span)) (encodeFormatted env objects span)
      (fun _ l => ∃ m, FormattedIs env objects span m ∧
        Msgpack.Encodes Msgpack.decode m l) := by
  unfold encodeFormatted QuietFormatted FormattedIs
  cases hformat : formatSpan env span with
  | none =>
    refine fun s => emitsAt_fail ?_
    rintro ⟨formatted, hf, -⟩
    cases hf
  | some formatted =>
    refine ((adds_encodeSpan env objects formatted).weaken fun _ he => he.mono ?_).mono ?_
    · rintro ⟨f, hf, hquiet⟩
      rw [some_inj] at hf
      rwa [hf]
    · rintro _ l ⟨m, hm, hl⟩
      exact ⟨m, ⟨formatted, rfl, hm⟩, hl⟩

/-- **`_encode`** writes a trace that is read as the array of its spans, and raises no error of
its own where the trace is quiet. -/
theorem adds_encode (trace : Trace) : strings.Adds (Fails (Quiet env trace)) (encode env trace)
      (fun _ l => ∃ m, TraceIs env trace m ∧ Msgpack.Encodes Msgpack.decode m l) := by
  refine Log.Growth.adds_bind ((adds_put (Q := fun _ l =>
    l = writeArrayPrefix trace.spans.length) rfl).weaken fun _ he => of_recovers he) ?_
  rintro _ _ rfl
  have hloop : strings.Adds (Fails (Quiet env trace))
      (Prog.each trace.spans (encodeFormatted env trace.objects))
      (fun _ l => ∃ ms, List.Forall₂ (FormattedIs env trace.objects) trace.spans ms ∧
        Msgpack.EncodesAll Msgpack.decode ms l) := by
    refine emits_each (Q := fun span _ l => ∃ m, FormattedIs env trace.objects span m ∧
        Msgpack.Encodes Msgpack.decode m l)
      (R := fun spans _ l => ∃ ms, List.Forall₂ (FormattedIs env trace.objects) spans ms ∧
        Msgpack.EncodesAll Msgpack.decode ms l)
      (fun span hspan => ?_) (fun _ _ _ _ _ h => h) (fun _ => ⟨[], .nil, encodesAll_nil⟩) ?_
    · exact (adds_encodeFormatted env trace.objects span).weaken
        fun _ he => he.mono fun hq => hq span hspan
    · rintro span spans _ l r ⟨m, hm, hl⟩ ⟨ms, hms, hr⟩
      exact ⟨m :: ms, .cons hm hms, encodesAll_cons hl hr⟩
  refine hloop.mono ?_
  rintro _ l ⟨ms, hms, hl⟩
  exact ⟨.array ms, ⟨ms, rfl, hms⟩, encodes_countedArray hms.length_eq hl⟩

/-! ## Payloads -/

def SOFT_LIMIT : ℕ := 8 * 1024 * 1024

/-- `AgentEncoder` of v0.4.  Its payload is an array prefix and the chunk of the traces, the length
of which nothing looks at. -/
def encoder (env : Env) (limit : ℕ) : Encoder where
  Entry := Slice
  Own := Unit
  Change := Empty
  start := ()
  limit := limit
  cacheString := cacheSlice
  encodeTrace trace := onChunks (encode env trace)
  assemble traceCount _ := do
    let s ← Prog.get
    pure (writeArrayPrefix traceCount ++ s.traceBytes)
  clear := id
  change c _ := c.elim

/-- A payload of v0.4: the array of the traces. -/
def IsPayload (env : Env) (q : List (Unit × Trace)) (p : List UInt8) : Prop :=
  ∃ ms, Msgpack.decodeAll p = some (.array ms) ∧ List.Forall₂ (fun x m => TraceIs env x.2 m) q ms

def reading (env : Env) (limit : ℕ) : (encoder env limit).Reading where
  Inv := Slices
  Item _ x xs := ∃ m, xs = [m] ∧ TraceIs env x.2 m
  Counted _ _ := True
  IsPayload _ := IsPayload env
  Quiet _ := Quiet env

theorem slices_emptyTable (limit : ℕ) : Slices (encoder env limit).emptyTable := by
  rcases (runs_cacheSlice [] slices_empty).cases with ⟨entry, t, hx, ht, -⟩ | ⟨e, t, hx, -⟩
  · show Slices (cacheSlice (.str []) ⟨0, [], OrderedMap.empty⟩).2
    rw [hx]
    exact ht
  · cases congrArg Prod.fst hx

theorem lawful (limit : ℕ) : (reading env limit).Lawful where
  inv_emptyTable := slices_emptyTable env limit
  item_mono := fun _ h => h
  counted_start := trivial
  counted_clear _ := trivial
  counted_change _ _ _ _ := trivial
  traceCount _ _ := rfl
  clear _ _ := rfl
  encodeTrace trace s q hinv hcap _ := by
    refine Prog.runs_mono (runs_onChunks (adds_encode env trace s.chunks) hinv hcap) ?_
    rintro _ t ⟨ht, hle, hlen, hcount, hown, l, hl, m, hm, hread⟩
    exact ⟨ht, hle, hlen, hcount, trivial, [m], l, hl, ⟨m, rfl, hm⟩, encodesAll_singleton hread⟩
  assemble s q hs := by
    obtain ⟨xss, hxss, hall⟩ := hs.items
    have hms := Encoder.Reading.flatten_of_forall₂ hxss
    have hcap := hs.cap
    refine Prog.runs_bind (Prog.runs_get (Prog.runs_pure ⟨xss.flatten, ?_, hms⟩))
    refine decodeAll_of_encodes (encodes_countedArray (hs.count.trans hms.length_eq) hall) ?_
    rw [length_append]
    exact lt_of_le_of_lt (Nat.add_le_add_left hcap _) (by decide : 5 + MAX_SIZE < 2 ^ 32)

end V04
end DdTrace.Encode
