import DdTrace.Encode.CiVisibility
import DdTrace.Library.Forall2

/-!
# What the CI Visibility encoder writes

An event is read as a map of its type, its version and its fields, and has as many of these as its
head says.  A payload is read as a map of the version, of the metadata that the encoder holds when
the payload is made, and of the events, as many as are announced.

* `adds_encodeEvent`: an event, unless a text is no string or a map is not there.
* `runs_encode`: the events of a trace, which are counted as they are written.
* `runs_assemble`: a payload is no longer than `MAX_SIZE`, or what is assembled overflows.
* `lawful`: what the encoder keeps between payloads; with it the rules of `Encoder` hold.
-/

open Library

namespace DdTrace.Encode

open MsgpackChunk List Option

namespace CiVisibility

open Msgpack Log.Growth Fails Prog

/-! ## Images -/

/-- What `_encodeString` takes a text for. -/
def sent : Text → Str
  | .undefined => []
  | value => value.key

/-- What `writeNumber` is read as. -/
def numberSent (d : Binary64) : Msgpack := if d.isNaN then .int 0 else numberRead d

def fieldImage : Field → Msgpack
  | .text value => textImage (sent value)
  | .id identifier => idImage identifier
  | .number value => numberSent value
  | .map value => .map (entriesImage .float (value.getD OrderedMap.empty))

def entryOf (field : String × Field) : Msgpack × Msgpack :=
  (textImage (lit field.1), fieldImage field.2)

/-- A map that is there. -/
def Field.Present : Field → Prop
  | .map value => value.isSome = true
  | _ => True

/-- A field for which no error is raised. -/
def Field.Quiet : Field → Prop
  | .text value => value = .undefined ∨ value.isString = true
  | .map value => value.isSome = true
  | _ => True

/-- The fields that are written of an event. -/
def fieldsOf (setup : Setup) (event : TestEvent) : List (String × Field) :=
  if event.type = lit "span" ∨ event.type = lit "test" then eventContentFields setup event.content
  else if event.type = lit "test_suite_end" then testSuiteFields setup event.content
  else if event.type = lit "test_module_end" then testModuleFields event.content
  else testSessionFields event.content

/-- An event as `formatSpan` makes it. -/
structure Formed (event : TestEvent) : Prop where
  type : event.type ∈ lit "span" :: ALLOWED_CONTENT_TYPES
  version : event.version ≤ 2

/-- **What an event is read as.** -/
def EventIs (setup : Setup) (event : TestEvent) (m : Msgpack) : Prop :=
  (∀ field ∈ fieldsOf setup event, field.2.Present) ∧
    m = .map [(textImage (lit "type"), textImage event.type),
      (textImage (lit "version"), .int event.version),
      (textImage (lit "content"), .map ((fieldsOf setup event).map entryOf))]

/-- An event for which no error is raised. -/
def QuietEvent (setup : Setup) (event : TestEvent) : Prop :=
  event.content.meta.isSome = true ∧ ∀ field ∈ fieldsOf setup event, field.2.Quiet

/-! ## Fields -/

theorem adds_encodeTextField (value : Text) :
    V04.strings.Adds (Fails (value = .undefined ∨ value.isString = true)) (V04.encodeString value)
      (fun _ l => Msgpack.Encodes Msgpack.decode (textImage (sent value)) l) := by
  cases value with
  | undefined =>
    exact (V04.adds_encodeText []).weaken fun _ he => of_recovers he
  | str s => exact (V04.adds_encodeText s).weaken fun _ he => of_recovers he
  | other k =>
    intro s
    refine emitsAt_bind ((V04.emitsAt_cachedText (.other k) s).weaken fun _ he =>
      he.mono ?_) ?_
    · rintro (h | h) <;> cases h
    rintro t entry _ _ _ ⟨rfl, hentry⟩
    refine emitsAt_bind ((V04.emitsAt_shown hentry).weaken fun _ he =>
      of_recovers he) ?_
    rintro u b _ _ _ ⟨-, rfl, rfl⟩
    refine ((adds_put (Q := fun _ l => Msgpack.Encodes Msgpack.decode (textImage k) l)
      (encodes_write k)).weaken (fun _ he => of_recovers he)).mono ?_ u
    intro _ l hl
    exact hl

theorem adds_encodeMap (value : Option Tags) :
    V04.strings.Adds (Fails (value.isSome = true)) (encodeMap value) (fun _ l =>
      value.isSome = true ∧ Msgpack.Encodes Msgpack.decode
        (.map (entriesImage .float (value.getD OrderedMap.empty))) l) := by
  cases value with
  | none =>
    refine Log.Growth.adds_bind (Q := fun _ _ => True)
      ((adds_put trivial).weaken fun _ he => of_recovers he) fun _ _ _ s => ?_
    exact emitsAt_fail Bool.false_ne_true
  | some tags =>
    refine ((V04.adds_encodeMap tags).weaken fun _ he => of_recovers he).mono ?_
    exact fun _ l hl => ⟨rfl, hl⟩

/-- **A field** is written behind its key. -/
theorem adds_encodeField (field : String × Field) :
    V04.strings.Adds (Fails field.2.Quiet) (encodeField field) (fun _ l =>
      field.2.Present ∧ Msgpack.Encodes Msgpack.entry (entryOf field) l) := by
  obtain ⟨key, field⟩ := field
  refine Log.Growth.adds_bind ((V04.adds_encodeText (lit key)).weaken fun _ he =>
    of_recovers he) fun _ k hk => ?_
  cases field with
  | text value =>
    exact (adds_encodeTextField value).mono fun _ l hl => ⟨trivial, encodes_entry hk hl⟩
  | id identifier =>
    have hentry := encodes_entry hk (encodes_idBytes identifier)
    exact (adds_put (Q := fun _ l => True ∧ Msgpack.Encodes Msgpack.entry
      (entryOf (key, .id identifier)) (k ++ l)) ⟨trivial, hentry⟩).weaken
        fun _ he => of_recovers he
  | number value =>
    have hentry := encodes_entry hk (encodes_of_reads (reads_writeNumber value))
    exact (adds_put (Q := fun _ l => True ∧ Msgpack.Encodes Msgpack.entry
      (entryOf (key, .number value)) (k ++ l)) ⟨trivial, hentry⟩).weaken
        fun _ he => of_recovers he
  | map value =>
    exact (adds_encodeMap value).mono fun _ l hl => ⟨hl.1, encodes_entry hk hl.2⟩

/-- **The fields** are read as a map, whose head says how many there are. -/
theorem adds_encodeFields {keysLength : ℕ} {fields : List (String × Field)}
    (hlen : keysLength = fields.length) :
    V04.strings.Adds (Fails (∀ field ∈ fields, field.2.Quiet)) (encodeFields keysLength fields)
      (fun _ l => (∀ field ∈ fields, field.2.Present) ∧
        Msgpack.Encodes Msgpack.decode (.map (fields.map entryOf)) l) := by
  refine Log.Growth.adds_bind ((adds_put (Q := fun _ l => l = writeMapPrefix keysLength)
    rfl).weaken fun _ he => of_recovers he) ?_
  rintro _ _ rfl
  have hloop : V04.strings.Adds (Fails (∀ field ∈ fields, field.2.Quiet))
      (Prog.each fields encodeField) (fun _ l => (∀ field ∈ fields, field.2.Present) ∧
        Msgpack.EncodesAll Msgpack.entry (fields.map entryOf) l) := by
    refine emits_each (Q := fun (field : String × Field) (_ : Chunks Slice) l =>
        field.2.Present ∧ Msgpack.Encodes Msgpack.entry (entryOf field) l)
      (R := fun (fields : List (String × Field)) (_ : Chunks Slice) l =>
        (∀ field ∈ fields, field.2.Present) ∧
          Msgpack.EncodesAll Msgpack.entry (fields.map entryOf) l)
      (fun field hfield => ?_) (fun _ _ _ _ _ h => h)
      (fun _ => ⟨fun _ h => (by cases h), encodesAll_nil⟩) ?_
    · exact (adds_encodeField field).weaken fun _ he => he.mono fun hq => hq field hfield
    · rintro field fields _ l m ⟨hp, hl⟩ ⟨hps, hm⟩
      exact ⟨forall_mem_cons.mpr ⟨hp, hps⟩, encodesAll_cons hl hm⟩
  refine hloop.mono ?_
  rintro _ l ⟨hpresent, hl⟩
  refine ⟨hpresent, ?_⟩
  have hmap := encodes_countedMap (hlen.trans (length_map _).symm) hl
  exact hmap

/-! ## Events -/

theorem length_testModuleFields (content : Span) :
    TEST_MODULE_KEYS_LENGTH = (testModuleFields content).length := rfl

theorem length_testSessionFields (content : Span) :
    TEST_SESSION_KEYS_LENGTH = (testSessionFields content).length := rfl

variable (setup : Setup)

theorem length_testSuiteFields (content : Span) :
    TEST_SUITE_KEYS_LENGTH + (itrField setup content).length =
      (testSuiteFields setup content).length := by
  simp [testSuiteFields, levelFields, TEST_SUITE_KEYS_LENGTH]
  omega

theorem length_eventContentFields (content : Span) :
    TEST_AND_SPAN_KEYS_LENGTH + (rootFields setup content).length + (typeField content).length =
      (eventContentFields setup content).length := by
  simp [eventContentFields, TEST_AND_SPAN_KEYS_LENGTH]
  omega

theorem adds_needsMeta {content : Span} {x : Writer Slice Unit} {quiet : Prop}
    {Q : Unit → List UInt8 → Prop} (hx : V04.strings.Adds (Fails quiet) x Q) :
    V04.strings.Adds (Fails (content.meta.isSome = true ∧ quiet)) (needsMeta content x) Q := by
  unfold needsMeta
  by_cases hmeta : content.meta.isNone = true
  · rw [if_pos hmeta]
    refine fun s => emitsAt_fail ?_
    rintro ⟨hsome, -⟩
    rw [isNone_iff_eq_none] at hmeta
    rw [hmeta] at hsome
    cases hsome
  · rw [if_neg hmeta]
    exact hx.weaken fun _ he => he.mono And.right

variable {event : TestEvent}

theorem adds_encodeContent (htype : event.type ∈ lit "span" :: ALLOWED_CONTENT_TYPES) :
    V04.strings.Adds (Fails (QuietEvent setup event)) (encodeContent setup event) (fun _ l =>
      (∀ field ∈ fieldsOf setup event, field.2.Present) ∧
        Msgpack.Encodes Msgpack.decode (.map ((fieldsOf setup event).map entryOf)) l) := by
  unfold encodeContent QuietEvent fieldsOf
  by_cases hspan : event.type = lit "span" ∨ event.type = lit "test"
  · rw [if_pos hspan, if_pos hspan]
    exact adds_needsMeta (adds_encodeFields (length_eventContentFields setup event.content))
  rw [if_neg hspan, if_neg hspan]
  by_cases hsuite : event.type = lit "test_suite_end"
  · rw [if_pos hsuite, if_pos hsuite]
    exact adds_needsMeta (adds_encodeFields (length_testSuiteFields setup event.content))
  rw [if_neg hsuite, if_neg hsuite]
  by_cases hmodule : event.type = lit "test_module_end"
  · rw [if_pos hmodule, if_pos hmodule]
    exact (adds_encodeFields (length_testModuleFields event.content)).weaken
      fun _ he => he.mono And.right
  rw [if_neg hmodule, if_neg hmodule]
  have hsession : event.type = lit "test_session_end" := by
    simp only [ALLOWED_CONTENT_TYPES, mem_cons, not_mem_nil, or_false] at htype
    rcases htype with h | h | h | h | h
    · exact absurd (.inl h) hspan
    · exact h
    · exact absurd h hmodule
    · exact absurd h hsuite
    · exact absurd (.inr h) hspan
  rw [if_pos hsession]
  exact (adds_encodeFields (length_testSessionFields event.content)).weaken
    fun _ he => he.mono And.right

/-- **An event** is read as a map of its type, its version and its fields. -/
theorem adds_encodeEvent (hevent : Formed event) :
    V04.strings.Adds (Fails (QuietEvent setup event)) (encodeEvent setup event) (fun _ l =>
      ∃ m, EventIs setup event m ∧ Msgpack.Encodes Msgpack.decode m l) := by
  have hput : ∀ l : List UInt8, V04.strings.Adds (Fails (QuietEvent setup event)) (put l)
      (fun _ m => m = l) := fun l => (adds_put rfl).weaken fun _ he => of_recovers he
  have htext : ∀ k : Str, V04.strings.Adds (Fails (QuietEvent setup event))
      (V04.encodeString (.str k)) (fun _ l => Msgpack.Encodes Msgpack.decode (textImage k) l) :=
    fun k => (V04.adds_encodeText k).weaken fun _ he => of_recovers he
  have hversion : Msgpack.Encodes Msgpack.decode (.int event.version) (writeInt event.version) := by
    have hle := hevent.version
    have hreads := reads_writeInt (event.version : ℤ)
    rw [wrap_eq_self_iff.mpr (by omega)] at hreads
    exact encodes_of_reads hreads
  refine Log.Growth.adds_bind (hput _) ?_
  rintro _ _ rfl
  refine Log.Growth.adds_bind (htext _) fun _ k1 hk1 => ?_
  refine Log.Growth.adds_bind (htext _) fun _ v1 hv1 => ?_
  refine Log.Growth.adds_bind (htext _) fun _ k2 hk2 => ?_
  refine Log.Growth.adds_bind (hput _) ?_
  rintro _ _ rfl
  refine Log.Growth.adds_bind (htext _) fun _ k3 hk3 => ?_
  refine (adds_encodeContent setup hevent.type).mono ?_
  rintro _ l ⟨hpresent, hl⟩
  refine ⟨_, ⟨hpresent, rfl⟩, ?_⟩
  have hall := encodesAll_cons (encodes_entry hk1 hv1) (encodesAll_cons (encodes_entry hk2 hversion)
      (encodesAll_singleton (encodes_entry hk3 hl)))
  have hmap := encodes_countedMap (n := 3) rfl hall
  simp only [append_assoc] at hmap ⊢
  exact hmap

/-! ## Traces -/

theorem formed_formatSpan {span : Span} (h : formatSpan span = some event) :
    Formed event := by
  obtain ⟨truncated, -, rfl⟩ := map_eq_some_iff.mp h
  constructor
  · unfold contentType
    split
    · split
      · next hmem => exact mem_cons_of_mem _ (includes_eq_true_iff.mp hmem)
      · exact mem_cons_self
    · exact mem_cons_self
  · dsimp only
    split
    · exact le_refl 2
    · decide

theorem formed_removeDuplicate {own : Own} (h : Formed event) :
    Formed (removeDuplicateTestLevelsMetadata own event) := by
  unfold removeDuplicateTestLevelsMetadata
  split
  · exact h
  · exact ⟨h.type, h.version⟩

/-- What the events of a trace are read as. -/
def TraceAre (setup : Setup) (x : Own × Trace) (ms : List Msgpack) : Prop :=
  ∃ events, x.2.spans.mapM formatSpan = some events ∧
    List.Forall₂ (fun event m => EventIs setup (deduplicated x.1 event) m) events ms

/-- A trace for which no error is raised. -/
def QuietTrace (setup : Setup) (own : Own) (trace : Trace) : Prop :=
  ∃ events, trace.spans.mapM formatSpan = some events ∧
    ∀ event ∈ events, QuietEvent setup (deduplicated own event)

theorem formed_of_mapM {spans : List Span} {events : List TestEvent}
    (h : spans.mapM formatSpan = some events) : ∀ event ∈ events, Formed event := by
  intro event hevent
  obtain ⟨i, hi, rfl⟩ := mem_iff_getElem.mp hevent
  have hall := forall₂_of_mapM h
  exact formed_formatSpan (hall.get (hall.length_eq ▸ hi) hi)

/-- The events, one after another. -/
theorem adds_encodeEvents (own : Own) {events : List TestEvent}
    (hevents : ∀ event ∈ events, Formed event) :
    V04.strings.Adds (Fails (∀ event ∈ events, QuietEvent setup (deduplicated own event)))
      (Prog.each events fun event => encodeEvent setup (deduplicated own event))
      (fun _ l => ∃ ms, List.Forall₂ (fun event m => EventIs setup (deduplicated own event) m)
        events ms ∧ Msgpack.EncodesAll Msgpack.decode ms l) := by
  refine emits_each (Q := fun (event : TestEvent) (_ : Chunks Slice) l =>
      ∃ m, EventIs setup (deduplicated own event) m ∧ Msgpack.Encodes Msgpack.decode m l)
    (R := fun (events : List TestEvent) (_ : Chunks Slice) l =>
      ∃ ms, List.Forall₂ (fun event m => EventIs setup (deduplicated own event) m) events ms ∧
        Msgpack.EncodesAll Msgpack.decode ms l)
    (fun event hevent => ?_) (fun _ _ _ _ _ h => h) (fun _ => ⟨[], .nil, encodesAll_nil⟩)
    ?_
  · have hformed : Formed (deduplicated own event) := by
      unfold deduplicated
      split
      · exact hevents event hevent
      · exact formed_removeDuplicate (hevents event hevent)
    exact (adds_encodeEvent setup hformed).weaken
      fun _ he => he.mono fun hq => hq event hevent
  · rintro event events _ l r ⟨m, hm, hl⟩ ⟨ms, hms, hr⟩
    exact ⟨m :: ms, .cons hm hms, encodesAll_cons hl hr⟩

/-- **`_encode`** writes the events of a trace and counts them. -/
theorem runs_encode (trace : Trace) {s : State Slice Own}
    (hinv : Slices s.chunks.strings) (hcap : s.chunks.traceBytes.length ≤ MAX_SIZE) :
    Prog.Runs (encode setup trace) s (fun _ t =>
      Slices t.chunks.strings ∧ s.chunks.strings.Le t.chunks.strings ∧
      t.chunks.traceBytes.length ≤ MAX_SIZE ∧ t.traceCount = s.traceCount ∧
      t.own = { s.own with eventCount := s.own.eventCount + trace.spans.length } ∧
      ∃ ms l, t.chunks.traceBytes = s.chunks.traceBytes ++ l ∧
        TraceAre setup (s.own, trace) ms ∧ Msgpack.EncodesAll Msgpack.decode ms l)
      (Fails (QuietTrace setup s.own trace)) := by
  unfold encode TraceAre QuietTrace
  cases hevents : trace.spans.mapM formatSpan with
  | none =>
    rintro ⟨events, h, -⟩
    cases h
  | some events =>
    have hlen := (forall₂_of_mapM hevents).length_eq
    have hruns := runs_onChunks (s := { s with
        own := { s.own with eventCount := s.own.eventCount + events.length } })
      (adds_encodeEvents setup s.own (formed_of_mapM hevents) s.chunks) hinv hcap
    refine runs_weaken (runs_mono hruns ?_) ?_
    · rintro _ t ⟨ht, hle, htcap, hcount, hown, l, hl, ms, hms, hall⟩
      refine ⟨ht, hle, htcap, hcount, ?_, ms, l, hl, ⟨events, rfl, hms⟩, hall⟩
      rw [hown, hlen]
    · intro e he
      refine he.mono ?_
      rintro ⟨events', h, hq⟩
      rw [some_inj] at h
      rwa [h]

/-! ## Payloads -/

/-- What the metadata is read as. -/
def metadataImage (setup : Setup) (own : Own) : Msgpack :=
  .map ((metadata setup own).entries.map fun e => (textImage e.1, .map (entriesImage .float e.2)))

/-- What a payload of some events is read as. -/
def payloadImage (setup : Setup) (own : Own) (ms : List Msgpack) : Msgpack :=
  .map [(textImage (lit "version"), .int 1), (textImage (lit "metadata"), metadataImage setup own),
    (textImage (lit "events"), .array ms)]

/-- **A payload**: the metadata that the encoder holds, and the events of the traces. -/
def IsPayload (setup : Setup) (own : Own) (q : List (Own × Trace)) (p : List UInt8) : Prop :=
  p.length ≤ MAX_SIZE ∧ ∃ mss, List.Forall₂ (TraceAre setup) q mss ∧
    Msgpack.decodeAll p = some (payloadImage setup own mss.flatten)

/-- **The start of a payload** is followed by the events that it announces. -/
theorem adds_encodePayloadStart (own : Own) :
    V04.strings.Adds Recovers (encodePayloadStart setup own) (fun _ l => ∀ ms m,
      own.eventCount = ms.length → Msgpack.EncodesAll Msgpack.decode ms m →
        Msgpack.Encodes Msgpack.decode (payloadImage setup own ms) (l ++ m)) := by
  have hput : ∀ l : List UInt8, V04.strings.Adds Recovers (put l) (fun _ m => m = l) :=
    fun l => adds_put rfl
  have hversion : Msgpack.Encodes Msgpack.decode (.int 1) (writeInt ENCODING_VERSION) := by
    have hreads := reads_writeInt 1
    exact encodes_of_reads hreads
  have hloop : V04.strings.Adds Recovers (Prog.each (metadata setup own).entries fun e => do
        V04.encodeString (.str e.1)
        V04.encodeMap e.2)
      (fun _ l => Msgpack.EncodesAll Msgpack.entry ((metadata setup own).entries.map fun e =>
        (textImage e.1, .map (entriesImage .float e.2))) l) := by
    let image : Str × Tags → Msgpack × Msgpack := fun e =>
      (textImage e.1, .map (entriesImage .float e.2))
    refine emits_each (Q := fun (e : Str × Tags) (_ : Chunks Slice) l =>
        Msgpack.Encodes Msgpack.entry (image e) l)
      (R := fun (es : List (Str × Tags)) (_ : Chunks Slice) l =>
        Msgpack.EncodesAll Msgpack.entry (es.map image) l)
      (fun e _ => ?_) (fun _ _ _ _ _ h => h) (fun _ => encodesAll_nil)
      fun _ _ _ _ _ h hs => encodesAll_cons h hs
    refine Log.Growth.adds_bind (V04.adds_encodeText e.1) fun _ k hk => ?_
    exact (V04.adds_encodeMap e.2).mono fun _ l hl => encodes_entry hk hl
  refine Log.Growth.adds_bind (hput _) ?_
  rintro _ _ rfl
  refine Log.Growth.adds_bind (V04.adds_encodeText _) fun _ k1 hk1 => ?_
  refine Log.Growth.adds_bind (hput _) ?_
  rintro _ _ rfl
  refine Log.Growth.adds_bind (V04.adds_encodeText _) fun _ k2 hk2 => ?_
  refine Log.Growth.adds_bind (hput _) ?_
  rintro _ _ rfl
  refine Log.Growth.adds_bind hloop fun _ es hes => ?_
  refine Log.Growth.adds_bind (V04.adds_encodeText _) fun _ k3 hk3 => ?_
  refine (hput _).mono ?_
  rintro _ _ rfl ms m hms hm
  have hmetadata := encodes_countedMap (n := (metadata setup own).entries.length)
    (length_map _).symm hes
  have hall := encodesAll_cons (encodes_entry hk1 hversion)
    (encodesAll_cons (encodes_entry hk2 hmetadata)
      (encodesAll_singleton (encodes_entry hk3 (encodes_countedArray hms hm))))
  have hmap := encodes_countedMap (n := 3) rfl hall
  simp only [append_assoc] at hmap ⊢
  exact hmap

/-- What is written to a chunk of its own leaves the traces as they are. -/
theorem runs_inNewChunk {x : Writer Slice Unit} {Q : List UInt8 → Prop} {s : Chunks Slice}
    (hx : V04.strings.Adds Recovers x fun _ => Q) (hs : Slices s.strings) :
    Prog.Runs (inNewChunk x) s (fun l t => Q l ∧ t.traceBytes = s.traceBytes) Recovers := by
  unfold Prog.Runs inNewChunk
  rcases (hx ⟨[], s.strings⟩ hs (Nat.zero_le _)).cases with
    ⟨a, t, ht, -, -, -, l, hl, hq⟩ | ⟨e, t, ht, he⟩
  · rw [ht]
    have heq : t.traceBytes = l := hl
    exact ⟨heq ▸ hq, rfl⟩
  · rw [ht]
    exact he

/-- **A payload is made from the metadata and the events**, or overflows. -/
theorem runs_assemble (own : Own) {s : Chunks Slice} (hs : Slices s.strings) :
    Prog.Runs (assemble setup own) s (fun p _ => p.length ≤ MAX_SIZE ∧ ∀ ms,
      own.eventCount = ms.length → Msgpack.EncodesAll Msgpack.decode ms s.traceBytes →
        Msgpack.Encodes Msgpack.decode (payloadImage setup own ms) p) Recovers := by
  refine runs_bind (runs_mono (runs_inNewChunk (adds_encodePayloadStart setup own) hs) ?_)
  rintro l t ⟨hl, ht⟩
  refine runs_bind (runs_get ?_)
  rw [ht]
  by_cases hlen : l.length + s.traceBytes.length > MAX_SIZE
  · rw [if_pos hlen]
    exact runs_fail hlen
  · rw [if_neg hlen]
    refine runs_pure ⟨?_, fun ms hms hm => hl ms _ hms hm⟩
    rw [length_append]
    omega

/-! ## The encoder -/

def reading (setup : Setup) : (encoder setup).Reading where
  Inv := Slices
  Item _ := TraceAre setup
  Counted own q := own.eventCount = (q.flatMap fun x => x.2.spans).length
  IsPayload := IsPayload setup
  Quiet := QuietTrace setup

theorem slices_emptyTable : Slices (encoder setup).emptyTable :=
  V04.slices_emptyTable ⟨true, fun _ => none, id, 0⟩ 0

theorem eventCount_addMetadataTags (tags : OrderedMap Str (Option Tags)) (own : Own) :
    (addMetadataTags tags own).eventCount = own.eventCount := by
  have hfold : ∀ (es : List (Str × Option Tags)) (own : Own),
      (es.foldl addMetadataTarget own).eventCount = own.eventCount := by
    intro es
    induction es with
    | nil => exact fun _ => rfl
    | cons e es ih =>
      intro own
      rw [foldl_cons, ih]
      unfold addMetadataTarget
      split
      · rfl
      · split
        · rfl
        · split <;> rfl
  unfold addMetadataTags
  rw [hfold]
  split <;> rfl

/-- As many events as spans. -/
theorem length_flatten {setup : Setup} {q : List (Own × Trace)} {mss : List (List Msgpack)}
    (h : List.Forall₂ (TraceAre setup) q mss) :
    (q.flatMap fun x => x.2.spans).length = mss.flatten.length := by
  induction h with
  | nil => rfl
  | cons hx _ ih =>
    obtain ⟨events, hevents, hms⟩ := hx
    rw [flatMap_cons, flatten_cons, length_append, length_append, ih,
      (forall₂_of_mapM hevents).length_eq, hms.length_eq]

theorem lawful : (reading setup).Lawful where
  inv_emptyTable := slices_emptyTable setup
  item_mono := fun _ h => h
  counted_start := rfl
  counted_clear _ := rfl
  counted_change tags own q h := (eventCount_addMetadataTags tags own).trans h
  traceCount trace s := by
    show (encode setup trace s).2.traceCount = s.traceCount
    unfold encode
    cases trace.spans.mapM formatSpan <;> rfl
  clear trace s := by
    show { (encode setup trace s).2.own with eventCount := 0 } = { s.own with eventCount := 0 }
    unfold encode
    cases trace.spans.mapM formatSpan <;> rfl
  encodeTrace trace s q hinv hcap hcounted := by
    refine runs_mono (runs_encode setup trace hinv hcap) ?_
    rintro _ t ⟨ht, hle, hlen, hcount, hown, ms, l, hl, hms, hall⟩
    refine ⟨ht, hle, hlen, hcount, ?_, ms, l, hl, hms, hall⟩
    have hq : s.own.eventCount = (q.flatMap fun x => x.2.spans).length := hcounted
    show t.own.eventCount = ((q ++ [(s.own, trace)]).flatMap fun x => x.2.spans).length
    rw [hown, flatMap_append, length_append, flatMap_singleton, ← hq]
  assemble s q hs := by
    obtain ⟨mss, hmss, hall⟩ := hs.items
    refine runs_mono (runs_assemble setup s.own hs.inv) ?_
    rintro p _ ⟨hlen, hp⟩
    have hcounted : s.own.eventCount = (q.flatMap fun x => x.2.spans).length := hs.counted
    refine ⟨hlen, mss, hmss, decodeAll_of_encodes
      (hp mss.flatten (hcounted.trans (length_flatten hmss)) hall) ?_⟩
    exact lt_of_le_of_lt hlen (by decide)

end CiVisibility
end DdTrace.Encode
