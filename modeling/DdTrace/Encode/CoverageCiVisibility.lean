import DdTrace.Encode.AgentEncoderTrace
import DdTrace.Library.Buffer

/-!
# Code coverage

`CoverageCIVisibilityEncoder` of `encode/coverage-ci-visibility.js` has a chunk of its own for the
events of code coverage.  The strings in them go through the cache of the encoder it inherits from.
A payload is one map with the version and the array of the events: all of it but the events is
written when the chunk is reset, with five bytes of room where the head of the array belongs, and
what is in them is only known when the payload is asked for.  The events are counted apart.

An event that does not fit into the chunk, or a string of it that does not fit into the cache,
drops what is queued, as in `encode/0.4.js`.

* `getBitmapBuffer`, `encodeCodeCoverage`, `reset`, `encode`, `makePayload`: the code.
* `Holds`: the chunk is the start of a payload, room, and the queued events.
* `step_cases`: what a call comes to.
* `payloads_read`: the payloads of every run are read as the events that were accepted since the
  payload or the overflow before, each identifier by its lowest 64 bits and each name with its lone
  surrogates replaced.  `events_lost` shows that no reader does better.
-/

open Library

namespace DdTrace.Encode.CoverageCiVisibility

open MsgpackChunk V04 List Msgpack

/-! ## The source -/

def COVERAGE_PAYLOAD_VERSION : ℤ := 2

def COVERAGE_KEYS_LENGTH : ℕ := 2

/-- A view of some part of an `ArrayBuffer`. -/
structure ArrayView where
  buffer : List UInt8
  byteOffset : ℕ
  byteLength : ℕ
  deriving DecidableEq

def ArrayView.bytes (v : ArrayView) : List UInt8 := (v.buffer.drop v.byteOffset).take v.byteLength

/-- What `bitmap` may be: a `Buffer`, another view, what `JSON` makes of a `Buffer`, and anything
else. -/
inductive Bitmap
  | buffer (value : ArrayView)
  | view (value : ArrayView)
  | json (data : List ℤ)
  | other
  deriving DecidableEq

/-- The bytes, which `Buffer.from` takes modulo 256 from an array of numbers. -/
def getBitmapBuffer : Option Bitmap → Option (List UInt8)
  | some (.buffer value) | some (.view value) => some value.bytes
  | some (.json data) => some (data.map fun value => byte value 0)
  | some .other | none => none

/-- A file as a name, or as a name and what may be a bitmap. -/
inductive File
  | name (filename : Str)
  | entry (filename : Str) (bitmap : Option Bitmap)
  deriving DecidableEq

def File.filename : File → Str
  | name filename | entry filename _ => filename

def File.bitmap : File → Option Bitmap
  | name _ => none
  | entry _ bitmap => bitmap

structure Coverage where
  sessionId : Identifier
  suiteId : Option Identifier
  testId : Option Identifier
  files : List File
  deriving DecidableEq

/-- A key and what is written for its value. -/
def field (key : String) (value : Writer Slice Unit) : Writer Slice Unit := do
  encodeString (.str (lit key))
  value

def idIfAny (key : String) : Option Identifier → Writer Slice Unit
  | none => pure ()
  | some identifier => field key (encodeId identifier)

/-- `writeBin`, where there is a bitmap. -/
def bitmapIfAny : Option (List UInt8) → Writer Slice Unit
  | none => pure ()
  | some bitmap => field "bitmap" do
    put (binPrefix bitmap.length)
    put bitmap

/-- The body of the loop over the files. -/
def encodeFile (file : File) : Writer Slice Unit := do
  let bitmap := getBitmapBuffer file.bitmap
  put (writeMapPrefix (if bitmap.isSome then 2 else 1))
  field "filename" (encodeString (.str file.filename))
  bitmapIfAny bitmap

def keysLength (coverage : Coverage) : ℕ :=
  2 + (if coverage.suiteId.isSome then 1 else 0) + (if coverage.testId.isSome then 1 else 0)

def encodeCodeCoverage (coverage : Coverage) : Writer Slice Unit := do
  put (writeMapPrefix (keysLength coverage))
  field "test_session_id" (encodeId coverage.sessionId)
  idIfAny "test_suite_id" coverage.suiteId
  idIfAny "span_id" coverage.testId
  field "files" do
    put (writeArrayPrefix coverage.files.length)
    Prog.each coverage.files encodeFile

/-- What is in five bytes of memory that are reserved. -/
structure Room where
  bytes : List UInt8
  size : bytes.length = 5

/-- `_coverageBytes` and the strings, `_coveragesCount` and `_coveragesOffset`. -/
structure State where
  chunks : Chunks Slice
  coveragesCount : ℕ
  coveragesOffset : ℕ

/-- `_encodePayloadStart` up to where the array begins. -/
def encodePayloadKeys : Writer Slice Unit := do
  put (writeMapPrefix COVERAGE_KEYS_LENGTH)
  field "version" (put (writeInteger COVERAGE_PAYLOAD_VERSION))
  encodeString (.str (lit "coverages"))

/-- `_encodePayloadStart`, which returns `_coveragesOffset`. -/
def encodePayloadStart (room : Room) : Writer Slice ℕ := do
  encodePayloadKeys
  let offset ← (traceLog Slice).length
  put room.bytes
  pure offset

/-- The strings after `_cacheString('')`. -/
def emptyTable : StringTable Slice := (cacheSlice (.str []) ⟨0, [], OrderedMap.empty⟩).2

def reset (room : Room) : State :=
  match encodePayloadStart room ⟨[], emptyTable⟩ with
  | (.ok offset, chunks) => ⟨chunks, 0, offset⟩
  | (.error _, chunks) => ⟨chunks, 0, 0⟩

/-- What a call comes to: an event that is accepted, an overflow, another error, a payload. -/
inductive Event
  | accepted (coverage : Coverage)
  | overflowed (needed : ℕ)
  | raised
  | payload (bytes : List UInt8)

def encode (coverage : Coverage) (room : Room) (s : State) : Event × State :=
  match encodeCodeCoverage coverage s.chunks with
  | (.ok _, chunks) =>
    (.accepted coverage, { s with chunks := chunks, coveragesCount := s.coveragesCount + 1 })
  | (.error (.overflow needed), _) => (.overflowed needed, reset room)
  | (.error .raised, chunks) =>
    (.raised, { s with chunks := chunks, coveragesCount := s.coveragesCount + 1 })

def makePayload (room : Room) (s : State) : Event × State :=
  (.payload (Buffer.store s.chunks.traceBytes s.coveragesOffset
    (writeArrayPrefix s.coveragesCount)), reset room)

/-- A call, with what is in the memory where a payload is started. -/
inductive Call
  | encode (coverage : Coverage) (room : Room)
  | makePayload (room : Room)

def step (s : State) : Call → Event × State
  | .encode coverage room => CoverageCiVisibility.encode coverage room s
  | .makePayload room => CoverageCiVisibility.makePayload room s

/-- What the calls of a run come to. -/
def events : State → List Call → List Event
  | _, [] => []
  | s, call :: calls => (step s call).1 :: events (step s call).2 calls

/-! ## What is meant -/

/-- **The payloads**, each with the events that were accepted since the payload or the overflow
before. -/
def payloads : List Coverage → List Event → List (List Coverage × List UInt8)
  | _, [] => []
  | queue, .accepted coverage :: es => payloads (queue ++ [coverage]) es
  | queue, .payload bytes :: es => (queue, bytes) :: payloads [] es
  | _, .overflowed _ :: es => payloads [] es
  | queue, .raised :: es => payloads queue es

def fileImage (file : File) : Msgpack :=
  .map (keyed "filename" (textImage file.filename) ::
    ((getBitmapBuffer file.bitmap).map fun bitmap => keyed "bitmap" (.bin bitmap)).toList)

def idEntry (key : String) (identifier : Option Identifier) : List (Msgpack × Msgpack) :=
  (identifier.map fun i => keyed key (idImage i)).toList

def coverageImage (coverage : Coverage) : Msgpack :=
  .map ([keyed "test_session_id" (idImage coverage.sessionId)] ++
    idEntry "test_suite_id" coverage.suiteId ++ idEntry "span_id" coverage.testId ++
    [keyed "files" (.array (coverage.files.map fileImage))])

def payloadImage (queue : List Coverage) : Msgpack :=
  .map [keyed "version" (.int COVERAGE_PAYLOAD_VERSION),
    keyed "coverages" (.array (queue.map coverageImage))]

/-- What a call may come to: an event is accepted, or asks for more than a chunk may hold. -/
def Answers : Call → Event → Prop
  | .encode coverage _, .accepted coverage' => coverage' = coverage
  | .encode _ _, .overflowed needed => MAX_SIZE < needed
  | .makePayload _, .payload _ => True
  | _, _ => False

/-! ## An event -/

/-- Entries one after another. -/
abbrev AddsEntries (x : Writer Slice Unit) (es : List (Msgpack × Msgpack)) : Prop :=
  strings.Adds Recovers x fun _ l => Msgpack.EncodesAll Msgpack.entry es l

variable {queue : List Coverage} {es : List (Msgpack × Msgpack)}

theorem AddsEntries.seq {x y : Writer Slice Unit} {es' : List (Msgpack × Msgpack)}
    (hx : AddsEntries x es) (hy : AddsEntries y es') : AddsEntries (do x; y) (es ++ es') :=
  Log.Growth.adds_bind hx fun _ _ hl =>
    hy.mono fun _ _ hm => encodesAll_append hl hm

theorem addsEntries_field (key : String) (h : Unicode.toWellFormed (lit key) = lit key)
    {value : Writer Slice Unit} {v : Msgpack}
    (hv : strings.Adds Recovers value fun _ l => Msgpack.Encodes Msgpack.decode v l) :
    AddsEntries (field key value) [keyed key v] := by
  have hkey := adds_encodeText (lit key)
  unfold textImage at hkey
  rw [h] at hkey
  exact Log.Growth.adds_bind hkey fun _ _ hl =>
    hv.mono fun _ _ hm => encodesAll_singleton (encodes_entry hl hm)

theorem adds_encodeId (identifier : Identifier) : strings.Adds Recovers (encodeId identifier)
    fun _ l => Msgpack.Encodes Msgpack.decode (idImage identifier) l :=
  adds_put (encodes_idBytes identifier)

theorem addsEntries_pure : AddsEntries (pure ()) [] := Log.Growth.adds_pure encodesAll_nil

theorem addsEntries_idIfAny (key : String) (h : Unicode.toWellFormed (lit key) = lit key)
    (identifier : Option Identifier) :
    AddsEntries (idIfAny key identifier) (idEntry key identifier) := by
  cases identifier with
  | none => exact addsEntries_pure
  | some identifier => exact addsEntries_field key h (adds_encodeId identifier)

theorem length_binPrefix_pos (n : ℕ) : 0 < (binPrefix n).length := by
  unfold binPrefix
  split
  · exact Nat.succ_pos _
  split
  · exact Nat.succ_pos _
  · exact Nat.succ_pos _

theorem addsEntries_bitmapIfAny (bitmap : Option (List UInt8)) : AddsEntries (bitmapIfAny bitmap)
      (bitmap.map fun bitmap => keyed "bitmap" (.bin bitmap)).toList := by
  cases bitmap with
  | none => exact addsEntries_pure
  | some bitmap =>
    refine addsEntries_field "bitmap" (by decide) ?_
    have hbytes := encodes_bin (l := bitmap) isHead_binPrefix (length_binPrefix_pos bitmap.length)
    refine Log.Growth.adds_bind
      (adds_put (Q := fun _ l => l = binPrefix bitmap.length) rfl) fun _ _ hl => ?_
    rw [hl]
    exact adds_put hbytes

/-- A map behind its prefix. -/
theorem adds_map {x : Writer Slice Unit} (hx : AddsEntries x es) {n : ℕ} (hn : es.length = n) :
    strings.Adds Recovers (do put (writeMapPrefix n); x)
      fun _ l => Msgpack.Encodes Msgpack.decode (.map es) l := by
  refine Log.Growth.adds_bind (adds_put (Q := fun _ l => l = writeMapPrefix n) rfl) fun _ _ hl => ?_
  refine hx.mono fun _ m hm => ?_
  rw [hl, ← hn]
  exact encodes_countedMap rfl hm

theorem adds_encodeFile (file : File) : strings.Adds Recovers (encodeFile file)
    fun _ l => Msgpack.Encodes Msgpack.decode (fileImage file) l := by
  refine adds_map ((addsEntries_field "filename" (by decide) (adds_encodeText file.filename)).seq
    (addsEntries_bitmapIfAny (getBitmapBuffer file.bitmap))) ?_
  cases getBitmapBuffer file.bitmap <;> rfl

theorem adds_files (files : List File) : strings.Adds Recovers
    (do put (writeArrayPrefix files.length); Prog.each files encodeFile)
    fun _ l => Msgpack.Encodes Msgpack.decode (.array (files.map fileImage)) l := by
  have hloop : strings.Adds Recovers (Prog.each files encodeFile)
      fun _ l => Msgpack.EncodesAll Msgpack.decode (files.map fileImage) l :=
    Log.Growth.emits_each (Q := fun file _ l => Msgpack.Encodes Msgpack.decode (fileImage file) l)
      (R := fun files _ l => Msgpack.EncodesAll Msgpack.decode (files.map fileImage) l)
      (fun file _ => adds_encodeFile file) (fun _ _ _ _ _ hl => hl)
      (fun _ => encodesAll_nil) (fun _ _ _ _ _ hl hm => encodesAll_cons hl hm)
  refine Log.Growth.adds_bind (adds_put (Q := fun _ l => l = writeArrayPrefix files.length) rfl)
    fun _ _ hl => ?_
  refine hloop.mono fun _ m hm => ?_
  rw [hl]
  exact encodes_countedArray (length_map _).symm hm

/-- **An event** is read as its image. -/
theorem adds_encodeCodeCoverage (coverage : Coverage) :
    strings.Adds Recovers (encodeCodeCoverage coverage)
      fun _ l => Msgpack.Encodes Msgpack.decode (coverageImage coverage) l := by
  have hentries := (addsEntries_field "test_session_id" (by decide)
    (adds_encodeId coverage.sessionId)).seq
      ((addsEntries_idIfAny "test_suite_id" (by decide) coverage.suiteId).seq
        ((addsEntries_idIfAny "span_id" (by decide) coverage.testId).seq
          (addsEntries_field "files" (by decide) (adds_files coverage.files))))
  have hlen : ([keyed "test_session_id" (idImage coverage.sessionId)] ++
      (idEntry "test_suite_id" coverage.suiteId ++ (idEntry "span_id" coverage.testId ++
        [keyed "files" (.array (coverage.files.map fileImage))]))).length =
        keysLength coverage := by
    unfold keysLength idEntry
    cases coverage.suiteId <;> cases coverage.testId <;> rfl
  have hmap := adds_map hentries hlen
  unfold coverageImage
  rw [append_assoc]
  exact hmap

/-! ## The chunk -/

/-- The start of a payload up to the array of its events. -/
def IsStart (l : List UInt8) : Prop := ∃ version key,
  l = writeMapPrefix COVERAGE_KEYS_LENGTH ++ version ++ key ∧
    Msgpack.EncodesAll Msgpack.entry [keyed "version" (.int COVERAGE_PAYLOAD_VERSION)] version ∧
    Msgpack.Encodes Msgpack.decode (.str (lit "coverages")) key

/-- The chunk holds the start of a payload, room, and the queued events. -/
structure Holds (s : State) (queue : List Coverage) : Prop where
  slices : Slices s.chunks.strings
  cap : s.chunks.traceBytes.length ≤ MAX_SIZE
  count : s.coveragesCount = queue.length
  bytes : ∃ start room l, s.chunks.traceBytes = start ++ room ++ l ∧ IsStart start ∧
    s.coveragesOffset = start.length ∧ room.length = 5 ∧
    Msgpack.EncodesAll Msgpack.decode (queue.map coverageImage) l

theorem slices_emptyTable : Slices emptyTable := by
  rcases (runs_cacheSlice [] slices_empty).cases with ⟨entry, t, hx, ht, -⟩ | ⟨e, t, hx, -⟩
  · show Slices (cacheSlice (.str []) ⟨0, [], OrderedMap.empty⟩).2
    rw [hx]
    exact ht
  · cases congrArg Prod.fst hx

theorem adds_encodePayloadKeys : strings.Adds Recovers encodePayloadKeys fun _ l => IsStart l := by
  have hversion : strings.Adds Recovers (put (writeInteger COVERAGE_PAYLOAD_VERSION))
      fun _ l => Msgpack.Encodes Msgpack.decode (.int COVERAGE_PAYLOAD_VERSION) l :=
    adds_put (encodes_of_reads (reads_leaf (isHead_int32 (b := 0xCE) rfl (by decide : 2 < 2 ^ 32))))
  have hkey := adds_encodeText (lit "coverages")
  refine Log.Growth.adds_bind
    (adds_put (Q := fun _ l => l = writeMapPrefix COVERAGE_KEYS_LENGTH) rfl) fun _ _ hl => ?_
  refine Log.Growth.adds_bind (addsEntries_field "version" (by decide) hversion) fun _ v hv => ?_
  refine hkey.mono fun _ k hk => ?_
  exact ⟨v, k, by rw [hl, append_assoc], hv, hk⟩

/-- Nothing is refused when a payload is started. -/
theorem isOk_encodePayloadKeys : (encodePayloadKeys ⟨[], emptyTable⟩).1.isOk = true := by
  decide +kernel

theorem length_encodePayloadKeys :
    (encodePayloadKeys ⟨[], emptyTable⟩).2.traceBytes.length = 28 := by decide +kernel

/-- **A reset** leaves the start of a payload and room. -/
theorem holds_reset (room : Room) : Holds (reset room) [] := by
  have hok := isOk_encodePayloadKeys
  have hsize := room.size
  have hmax : 33 ≤ MAX_SIZE := by decide
  rcases (adds_encodePayloadKeys ⟨[], emptyTable⟩ slices_emptyTable (Nat.zero_le _)).cases with
    ⟨_, t, ht, hslices, -, -, start, hstart, his⟩ | ⟨e, t, ht, -⟩
  · have hlen : t.traceBytes.length = 28 := by
      have hkeys := length_encodePayloadKeys
      rwa [ht] at hkeys
    have hbytes : t.traceBytes = start := hstart
    have hput : (put room.bytes : Writer Slice Unit) t =
        (.ok (), { t with traceBytes := t.traceBytes ++ room.bytes }) :=
      if_neg (by show ¬MAX_SIZE < t.traceBytes.length + room.bytes.length; omega)
    have hstarted : encodePayloadStart room ⟨[], emptyTable⟩ =
        (.ok t.traceBytes.length, { t with traceBytes := t.traceBytes ++ room.bytes }) := by
      have hlength : (traceLog Slice).length t = (.ok t.traceBytes.length, t) := rfl
      unfold encodePayloadStart
      rw [Prog.bind_ok ht, Prog.bind_ok hlength, Prog.bind_ok hput]
      rfl
    unfold reset
    rw [hstarted]
    refine ⟨hslices, ?_, rfl, start, room.bytes, [], ?_, his, ?_, hsize, encodesAll_nil⟩
    · rw [length_append]
      omega
    · rw [← hbytes, append_nil]
    · rw [hbytes]
  · rw [ht] at hok
    cases hok

/-! ## Calls -/

/-- **The head of the array** takes the place of the room, and the payload is one map. -/
theorem payload_read {s : State} (h : Holds s queue) :
    Msgpack.decodeAll (Buffer.store s.chunks.traceBytes s.coveragesOffset
      (writeArrayPrefix s.coveragesCount)) = some (payloadImage queue) := by
  obtain ⟨start, room, l, hbytes, ⟨version, key, rfl, hversion, hkey⟩, hoffset, hroom, hl⟩ :=
    h.bytes
  have hcap := h.cap
  have hmax : MAX_SIZE < 2 ^ 32 := by decide
  have hhead : (writeArrayPrefix s.coveragesCount).length = 5 := rfl
  have hlen : (Buffer.store s.chunks.traceBytes s.coveragesOffset
      (writeArrayPrefix s.coveragesCount)).length < 2 ^ 32 := by
    rw [Buffer.length_store]
    omega
  have hcount : s.coveragesCount = (queue.map coverageImage).length := by
    rw [length_map, h.count]
  have hstore : Buffer.store s.chunks.traceBytes s.coveragesOffset
      (writeArrayPrefix s.coveragesCount) = writeMapPrefix COVERAGE_KEYS_LENGTH ++
        (version ++ (key ++ (writeArrayPrefix s.coveragesCount ++ l))) := by
    have hfront := Log.Growth.patch_append (writeMapPrefix COVERAGE_KEYS_LENGTH ++ version ++ key)
      [] room (writeArrayPrefix s.coveragesCount) l (by rw [hroom, hhead])
    have hinside : s.coveragesOffset + (writeArrayPrefix s.coveragesCount).length ≤
        s.chunks.traceBytes.length := by
      rw [hbytes, hoffset]
      simp only [length_append]
      omega
    rw [Buffer.store_eq hinside, hbytes, hoffset]
    simp only [List.nil_append, length_nil, Nat.add_zero] at hfront
    rw [hfront]
    simp only [append_assoc]
  refine decodeAll_of_encodes ?_ hlen
  rw [hstore, hcount]
  exact encodes_countedMap rfl (encodesAll_append hversion
    (encodesAll_singleton (encodes_entry hkey (encodes_countedArray rfl hl))))

/-- What is queued after a call, given what the call came to. -/
def queueAfter (queue : List Coverage) : Event → List Coverage
  | .accepted coverage => queue ++ [coverage]
  | .overflowed _ | .payload _ => []
  | .raised => queue

/-- What a payload is read as. -/
def ReadsAs (queue : List Coverage) : Event → Prop
  | .payload bytes => Msgpack.decodeAll bytes = some (payloadImage queue)
  | _ => True

/-- **A call** is answered, keeps the invariant, and if it makes a payload, this is read as what was
queued. -/
theorem step_cases {s : State} (h : Holds s queue) (call : Call) :
    Answers call (step s call).1 ∧ ReadsAs queue (step s call).1 ∧
      Holds (step s call).2 (queueAfter queue (step s call).1) := by
  cases call with
  | makePayload room => exact ⟨trivial, payload_read h, holds_reset room⟩
  | encode coverage room =>
    show Answers _ (encode coverage room s).1 ∧ ReadsAs _ (encode coverage room s).1 ∧
      Holds (encode coverage room s).2 (queueAfter queue (encode coverage room s).1)
    unfold encode
    rcases (adds_encodeCodeCoverage coverage s.chunks h.slices h.cap).cases with
      ⟨_, t, ht, hslices, -, hcap, m, hm, hread⟩ | ⟨e, t, ht, he⟩
    · rw [ht]
      obtain ⟨start, room', l, hbytes, hstart, hoffset, hroom, hl⟩ := h.bytes
      refine ⟨rfl, trivial, hslices, hcap, ?_, start, room', l ++ m, ?_, hstart, hoffset, hroom, ?_⟩
      · show s.coveragesCount + 1 = (queue ++ [coverage]).length
        rw [length_append, length_singleton, h.count]
      · have hout : t.traceBytes = s.chunks.traceBytes ++ m := hm
        rw [hout, hbytes]
        simp only [append_assoc]
      · show Msgpack.EncodesAll Msgpack.decode ((queue ++ [coverage]).map coverageImage) (l ++ m)
        rw [map_append]
        exact encodesAll_append hl (encodesAll_singleton hread)
    · rw [ht]
      cases e with
      | overflow needed => exact ⟨he, trivial, holds_reset room⟩
      | raised => exact absurd trivial he

/-! ## Runs -/

theorem forall_payloads {s : State} (h : Holds s queue) (calls : List Call) :
    List.Forall₂ Answers calls (events s calls) ∧
      List.Forall (fun e => Msgpack.decodeAll e.2 = some (payloadImage e.1))
        (payloads queue (events s calls)) := by
  induction calls generalizing s queue with
  | nil => exact ⟨.nil, trivial⟩
  | cons call calls ih =>
    obtain ⟨hanswers, hread, hnext⟩ := step_cases h call
    obtain ⟨hall, hrest⟩ := ih hnext
    refine ⟨.cons hanswers hall, ?_⟩
    show List.Forall _ (payloads queue ((step s call).1 :: events (step s call).2 calls))
    generalize (step s call).1 = e at hread hnext hrest ⊢
    cases e with
    | accepted coverage | overflowed needed | raised => exact hrest
    | payload bytes => exact (forall_cons _ _ _).mpr ⟨hread, hrest⟩

/-- **The payloads of every run.**  Each call is answered: an event is accepted, unless it asks for
more than a chunk may hold.  Each payload is one map with the version and the array of the events
that were accepted since the payload or the overflow before, each with the lowest 64 bits of its
identifiers, the names with their lone surrogates replaced, and the bytes of every bitmap. -/
theorem payloads_read (room : Room) (calls : List Call) :
    List.Forall₂ Answers calls (events (reset room) calls) ∧
      List.Forall (fun e => Msgpack.decodeAll e.2 = some (payloadImage e.1))
        (payloads [] (events (reset room) calls)) :=
  forall_payloads (holds_reset room) calls

/-! ## What is lost -/

/-- Memory of zeros. -/
def zeros : Room := ⟨[0, 0, 0, 0, 0], rfl⟩

/-- A session with one file. -/
def session (high : List UInt8) (filename : Str) : Coverage where
  sessionId := ⟨high ++ [0, 0, 0, 0, 0, 0, 0, 1], by
    rw [length_append]
    exact Nat.le_add_left 8 _⟩
  suiteId := none
  testId := none
  files := [.entry filename (some (.buffer ⟨[1, 2, 3, 4], 1, 2⟩))]

/-- What a run with one event comes to. -/
def single (coverage : Coverage) : List (List Coverage × List UInt8) :=
  payloads [] (events (reset zeros) [.encode coverage zeros, .makePayload zeros])

theorem map_snd_single : (single (session [] [0xD800])).map Prod.snd =
    (single (session [1, 0, 0, 0, 0, 0, 0, 0] [0xFFFD])).map Prod.snd := by decide +kernel

theorem map_fst_single : (single (session [] [0xD800])).map Prod.fst ≠
    (single (session [1, 0, 0, 0, 0, 0, 0, 0] [0xFFFD])).map Prod.fst := by decide +kernel

/-- Two events that differ in the upper half of an identifier and in a lone surrogate have the same
payload. -/
theorem events_lost : ¬∃ read : List UInt8 → List Coverage, ∀ (room : Room) (calls : List Call),
    List.Forall (fun e => read e.2 = e.1) (payloads [] (events (reset room) calls)) := by
  rintro ⟨read, hread⟩
  have hmap : ∀ coverage, (single coverage).map Prod.fst =
      ((single coverage).map Prod.snd).map read := by
    intro coverage
    have hall := forall_iff_forall_mem.mp (hread zeros [.encode coverage zeros, .makePayload zeros])
    rw [map_map]
    exact map_congr_left fun e he => (hall e he).symm
  refine map_fst_single ?_
  rw [hmap, hmap, map_snd_single]

end DdTrace.Encode.CoverageCiVisibility
