import DdTrace.Encode.AgentEncoderAgreement
import DdTrace.Encode.CiVisibilitySpec

/-!
# What the encoders recover from

An encoder recovers from an overflow and from nothing else.  Where a chunk or a payload would become
longer than `MAX_SIZE`, everything that is queued is dropped, and the encoder is as it was when it
had written nothing.  Any other error goes to the caller.  The trace has been counted by then, and
the bytes that were written of it stay, so that no payload is one of what is queued any more.

All three encoders do the first, but for one thing: the v0.4 encoder does not look at the length of
the payload, which is that of its only chunk and of five bytes in front of it.

* `encoders_atomicExactly`: **an encode that throws leaves an encoder as it was in no run, and this
  is the only thing that can make a payload wrong**.
* `encoders_recover`: **every overflow leaves what a reset leaves, every payload is one of exactly
  the traces that were queued, and no payload is longer than `MAX_SIZE`, but one of v0.4 that was
  made from more than `MAX_SIZE - 5` bytes**.
-/

open Library

namespace DdTrace.Encode

open MsgpackChunk List

namespace Encoder.Reading

variable {K : Encoder} {S : K.Reading}

/-! ## Errors -/

/-- **An encode that throws leaves the encoder as it was**, and every payload is one of the traces
whose encode succeeded. -/
def Atomic (S : K.Reading) (calls : List K.Call) (w : K.World) : Prop :=
  Run.Every step RollsBack (World.init K) calls ∧ Exact S w

/-- In every run this is so exactly when nothing is thrown, and nothing is where every trace can be
encoded. -/
def AtomicExactly (S : K.Reading) : Prop :=
  ∀ calls w, Run.exec step (World.init K) calls = some w →
    (Atomic S calls w ↔ .raised ∉ w.history) ∧
    (Run.Every step (QuietCall S) (World.init K) calls → .raised ∉ w.history)

theorem atomicExactly (hS : S.Lawful) : AtomicExactly S := fun _ _ hr =>
  ⟨rollsBack_iff hS hr, fun hquiet => (accounted_of_quiet hS hr hquiet).notRaised⟩

/-! ## Overflows -/

/-- No payload that was sent is longer than a chunk may be. -/
def WithinCap (w : K.World) : Prop :=
  ∀ s p, .sent s p ∈ w.history → p.length ≤ MAX_SIZE

/-- **An encoder that recovers**: an overflow leaves what a reset leaves, every payload is one of
the traces that were encoded since, as is what is queued, and none is too long. -/
structure Recovered (S : K.Reading) (calls : List K.Call) (w : K.World) : Prop where
  dropsAll : Run.Every step DropsAll (World.init K) calls
  holds : S.Holds w.encoder (queue w.history)
  exact : Exact S w
  withinCap : WithinCap w

/-- Without an error an encoder recovers exactly when every payload was made of a state that
fits. -/
def RecoversExactly (S : K.Reading) (fits : State K.Entry K.Own → Prop) : Prop :=
  ∀ calls w, Run.exec step (World.init K) calls = some w → .raised ∉ w.history →
    (Recovered S calls w ↔ ∀ s p, .sent s p ∈ w.history → fits s)

/-- A payload that was sent was assembled. -/
theorem Accounted.assembled_of_sent {w : K.World} (hw : Accounted S w)
    {s : State K.Entry K.Own} {p : List UInt8} (hmem : .sent s p ∈ w.history) :
    ∃ q, Assembled S s q p := by
  obtain ⟨h, h', heq⟩ := append_of_mem hmem
  exact ⟨_, hw.sent h s p h' heq⟩

theorem recoversExactly (hS : S.Lawful) {fits : State K.Entry K.Own → Prop}
    (hfits : ∀ s q p, Assembled S s q p → (p.length ≤ MAX_SIZE ↔ fits s)) :
    RecoversExactly S fits := by
  intro calls w hr h
  have hw := accounted_of_notRaised hS hr h
  have hcap : WithinCap w ↔ ∀ s p, .sent s p ∈ w.history → fits s := by
    constructor
    · intro hcap s p hmem
      obtain ⟨q, hq⟩ := hw.assembled_of_sent hmem
      exact (hfits s q p hq).mp (hcap s p hmem)
    · intro hall s p hmem
      obtain ⟨q, hq⟩ := hw.assembled_of_sent hmem
      exact (hfits s q p hq).mpr (hall s p hmem)
  rw [← hcap]
  exact ⟨Recovered.withinCap, fun hcap =>
    ⟨every_dropsAll hS hr h, hw.holds, hw.exact hS, hcap⟩⟩

end Encoder.Reading

open Encoder Encoder.Reading

/-- **Errors.**  None of the three encoders leaves itself as it was when an encode throws, and all
three make right payloads of everything else. -/
theorem encoders_atomicExactly (env env' : Env) (limit limit' : ℕ) (setup : CiVisibility.Setup) :
    AtomicExactly (V04.reading env limit) ∧ AtomicExactly (V05.reading env' limit') ∧
      AtomicExactly (CiVisibility.reading setup) :=
  ⟨atomicExactly (V04.lawful env limit), atomicExactly (V05.lawful env' limit'),
    atomicExactly (CiVisibility.lawful setup)⟩

namespace V04

/-- A span whose `meta_struct` has a getter that throws. -/
def throwingTrace : Trace where
  spans := [{ spanWith twoBytes with metaStruct := some 0 }]
  objects _ := .object (OrderedMap.ofEntries [(lit "a", none)])

/-- **A getter that throws** leaves the count one too high. -/
theorem not_rollsBack_throwingTrace :
    ¬Run.Every step RollsBack (World.init (encoder plainEnv SOFT_LIMIT))
      [.encode throwingTrace true] := by
  intro h
  have hraised : (first (encoder plainEnv SOFT_LIMIT) throwingTrace).1 = .error .raised := by
    decide +kernel
  have hcount : (first (encoder plainEnv SOFT_LIMIT) throwingTrace).2.traceCount = 1 :=
    (lawful plainEnv SOFT_LIMIT).traceCount throwingTrace (counting (World.init _))
  generalize hx : first (encoder plainEnv SOFT_LIMIT) throwingTrace = x at hraised hcount
  obtain ⟨result, t⟩ := x
  subst hraised
  have hencode : step (World.init (encoder plainEnv SOFT_LIMIT)) (.encode throwingTrace true) =
      some ⟨t, [.raised]⟩ := by
    unfold first counting at hx
    unfold Encoder.step Encoder.encode
    dsimp only
    rw [hx]
    rfl
  have hback : t = Encoder.init _ := h.1 ⟨t, [.raised]⟩ hencode rfl
  rw [hback] at hcount
  cases hcount

end V04

/-! ## Payloads that are too long -/

namespace V04

theorem length_of_assembled {env : Env} {limit : ℕ} {s : State Slice Unit}
    {q : List (Unit × Trace)} {p : List UInt8} (h : Assembled (reading env limit) s q p) :
    p.length = s.chunks.traceBytes.length + 5 := by
  obtain ⟨chunks, heq⟩ := h.eq
  have heq' : (Except.ok (writeArrayPrefix s.traceCount ++ s.chunks.traceBytes), s.chunks) =
      (Except.ok p, chunks) := heq
  cases heq'
  rfl

end V04

theorem V05.length_of_assembled {env : Env} {limit : ℕ} {s : State ℕ Unit}
    {q : List (Unit × Trace)} {p : List UInt8} (h : Assembled (V05.reading env limit) s q p) :
    p.length ≤ MAX_SIZE := by
  obtain ⟨chunks, heq⟩ := h.eq
  have hruns : Prog.Runs (assemble s.traceCount) s.chunks (fun p _ => p.length ≤ MAX_SIZE)
      Recovers := by
    refine runs_assemble fun hlen => ?_
    simp only [length_append, length_writeArrayPrefix, length_singleton]
    omega
  unfold Prog.Runs at hruns
  have heq' : assemble s.traceCount s.chunks = (.ok p, chunks) := heq
  rwa [heq'] at hruns

/-- **Overflows.**  All three encoders recover from them, but that the payloads of v0.4 are not
looked at: five bytes are put in front of a chunk that may be full. -/
theorem encoders_recover (env env' : Env) (limit limit' : ℕ) (setup : CiVisibility.Setup) :
    RecoversExactly (V04.reading env limit) (fun s => s.chunks.traceBytes.length + 5 ≤ MAX_SIZE) ∧
      RecoversExactly (V05.reading env' limit') (fun _ => True) ∧
      RecoversExactly (CiVisibility.reading setup) (fun _ => True) := by
  refine ⟨recoversExactly (V04.lawful env limit) fun s q p h => ?_,
    recoversExactly (V05.lawful env' limit') fun s q p h => ?_,
    recoversExactly (CiVisibility.lawful setup) fun s q p h => ?_⟩
  · rw [V04.length_of_assembled h]
  · exact iff_of_true (V05.length_of_assembled h) trivial
  · exact iff_of_true (h.isPayload (CiVisibility.lawful setup)).1 trivial

/-! ### A full chunk -/

theorem exec_first {K : Encoder} {trace : Trace} {a : Unit} {t : State K.Entry K.Own}
    {p : List UInt8} {chunks : Chunks K.Entry} (h : first K trace = (.ok a, t))
    (hlimit : t.chunks.traceBytes.length > K.limit) (hcount : t.traceCount > 0)
    (hp : K.assemble t.traceCount t.own t.chunks = (.ok p, chunks)) :
    Run.exec step (World.init K) [.encode trace true] =
      some ⟨K.reset { t with chunks := chunks }, [.encoded K.start trace, .sent t p]⟩ := by
  have hor : (decide (t.chunks.traceBytes.length > K.limit) ||
      decide (t.chunks.strings.bytes.length > K.limit)) = true := by
    rw [decide_eq_true hlimit, Bool.true_or]
  show some (Encoder.encode (World.init K) trace true) = _
  unfold first counting at h
  unfold Encoder.encode
  dsimp only
  rw [h]
  dsimp only
  rw [if_pos hor]
  unfold flush
  rw [if_pos hcount]
  rw [hp]
  rfl

theorem put_ok {ε : Type} {s : Chunks ε} {l : List UInt8}
    (h : s.traceBytes.length + l.length ≤ MAX_SIZE) :
    put l s = (.ok (), { s with traceBytes := s.traceBytes ++ l }) :=
  if_neg (Nat.not_lt.mpr h)

/-- A counted body that adds `l`. -/
theorem counted_ok {ε α : Type} {head : List UInt8} {number : α → ℕ} {body : Writer ε α}
    {s : Chunks ε} {strings : StringTable ε} {a : α} {l : List UInt8}
    (h : s.traceBytes.length + (head.length + 4) ≤ MAX_SIZE)
    (hbody : body { s with traceBytes := s.traceBytes ++ (head ++ [0, 0, 0, 0]) } =
      (.ok a, ⟨s.traceBytes ++ (head ++ [0, 0, 0, 0]) ++ l, strings⟩)) :
    counted head number body s =
      (.ok a, ⟨s.traceBytes ++ (head ++ int32 (number a) ++ l), strings⟩) := by
  have hput : (traceLog ε).append (head ++ [0, 0, 0, 0]) s =
      (.ok (), { s with traceBytes := s.traceBytes ++ (head ++ [0, 0, 0, 0]) }) := by
    refine put_ok ?_
    rw [length_append]
    exact h
  unfold counted Log.counted
  rw [Prog.bind_ok (rfl : (traceLog ε).length s = (.ok s.traceBytes.length, s)),
    Prog.bind_ok hput, Prog.bind_ok hbody]
  rw [Prod.mk.injEq, Chunks.mk.injEq]
  refine ⟨rfl, ?_, rfl⟩
  exact Log.Growth.patch_append _ _ _ _ _ rfl

namespace V04

theorem encodeMetaEntries_long {keyPrefix : List UInt8} {key value : Str} {entry : Slice}
    {s : Chunks Slice} (hkey : s.strings.map.get? key = some entry)
    (hlong : STRING_CACHE_BYPASS_LIMIT < value.length)
    (hroom : s.traceBytes.length + (keyPrefix.length + 4) +
      (entry.read s.strings.bytes).length + (write value).length ≤ MAX_SIZE) :
    encodeMetaEntries keyPrefix (some (OrderedMap.ofEntries [(key, .str value)])) s =
      (.ok (), { s with traceBytes := s.traceBytes ++ (keyPrefix ++ int32 1 ++
        (entry.read s.strings.bytes ++ write value)) }) := by
  have hcached : ∀ bytes, cached (.str key) ⟨bytes, s.strings⟩ =
      (.ok entry, ⟨bytes, s.strings⟩) := by
    intro bytes
    have hcache : cacheSlice (.str key) s.strings = (.ok entry, s.strings) := by
      unfold cacheSlice
      rw [Prog.bind_ok (rfl : Prog.get s.strings = (.ok s.strings, s.strings))]
      have hkey' : s.strings.map.get? (Text.str key).key = some entry := hkey
      rw [hkey']
      rfl
    show ((cacheSlice (.str key) s.strings).1, Chunks.mk bytes _) = _
    rw [hcache]
  have hentry : encodeMetaEntry (key, .str value)
        { s with traceBytes := s.traceBytes ++ (keyPrefix ++ [0, 0, 0, 0]) } =
      (.ok true, ⟨s.traceBytes ++ (keyPrefix ++ [0, 0, 0, 0]) ++
        (entry.read s.strings.bytes ++ write value), s.strings⟩) := by
    unfold encodeMetaEntry
    dsimp only
    rw [Prog.bind_ok (hcached _), if_pos hlong]
    have hshown : ∀ t : Chunks Slice, shown entry t = (.ok (entry.read t.strings.bytes), t) :=
      fun _ => rfl
    rw [Prog.bind_ok (hshown _), Prog.bind_ok (put_ok ?_), Prog.bind_ok (put_ok ?_),
      append_assoc _ (entry.read _)]
    · rfl
    all_goals
      simp only [length_append, length_cons, length_nil]
      omega
  refine Prog.bind_ok (counted_ok (by omega) ?_)
  show (encodeMetaEntry (key, .str value) >>= _) _ = _
  rw [Prog.bind_ok hentry]
  rfl

/-- A span with one text, and no metrics. -/
def spanOf (text : Str) : Span :=
  { spanWith twoBytes with
    «meta» := some (OrderedMap.ofEntries [(lit "web", .str text)])
    metrics := some (OrderedMap.ofEntries []) }

def traceOf (text : Str) : Trace := ⟨[spanOf text], fun _ => .array []⟩

/-- What is written of a trace of one span up to the `meta` of the span. -/
def encodeHead (span : Span) : Writer Slice Unit := do
  put (writeArrayPrefix 1)
  let (typeEntry, nameEntry, resourceEntry, serviceEntry) ← headEntries span
  let s ← Prog.get
  let read := fun entry : Slice => entry.read s.strings.bytes
  put (headBlock span (typeEntry.map read) (read nameEntry) (read resourceEntry)
    (read serviceEntry))
  encodeTail span
  put (writeIntOrFloat span.duration)

theorem encodeHead_with (span : Span) (m k : Option (OrderedMap Str Scalar)) :
    encodeHead { span with «meta» := m, metrics := k } = encodeHead span := rfl

theorem encode_traceOf (text : Str) : encode plainEnv (traceOf text) =
    encodeHead (spanOf text) >>= fun _ =>
      encodeMetaEntries KEY_META_PREFIX (spanOf text).meta >>= fun _ =>
        encodeMetaEntries KEY_METRICS_PREFIX (spanOf text).metrics >>= fun _ => pure () := by
  have hspan : encodeFormatted plainEnv (traceOf text).objects (spanOf text) =
    encodeSpan plainEnv (traceOf text).objects (spanOf text) := rfl
  unfold encode encodeHead
  show (put (writeArrayPrefix 1) >>= fun _ =>
    encodeFormatted plainEnv (traceOf text).objects (spanOf text) >>= fun _ => pure ()) = _
  rw [hspan]
  unfold encodeSpan
  simp only [Prog.bind_bind]
  rfl

theorem encodeUtf8_replicate (n : ℕ) : (Unicode.encodeUtf8 (List.replicate n 0x61)).length = n := by
  have hascii : Unicode.IsAscii (List.replicate n (0x61 : UInt16)) := by
    intro u hu
    rw [eq_of_mem_replicate hu]
    decide
  rw [Unicode.encodeUtf8_of_ascii hascii, length_map, length_replicate]

/-- The chunks before anything is written. -/
def fresh : Chunks Slice := ⟨[], (encoder plainEnv SOFT_LIMIT).emptyTable⟩

/-- What is written of a trace with a long text. -/
theorem encode_long {text : Str} (hlong : STRING_CACHE_BYPASS_LIMIT < text.length)
    (hroom : 164 + (write text).length ≤ MAX_SIZE) :
    ∃ t : Chunks Slice, encode plainEnv (traceOf text) fresh = (.ok (), t) ∧
      t.traceBytes.length = 164 + (write text).length := by
  have hhead : encodeHead (spanOf text) = encodeHead (spanWith twoBytes) := encodeHead_with _ _ _
  have hok : (encodeHead (spanWith twoBytes) fresh).1 = .ok () := by decide +kernel
  have hlen : (encodeHead (spanWith twoBytes) fresh).2.traceBytes.length = 137 := by
    decide +kernel
  have hkey : (encodeHead (spanWith twoBytes) fresh).2.strings.map.get? (lit "web") =
      some ⟨1, 4⟩ := by decide +kernel
  have hread : ((Slice.mk 1 4).read
      (encodeHead (spanWith twoBytes) fresh).2.strings.bytes).length = 4 := by
    decide +kernel
  rw [encode_traceOf, hhead]
  generalize hx : encodeHead (spanWith twoBytes) fresh = x at *
  obtain ⟨result, s⟩ := x
  dsimp only at hok hlen hkey hread
  subst hok
  have hprefix : KEY_META_PREFIX.length = 6 ∧ KEY_METRICS_PREFIX.length = 9 := by decide
  have hmeta : encodeMetaEntries KEY_META_PREFIX (spanOf text).meta s = _ :=
    encodeMetaEntries_long hkey hlong (by omega)
  have hmetrics : ∀ t : Chunks Slice, t.traceBytes.length + 13 ≤ MAX_SIZE →
      encodeMetaEntries KEY_METRICS_PREFIX (spanOf text).metrics t =
        (.ok (), { t with traceBytes := t.traceBytes ++ (KEY_METRICS_PREFIX ++ int32 0) }) := by
    intro t ht
    have h : counted KEY_METRICS_PREFIX id (pure 0 : Writer Slice ℕ) t =
        (.ok 0, ⟨t.traceBytes ++ (KEY_METRICS_PREFIX ++ int32 0 ++ []), t.strings⟩) :=
      counted_ok (by omega) (by rw [append_nil]; rfl)
    exact Prog.bind_ok h
  have hint32 : ∀ n, (int32 n).length = 4 := fun _ => rfl
  rw [Prog.bind_ok hx, Prog.bind_ok hmeta, Prog.bind_ok (hmetrics _ ?_)]
  · refine ⟨_, rfl, ?_⟩
    simp only [length_append, hint32, hprefix]
    omega
  · simp only [length_append, hint32, hprefix]
    omega

/-- A text that fills a chunk. -/
def longText : Str := List.replicate (MAX_SIZE - 169) 0x61

theorem length_write_longText : (write longText).length = MAX_SIZE - 164 := by
  have hlen := encodeUtf8_replicate (MAX_SIZE - 169)
  unfold write longText
  rw [if_neg (by rw [hlen]; decide), length_append, hlen]
  rfl

/-- **A full chunk** is sent with five bytes in front of it. -/
theorem not_recovered_longText : ∃ w,
    Run.exec step (World.init (encoder plainEnv SOFT_LIMIT)) [.encode (traceOf longText) true] =
      some w ∧ .raised ∉ w.history ∧
    ¬Recovered (reading plainEnv SOFT_LIMIT) [.encode (traceOf longText) true] w := by
  have hlong : STRING_CACHE_BYPASS_LIMIT < longText.length := by
    unfold longText STRING_CACHE_BYPASS_LIMIT MAX_SIZE
    rw [length_replicate]
    omega
  have hwritten : 164 + (write longText).length = MAX_SIZE := by
    rw [length_write_longText]
    unfold MAX_SIZE
    omega
  obtain ⟨t, ht, hlen⟩ := encode_long hlong hwritten.le
  rw [hwritten] at hlen
  have hfirst : first (encoder plainEnv SOFT_LIMIT) (traceOf longText) = (.ok (), ⟨t, 1, ()⟩) := by
    show ((encode plainEnv (traceOf longText) fresh).1, State.mk
      (encode plainEnv (traceOf longText) fresh).2 1 ()) = _
    rw [ht]
    rfl
  have hlimit : t.traceBytes.length > SOFT_LIMIT := by
    rw [hlen]
    decide
  refine ⟨_, exec_first hfirst hlimit Nat.one_pos rfl, ?_, fun h => ?_⟩
  · simp
  · have hcap := h.withinCap _ _ (mem_cons_of_mem _ (mem_singleton_self _))
    rw [length_append] at hcap
    dsimp only at hcap
    rw [hlen] at hcap
    exact absurd hcap (by decide)

end V04
end DdTrace.Encode
