import DdTrace.Encode.StringTable
import DdTrace.Library.Run

/-!
# `encode`, `makePayload` and the writer

`AgentEncoder` of `encode/0.4.js` keeps what it was given until the writer asks for a payload, and
the other two encoders inherit how.  A trace is counted and its bytes are added to a chunk; when a
chunk is longer than a soft limit, the writer is told to flush.  A payload is assembled from the
chunks, and they are emptied.

Whatever would make a chunk or a payload longer than `MAX_SIZE` is an overflow.  Where it happens
in the middle of a trace, nothing can be said of the bytes that are there already, and nothing is
tried: everything that is queued is dropped.  Another error is passed on, and what was counted and
written before it stays.

An `Encoder` is what a subclass overrides.  What its bytes are meant to be read as is a `Reading`:
of the traces that are queued, each with what the subclass held when it was encoded.

* `Reading.step_cases`: a step keeps the accounts, unless it raises an error.
* `Reading.accounted_of_notRaised`: after every run in which no error is raised, the bytes that are
  queued are those of the traces that were encoded since the last payload and the last overflow, and
  every payload is one of exactly such traces; `Reading.accounted_of_quiet`: so it is after traces
  for which the encoder raises no error.
* `Reading.every_dropsAll`: an overflow leaves what a reset leaves.
* `Reading.rollsBack_iff`: an error is never rolled back.
-/

open Library

namespace DdTrace.Encode

open List Option

/-! ## The source -/

/-- The fields of `AgentEncoder`, and those of a subclass. -/
structure State (ε χ : Type) where
  chunks : Chunks ε
  traceCount : ℕ
  own : χ

/-- What a subclass has of its own: what it remembers of a string, the fields it starts with, what
changes them, and the methods it overrides. -/
structure Encoder where
  Entry : Type
  Own : Type
  Change : Type
  start : Own
  limit : ℕ
  cacheString : Text → Prog Failure (StringTable Entry) Entry
  encodeTrace : Trace → Prog Failure (State Entry Own) Unit
  assemble : ℕ → Own → Writer Entry (List UInt8)
  clear : Own → Own
  change : Change → Own → Own

/-- What is done to the chunks alone. -/
def onChunks {ε χ α : Type} (x : Writer ε α) : Prog Failure (State ε χ) α := fun s =>
  ((x s.chunks).1, { s with chunks := (x s.chunks).2 })

theorem runs_onChunks {ε χ α : Type} {Inv : StringTable ε → Prop} {Fail : Failure → Prop}
    {x : Writer ε α} {s : State ε χ} {Q : Chunks ε → α → List UInt8 → Prop}
    (h : (growth Inv).EmitsAt Fail x s.chunks Q) (hinv : Inv s.chunks.strings)
    (hcap : s.chunks.traceBytes.length ≤ MsgpackChunk.MAX_SIZE) :
    Prog.Runs (onChunks x) s (fun a t =>
      Inv t.chunks.strings ∧ s.chunks.strings.Le t.chunks.strings ∧
      t.chunks.traceBytes.length ≤ MsgpackChunk.MAX_SIZE ∧
      t.traceCount = s.traceCount ∧ t.own = s.own ∧
      ∃ l, t.chunks.traceBytes = s.chunks.traceBytes ++ l ∧ Q t.chunks a l) Fail := by
  unfold Prog.Runs onChunks
  rcases (h hinv hcap).cases with ⟨a, t, hx, ht, hle, hlen, hl⟩ | ⟨e, t, hx, he⟩
  · rw [hx]
    exact ⟨ht, hle, hlen, rfl, rfl, hl⟩
  · rw [hx]
    exact he

namespace Encoder

variable (K : Encoder)

/-- The strings after `_cacheString('')`. -/
def emptyTable : StringTable K.Entry := (K.cacheString (.str []) ⟨0, [], OrderedMap.empty⟩).2

/-- `_reset`, and `reset` where a subclass clears fields of its own. -/
def reset (s : State K.Entry K.Own) : State K.Entry K.Own :=
  { chunks := ⟨[], K.emptyTable⟩, traceCount := 0, own := K.clear s.own }

/-- The constructor. -/
def init : State K.Entry K.Own :=
  { chunks := ⟨[], K.emptyTable⟩, traceCount := 0, own := K.start }

/-- What an encoder did, as its caller, its writer and its log see it: a trace that it took, with
the fields of the subclass at that time, a payload with the state it was made from, an overflow, a
queue that was thrown away because no request could be made, and an error that it raised. -/
inductive Event where
  | encoded (own : K.Own) (trace : Trace)
  | sent (s : State K.Entry K.Own) (payload : List UInt8)
  | overflowed (needed : ℕ)
  | discarded
  | raised

/-- An encoder and what it has done. -/
structure World where
  encoder : State K.Entry K.Own
  history : List K.Event

variable {K}

/-- `Writer.flush`. -/
def flush (w : K.World) (writable : Bool) : K.World :=
  if !writable then ⟨K.reset w.encoder, w.history ++ [.discarded]⟩
  else if w.encoder.traceCount > 0 then
    match K.assemble w.encoder.traceCount w.encoder.own w.encoder.chunks with
    | (.ok payload, chunks) =>
      ⟨K.reset { w.encoder with chunks := chunks }, w.history ++ [.sent w.encoder payload]⟩
    | (.error (.overflow needed), chunks) =>
      ⟨K.reset { w.encoder with chunks := chunks }, w.history ++ [.overflowed needed]⟩
    | (.error .raised, chunks) =>
      ⟨{ w.encoder with chunks := chunks }, w.history ++ [.raised]⟩
  else w

/-- `AgentEncoder.encode`. -/
def encode (w : K.World) (trace : Trace) (writable : Bool) : K.World :=
  let s := w.encoder
  match K.encodeTrace trace { s with traceCount := s.traceCount + 1 } with
  | (.error (.overflow needed), t) => ⟨K.reset t, w.history ++ [.overflowed needed]⟩
  | (.error .raised, t) => ⟨t, w.history ++ [.raised]⟩
  | (.ok _, t) =>
    let w : K.World := ⟨t, w.history ++ [.encoded s.own trace]⟩
    if t.chunks.traceBytes.length > K.limit || t.chunks.strings.bytes.length > K.limit then
      flush w writable
    else w

variable (K)

/-- What is called, with whether a request can be made at that time. -/
inductive Call where
  | encode (trace : Trace) (writable : Bool)
  | flush (writable : Bool)
  | change (c : K.Change)

variable {K}

def step (w : K.World) : K.Call → Option K.World
  | .encode trace writable => some (encode w trace writable)
  | .flush writable => some (flush w writable)
  | .change c => some { w with encoder := { w.encoder with own := K.change c w.encoder.own } }

variable (K)

def World.init : K.World := ⟨K.init, []⟩

variable {K}

/-! ## The queue -/

/-- The queue after an event. -/
def enqueue (q : List (K.Own × Trace)) : K.Event → List (K.Own × Trace)
  | .encoded own trace => q ++ [(own, trace)]
  | .raised => q
  | _ => []

/-- **The traces that were encoded** since the last payload and since the queue was last
dropped. -/
def queue (history : List K.Event) : List (K.Own × Trace) := history.foldl enqueue []

theorem queue_append_singleton (history : List K.Event) (e : K.Event) :
    queue (history ++ [e]) = enqueue (queue history) e := by
  rw [queue, foldl_append]
  rfl

/-! ## What the bytes are read as -/

/-- A reading of what an encoder writes: an invariant of its strings, the values that a trace is
read as, which may refer to the strings, what the fields of the subclass count, what a payload of
some traces is, and the traces for which no error is raised. -/
structure Reading (K : Encoder) where
  Inv : StringTable K.Entry → Prop
  Item : StringTable K.Entry → K.Own × Trace → List Msgpack → Prop
  Counted : K.Own → List (K.Own × Trace) → Prop
  IsPayload : K.Own → List (K.Own × Trace) → List UInt8 → Prop
  Quiet : K.Own → Trace → Prop

namespace Reading

variable (S : K.Reading)

/-- One value for each trace. -/
theorem flatten_of_forall₂ {α β : Type*} {R : α → β → Prop} {q : List α} {xss : List (List β)}
    (h : List.Forall₂ (fun x xs => ∃ m, xs = [m] ∧ R x m) q xss) :
    List.Forall₂ R q xss.flatten := by
  induction h with
  | nil => exact .nil
  | cons hx _ ih =>
    obtain ⟨m, rfl, hm⟩ := hx
    exact .cons hm ih

/-- The state of an encoder that has queued some traces. -/
structure Holds (s : State K.Entry K.Own) (q : List (K.Own × Trace)) : Prop where
  inv : S.Inv s.chunks.strings
  cap : s.chunks.traceBytes.length ≤ MsgpackChunk.MAX_SIZE
  count : s.traceCount = q.length
  counted : S.Counted s.own q
  items : ∃ xss : List (List Msgpack), List.Forall₂ (S.Item s.chunks.strings) q xss ∧
    Msgpack.EncodesAll Msgpack.decode xss.flatten s.chunks.traceBytes

/-- What has to be shown of a subclass. -/
structure Lawful : Prop where
  inv_emptyTable : S.Inv K.emptyTable
  item_mono : ∀ {s t x xs}, s.Le t → S.Item s x xs → S.Item t x xs
  counted_start : S.Counted K.start []
  counted_clear : ∀ own, S.Counted (K.clear own) []
  counted_change : ∀ c own q, S.Counted own q → S.Counted (K.change c own) q
  traceCount : ∀ trace s, (K.encodeTrace trace s).2.traceCount = s.traceCount
  clear : ∀ trace s, K.clear (K.encodeTrace trace s).2.own = K.clear s.own
  encodeTrace : ∀ trace s q, S.Inv s.chunks.strings →
    s.chunks.traceBytes.length ≤ MsgpackChunk.MAX_SIZE → S.Counted s.own q →
    Prog.Runs (K.encodeTrace trace) s (fun _ t =>
      S.Inv t.chunks.strings ∧ s.chunks.strings.Le t.chunks.strings ∧
      t.chunks.traceBytes.length ≤ MsgpackChunk.MAX_SIZE ∧ t.traceCount = s.traceCount ∧
      S.Counted t.own (q ++ [(s.own, trace)]) ∧
      ∃ xs l, t.chunks.traceBytes = s.chunks.traceBytes ++ l ∧
        S.Item t.chunks.strings (s.own, trace) xs ∧ Msgpack.EncodesAll Msgpack.decode xs l)
      (Fails (S.Quiet s.own trace))
  assemble : ∀ s q, S.Holds s q →
    Prog.Runs (K.assemble s.traceCount s.own) s.chunks (fun p _ => S.IsPayload s.own q p) Recovers

variable {S}

theorem holds_init (hS : S.Lawful) : S.Holds K.init [] :=
  ⟨hS.inv_emptyTable, Nat.zero_le _, rfl, hS.counted_start, [], .nil, Msgpack.encodesAll_nil⟩

/-- **A reset** leaves nothing of what was queued. -/
theorem holds_reset (hS : S.Lawful) (s : State K.Entry K.Own) : S.Holds (K.reset s) [] :=
  ⟨hS.inv_emptyTable, Nat.zero_le _, rfl, hS.counted_clear s.own, [], .nil, Msgpack.encodesAll_nil⟩

/-- A payload that was assembled in a state that holds the traces. -/
structure Assembled (S : K.Reading) (s : State K.Entry K.Own) (q : List (K.Own × Trace))
    (p : List UInt8) : Prop where
  holds : S.Holds s q
  eq : ∃ chunks, K.assemble s.traceCount s.own s.chunks = (.ok p, chunks)

variable {s : State K.Entry K.Own} {q : List (K.Own × Trace)}

theorem Assembled.isPayload (hS : S.Lawful) {p : List UInt8} (h : Assembled S s q p) :
    S.IsPayload s.own q p := by
  obtain ⟨chunks, heq⟩ := h.eq
  have hruns := hS.assemble s q h.holds
  unfold Prog.Runs at hruns
  rwa [heq] at hruns

/-- Every payload is one of the traces that were queued when it was sent. -/
def SentAll (S : K.Reading) (history : List K.Event) : Prop :=
  ∀ h s p h', history = h ++ .sent s p :: h' → Assembled S s (queue h) p

theorem sentAll_append {history : List K.Event} {e : K.Event} (h : SentAll S history)
    (he : ∀ s p, e = .sent s p → Assembled S s (queue history) p) :
    SentAll S (history ++ [e]) := by
  intro l s p l' heq
  rcases eq_nil_or_concat l' with rfl | ⟨l'', e', rfl⟩
  · obtain ⟨rfl, he'⟩ := append_inj' heq rfl
    exact he s p (singleton_injective he')
  · rw [concat_eq_append, ← cons_append, ← append_assoc] at heq
    exact h l s p l'' (append_inj' heq rfl).1

/-- What is true of a world in which no error has been raised. -/
structure Accounted (S : K.Reading) (w : K.World) : Prop where
  holds : S.Holds w.encoder (queue w.history)
  sent : SentAll S w.history
  notRaised : .raised ∉ w.history

theorem accounted_init (hS : S.Lawful) : Accounted S (World.init K) := by
  refine ⟨holds_init hS, ?_, not_mem_nil⟩
  intro h s p h' heq
  cases h <;> cases heq

theorem accounted_append {w : K.World} (hw : Accounted S w) {e : K.Event}
    (hs : S.Holds s (enqueue (queue w.history) e)) (hne : e ≠ .raised)
    (hsent : ∀ t p, e = .sent t p → Assembled S t (queue w.history) p) :
    Accounted S ⟨s, w.history ++ [e]⟩ := by
  refine ⟨?_, sentAll_append hw.sent hsent, ?_⟩
  · rwa [queue_append_singleton]
  · rw [mem_append, mem_singleton]
    rintro (hmem | rfl)
    · exact hw.notRaised hmem
    · exact hne rfl

/-! ## Steps -/

/-- **A flush** sends a payload of what is queued, or drops it. -/
theorem accounted_flush (hS : S.Lawful) {w : K.World} (hw : Accounted S w) (writable : Bool) :
    Accounted S (flush w writable) := by
  unfold flush
  by_cases hwritable : (!writable) = true
  · rw [if_pos hwritable]
    exact accounted_append hw (holds_reset hS _) (fun h => by cases h) fun _ _ h => by cases h
  rw [if_neg hwritable]
  by_cases hcount : w.encoder.traceCount > 0
  · rw [if_pos hcount]
    rcases (hS.assemble w.encoder _ hw.holds).cases with ⟨p, t, hx, -⟩ | ⟨e, t, hx, he⟩
    · rw [hx]
      refine accounted_append hw (holds_reset hS _) (fun h => by cases h) fun _ _ h => ?_
      cases h
      exact ⟨hw.holds, t, hx⟩
    · rw [hx]
      cases e with
      | overflow needed =>
        exact accounted_append hw (holds_reset hS _) (fun h => by cases h) fun _ _ h => by cases h
      | raised => exact absurd trivial he
  · rw [if_neg hcount]
    exact hw

/-- The state in which `encode` writes a trace. -/
def counting (w : K.World) : State K.Entry K.Own :=
  { w.encoder with traceCount := w.encoder.traceCount + 1 }

/-- **A trace is written** whole behind what is queued, or an overflow or an error stops it. -/
theorem encodeTrace_cases (hS : S.Lawful) {w : K.World} (hw : Accounted S w) (trace : Trace) :
    (∃ a t, K.encodeTrace trace (counting w) = (.ok a, t) ∧
      Accounted S ⟨t, w.history ++ [.encoded w.encoder.own trace]⟩) ∨
    ∃ e t, K.encodeTrace trace (counting w) = (.error e, t) ∧
      Fails (S.Quiet w.encoder.own trace) e := by
  have hruns := hS.encodeTrace trace (counting w) (queue w.history) hw.holds.inv hw.holds.cap
    hw.holds.counted
  rcases hruns.cases with ⟨a, t, hx, hinv, hle, hcap, htc, hcounted, xs, l, hl, hitem, hxs⟩ | h
  · left
    obtain ⟨xss, hxss, hall⟩ := hw.holds.items
    have hbytes : Msgpack.EncodesAll Msgpack.decode (xss ++ [xs]).flatten
        t.chunks.traceBytes := by
      rw [flatten_append, flatten_singleton, hl]
      exact Msgpack.encodesAll_append hall hxs
    have hholds : S.Holds t (queue w.history ++ [(w.encoder.own, trace)]) := by
      refine ⟨hinv, hcap, ?_, hcounted, xss ++ [xs], ?_, hbytes⟩
      · rw [htc, length_append]
        exact congrArg (· + 1) hw.holds.count
      · exact rel_append (hxss.imp fun _ _ h => hS.item_mono hle h) (.cons hitem .nil)
    exact ⟨a, t, hx, accounted_append hw hholds (fun h => by cases h) fun _ _ h => by cases h⟩
  · exact .inr h

/-- What a call of `encode` comes to in a world in which no error has been raised. -/
theorem encode_cases (hS : S.Lawful) {w : K.World} (hw : Accounted S w) (trace : Trace)
    (writable : Bool) :
    Accounted S (encode w trace writable) ∨
      ((encode w trace writable).history = w.history ++ [.raised] ∧
        (encode w trace writable).encoder.traceCount = w.encoder.traceCount + 1 ∧
        ¬S.Quiet w.encoder.own trace) := by
  have hcount := hS.traceCount trace (counting w)
  unfold encode
  dsimp only
  rcases encodeTrace_cases hS hw trace with ⟨a, t, hx, ht⟩ | ⟨e, t, hx, he⟩
  · unfold counting at hx
    rw [hx]
    dsimp only
    split
    · exact .inl (accounted_flush hS ht writable)
    · exact .inl ht
  · unfold counting at hx hcount
    rw [hx] at hcount ⊢
    cases e with
    | overflow needed =>
      exact .inl (accounted_append hw (holds_reset hS _) (fun h => by cases h)
        fun _ _ h => by cases h)
    | raised => exact .inr ⟨rfl, hcount, he⟩

/-- A call with a trace for which no error is raised. -/
def QuietCall (S : K.Reading) (w : K.World) : K.Call → Prop
  | .encode trace _ => S.Quiet w.encoder.own trace
  | _ => True

/-- **A step** keeps the accounts, or counts a trace that it raises an error for. -/
theorem step_cases (hS : S.Lawful) {w w' : K.World} (hw : Accounted S w) {c : K.Call}
    (h : step w c = some w') :
    Accounted S w' ∨ (w'.history = w.history ++ [.raised] ∧
      w'.encoder.traceCount = w.encoder.traceCount + 1 ∧ ¬QuietCall S w c) := by
  cases c with
  | encode trace writable =>
    rw [step, some_inj] at h
    subst h
    exact encode_cases hS hw trace writable
  | flush writable =>
    rw [step, some_inj] at h
    subst h
    exact .inl (accounted_flush hS hw writable)
  | change c =>
    rw [step, some_inj] at h
    subst h
    obtain ⟨hinv, hcap, hcount, hcounted, hitems⟩ := hw.holds
    exact .inl ⟨⟨hinv, hcap, hcount, hS.counted_change c _ _ hcounted, hitems⟩, hw.sent,
      hw.notRaised⟩

/-! ## Runs -/

theorem history_flush (w : K.World) (writable : Bool) :
    w.history <+: (flush w writable).history := by
  unfold flush
  split
  · exact prefix_append _ _
  split
  · split <;> exact prefix_append _ _
  · exact prefix_refl _

/-- Nothing that was done is forgotten. -/
theorem history_step {w w' : K.World} {c : K.Call} (h : step w c = some w') :
    w.history <+: w'.history := by
  cases c with
  | encode trace writable =>
    rw [step, some_inj] at h
    subst h
    unfold encode
    dsimp only
    split
    · exact prefix_append _ _
    · exact prefix_append _ _
    · split
      · next t _ _ =>
        have hflush := history_flush (K := K)
          ⟨t, w.history ++ [.encoded w.encoder.own trace]⟩ writable
        exact (prefix_append _ _).trans hflush
      · exact prefix_append _ _
  | flush writable =>
    rw [step, some_inj] at h
    subst h
    exact history_flush w writable
  | change c =>
    rw [step, some_inj] at h
    subst h
    exact prefix_refl _

variable {calls : List K.Call} {w : K.World}

/-- No call of a run without an error raises one. -/
theorem every_notRaised (hr : Run.exec step (World.init K) calls = some w)
    (h : .raised ∉ w.history) :
    Run.Every step (fun u c => ∀ v, step u c = some v → .raised ∉ v.history) (World.init K) calls :=
  (Run.every_monotone (R := fun u v : K.World => u.history <+: v.history)
    (fun u => prefix_refl u.history) (fun _ _ _ huv hvw => huv.trans hvw)
    (fun _ _ _ => history_step) hr).imp fun _ _ hle v hv hmem => h ((hle v hv).subset hmem)

/-- What a state has to do with its queue, if it does after every reset and goes on doing so when a
trace is encoded. -/
structure Follows (J : State K.Entry K.Own → List (K.Own × Trace) → Prop) : Prop where
  init : J K.init []
  reset : ∀ s, J (K.reset s) []
  change : ∀ s q c, J s q → J { s with own := K.change c s.own } q
  encodeTrace : ∀ s q trace a t, J s q →
    K.encodeTrace trace { s with traceCount := s.traceCount + 1 } = (.ok a, t) →
      J t (q ++ [(s.own, trace)])

/-- The same of a world, and of every state that a payload was made from. -/
structure FollowedBy (J : State K.Entry K.Own → List (K.Own × Trace) → Prop) (w : K.World) :
    Prop where
  now : J w.encoder (queue w.history)
  sent : ∀ h s p h', w.history = h ++ .sent s p :: h' → J s (queue h)

section Follows

variable {J : State K.Entry K.Own → List (K.Own × Trace) → Prop}

theorem FollowedBy.append (hw : FollowedBy J w) {s : State K.Entry K.Own}
    {e : K.Event} (hs : J s (enqueue (queue w.history) e))
    (hsent : ∀ t p, e = .sent t p → J t (queue w.history)) :
    FollowedBy J ⟨s, w.history ++ [e]⟩ := by
  refine ⟨?_, ?_⟩
  · rwa [queue_append_singleton]
  · intro h t p h' heq
    rcases eq_nil_or_concat h' with rfl | ⟨l, e', rfl⟩
    · obtain ⟨rfl, he⟩ := append_inj' heq rfl
      exact hsent t p (singleton_injective he)
    · rw [concat_eq_append, ← cons_append, ← append_assoc] at heq
      exact hw.sent h t p l (append_inj' heq rfl).1

theorem FollowedBy.flush (hJ : Follows J) (hw : FollowedBy J w) (writable : Bool)
    (hraised : .raised ∉ (flush w writable).history) : FollowedBy J (flush w writable) := by
  unfold Encoder.flush at hraised ⊢
  split
  · exact hw.append (hJ.reset _) fun _ _ h => by cases h
  split
  · split
    · refine hw.append (hJ.reset _) fun t p h => ?_
      cases h
      exact hw.now
    · exact hw.append (hJ.reset _) fun _ _ h => by cases h
    · next hwritable hcount _ _ hx =>
      rw [if_neg hwritable, if_pos hcount, hx] at hraised
      exact absurd (mem_append_right _ (mem_singleton_self _)) hraised
  · exact hw

theorem FollowedBy.step (hJ : Follows J) {w' : K.World} (hw : FollowedBy J w) {c : K.Call}
    (h : step w c = some w') (hraised : .raised ∉ w'.history) : FollowedBy J w' := by
  cases c with
  | flush writable =>
    rw [Encoder.step, some_inj] at h
    subst h
    exact hw.flush hJ writable hraised
  | change c =>
    rw [Encoder.step, some_inj] at h
    subst h
    exact ⟨hJ.change _ _ c hw.now, hw.sent⟩
  | encode trace writable =>
    rw [Encoder.step, some_inj] at h
    subst h
    unfold encode at hraised ⊢
    dsimp only at hraised ⊢
    split
    · exact hw.append (hJ.reset _) fun _ _ h => by cases h
    · next hx =>
      rw [hx] at hraised
      exact absurd (mem_append_right _ (mem_singleton_self _)) hraised
    · next t hx =>
      rw [hx] at hraised
      dsimp only at hraised
      have hnext : FollowedBy J ⟨t, w.history ++ [.encoded w.encoder.own trace]⟩ :=
        hw.append (hJ.encodeTrace _ _ trace _ t hw.now hx) fun _ _ h => by cases h
      split
      · next hlimit =>
        rw [if_pos hlimit] at hraised
        exact hnext.flush hJ writable hraised
      · exact hnext

/-- **What follows the queue** does so in every run without an error. -/
theorem followedBy (hJ : Follows J) (hr : Run.exec step (World.init K) calls = some w)
    (h : .raised ∉ w.history) : FollowedBy J w := by
  refine Run.invariant (fun u c v hu hnot hstep => hu.step hJ hstep (hnot v hstep)) ⟨hJ.init, ?_⟩
    (every_notRaised hr h) hr
  intro h s p h' heq
  cases h <;> cases heq

end Follows

/-- `makePayload` up to its reset. -/
def makePayload (s : State K.Entry K.Own) : Except Failure (List UInt8) :=
  (K.assemble s.traceCount s.own s.chunks).1

/-- A payload that would be made now, or that was sent, with what was queued for it. -/
def Makes (w : K.World) (q : List (K.Own × Trace)) (p : List UInt8) : Prop :=
  (q = queue w.history ∧ makePayload w.encoder = .ok p) ∨
    ∃ h s h', w.history = h ++ .sent s p :: h' ∧ q = queue h

/-- What a payload was made from, with what follows its queue. -/
theorem Accounted.assembled_of_followedBy {J : State K.Entry K.Own → List (K.Own × Trace) → Prop}
    {p : List UInt8} (hw : Accounted S w) (hJ : FollowedBy J w)
    (hp : Makes w q p) : ∃ s, Assembled S s q p ∧ J s q := by
  rcases hp with ⟨rfl, hmake⟩ | ⟨h, s, h', heq, rfl⟩
  · exact ⟨w.encoder, ⟨hw.holds, _, Prod.ext hmake rfl⟩, hJ.now⟩
  · exact ⟨s, hw.sent h s p h' heq, hJ.sent h s p h' heq⟩

theorem Accounted.assembled {p : List UInt8} (hw : Accounted S w)
    (hp : Makes w q p) : ∃ s, Assembled S s q p := by
  obtain ⟨s, hs, -⟩ := hw.assembled_of_followedBy (J := fun _ _ => True)
    ⟨trivial, fun _ _ _ _ _ => trivial⟩ hp
  exact ⟨s, hs⟩

variable (K) in
/-- What an encoder that has written nothing does to a trace. -/
def first (trace : Trace) : Except Failure Unit × State K.Entry K.Own :=
  K.encodeTrace trace (counting (World.init K))

/-- A trace that is encoded at once, and does not fill the encoder. -/
theorem exec_first (trace : Trace) (hok : (first K trace).1.isOk = true)
    (hlimit : ((first K trace).2.chunks.traceBytes.length > K.limit ||
      (first K trace).2.chunks.strings.bytes.length > K.limit) = false) :
    Run.exec step (World.init K) [.encode trace true] =
      some ⟨(first K trace).2, [.encoded K.start trace]⟩ := by
  obtain ⟨a, ha⟩ : ∃ a, first K trace = (.ok a, (first K trace).2) := by
    cases h : (first K trace).1 with
    | error e =>
      rw [h] at hok
      cases hok
    | ok a => exact ⟨a, Prod.ext h rfl⟩
  show some (encode (World.init K) trace true) = _
  unfold first counting at ha
  unfold encode
  dsimp only
  rw [ha]
  exact congrArg some (if_neg fun h => absurd (hlimit.symm.trans h) Bool.false_ne_true)

/-- A trace that is encoded at once is all that a payload is made from. -/
theorem makes_first (trace : Trace) (hok : (first K trace).1.isOk = true)
    (hlimit : ((first K trace).2.chunks.traceBytes.length > K.limit ||
      (first K trace).2.chunks.strings.bytes.length > K.limit) = false)
    (hmake : (makePayload (first K trace).2).isOk = true) :
    ∃ w p, Run.exec step (World.init K) [.encode trace true] = some w ∧
      Makes w [(K.start, trace)] p := by
  cases hp : makePayload (first K trace).2 with
  | error e =>
    rw [hp] at hmake
    cases hmake
  | ok p => exact ⟨_, p, exec_first trace hok hlimit, .inl ⟨rfl, hp⟩⟩

/-- **Every run without an error** is accounted for. -/
theorem accounted_of_notRaised (hS : S.Lawful)
    (hr : Run.exec step (World.init K) calls = some w) (h : .raised ∉ w.history) :
    Accounted S w := by
  have hinv : Accounted S w ∨ .raised ∈ w.history := by
    refine Run.invariant (C := fun _ _ => True) (I := fun w => Accounted S w ∨ .raised ∈ w.history)
      ?_ (.inl (accounted_init hS)) (Run.every_of_forall_mem (fun _ _ _ => trivial) _) hr
    rintro w c w' (hw | hw) - hstep
    · rcases step_cases hS hw hstep with hw' | ⟨hhistory, -, -⟩
      · exact .inl hw'
      · right
        rw [hhistory]
        exact mem_append_right _ (mem_singleton_self _)
    · exact .inr ((history_step hstep).subset hw)
  exact hinv.resolve_right h

/-- **Quiet traces** raise no error. -/
theorem accounted_of_quiet (hS : S.Lawful) (hr : Run.exec step (World.init K) calls = some w)
    (hq : Run.Every step (QuietCall S) (World.init K) calls) : Accounted S w := by
  refine Run.invariant (fun w c w' hw hquiet hstep => ?_) (accounted_init hS) hq hr
  rcases step_cases hS hw hstep with hw' | ⟨-, -, hnot⟩
  · exact hw'
  · exact absurd hquiet hnot

/-! ## Overflows -/

/-- The last thing that a call did was to drop the queue for want of room. -/
def Overflows (w w' : K.World) (needed : ℕ) : Prop :=
  ∃ es, w'.history = w.history ++ es ++ [.overflowed needed]

/-- The queue is dropped for want of room only, and nothing of it is left. -/
def DropsAll (w : K.World) (c : K.Call) : Prop :=
  ∀ w' needed, step w c = some w' → Overflows w w' needed →
    w'.encoder = K.reset w.encoder ∧ MsgpackChunk.MAX_SIZE < needed

theorem eq_of_append_singleton {history before : List K.Event} {e e' : K.Event}
    (h : history ++ [e] = before ++ [e']) : e = e' :=
  singleton_injective (append_inj' h rfl).2

theorem reset_congr {t : State K.Entry K.Own} (h : K.clear s.own = K.clear t.own) :
    K.reset s = K.reset t := by
  unfold reset
  rw [h]

theorem flush_cases (hS : S.Lawful) (hw : Accounted S w) (writable : Bool) :
    flush w writable = w ∨ ∃ s e, flush w writable = ⟨K.reset s, w.history ++ [e]⟩ ∧
      s.own = w.encoder.own ∧ ∀ needed, e = .overflowed needed →
        MsgpackChunk.MAX_SIZE < needed := by
  unfold flush
  by_cases hwritable : (!writable) = true
  · rw [if_pos hwritable]
    exact .inr ⟨_, _, rfl, rfl, fun _ h => by cases h⟩
  rw [if_neg hwritable]
  by_cases hcount : w.encoder.traceCount > 0
  · rw [if_pos hcount]
    rcases (hS.assemble w.encoder _ hw.holds).cases with ⟨p, t, hx, -⟩ | ⟨e, t, hx, he⟩
    · rw [hx]
      exact .inr ⟨_, _, rfl, rfl, fun _ h => by cases h⟩
    · rw [hx]
      cases e with
      | overflow needed =>
        refine .inr ⟨_, _, rfl, rfl, fun _ h => ?_⟩
        cases h
        exact he
      | raised => exact absurd trivial he
  · rw [if_neg hcount]
    exact .inl rfl

/-- **An overflow**, in a trace or in a payload, leaves what a reset leaves. -/
theorem dropsAll (hS : S.Lawful) (hw : Accounted S w) (c : K.Call) :
    DropsAll w c := by
  rintro w' needed hstep ⟨es, hes⟩
  cases c with
  | change c =>
    rw [step, some_inj] at hstep
    subst hstep
    have hlen := congrArg List.length hes
    rw [length_append, length_append, length_singleton] at hlen
    dsimp only at hlen
    omega
  | flush writable =>
    rw [step, some_inj] at hstep
    subst hstep
    rcases flush_cases hS hw writable with heq | ⟨s, e, heq, hown, he⟩
    · have hlen := congrArg List.length hes
      rw [heq, length_append, length_append, length_singleton] at hlen
      omega
    · rw [heq] at hes ⊢
      exact ⟨reset_congr (congrArg _ hown), he needed (eq_of_append_singleton hes)⟩
  | encode trace writable =>
    rw [step, some_inj] at hstep
    subst hstep
    have hclear := hS.clear trace (counting w)
    unfold encode at hes ⊢
    dsimp only at hes ⊢
    rcases encodeTrace_cases hS hw trace with ⟨a, t, hx, ht⟩ | ⟨e, t, hx, he⟩
    · unfold counting at hx hclear
      rw [hx] at hes hclear ⊢
      dsimp only at hes hclear ⊢
      split at hes
      · next hlimit =>
        rw [if_pos hlimit]
        rcases flush_cases hS ht writable with heq | ⟨s, e, heq, hown, he⟩
        · rw [heq] at hes
          cases eq_of_append_singleton hes
        · rw [heq] at hes ⊢
          refine ⟨reset_congr ?_, he needed (eq_of_append_singleton hes)⟩
          rw [hown]
          exact hclear
      · cases eq_of_append_singleton hes
    · unfold counting at hx hclear
      rw [hx] at hes hclear ⊢
      cases e with
      | overflow n =>
        cases eq_of_append_singleton hes
        exact ⟨reset_congr hclear, he⟩
      | raised => cases eq_of_append_singleton hes

/-! ## Errors -/

/-- An error leaves the encoder as it was. -/
def RollsBack (w : K.World) (c : K.Call) : Prop :=
  ∀ w', step w c = some w' → w'.history = w.history ++ [.raised] → w'.encoder = w.encoder

/-- Every payload is one of exactly the traces that were queued. -/
def Exact (S : K.Reading) (w : K.World) : Prop :=
  ∀ h s p h', w.history = h ++ .sent s p :: h' → S.IsPayload s.own (queue h) p

theorem Accounted.exact (hS : S.Lawful) (hw : Accounted S w) : Exact S w :=
  fun h s p h' heq => (hw.sent h s p h' heq).isPayload hS

/-- **No error is ever rolled back**: the trace that raised it has been counted. -/
theorem rollsBack_iff (hS : S.Lawful) (hr : Run.exec step (World.init K) calls = some w) :
    (Run.Every step RollsBack (World.init K) calls ∧ Exact S w) ↔ .raised ∉ w.history := by
  constructor
  · rintro ⟨hback, -⟩
    have hw : Accounted S w := by
      refine Run.invariant (fun u c v hu hback hstep => ?_) (accounted_init hS) hback hr
      rcases step_cases hS hu hstep with hv | ⟨hhistory, hcount, -⟩
      · exact hv
      · rw [hback v hstep hhistory] at hcount
        omega
    exact hw.notRaised
  · intro h
    refine ⟨(every_notRaised hr h).imp fun u c hnot v hv hhistory => absurd ?_ (hnot v hv),
      (accounted_of_notRaised hS hr h).exact hS⟩
    rw [hhistory]
    exact mem_append_right _ (mem_singleton_self _)

/-- **Every overflow** in a run without an error leaves what a reset leaves. -/
theorem every_dropsAll (hS : S.Lawful) (hr : Run.exec step (World.init K) calls = some w)
    (h : .raised ∉ w.history) : Run.Every step DropsAll (World.init K) calls := by
  have hinv := (every_notRaised hr h).invariant (I := Accounted S) (fun u c v hu hnot hstep => ?_)
    (accounted_init hS)
  · exact hinv.imp fun u c hu => dropsAll hS hu c
  · rcases step_cases hS hu hstep with hv | ⟨hhistory, -, -⟩
    · exact hv
    · refine absurd ?_ (hnot v hstep)
      rw [hhistory]
      exact mem_append_right _ (mem_singleton_self _)

end Reading
end Encoder
end DdTrace.Encode
