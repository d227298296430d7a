import DdTrace.Library.JsonSyntax
import DdTrace.Library.Run
import Mathlib.Data.ENat.Basic

/-!
# The buffer in front of the debugger's requests

`debugger/devtools_client/json-buffer.js` gathers JSON texts into one array text.  The first text
opens the array and starts the timer; a later one is appended, unless the array would then be too
long, in which case what is there is sent and the text opens the next array.  When the timer expires
what is there is sent.

A run is a list of writes and expiries.  An expiry is enabled while the timer is pending, and the
timer object stays behind when it has fired: the next first write calls `refresh` on it, which
starts it again.  The two callers measure what they write, so that a write comes with the bytes of
its text.

## The argument

What the code keeps as an unfinished text is a batch of texts, of at least one, and so is each
payload.  `Reflects` names these batches for a state, and every step keeps it: a first write makes a
batch, an append adds to it, a flush moves it to the ones that were sent.  The bytes of an array add
up text by text, since no JSON text ends in half of a surrogate pair, and the `2` of the overflow
test is the comma in front of the new text and the bracket behind it.

* `exists_reflects`: the batches of every run.
* `delivers`: what this says of the payloads, and that what is buffered is sent when the timer
  expires.
-/

namespace DdTrace.Debugger.JsonBuffer

open Library Library.JsonSyntax List Option
open Library.Unicode (byteLength)

/-! ## The code -/

/-- A timeout that will expire, or one that has. -/
inductive Timer where
  | pending
  | fired
  deriving DecidableEq

/-- The fields of `JSONBuffer` that change, and what `onFlush` has been called with. -/
structure State where
  partialJson : Option Str
  timer : Option Timer
  flushed : List Str

def State.init : State := ⟨none, none, []⟩

/-- `#flush`.  The template reads `undefined` where there is no text. -/
def flush (s : State) : State :=
  { s with
    partialJson := none
    flushed := s.flushed ++ [s.partialJson.getD (lit "undefined") ++ [unit ']']] }

/-- `setTimeout`, or `refresh` of the timer that is there. -/
def startTimer : Option Timer → Option Timer
  | none => some .pending
  | some _ => some .pending

/-- `write` where there is no text yet. -/
def writeFirst (s : State) (str : Str) : State :=
  { s with partialJson := some (unit '[' :: str), timer := startTimer s.timer }

/-- `write`.  A flush leaves no text behind, so that the call of `write` that follows it is one of
`writeFirst`. -/
def write (maxSize : ℕ∞) (s : State) (str : Str) (size : ℕ) : State :=
  match s.partialJson with
  | none => writeFirst s str
  | some json =>
    if maxSize < (byteLength json + size + 2 : ℕ) then
      writeFirst (flush { s with timer := none }) str
    else { s with partialJson := some (json ++ unit ',' :: str) }

theorem write_of_none {s : State} (h : s.partialJson = none) (maxSize : ℕ∞) (str : Str)
    (size : ℕ) : write maxSize s str size = writeFirst s str := by
  unfold write
  rw [h]

theorem write_of_fits {maxSize : ℕ∞} {s : State} {json : Str} (h : s.partialJson = some json)
    {str : Str} {size : ℕ} (hfits : ¬ maxSize < (byteLength json + size + 2 : ℕ)) :
    write maxSize s str size = { s with partialJson := some (json ++ unit ',' :: str) } := by
  unfold write
  rw [h]
  exact if_neg hfits

/-- The write that does not fit is made again once the buffer has been flushed. -/
theorem write_overflow {maxSize : ℕ∞} {s : State} {json : Str} (h : s.partialJson = some json)
    {str : Str} {size : ℕ} (hlong : maxSize < (byteLength json + size + 2 : ℕ)) :
    write maxSize s str size = write maxSize (flush { s with timer := none }) str size := by
  unfold write
  rw [h]
  exact if_pos hlong

inductive Action where
  | write (message : Document)
  | expire

def step (maxSize : ℕ∞) (s : State) : Action → Option State
  | .write message => some (write maxSize s message.text (byteLength message.text))
  | .expire =>
    if s.timer = some .pending then some (flush { s with timer := some .fired }) else none

/-- The texts that were written. -/
def accepted (as : List Action) : List Document :=
  as.filterMap fun
    | .write message => some message
    | .expire => none

/-! ## Batches -/

/-- The texts of one array, of at least one. -/
structure Batch where
  first : Document
  rest : List Document

namespace Batch

def messages (b : Batch) : List Document := b.first :: b.rest

/-- The array that holds them. -/
def payload (b : Batch) : Document := b.first.array b.rest

/-- The text of the array up to its last bracket. -/
def opened (b : Batch) : Str := unit '[' :: Str.join (unit ',') (b.messages.map Document.text)

def add (b : Batch) (message : Document) : Batch := ⟨b.first, b.rest ++ [message]⟩

variable (b : Batch)

theorem opened_append : b.opened ++ [unit ']'] = b.payload.text :=
  (b.first.text_array b.rest).symm

theorem opened_singleton (message : Document) :
    unit '[' :: message.text = opened ⟨message, []⟩ := by
  rw [opened, messages, map_singleton, Str.join_singleton]

theorem opened_add (message : Document) :
    b.opened ++ unit ',' :: message.text = (b.add message).opened := by
  have hne : b.messages.map Document.text ≠ [] := cons_ne_nil _ _
  have hmessages : (b.add message).messages = b.messages ++ [message] := rfl
  rw [opened, opened, hmessages, map_append, map_singleton, Str.join_concat _ hne]
  rfl

theorem isHigh_opened : ∀ u ∈ b.opened.getLast?, Unicode.isHigh u = false := by
  have hlast : ∀ (v : Document) (vs : List Document),
      ∀ u ∈ (Str.join (unit ',') ((v :: vs).map Document.text)).getLast?,
        Unicode.isHigh u = false := by
    intro v vs
    rw [← v.text_elements vs]
    exact Forest.isHigh_render _
  exact Forest.isHigh_append (s := [unit '[']) (Forest.isHigh_concat [] (by decide))
    (hlast b.first b.rest)

/-- One bracket more. -/
theorem byteLength_payload :
    byteLength b.payload.text = byteLength b.opened + 1 := by
  rw [← opened_append, Unicode.byteLength_append b.isHigh_opened]
  rfl

/-- A comma and the text more. -/
theorem byteLength_opened_add (message : Document) :
    byteLength (b.add message).opened = byteLength b.opened + (1 + byteLength message.text) := by
  have hcomma : byteLength (unit ',' :: message.text) = 1 + byteLength message.text :=
    Unicode.byteLength_append (s := [unit ',']) (Forest.isHigh_concat [] (by decide)) _
  rw [← opened_add, Unicode.byteLength_append b.isHigh_opened, hcomma]

/-- The array is no longer than the configured size, or it holds one text only. -/
def Fits (maxSize : ℕ∞) (b : Batch) : Prop :=
  (byteLength b.payload.text : ℕ∞) ≤ maxSize ∨ b.rest = []

end Batch

/-! ## The batches of a run -/

/-- The state as batches: the ones that were sent, and the one that is buffered. -/
structure Reflects (maxSize : ℕ∞) (messages : List Document) (s : State) (sent : List Batch)
    (buffered : Option Batch) : Prop where
  /-- Each text that was written is in one batch, and they are in order. -/
  once : sent.flatMap Batch.messages ++ buffered.elim [] Batch.messages = messages
  /-- The payloads are the JSON texts of the arrays. -/
  flushed : s.flushed = sent.map fun b => b.payload.text
  fits : ∀ b ∈ sent, b.Fits maxSize
  partialJson : s.partialJson = buffered.map Batch.opened
  fitsBuffered : ∀ b ∈ buffered, b.Fits maxSize
  /-- The timer is pending just while something is buffered. -/
  pending : s.timer = some .pending ↔ buffered.isSome = true

variable {maxSize : ℕ∞} {messages : List Document} {s : State} {sent : List Batch}
  {buffered : Option Batch}

theorem Reflects.init (maxSize : ℕ∞) : Reflects maxSize [] .init [] none where
  once := rfl
  flushed := rfl
  fits := fun _ h => absurd h not_mem_nil
  partialJson := rfl
  fitsBuffered := fun _ h => absurd h (not_mem_none _)
  pending := ⟨fun h => absurd h.symm (some_ne_none _), fun h => absurd h Bool.false_ne_true⟩

/-- What a flush does to the batches, whatever the timer becomes. -/
theorem Reflects.flush {b : Batch} (h : Reflects maxSize messages s sent (some b))
    {timer : Option Timer} (htimer : timer ≠ some .pending) :
    Reflects maxSize messages (flush { s with timer := timer }) (sent ++ [b]) none where
  once := by
    rw [← h.once, flatMap_append, flatMap_singleton]
    exact append_nil _
  flushed := by
    have hbegun : s.partialJson = some b.opened := h.partialJson
    simp only [JsonBuffer.flush]
    rw [hbegun, getD_some, b.opened_append, h.flushed, map_append, map_singleton]
  fits := by
    intro c hc
    rcases mem_append.mp hc with hc | hc
    · exact h.fits c hc
    · rw [mem_singleton.mp hc]
      exact h.fitsBuffered b rfl
  partialJson := rfl
  fitsBuffered := fun _ h => absurd h (not_mem_none _)
  pending := ⟨fun h => absurd h htimer, fun h => absurd h Bool.false_ne_true⟩

theorem startTimer_eq (timer : Option Timer) : startTimer timer = some .pending := by
  cases timer <;> rfl

theorem Reflects.writeFirst (h : Reflects maxSize messages s sent none) (message : Document) :
    Reflects maxSize (messages ++ [message]) (writeFirst s message.text) sent
      (some ⟨message, []⟩) where
  once := by
    rw [← h.once]
    exact congrArg (· ++ [message]) (append_nil _).symm
  flushed := h.flushed
  fits := h.fits
  partialJson := congrArg some (Batch.opened_singleton message)
  fitsBuffered := by
    intro b hb
    rw [← some.inj hb]
    exact .inr rfl
  pending := ⟨fun _ => rfl, fun _ => startTimer_eq s.timer⟩

/-- An append that fits. -/
theorem Reflects.append {b : Batch} (h : Reflects maxSize messages s sent (some b))
    {message : Document}
    (hfits : ¬ maxSize < (byteLength b.opened + byteLength message.text + 2 : ℕ)) :
    Reflects maxSize (messages ++ [message])
      { s with partialJson := some (b.opened ++ unit ',' :: message.text) } sent
      (some (b.add message)) where
  once := by
    rw [← h.once, append_assoc]
    rfl
  flushed := h.flushed
  fits := h.fits
  partialJson := congrArg some (b.opened_add message)
  fitsBuffered := by
    intro c hc
    rw [← some.inj hc]
    -- The comma and the bracket are the `2` of the test.
    have hlength : byteLength (b.add message).payload.text =
        byteLength b.opened + byteLength message.text + 2 := by
      rw [Batch.byteLength_payload, Batch.byteLength_opened_add]
      omega
    refine .inl ?_
    rw [hlength]
    exact not_lt.mp hfits
  pending := h.pending

/-- **A write.**  On each of its paths the text joins the batches as the last one. -/
theorem Reflects.write (h : Reflects maxSize messages s sent buffered) (message : Document) :
    ∃ sent' buffered', Reflects maxSize (messages ++ [message])
      (write maxSize s message.text (byteLength message.text)) sent' buffered' := by
  have hbegun := h.partialJson
  rcases buffered with _ | b
  · refine ⟨sent, some ⟨message, []⟩, ?_⟩
    rw [write_of_none hbegun]
    exact h.writeFirst message
  · by_cases hlong : maxSize < (byteLength b.opened + byteLength message.text + 2 : ℕ)
    · refine ⟨sent ++ [b], some ⟨message, []⟩, ?_⟩
      rw [write_overflow hbegun hlong]
      exact (@Reflects.flush _ _ _ _ _ h none (some_ne_none _).symm).writeFirst message
    · refine ⟨sent, some (b.add message), ?_⟩
      rw [write_of_fits hbegun hlong]
      exact h.append hlong

/-- **An expiry.**  It is enabled while something is buffered, and sends it. -/
theorem Reflects.expire {b : Batch} (h : Reflects maxSize messages s sent (some b)) :
    ∃ t, step maxSize s .expire = some t ∧ Reflects maxSize messages t (sent ++ [b]) none := by
  have hpending : s.timer = some .pending := h.pending.mpr rfl
  refine ⟨_, if_pos hpending, ?_⟩
  exact h.flush (by decide)

theorem accepted_concat_write (as : List Action) (message : Document) :
    accepted (as ++ [.write message]) = accepted as ++ [message] :=
  filterMap_append

theorem accepted_concat_expire (as : List Action) : accepted (as ++ [.expire]) = accepted as := by
  rw [accepted, filterMap_append]
  exact append_nil _

/-- The batches of every run. -/
theorem exists_reflects {as : List Action} (hrun : Run.exec (step maxSize) .init as = some s) :
    ∃ sent buffered, Reflects maxSize (accepted as) s sent buffered := by
  refine Run.invariant_history (C := fun _ _ => True)
    (I := fun as s => ∃ sent buffered, Reflects maxSize (accepted as) s sent buffered)
    ?_ ⟨[], none, .init maxSize⟩ (Run.every_of_forall_mem (fun _ _ _ => trivial) _) hrun
  rintro as s a t ⟨sent, buffered, h⟩ - hstep
  cases a with
  | write message =>
    rw [accepted_concat_write, ← some.inj hstep]
    exact h.write message
  | expire =>
    rw [accepted_concat_expire]
    rcases buffered with _ | b
    · have hidle : s.timer ≠ some .pending := fun hp => Bool.false_ne_true (h.pending.mp hp)
      exact absurd hstep (by simp [step, hidle])
    · obtain ⟨u, hu, hreflects⟩ := h.expire
      obtain rfl : u = t := some.inj (hu.symm.trans hstep)
      exact ⟨sent ++ [b], none, hreflects⟩

/-- **The buffer delivers.**  In every state of every run the texts that were written are, each
once and in order, those of the payloads that were sent and then those of the buffer.  A payload is
the JSON array of its texts, and it is no longer than the configured size unless it holds one text
only.  Something is buffered just while the timer is pending, and then the expiry sends it. -/
theorem delivers {as : List Action} (hrun : Run.exec (step maxSize) .init as = some s) :
    ∃ sent buffered, Reflects maxSize (accepted as) s sent buffered ∧
      ∀ b ∈ buffered, ∃ t, step maxSize s .expire = some t ∧
        Reflects maxSize (accepted as) t (sent ++ [b]) none := by
  obtain ⟨sent, buffered, h⟩ := exists_reflects hrun
  refine ⟨sent, buffered, h, ?_⟩
  intro b hb
  obtain rfl : buffered = some b := hb
  exact h.expire

/-- The text `true`. -/
def trueText : Document := ⟨[], .literal .true, []⟩

/-- Two texts of four bytes where a payload may have six: an array of one of them has six. -/
theorem delivers_trueText : ∃ sent buffered, Reflects 6 [trueText, trueText]
      ⟨some (lit "[true"), some .pending, [lit "[true]"]⟩ sent buffered ∧
      ∀ b ∈ buffered, ∃ t,
        step 6 ⟨some (lit "[true"), some .pending, [lit "[true]"]⟩ .expire = some t ∧
          Reflects 6 [trueText, trueText] t (sent ++ [b]) none :=
  @delivers 6 _ [.write trueText, .write trueText] (by rfl)

/-- A payload of one text can be longer than the configured size although the text is not: with
its brackets `true` has six bytes, and four are configured. -/
theorem not_single_longer : ¬ ∀ (maxSize : ℕ∞) (as : List Action) (s : State),
      Run.exec (step maxSize) .init as = some s → ∀ p ∈ s.flushed, (byteLength p : ℕ∞) ≤ maxSize ∨
          ∃ message : Document, p = (message.array []).text ∧
            maxSize < (byteLength message.text : ℕ) := by
  intro h
  have hlength : byteLength (lit "[true]") = 6 := by decide
  have hpayload : ∀ message : Document,
      byteLength (message.array []).text = byteLength message.text + 2 := by
    intro message
    have hopened : byteLength (Batch.opened ⟨message, []⟩) = 1 + byteLength message.text := by
      rw [← Batch.opened_singleton]
      exact Unicode.byteLength_append (s := [unit '[']) (Forest.isHigh_concat [] (by decide)) _
    have hbracket : byteLength (message.array []).text =
        byteLength (Batch.opened ⟨message, []⟩) + 1 := Batch.byteLength_payload ⟨message, []⟩
    omega
  have hsent := h 4 [.write trueText, .expire] ⟨none, some .fired, [lit "[true]"]⟩ (by rfl)
    (lit "[true]") (mem_singleton.mpr rfl)
  rcases hsent with hshort | ⟨message, htext, hlong⟩
  · exact absurd hshort (by decide)
  · have hsix : byteLength message.text + 2 = 6 := by
      rw [← hpayload, ← htext, hlength]
    have hfour : byteLength message.text = 4 := by omega
    rw [hfour] at hlong
    exact absurd hlong (by decide)

end DdTrace.Debugger.JsonBuffer
