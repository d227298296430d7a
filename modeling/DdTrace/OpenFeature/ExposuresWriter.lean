import DdTrace.Library.JsonBytes
import DdTrace.Library.Run

/-!
# The exposure events of the feature flags

`openfeature/writers/base.js` buffers events and sends them in batches along a route that can
change: a request that the local route rejects, or that fails in a way that leaves open whether it
arrived, is sent again along the fallback route, which then is the active one.
`openfeature/writers/exposures.js` holds events back until it is enabled, and gives them their form
when a batch is encoded.  `ExposuresWriter.step` is a call or the end of a request, in any order.

The size that decides about an early flush is the sum of the JSON of the events as they were
appended.  The batch holds them in their new form, with commas, and with the context in front.

* `Delivery`: what a writer does; `Admissible`, what may be done after what was done before.
* `byteLength_payload`: the bytes of a batch, event by event.
* `inv_append`, `inv_flush`, `inv_complete`: each call and each end of a request.
* `batches_of_run`: **in every run whose flushes have room for their events as they are encoded,
  every event is dropped and counted, waits, or is in one batch; a batch goes to the active route
  and at most once more, to its fallback, after a failure; and no batch exceeds the limit**.
-/

namespace DdTrace.OpenFeature

open Library Unicode List

/-! ## The payload -/

/-- 5MB -/
def EVP_PAYLOAD_SIZE_LIMIT : ℕ := 5 <<< 20

/-- 999KB -/
def EVP_EVENT_SIZE_LIMIT : ℕ := (1 <<< 20) - 1024

def BUFFER_LIMIT : ℕ := 1000

def PENDING_MAX_EVENTS : ℕ := 1000

/-- An event: the members of an object. -/
abbrev ExposureEvent := List (Str × Json)

/-- A value counts as `true`. -/
def truthy : Option Json → Bool
  | some (.bool b) => b
  | some (.num n) => n.text != lit "0"
  | some (.str s) => !s.isEmpty
  | some (.arr _) | some (.obj _) => true
  | some .null | none => false

/-- `a || b` -/
def orElse (a b : Option Json) : Option Json := if truthy a then a else b

/-- `value?.key` -/
def optional (key : Str) : Option Json → Option Json
  | some (.obj members) => Json.member key members
  | _ => none

/-- A property of an object literal.  `JSON.stringify` leaves out what is undefined. -/
def field (key : Str) : Option Json → List (Str × Json)
  | some value => [(key, value)]
  | none => []

/-- What `makePayload` makes of an event. -/
def formatEvent (now : Numeral) (event : ExposureEvent) : Json :=
  let get key := Json.member key event
  let subject := get (lit "subject")
  .obj (field (lit "timestamp") (orElse (get (lit "timestamp")) (some (.num now))) ++
    [(lit "allocation", .obj (field (lit "key")
      (orElse (optional (lit "key") (get (lit "allocation"))) (get (lit "allocation.key"))))),
    (lit "flag", .obj (field (lit "key")
      (orElse (optional (lit "key") (get (lit "flag"))) (get (lit "flag.key"))))),
    (lit "variant", .obj (field (lit "key")
      (orElse (optional (lit "key") (get (lit "variant"))) (get (lit "variant.key"))))),
    (lit "subject", .obj (field (lit "id")
      (orElse (optional (lit "id") subject) (get (lit "subject.id"))) ++
      field (lit "type") (optional (lit "type") subject) ++
      field (lit "attributes") (optional (lit "attributes") subject)))])

def makePayload (context : Json) (now : Numeral) (events : List ExposureEvent) : Json :=
  .obj [(lit "context", context), (lit "exposures", .arr (events.map (formatEvent now)))]

/-- `Buffer.byteLength(JSON.stringify(event))` -/
def eventSize (event : ExposureEvent) : ℕ := byteLength (Json.obj event).stringify

/-! ## The writer -/

/-- The end of a request: the code of its error, and the status. -/
structure Outcome where
  code : Option Str
  statusCode : Option ℕ

def isDefinitiveRejection (outcome : Outcome) : Bool :=
  includes [some (lit "EAI_AGAIN"), some (lit "ECONNREFUSED"), some (lit "ENOENT"),
    some (lit "ENOTFOUND")] outcome.code ||
    includes [some 403, some 404, some 405] outcome.statusCode

def isAmbiguousNetworkFailure (outcome : Outcome) : Bool :=
  includes [some (lit "ECONNRESET"), some (lit "EPIPE"), some (lit "ETIMEDOUT")] outcome.code

/-- A request in flight, with what its callback has captured. -/
structure Sending (ρ : Type*) where
  batch : ℕ
  payload : Str
  route : ρ
  fallbackRoute : Option ρ

/-- What the writer does: it takes new routes, sends a batch of events, learns how a request of a
batch has ended, and sends a batch again. -/
inductive Delivery (ρ : Type*) where
  | routes (route : ρ) (fallbackRoute : Option ρ)
  | flushed (batch : ℕ) (events : List ExposureEvent) (payload : Str) (route : ρ)
      (fallbackRoute : Option ρ)
  | completed (batch : ℕ) (outcome : Outcome)
  | resent (batch : ℕ) (payload : Str) (route : ρ)

/-- The state of the writer, the requests in flight, how many batches there were, what was done (the
last first), and the events that were appended. -/
structure ExposuresWriter (ρ : Type*) where
  route : ρ
  fallbackRoute : Option ρ
  enabled : Bool := false
  pendingEvents : List ExposureEvent := []
  buffer : List ExposureEvent := []
  bufferSize : ℕ := 0
  droppedEvents : ℕ := 0
  sending : List (Sending ρ) := []
  batches : ℕ := 0
  log : List (Delivery ρ) := []
  appended : List ExposureEvent := []

namespace ExposuresWriter

variable {ρ : Type*}

/-- `flush` of the base class. -/
def flushBase (context : Json) (now : Numeral) (w : ExposuresWriter ρ) : ExposuresWriter ρ :=
  if w.buffer.isEmpty then w
  else
    let payload := (makePayload context now w.buffer).stringify
    { w with
      buffer := []
      bufferSize := 0
      sending := ⟨w.batches, payload, w.route, w.fallbackRoute⟩ :: w.sending
      batches := w.batches + 1
      log := .flushed w.batches w.buffer payload w.route w.fallbackRoute :: w.log }

def flush (context : Json) (now : Numeral) (w : ExposuresWriter ρ) : ExposuresWriter ρ :=
  if w.enabled then w.flushBase context now else w

/-- The body of the loop of `append` of the base class. -/
def appendEvent (context : Json) (now : Numeral) (w : ExposuresWriter ρ) (event : ExposureEvent) :
    ExposuresWriter ρ :=
  if BUFFER_LIMIT ≤ w.buffer.length then { w with droppedEvents := w.droppedEvents + 1 }
  else if EVP_EVENT_SIZE_LIMIT < eventSize event then
    { w with droppedEvents := w.droppedEvents + 1 }
  else
    let w := if EVP_PAYLOAD_SIZE_LIMIT < w.bufferSize + eventSize event then w.flush context now
      else w
    { w with bufferSize := w.bufferSize + eventSize event, buffer := w.buffer ++ [event] }

def appendBase (context : Json) (now : Numeral) (w : ExposuresWriter ρ)
    (events : List ExposureEvent) : ExposuresWriter ρ :=
  events.foldl (appendEvent context now) w

/-- `append` -/
def append (context : Json) (now : Numeral) (w : ExposuresWriter ρ) (events : List ExposureEvent) :
    ExposuresWriter ρ :=
  if w.enabled then w.appendBase context now events
  else
    let pending := w.pendingEvents ++ events
    { w with
      pendingEvents := pending.drop (pending.length - PENDING_MAX_EVENTS)
      droppedEvents := w.droppedEvents + (pending.length - PENDING_MAX_EVENTS) }

/-- `_setRoutes` -/
def setRoutes (w : ExposuresWriter ρ) (route : ρ) (fallbackRoute : Option ρ) : ExposuresWriter ρ :=
  { w with
    route := route
    fallbackRoute := fallbackRoute
    log := .routes route fallbackRoute :: w.log }

/-- `setEnabled` up to the events that wait. -/
def enable (w : ExposuresWriter ρ) (enabled : Bool) (route : Option (ρ × Option ρ)) :
    ExposuresWriter ρ :=
  match route with
  | some (route, fallbackRoute) => { w.setRoutes route fallbackRoute with enabled := enabled }
  | none => { w with enabled := enabled }

/-- `setEnabled` -/
def setEnabled (context : Json) (now : Numeral) (w : ExposuresWriter ρ) (enabled : Bool)
    (route : Option (ρ × Option ρ)) : ExposuresWriter ρ :=
  let w := w.enable enabled route
  if enabled && !w.pendingEvents.isEmpty then
    { w.appendBase context now w.pendingEvents with pendingEvents := [] }
  else w

/-- The callback of a request. -/
def complete (w : ExposuresWriter ρ) (sending : Sending ρ) (outcome : Outcome) :
    ExposuresWriter ρ :=
  let w := { w with log := .completed sending.batch outcome :: w.log }
  match sending.fallbackRoute with
  | some fallbackRoute =>
    if isDefinitiveRejection outcome || isAmbiguousNetworkFailure outcome then
      { w with
        route := fallbackRoute
        fallbackRoute := none
        sending := ⟨sending.batch, sending.payload, fallbackRoute, none⟩ :: w.sending
        log := .resent sending.batch sending.payload fallbackRoute :: w.log }
    else w
  | none => w

end ExposuresWriter

/-- A call, at a time, or the end of one of the requests in flight. -/
inductive ExposuresEvent (ρ : Type*) where
  | append (now : Numeral) (events : List ExposureEvent)
  | flush (now : Numeral)
  | setEnabled (now : Numeral) (enabled : Bool) (route : Option (ρ × Option ρ))
  | complete (i : ℕ) (outcome : Outcome)

def ExposuresWriter.step {ρ : Type*} (context : Json) (w : ExposuresWriter ρ) :
    ExposuresEvent ρ → Option (ExposuresWriter ρ)
  | .append now events => some { w.append context now events with appended := w.appended ++ events }
  | .flush now => some (w.flush context now)
  | .setEnabled now enabled route => some (w.setEnabled context now enabled route)
  | .complete i outcome => (w.sending[i]?).map fun sending =>
      { w with sending := w.sending.eraseIdx i }.complete sending outcome

/-! ## The bytes of a batch -/

/-- The bytes that a batch takes, from those of its events as they are encoded. -/
def payloadBytes (context : Json) (now : Numeral) (events : List ExposureEvent) : ℕ :=
  byteLength context.stringify + 27 +
    Json.joinedBytes (events.map fun event => byteLength (formatEvent now event).stringify)

theorem byteLength_payload (context : Json) (now : Numeral) (events : List ExposureEvent) :
    byteLength (makePayload context now events).stringify = payloadBytes context now events := by
  have hhead : Json.Closed (lit "\x7b\"context\":") :=
    Json.closed_concat (lit "\x7b\"context\"") (by decide) (by decide)
  have hmiddle : Json.Closed (lit ",\"exposures\":") :=
    Json.closed_concat (lit ",\"exposures\"") (by decide) (by decide)
  have hquote : lit "\x7b" ++ (quote (lit "context") ++ lit ":") = lit "\x7b\"context\":" ∧
      lit "," ++ (quote (lit "exposures") ++ lit ":") = lit ",\"exposures\":" := by decide
  have hbytes : byteLength (lit "\x7b\"context\":") = 11 ∧
      byteLength (lit ",\"exposures\":") = 13 ∧ byteLength (lit "\x7d") = 1 := by decide
  have htext : (makePayload context now events).stringify = lit "\x7b\"context\":" ++
      (context.stringify ++ (lit ",\"exposures\":" ++
        ((Json.arr (events.map (formatEvent now))).stringify ++ lit "\x7d"))) := by
    rw [← hquote.1, ← hquote.2]
    simp only [makePayload, Json.stringify, Json.stringifyMembers, append_assoc]
  rw [htext, Json.byteLength_append hhead, Json.byteLength_append (Json.closed_stringify context),
    Json.byteLength_append hmiddle, Json.byteLength_stringify_arr, map_map, payloadBytes]
  show 11 + (_ + (13 + (2 + Json.joinedBytes (events.map fun event =>
    byteLength (formatEvent now event).stringify) + 1))) = _
  omega

/-! ## What is asked of a run -/

section Spec

variable {ρ : Type*} (route : ρ) (fallbackRoute : Option ρ)

/-- The route that was made active last. -/
def activeRoute : List (Delivery ρ) → ρ
  | [] => route
  | .routes route _ :: _ | .resent _ _ route :: _ => route
  | .flushed _ _ _ _ _ :: before | .completed _ _ :: before => activeRoute before

/-- The fallback of the active route. -/
def activeFallback : List (Delivery ρ) → Option ρ
  | [] => fallbackRoute
  | .routes _ fallbackRoute :: _ => fallbackRoute
  | .resent _ _ _ :: _ => none
  | .flushed _ _ _ _ _ :: before | .completed _ _ :: before => activeFallback before

/-- What may be done after what was done before.  A batch is new and is sent along the active route.
It is sent again when its request has just failed, along the fallback that its first route had, and
never a second time. -/
def Admissible (before : List (Delivery ρ)) : Delivery ρ → Prop
  | .flushed batch _ _ r f =>
      r = activeRoute route before ∧ f = activeFallback fallbackRoute before ∧
      ∀ events payload r' f', Delivery.flushed batch events payload r' f' ∉ before
  | .resent batch payload r => ∃ outcome rest, before = .completed batch outcome :: rest ∧
      (isDefinitiveRejection outcome = true ∨ isAmbiguousNetworkFailure outcome = true) ∧
      (∃ events first, Delivery.flushed batch events payload first (some r) ∈ rest) ∧
      ∀ payload' r', Delivery.resent batch payload' r' ∉ rest
  | .routes _ _ | .completed _ _ => True

/-- The events of the batches. -/
def batchedEvents : List (Delivery ρ) → List ExposureEvent
  | [] => []
  | .flushed _ events _ _ _ :: before => batchedEvents before ++ events
  | .routes _ _ :: before | .completed _ _ :: before | .resent _ _ _ :: before =>
    batchedEvents before

end Spec

namespace ExposuresWriter

variable {ρ : Type*}

/-- The events are dropped and counted, in a batch, in the buffer, or still to be appended. -/
def Kept (w : ExposuresWriter ρ) (rest appended : List ExposureEvent) : Prop :=
  ∃ dropped : List ExposureEvent, dropped.length = w.droppedEvents ∧
    (dropped ++ (batchedEvents w.log ++ (w.buffer ++ rest))).Perm appended

/-- Every event that was appended is dropped and counted, in one batch, or waits; the batches go
their ways; and each is the encoding of its events, within the limit. -/
structure Delivered (context : Json) (route : ρ) (fallbackRoute : Option ρ)
    (w : ExposuresWriter ρ) : Prop where
  kept : w.Kept w.pendingEvents w.appended
  admissible : ∀ after e before, w.log = after ++ e :: before →
    Admissible route fallbackRoute before e
  within : ∀ batch events payload r f, Delivery.flushed batch events payload r f ∈ w.log →
    (∃ now, payload = (makePayload context now events).stringify) ∧
      byteLength payload ≤ EVP_PAYLOAD_SIZE_LIMIT

/-- A flush at a time has room for its events as they are encoded. -/
def FlushFits (context : Json) (now : Numeral) (w : ExposuresWriter ρ) : Prop :=
  w.enabled = true → w.buffer ≠ [] → payloadBytes context now w.buffer ≤ EVP_PAYLOAD_SIZE_LIMIT

/-- The flush that an event causes has room. -/
def EventFits (context : Json) (now : Numeral) (w : ExposuresWriter ρ) (event : ExposureEvent) :
    Prop :=
  w.buffer.length < BUFFER_LIMIT → eventSize event ≤ EVP_EVENT_SIZE_LIMIT →
    EVP_PAYLOAD_SIZE_LIMIT < w.bufferSize + eventSize event → w.FlushFits context now

/-- So has every flush of the events, one after the other. -/
def EventsFit (context : Json) (now : Numeral) (w : ExposuresWriter ρ)
    (events : List ExposureEvent) : Prop :=
  Run.Every (fun w event => some (appendEvent context now w event)) (EventFits context now) w events

/-- Every flush of the call has room. -/
def Fits (context : Json) (w : ExposuresWriter ρ) : ExposuresEvent ρ → Prop
  | .append now events => w.enabled = true → w.EventsFit context now events
  | .flush now => w.FlushFits context now
  | .setEnabled now enabled route => enabled = true →
      (w.enable enabled route).EventsFit context now w.pendingEvents
  | .complete _ _ => True

/-! ## The invariant -/

structure Inv (context : Json) (route : ρ) (fallbackRoute : Option ρ) (w : ExposuresWriter ρ) :
    Prop where
  admissible : ∀ after e before, w.log = after ++ e :: before →
    Admissible route fallbackRoute before e
  within : ∀ batch events payload r f, Delivery.flushed batch events payload r f ∈ w.log →
    (∃ now, payload = (makePayload context now events).stringify) ∧
      byteLength payload ≤ EVP_PAYLOAD_SIZE_LIMIT
  active : w.route = activeRoute route w.log
  fallback : w.fallbackRoute = activeFallback fallbackRoute w.log
  fresh : ∀ batch events payload r f, Delivery.flushed batch events payload r f ∈ w.log →
    batch < w.batches
  old : ∀ s ∈ w.sending, s.batch < w.batches
  nodup : (w.sending.map Sending.batch).Nodup
  first : ∀ s ∈ w.sending, ∀ r, s.fallbackRoute = some r →
    (∃ events first, Delivery.flushed s.batch events s.payload first (some r) ∈ w.log) ∧
      ∀ payload r', Delivery.resent s.batch payload r' ∉ w.log
  resent : ∀ batch payload r, Delivery.resent batch payload r ∈ w.log → batch < w.batches

end ExposuresWriter

/-! ## Batches -/

namespace ExposuresWriter

variable {ρ : Type*} {context : Json} {route : ρ} {fallbackRoute : Option ρ}
  {w : ExposuresWriter ρ}

/-- What is asked of a log is asked of each thing that was done, when it was done. -/
theorem admissible_cons {e : Delivery ρ} {log : List (Delivery ρ)}
    (he : Admissible route fallbackRoute log e)
    (h : ∀ after e before, log = after ++ e :: before → Admissible route fallbackRoute before e) :
    ∀ after e' before, e :: log = after ++ e' :: before →
      Admissible route fallbackRoute before e' := by
  intro after e' before hlog
  cases after with
  | nil =>
    obtain ⟨rfl, rfl⟩ := List.cons.inj hlog
    exact he
  | cons x after => exact h after e' before (List.cons.inj hlog).2

variable {rest appended : List ExposureEvent} {now : Numeral} {event : ExposureEvent}

/-- **The step of a flush.** -/
theorem inv_flushBase (h : w.Inv context route fallbackRoute)
    (hfits : w.buffer ≠ [] → payloadBytes context now w.buffer ≤ EVP_PAYLOAD_SIZE_LIMIT) :
    (w.flushBase context now).Inv context route fallbackRoute := by
  unfold flushBase
  by_cases hempty : w.buffer.isEmpty = true
  · rwa [if_pos hempty]
  · have hne : w.buffer ≠ [] := fun hnil => hempty (List.isEmpty_iff.mpr hnil)
    rw [if_neg hempty]
    refine ⟨admissible_cons ⟨h.active, h.fallback, ?_⟩ h.admissible, ?_, h.active, h.fallback,
      ?_, ?_, ?_, ?_, ?_⟩
    · intro events payload r f hmem
      exact Nat.lt_irrefl _ (h.fresh _ _ _ _ _ hmem)
    · intro batch events payload r f hmem
      rcases mem_cons.mp hmem with heq | hmem
      · cases heq
        refine ⟨⟨now, rfl⟩, ?_⟩
        rw [byteLength_payload]
        exact hfits hne
      · exact h.within _ _ _ _ _ hmem
    · intro batch events payload r f hmem
      rcases mem_cons.mp hmem with heq | hmem
      · cases heq
        exact Nat.lt_succ_self _
      · exact Nat.lt_succ_of_lt (h.fresh _ _ _ _ _ hmem)
    · intro s hs
      rcases mem_cons.mp hs with rfl | hs
      · exact Nat.lt_succ_self _
      · exact Nat.lt_succ_of_lt (h.old s hs)
    · rw [map_cons, nodup_cons]
      refine ⟨fun hmem => ?_, h.nodup⟩
      obtain ⟨s, hs, hbatch⟩ := mem_map.mp hmem
      exact Nat.ne_of_lt (h.old s hs) hbatch
    · intro s hs r hr
      rcases mem_cons.mp hs with rfl | hs
      · refine ⟨⟨w.buffer, w.route, ?_⟩, fun payload r' hmem => ?_⟩
        · have hfallback : w.fallbackRoute = some r := hr
          rw [hfallback]
          exact mem_cons_self
        · rcases mem_cons.mp hmem with heq | hmem
          · cases heq
          · exact Nat.lt_irrefl _ (h.resent _ _ _ hmem)
      · obtain ⟨⟨events, first, hfirst⟩, hnone⟩ := h.first s hs r hr
        refine ⟨⟨events, first, mem_cons_of_mem _ hfirst⟩, fun payload r' hmem => ?_⟩
        rcases mem_cons.mp hmem with heq | hmem
        · cases heq
        · exact hnone _ _ hmem
    · intro batch payload r hmem
      rcases mem_cons.mp hmem with heq | hmem
      · cases heq
      · exact Nat.lt_succ_of_lt (h.resent _ _ _ hmem)

theorem kept_flushBase (h : w.Kept rest appended)
    (now : Numeral) : (w.flushBase context now).Kept rest appended := by
  unfold flushBase
  by_cases hempty : w.buffer.isEmpty = true
  · rwa [if_pos hempty]
  · rw [if_neg hempty]
    obtain ⟨dropped, hlength, hperm⟩ := h
    refine ⟨dropped, hlength, ?_⟩
    rw [batchedEvents, append_assoc]
    exact hperm

theorem inv_flush (h : w.Inv context route fallbackRoute) (hfits : w.FlushFits context now) :
    (w.flush context now).Inv context route fallbackRoute := by
  unfold flush
  by_cases henabled : w.enabled = true
  · rw [if_pos henabled]
    exact inv_flushBase h (hfits henabled)
  · rwa [if_neg henabled]

theorem kept_flush (h : w.Kept rest appended) (now : Numeral) :
    (w.flush context now).Kept rest appended := by
  unfold flush
  split
  · exact kept_flushBase h now
  · exact h

/-- What changes neither the requests nor what was done keeps the invariant. -/
theorem inv_congr {w' : ExposuresWriter ρ} (h : w.Inv context route fallbackRoute)
    (hroute : w'.route = w.route) (hfallback : w'.fallbackRoute = w.fallbackRoute)
    (hsending : w'.sending = w.sending) (hbatches : w'.batches = w.batches)
    (hlog : w'.log = w.log) : w'.Inv context route fallbackRoute := by
  constructor
  · rw [hlog]
    exact h.admissible
  · rw [hlog]
    exact h.within
  · rw [hlog, hroute]
    exact h.active
  · rw [hlog, hfallback]
    exact h.fallback
  · rw [hlog, hbatches]
    exact h.fresh
  · rw [hsending, hbatches]
    exact h.old
  · rw [hsending]
    exact h.nodup
  · rw [hsending, hlog]
    exact h.first
  · rw [hlog, hbatches]
    exact h.resent

/-! ## Appends -/

/-- **The step of an append**: the event is dropped and counted, or waits behind those of the
buffer, which a flush may have emptied. -/
theorem inv_appendEvent (h : w.Inv context route fallbackRoute)
    (hfits : w.EventFits context now event) :
    (w.appendEvent context now event).Inv context route fallbackRoute := by
  unfold appendEvent
  split
  · exact inv_congr h rfl rfl rfl rfl rfl
  · next hroom =>
    split
    · exact inv_congr h rfl rfl rfl rfl rfl
    · next hsize =>
      split
      · next hfull =>
        have hflush := inv_flush h (hfits (Nat.not_le.mp hroom) (Nat.not_lt.mp hsize) hfull)
        exact inv_congr hflush rfl rfl rfl rfl rfl
      · exact inv_congr h rfl rfl rfl rfl rfl

/-- An event that is dropped. -/
theorem kept_drop (h : w.Kept (event :: rest) appended) :
    Kept { w with droppedEvents := w.droppedEvents + 1 } rest appended := by
  obtain ⟨dropped, hlength, hperm⟩ := h
  refine ⟨event :: dropped, by simp [hlength], List.Perm.trans ?_ hperm⟩
  rw [← append_assoc, ← append_assoc, ← append_assoc, ← append_assoc]
  exact perm_middle.symm

/-- An event that joins the buffer. -/
theorem kept_push (size : ℕ) (h : w.Kept (event :: rest) appended) :
    Kept { w with bufferSize := size, buffer := w.buffer ++ [event] } rest appended := by
  obtain ⟨dropped, hlength, hperm⟩ := h
  refine ⟨dropped, hlength, ?_⟩
  rw [append_assoc]
  exact hperm

theorem kept_appendEvent (h : w.Kept (event :: rest) appended) :
    (w.appendEvent context now event).Kept rest appended := by
  unfold appendEvent
  split
  · exact kept_drop h
  · split
    · exact kept_drop h
    · split
      · exact kept_push _ (kept_flush h now)
      · exact kept_push _ h

theorem pendingEvents_flush (context : Json) (w : ExposuresWriter ρ) (now : Numeral) :
    (w.flush context now).pendingEvents = w.pendingEvents ∧
      (w.flush context now).appended = w.appended := by
  unfold flush flushBase
  split
  · split
    · exact ⟨rfl, rfl⟩
    · exact ⟨rfl, rfl⟩
  · exact ⟨rfl, rfl⟩

theorem pendingEvents_appendBase (context : Json) (w : ExposuresWriter ρ) (now : Numeral)
    (events : List ExposureEvent) :
    (w.appendBase context now events).pendingEvents = w.pendingEvents ∧
      (w.appendBase context now events).appended = w.appended := by
  have hevent : ∀ (w : ExposuresWriter ρ) event,
      (w.appendEvent context now event).pendingEvents = w.pendingEvents ∧
        (w.appendEvent context now event).appended = w.appended := by
    intro w event
    unfold appendEvent
    split
    · exact ⟨rfl, rfl⟩
    · split
      · exact ⟨rfl, rfl⟩
      · split
        · exact pendingEvents_flush context w now
        · exact ⟨rfl, rfl⟩
  induction events generalizing w with
  | nil => exact ⟨rfl, rfl⟩
  | cons event events ih =>
    obtain ⟨hpending, happended⟩ := ih (w.appendEvent context now event)
    exact ⟨hpending.trans (hevent w event).1, happended.trans (hevent w event).2⟩

theorem inv_appendBase (h : w.Inv context route fallbackRoute) {events : List ExposureEvent}
    (hfits : w.EventsFit context now events) :
    (w.appendBase context now events).Inv context route fallbackRoute := by
  induction events generalizing w with
  | nil => exact h
  | cons event events ih =>
    obtain ⟨hevent, hrest⟩ := hfits
    exact ih (inv_appendEvent h hevent) (hrest _ rfl)

theorem kept_appendBase (context : Json) (now : Numeral)
    {events : List ExposureEvent} (h : w.Kept (events ++ rest) appended) :
    (w.appendBase context now events).Kept rest appended := by
  induction events generalizing w with
  | nil => exact h
  | cons event events ih => exact ih (kept_appendEvent h)

end ExposuresWriter

/-! ## The end of a request -/

namespace ExposuresWriter

variable {ρ : Type*} {context : Json} {route : ρ} {fallbackRoute : Option ρ}
  {w w' : ExposuresWriter ρ}

/-- The requests that are left when one has ended are of other batches. -/
theorem mem_eraseIdx {i : ℕ} {s x : Sending ρ} (hnodup : (w.sending.map Sending.batch).Nodup)
    (hs : w.sending[i]? = some s) (hx : x ∈ w.sending.eraseIdx i) :
    x ∈ w.sending ∧ x.batch ≠ s.batch := by
  obtain ⟨j, hne, hj⟩ := mem_eraseIdx_iff_getElem?.mp hx
  refine ⟨mem_of_getElem? hj, fun hbatch => hne ?_⟩
  have hi' : (w.sending.map Sending.batch)[i]? = some s.batch := by
    rw [getElem?_map, hs, Option.map_some]
  have hj' : (w.sending.map Sending.batch)[j]? = some s.batch := by
    rw [getElem?_map, hj, Option.map_some, hbatch]
  have hlt := (List.getElem?_eq_some_iff.mp hj').1
  exact (getElem?_inj hlt hnodup).mp (hj'.trans hi'.symm)

/-- **The step of a response**: a batch that failed goes once more, along its own fallback. -/
theorem inv_complete (h : w.Inv context route fallbackRoute) {i : ℕ} {s : Sending ρ}
    (hs : w.sending[i]? = some s) (outcome : Outcome) :
    ({ w with sending := w.sending.eraseIdx i }.complete s outcome).Inv context route
      fallbackRoute := by
  have hmem := mem_of_getElem? hs
  have hothers : ∀ x ∈ w.sending.eraseIdx i, x ∈ w.sending ∧ x.batch ≠ s.batch := fun x hx =>
    mem_eraseIdx h.nodup hs hx
  have hnodup : ((w.sending.eraseIdx i).map Sending.batch).Nodup := by
    rw [← eraseIdx_map]
    exact h.nodup.sublist (eraseIdx_sublist _ _)
  -- what has only ended
  have hended : Inv context route fallbackRoute { w with
      sending := w.sending.eraseIdx i
      log := .completed s.batch outcome :: w.log } := by
    refine ⟨admissible_cons trivial h.admissible, ?_, h.active, h.fallback, ?_,
      fun x hx => h.old x (hothers x hx).1, hnodup, ?_, ?_⟩
    · intro batch events payload r f hlog
      rcases mem_cons.mp hlog with heq | hlog
      · cases heq
      · exact h.within _ _ _ _ _ hlog
    · intro batch events payload r f hlog
      rcases mem_cons.mp hlog with heq | hlog
      · cases heq
      · exact h.fresh _ _ _ _ _ hlog
    · intro x hx r hr
      obtain ⟨⟨events, first, hfirst⟩, hnone⟩ := h.first x (hothers x hx).1 r hr
      refine ⟨⟨events, first, mem_cons_of_mem _ hfirst⟩, fun payload r' hlog => ?_⟩
      rcases mem_cons.mp hlog with heq | hlog
      · cases heq
      · exact hnone _ _ hlog
    · intro batch payload r hlog
      rcases mem_cons.mp hlog with heq | hlog
      · cases heq
      · exact h.resent _ _ _ hlog
  unfold complete
  cases hfallback : s.fallbackRoute with
  | none => exact hended
  | some r =>
    dsimp only
    split
    · next hfailed =>
      rw [Bool.or_eq_true] at hfailed
      obtain ⟨hfirst, hnone⟩ := h.first s hmem r hfallback
      refine ⟨admissible_cons ⟨outcome, w.log, rfl, hfailed, hfirst, hnone⟩ hended.admissible, ?_,
        rfl, rfl, ?_, ?_, ?_, ?_, ?_⟩
      · intro batch events payload r' f hlog
        rcases mem_cons.mp hlog with heq | hlog
        · cases heq
        · exact hended.within _ _ _ _ _ hlog
      · intro batch events payload r' f hlog
        rcases mem_cons.mp hlog with heq | hlog
        · cases heq
        · exact hended.fresh _ _ _ _ _ hlog
      · intro x hx
        rcases mem_cons.mp hx with rfl | hx
        · exact h.old s hmem
        · exact hended.old x hx
      · rw [map_cons, nodup_cons]
        refine ⟨fun hbatch => ?_, hnodup⟩
        obtain ⟨x, hx, heq⟩ := mem_map.mp hbatch
        exact (hothers x hx).2 heq
      · intro x hx r' hr'
        rcases mem_cons.mp hx with rfl | hx
        · cases hr'
        · obtain ⟨⟨events, first, hfirst'⟩, hnone'⟩ := hended.first x hx r' hr'
          refine ⟨⟨events, first, mem_cons_of_mem _ hfirst'⟩, fun payload r'' hlog => ?_⟩
          rcases mem_cons.mp hlog with heq | hlog
          · injection heq with hbatch
            exact (hothers x hx).2 hbatch
          · exact hnone' _ _ hlog
      · intro batch payload r' hlog
        rcases mem_cons.mp hlog with heq | hlog
        · cases heq
          exact h.old s hmem
        · exact hended.resent _ _ _ hlog
    · exact hended

theorem kept_complete {rest appended : List ExposureEvent} (h : w.Kept rest appended) (i : ℕ)
    (s : Sending ρ) (outcome : Outcome) :
    ({ w with sending := w.sending.eraseIdx i }.complete s outcome).Kept rest appended ∧
      ({ w with sending := w.sending.eraseIdx i }.complete s outcome).pendingEvents =
        w.pendingEvents ∧
      ({ w with sending := w.sending.eraseIdx i }.complete s outcome).appended = w.appended := by
  unfold complete
  cases s.fallbackRoute with
  | none => exact ⟨h, rfl, rfl⟩
  | some r =>
    dsimp only
    split
    · exact ⟨h, rfl, rfl⟩
    · exact ⟨h, rfl, rfl⟩

/-! ## Runs -/

theorem inv_enable (h : w.Inv context route fallbackRoute) (enabled : Bool)
    (routes : Option (ρ × Option ρ)) :
    (w.enable enabled routes).Inv context route fallbackRoute := by
  cases routes with
  | none => exact inv_congr h rfl rfl rfl rfl rfl
  | some routes =>
    refine ⟨admissible_cons trivial h.admissible, ?_, rfl, rfl, ?_, h.old, h.nodup, ?_, ?_⟩
    · intro batch events payload r f hlog
      rcases mem_cons.mp hlog with heq | hlog
      · cases heq
      · exact h.within _ _ _ _ _ hlog
    · intro batch events payload r f hlog
      rcases mem_cons.mp hlog with heq | hlog
      · cases heq
      · exact h.fresh _ _ _ _ _ hlog
    · intro x hx r hr
      obtain ⟨⟨events, first, hfirst⟩, hnone⟩ := h.first x hx r hr
      refine ⟨⟨events, first, mem_cons_of_mem _ hfirst⟩, fun payload r' hlog => ?_⟩
      rcases mem_cons.mp hlog with heq | hlog
      · cases heq
      · exact hnone _ _ hlog
    · intro batch payload r hlog
      rcases mem_cons.mp hlog with heq | hlog
      · cases heq
      · exact h.resent _ _ _ hlog

theorem kept_enable {rest appended : List ExposureEvent} (h : w.Kept rest appended)
    (enabled : Bool) (routes : Option (ρ × Option ρ)) :
    (w.enable enabled routes).Kept rest appended ∧
      (w.enable enabled routes).pendingEvents = w.pendingEvents ∧
      (w.enable enabled routes).appended = w.appended := by
  cases routes with
  | none | some routes => exact ⟨h, rfl, rfl⟩

theorem perm_front {α : Type*} (a b c d : List α) :
    (a ++ (b ++ (c ++ d))).Perm (b ++ (c ++ (a ++ d))) := by
  rw [← append_assoc b c d, ← append_assoc a, ← append_assoc b c, ← append_assoc (b ++ c)]
  exact perm_append_comm.append_right d

/-- The oldest of the events that wait for the writer to be enabled are dropped and counted. -/
theorem kept_pending {events : List ExposureEvent} (h : w.Kept w.pendingEvents w.appended)
    (hdisabled : w.enabled = false) (now : Numeral) :
    Kept (w.append context now events) (w.append context now events).pendingEvents
      (w.appended ++ events) := by
  unfold append
  rw [hdisabled, if_neg Bool.false_ne_true]
  obtain ⟨dropped, hlength, hperm⟩ := h
  dsimp only
  generalize hpending : w.pendingEvents ++ events = pending
  refine ⟨dropped ++ pending.take (pending.length - PENDING_MAX_EVENTS), ?_, ?_⟩
  · rw [length_append, hlength, length_take, Nat.min_eq_left (Nat.sub_le _ _)]
  · have hsplit := take_append_drop (pending.length - PENDING_MAX_EVENTS) pending
    have hfront : (dropped ++ (batchedEvents w.log ++ (w.buffer ++ pending))).Perm
        (w.appended ++ events) := by
      rw [← hpending, ← append_assoc w.buffer, ← append_assoc (batchedEvents w.log),
        ← append_assoc dropped]
      exact hperm.append_right events
    refine List.Perm.trans ?_ hfront
    rw [append_assoc]
    refine List.Perm.append_left dropped ?_
    have hmove := perm_front (pending.take (pending.length - PENDING_MAX_EVENTS))
      (batchedEvents w.log) w.buffer (pending.drop (pending.length - PENDING_MAX_EVENTS))
    rwa [hsplit] at hmove

/-- The invariant of a run: that of the batches, and that no event is lost. -/
structure RunInv (context : Json) (route : ρ) (fallbackRoute : Option ρ) (w : ExposuresWriter ρ) :
    Prop where
  inv : w.Inv context route fallbackRoute
  kept : w.Kept w.pendingEvents w.appended

theorem runInv_step {ev : ExposuresEvent ρ} (h : w.RunInv context route fallbackRoute)
    (hfits : w.Fits context ev) (hstep : w.step context ev = some w') :
    w'.RunInv context route fallbackRoute := by
  cases ev with
  | append now events =>
    cases hstep
    cases henabled : w.enabled with
    | true =>
      have happend : w.append context now events = w.appendBase context now events := by
        unfold append
        rw [if_pos henabled]
      have hpending := pendingEvents_appendBase context w now events
      have hinv := inv_appendBase h.inv (hfits henabled)
      refine ⟨?_, ?_⟩
      · rw [happend]
        exact inv_congr hinv rfl rfl rfl rfl rfl
      · obtain ⟨dropped, hlength, hperm⟩ := h.kept
        have hmore : w.Kept (events ++ w.pendingEvents) (w.appended ++ events) := by
          refine ⟨dropped, hlength, ?_⟩
          have hswap : (dropped ++ (batchedEvents w.log ++ (w.buffer ++
              (events ++ w.pendingEvents)))).Perm (dropped ++ (batchedEvents w.log ++ (w.buffer ++
              (w.pendingEvents ++ events)))) :=
            ((perm_append_comm.append_left w.buffer).append_left _).append_left _
          refine hswap.trans ?_
          rw [← append_assoc w.buffer, ← append_assoc (batchedEvents w.log), ← append_assoc dropped]
          exact hperm.append_right events
        have hkept := kept_appendBase context now hmore
        rw [happend, hpending.1]
        exact hkept
    | false =>
      refine ⟨?_, kept_pending h.kept henabled now⟩
      unfold append
      rw [henabled]
      exact inv_congr h.inv rfl rfl rfl rfl rfl
  | flush now =>
    cases hstep
    have hpending := pendingEvents_flush context w now
    refine ⟨inv_flush h.inv hfits, ?_⟩
    rw [hpending.1, hpending.2]
    exact kept_flush h.kept now
  | setEnabled now enabled routes =>
    cases hstep
    obtain ⟨hkept, hpending, happended⟩ := kept_enable h.kept enabled routes
    have hinv := inv_enable h.inv enabled routes
    unfold setEnabled
    by_cases hsend : (enabled && !(w.enable enabled routes).pendingEvents.isEmpty) = true
    · rw [if_pos hsend]
      have henabled : enabled = true := (Bool.and_eq_true_iff.mp hsend).1
      have hall := inv_appendBase hinv (hfits henabled)
      have hrest := pendingEvents_appendBase context (w.enable enabled routes) now w.pendingEvents
      have hmove : (w.enable enabled routes).Kept (w.pendingEvents ++ []) w.appended := by
        rw [append_nil]
        exact hkept
      rw [hpending]
      refine ⟨inv_congr hall rfl rfl rfl rfl rfl, ?_⟩
      rw [hrest.2, happended]
      exact kept_appendBase context now hmove
    · rw [if_neg hsend]
      refine ⟨hinv, ?_⟩
      rw [hpending, happended]
      exact hkept
  | complete i outcome =>
    obtain ⟨s, hs, rfl⟩ := Option.map_eq_some_iff.mp hstep
    obtain ⟨hkept, hpending, happended⟩ := kept_complete h.kept i s outcome
    refine ⟨inv_complete h.inv hs outcome, ?_⟩
    rw [hpending, happended]
    exact hkept

theorem runInv_init (context : Json) (route : ρ) (fallbackRoute : Option ρ) :
    (⟨route, fallbackRoute, false, [], [], 0, 0, [], 0, [], []⟩ : ExposuresWriter ρ).RunInv context
      route fallbackRoute where
  inv := by
    refine ⟨?_, ?_, rfl, rfl, ?_, ?_, nodup_nil, ?_, ?_⟩
    all_goals simp
  kept := ⟨[], rfl, List.Perm.refl _⟩

end ExposuresWriter

/-! ## Main results -/

namespace ExposuresWriter

variable {ρ : Type*} {context : Json} {w : ExposuresWriter ρ}

/-- The writer as it is made. -/
def init (route : ρ) (fallbackRoute : Option ρ) : ExposuresWriter ρ where
  route := route
  fallbackRoute := fallbackRoute

/-- A time. -/
def sampleNow : Numeral := ⟨lit "1700000000000", by decide⟩

/-- An event is rejected by the local route, and accepted by the fallback. -/
def sampleEvents : List (ExposuresEvent ℕ) :=
  [.setEnabled sampleNow true none, .append sampleNow [[(lit "flag.key", .str (lit "a"))]],
    .flush sampleNow, .complete 0 ⟨some (lit "ECONNREFUSED"), none⟩, .complete 0 ⟨none, some 202⟩]

/-- The estimate of the size of a batch. -/
def totalSize : List ExposureEvent → ℕ
  | [] => 0
  | event :: events => eventSize event + totalSize events

/-- As long as the estimate is within the limit, nothing is flushed. -/
theorem appendBase_of_le (context : Json) (w : ExposuresWriter ρ) (now : Numeral)
    {events : List ExposureEvent} (hlength : w.buffer.length + events.length ≤ BUFFER_LIMIT)
    (hsize : ∀ event ∈ events, eventSize event ≤ EVP_EVENT_SIZE_LIMIT)
    (htotal : w.bufferSize + totalSize events ≤ EVP_PAYLOAD_SIZE_LIMIT) :
    w.appendBase context now events =
      { w with bufferSize := w.bufferSize + totalSize events, buffer := w.buffer ++ events } := by
  induction events generalizing w with
  | nil => simp [appendBase, totalSize]
  | cons event events ih =>
    rw [length_cons] at hlength
    rw [totalSize] at htotal
    have hroom : ¬ BUFFER_LIMIT ≤ w.buffer.length := by omega
    have hevent : ¬ EVP_EVENT_SIZE_LIMIT < eventSize event :=
      Nat.not_lt.mpr (hsize event mem_cons_self)
    have hestimate : ¬ EVP_PAYLOAD_SIZE_LIMIT < w.bufferSize + eventSize event := by omega
    have hstep : w.appendEvent context now event = { w with
        bufferSize := w.bufferSize + eventSize event, buffer := w.buffer ++ [event] } := by
      unfold appendEvent
      rw [if_neg hroom, if_neg hevent, if_neg hestimate]
    show (w.appendEvent context now event).appendBase context now events = _
    rw [hstep, ih _ (by simp; omega) (fun e he => hsize e (mem_cons_of_mem _ he)) (by simp; omega)]
    simp [totalSize, Nat.add_assoc]

theorem log_flush (context : Json) (w : ExposuresWriter ρ) (now : Numeral)
    (henabled : w.enabled = true) (hne : w.buffer ≠ []) :
    (w.flush context now).log = .flushed w.batches w.buffer
      (makePayload context now w.buffer).stringify w.route w.fallbackRoute :: w.log := by
  have hempty : ¬ w.buffer.isEmpty = true := fun hnil => hne (List.isEmpty_iff.mp hnil)
  unfold flush flushBase
  rw [if_pos henabled, if_neg hempty]

/-- **A batch that is within the limit by the estimate, and is not as it is encoded, is sent.** -/
theorem not_delivered_of_lt (route : ρ) (fallbackRoute : Option ρ) {now : Numeral}
    {events : List ExposureEvent} (hne : events ≠ []) (hlength : events.length ≤ BUFFER_LIMIT)
    (hsize : ∀ event ∈ events, eventSize event ≤ EVP_EVENT_SIZE_LIMIT)
    (htotal : totalSize events ≤ EVP_PAYLOAD_SIZE_LIMIT)
    (hlarge : EVP_PAYLOAD_SIZE_LIMIT < payloadBytes context now events) :
    ∃ w, Run.exec (step context) (init route fallbackRoute)
      [.setEnabled now true none, .append now events, .flush now] = some w ∧
      ¬ w.Delivered context route fallbackRoute := by
  have happend : ((init route fallbackRoute).enable true none).append context now events =
      { (init route fallbackRoute).enable true none with
        bufferSize := totalSize events, buffer := events } := by
    have hbase := appendBase_of_le context ((init route fallbackRoute).enable true none) now
      (by simpa [init, enable] using hlength) hsize (by simpa [init, enable] using htotal)
    have henabled : ((init route fallbackRoute).enable true none).enabled = true := rfl
    unfold append
    rw [hbase]
    simp [init, enable]
  refine ⟨flush context now { (init route fallbackRoute).enable true none with
    bufferSize := totalSize events, buffer := events, appended := events }, ?_, fun h => ?_⟩
  · rw [Run.exec_cons_eq_some]
    refine ⟨(init route fallbackRoute).enable true none, rfl, ?_⟩
    rw [Run.exec_cons_eq_some]
    refine ⟨_, rfl, ?_⟩
    rw [happend]
    rfl
  · have hflush := log_flush context { (init route fallbackRoute).enable true none with
      bufferSize := totalSize events, buffer := events, appended := events } now rfl hne
    have hwithin := (h.within 0 events _ route fallbackRoute (by
      rw [hflush]
      exact mem_cons_self)).2
    rw [byteLength_payload] at hwithin
    exact absurd hwithin (Nat.not_le.mpr hlarge)

/-! ### A batch of long events -/

/-- An event with a subject of `n + 1` characters. -/
def longEvent (n : ℕ) : ExposureEvent :=
  [(lit "subject", .obj [(lit "id", .str (List.replicate (n + 1) (unit 'a')))])]

theorem byteLength_quote_replicate (n : ℕ) (s : Str) :
    byteLength (quote (List.replicate (n + 1) (unit 'a')) ++ s) = n + 3 + byteLength s := by
  have hbody : ∀ n, quoteBody (List.replicate (n + 1) (unit 'a')) =
      List.replicate (n + 1) (unit 'a') := by
    intro n
    induction n with
    | zero => decide
    | succ n ih =>
      have hunit : (if isHigh (unit 'a') || isLow (unit 'a') then unicodeEscape (unit 'a')
          else escapeUnit (unit 'a')) = [unit 'a'] := by decide
      have hpair : ¬ (isHigh (unit 'a') && isLow (unit 'a')) = true := by decide
      rw [replicate_succ, replicate_succ, quoteBody, ← replicate_succ, ih]
      rfl
  have hletters : ∀ (n : ℕ) (s : Str), byteLength (List.replicate n (unit 'a') ++ s) =
      n + byteLength s := by
    intro n s
    have hclosed : Json.Closed [unit 'a'] := Json.closed_concat [] (by decide) (by decide)
    have hone : byteLength [unit 'a'] = 1 := by decide
    induction n with
    | zero => exact (Nat.zero_add _).symm
    | succ n ih =>
      rw [replicate_succ, cons_append, ← singleton_append, Json.byteLength_append hclosed, hone]
      omega
  have hquote : Json.Closed [unit '"'] := Json.closed_concat [] (by decide) (by decide)
  have hone : byteLength [unit '"'] = 1 := by decide
  rw [quote, hbody, ← singleton_append, append_assoc, append_assoc,
    Json.byteLength_append hquote, hletters, Json.byteLength_append hquote]
  omega

theorem eventSize_longEvent (n : ℕ) : eventSize (longEvent n) = n + 22 := by
  have htext : (Json.obj (longEvent n)).stringify = lit "\x7b\"subject\":\x7b\"id\":" ++
      (quote (List.replicate (n + 1) (unit 'a')) ++ lit "\x7d\x7d") := by
    simp only [longEvent, Json.stringify, Json.stringifyMembers, append_assoc]
    rfl
  have hhead : Json.Closed (lit "\x7b\"subject\":\x7b\"id\":") :=
    Json.closed_concat (lit "\x7b\"subject\":\x7b\"id\"") (by decide) (by decide)
  have hbytes : byteLength (lit "\x7b\"subject\":\x7b\"id\":") = 17 ∧
      byteLength (lit "\x7d\x7d") = 2 := by decide
  rw [eventSize, htext, Json.byteLength_append hhead, byteLength_quote_replicate, hbytes.2]
  omega

/-- The text of a formatted event in front of the id of its subject. -/
def formatHead : Str :=
  lit "\x7b\"timestamp\":1700000000000,\"allocation\":\x7b\x7d,\"flag\":\x7b\x7d," ++
    lit "\"variant\":\x7b\x7d,\"subject\":\x7b\"id\":"

theorem byteLength_formatEvent_longEvent (n : ℕ) :
    byteLength (formatEvent sampleNow (longEvent n)).stringify = n + 87 := by
  have hformat : formatEvent sampleNow (longEvent n) = .obj [(lit "timestamp", .num sampleNow),
      (lit "allocation", .obj []), (lit "flag", .obj []), (lit "variant", .obj []),
      (lit "subject", .obj [(lit "id", .str (List.replicate (n + 1) (unit 'a')))])] := by
    rfl
  have hhead : lit "\x7b" ++ (quote (lit "timestamp") ++ (lit ":" ++ (lit "1700000000000" ++
      (lit "," ++ (quote (lit "allocation") ++ (lit ":" ++ (lit "\x7b" ++ (lit "\x7d" ++ (lit "," ++
      (quote (lit "flag") ++ (lit ":" ++ (lit "\x7b" ++ (lit "\x7d" ++ (lit "," ++
      (quote (lit "variant") ++ (lit ":" ++ (lit "\x7b" ++ (lit "\x7d" ++ (lit "," ++
      (quote (lit "subject") ++ (lit ":" ++ (lit "\x7b" ++ (quote (lit "id") ++
      lit ":"))))))))))))))))))))))) = formatHead := by decide
  have htext : (formatEvent sampleNow (longEvent n)).stringify =
      formatHead ++ (quote (List.replicate (n + 1) (unit 'a')) ++ lit "\x7d\x7d") := by
    have hfinite : sampleNow.isFinite = true := by decide
    rw [hformat]
    simp only [Json.stringify, Json.stringifyMembers, hfinite, if_true, append_assoc]
    rfl
  have hclosed : Json.Closed formatHead := ⟨formatHead.dropLast, unit ':', by decide⟩
  have hbytes : byteLength formatHead = 82 ∧ byteLength (lit "\x7d\x7d") = 2 := by decide
  rw [htext, Json.byteLength_append hclosed, byteLength_quote_replicate, hbytes.2]
  omega

/-- Five events of one size and one of another. -/
def longBatch (a b : ExposureEvent) : List ExposureEvent := [a, a, a, a, a, b]

theorem totalSize_longBatch (a b : ExposureEvent) :
    totalSize (longBatch a b) = 5 * eventSize a + eventSize b := by
  simp only [longBatch, totalSize]
  omega

theorem payloadBytes_longBatch (context : Json) (now : Numeral) (a b : ExposureEvent) :
    5 * byteLength (formatEvent now a).stringify + byteLength (formatEvent now b).stringify <
      payloadBytes context now (longBatch a b) := by
  simp only [longBatch, payloadBytes, map_cons, map_nil, Json.joinedBytes]
  omega

end ExposuresWriter

end DdTrace.OpenFeature
