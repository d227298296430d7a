import DdTrace.Library.JsonBytes
import DdTrace.Library.OrderedMap
import DdTrace.Library.Run
import DdTrace.Llmobs.EncodePayload

/-!
# The writers of LLM Observability

`llmobs/writers/base.js` keeps the events of each API key in a buffer of their own and sends the
buffers together; `llmobs/writers/spans.js` first cuts an event that is too large, and flushes when
the buffer of an event would outgrow what one request may hold.  `Writer.step` is one call.

A buffer remembers the routing it was made for, and it is found by the API key alone: an event whose
routing has the same key and another site goes to the site of the first.  And what is counted is the
JSON of the bare events.  The request holds each in an envelope, with the escapes of `encode`; the
writer of evaluations does not count at all.

* `encode_makePayload`: the text of a request, event by event; `byteLength_encode_makePayload`.
* `Writer.Inv`, `inv_append`, `inv_flush`: what the buffers hold, and that the calls keep it.
* `isolated_of_run`: **in every run whose appended events go to a buffer of their own site with room
  for them as they are encoded, every accepted event is sent once or held, in order, by requests of
  its own key and site that are within the limit**.
-/

namespace DdTrace.Llmobs

open Library Unicode List OrderedMap

/-! ## The code -/

/-- 5MB -/
def EVP_PAYLOAD_SIZE_LIMIT : ℕ := 5 <<< 20

def EVP_EVENT_SIZE_LIMIT : ℕ := 5 <<< 20

/-- The events that a buffer takes. -/
def BUFFER_LIMIT : ℕ := 1000

/-- Where an event is to go.  What is missing is empty. -/
structure Routing where
  apiKey : Str := []
  site : Str := []
  deriving DecidableEq

/-- An event of a buffer, beside the routing that it was appended with, which the code does not
keep. -/
structure Buffered where
  event : Json
  routing : Routing

structure LLMObsBuffer where
  entries : List Buffered
  size : ℕ
  routing : Routing

def LLMObsBuffer.clear (buffer : LLMObsBuffer) : LLMObsBuffer :=
  { buffer with entries := [], size := 0 }

/-- `LLMObsSpanWriter` and `LLMObsEvalMetricsWriter` -/
inductive WriterType where
  | spans
  | evalMetrics
  deriving DecidableEq

structure WriterConfig where
  type : WriterType
  site : Str
  ddApiKey : Str
  tracerVersion : Str

/-- The host of a request: that of the agent, or the intake of a site. -/
inductive Host where
  | agent
  | intake (site : Str)
  deriving DecidableEq

/-- The API key in the headers of a request, and its host. -/
structure Destination where
  apiKey : Option Str
  host : Host
  deriving DecidableEq

/-- A call of `request`.  The entries are those that its payload was made of. -/
structure Request where
  payload : Str
  destination : Destination
  entries : List Buffered

/-- `event?._dd?.scope === 'experiments'` -/
def isExperiment : Json → Bool
  | .obj members =>
    match Json.member (lit "_dd") members with
    | some (.obj inner) =>
      match Json.member (lit "scope") inner with
      | some (.str scope) => scope == lit "experiments"
      | _ => false
    | _ => false
  | _ => false

/-- The object that the payload holds an event in. -/
def eventData (tracerVersion : Str) (event : Json) : Json :=
  .obj ([(lit "_dd.stage", .str (lit "raw")), (lit "_dd.tracer_version", .str tracerVersion),
    (lit "event_type", .str (lit "span")), (lit "spans", .arr [event])] ++
    if isExperiment event then [(lit "_dd.scope", .str (lit "experiments"))] else [])

def makePayload (c : WriterConfig) (events : List Json) : Json :=
  match c.type with
  | .spans => .arr (events.map (eventData c.tracerVersion))
  | .evalMetrics => .obj [(lit "data", .obj [(lit "type", .str (lit "evaluation_metric")),
      (lit "attributes", .obj [(lit "metrics", .arr events)])])]

def DROPPED_VALUE_TEXT : Str :=
  lit "[This value has been dropped because this span's size exceeds the 5MB size limit.]"

/-- `_truncateSpanEvent`.  Nothing where the assignment to `event.meta` is a `TypeError`; what is
set on an array is not a part of its JSON. -/
def truncateSpanEvent : Json → Option Json
  | .obj members =>
    let dropped : Json := .obj [(lit "value", .str DROPPED_VALUE_TEXT)]
    let errors : Json := .arr [.str (lit "dropped_io")]
    match Json.member (lit "meta") members with
    | some (.obj inner) =>
      let newMeta := OrderedMap.setEntries (lit "output") dropped
        (OrderedMap.setEntries (lit "input") dropped inner)
      some (.obj (OrderedMap.setEntries (lit "collection_errors") errors
        (OrderedMap.setEntries (lit "meta") (.obj newMeta) members)))
    | some (.arr _) => some (.obj (OrderedMap.setEntries (lit "collection_errors") errors members))
    | _ => none
  | _ => none

/-- The state of a writer: whether it sends to the agent, when that is known, the buffers, the
requests that it made, and the events for which `append` returned `true`. -/
structure Writer where
  agentless : Option Bool := none
  buffer : LLMObsBuffer := ⟨[], 0, {}⟩
  multiTenantBuffers : OrderedMap Str LLMObsBuffer := .empty
  sent : List Request := []
  accepted : List Buffered := []

/-- The destination of `_getOptions`. -/
def WriterConfig.getOptions (c : WriterConfig) (agentless : Bool) : Destination :=
  if agentless then ⟨some c.ddApiKey, .intake c.site⟩ else ⟨none, .agent⟩

def WriterConfig.request (c : WriterConfig) (destination : Destination) (entries : List Buffered) :
    Request :=
  ⟨encode (makePayload c (entries.map Buffered.event)), destination, entries⟩

/-- `routing.site || config.site` -/
def WriterConfig.siteOf (c : WriterConfig) (routing : Routing) : Str :=
  if routing.site = [] then c.site else routing.site

namespace Writer

/-- `_getBuffer` -/
def getBuffer (w : Writer) (routing : Routing) : LLMObsBuffer × Writer :=
  if routing.apiKey = [] then (w.buffer, w)
  else
    match w.multiTenantBuffers.get? routing.apiKey with
    | some buffer => (buffer, w)
    | none => (⟨[], 0, routing⟩, { w with
        multiTenantBuffers := w.multiTenantBuffers.set routing.apiKey ⟨[], 0, routing⟩ })

/-- The buffer of an API key, changed. -/
def setBuffer (w : Writer) (apiKey : Str) (buffer : LLMObsBuffer) : Writer :=
  if apiKey = [] then { w with buffer := buffer }
  else { w with multiTenantBuffers := w.multiTenantBuffers.set apiKey buffer }

/-- `append` of the base class: whether the event was buffered. -/
def appendBase (w : Writer) (event : Json) (routing : Routing) (eventSize : ℕ) : Bool × Writer :=
  let (buffer, w) := w.getBuffer routing
  if BUFFER_LIMIT ≤ buffer.entries.length then (false, w)
  else (true, { w.setBuffer routing.apiKey { buffer with
      entries := buffer.entries ++ [⟨event, routing⟩], size := buffer.size + eventSize } with
    accepted := w.accepted ++ [⟨event, routing⟩] })

/-- `#cleanupEmptyBuffers` -/
def cleanupEmptyBuffers (m : OrderedMap Str LLMObsBuffer) : OrderedMap Str LLMObsBuffer :=
  ((m.entries.filter fun e => e.2.entries.isEmpty).map Prod.fst).foldl OrderedMap.delete m

def flush (c : WriterConfig) (w : Writer) : Writer :=
  match w.agentless with
  | none => w
  | some agentless =>
    let default := if w.buffer.entries.isEmpty then []
      else [c.request (c.getOptions agentless) w.buffer.entries]
    let tenants := w.multiTenantBuffers.entries.filterMap fun e =>
      if e.2.entries.isEmpty then none
      else some (c.request ⟨some e.1, .intake (c.siteOf e.2.routing)⟩ e.2.entries)
    { w with
      buffer := if w.buffer.entries.isEmpty then w.buffer else w.buffer.clear
      multiTenantBuffers := cleanupEmptyBuffers (w.multiTenantBuffers.mapValues fun buffer =>
        if buffer.entries.isEmpty then buffer else buffer.clear)
      sent := w.sent ++ (default ++ tenants) }

/-- The event that `append` of a writer goes on with. -/
def processed (c : WriterConfig) (event : Json) : Option Json :=
  if c.type = .spans ∧ EVP_EVENT_SIZE_LIMIT < byteLength event.stringify then
    truncateSpanEvent event
  else some event

/-- `append`.  Nothing when it raises. -/
def append (c : WriterConfig) (w : Writer) (event : Json) (routing : Routing) :
    Option (Bool × Writer) :=
  match c.type with
  | .spans =>
    (processed c event).map fun event =>
      let processedEventSizeBytes := byteLength event.stringify
      let (buffer, w) := w.getBuffer routing
      (if EVP_PAYLOAD_SIZE_LIMIT < buffer.size + processedEventSizeBytes then w.flush c
        else w).appendBase event routing processedEventSizeBytes
  | .evalMetrics => some (w.appendBase event routing (byteLength event.stringify))

end Writer

/-- What is asked of a writer. -/
inductive WriterCall where
  | append (event : Json) (routing : Routing)
  | flush
  | setAgentless (agentless : Bool)

/-- One call.  What raises has changed nothing. -/
def Writer.step (c : WriterConfig) (w : Writer) : WriterCall → Option Writer
  | .append event routing => some (((w.append c event routing).map Prod.snd).getD w)
  | .flush => some (w.flush c)
  | .setAgentless agentless => some { w with agentless := some agentless }

/-! ## The text of a request -/

theorem getLast?_removeDoubleEscaping (s : Str) :
    (removeDoubleEscaping s).getLast? = s.getLast? := by
  induction s with
  | nil => rfl
  | cons a s ih =>
    rw [removeDoubleEscaping_cons]
    split
    · next hdrop =>
      cases s with
      | nil => exact absurd hdrop.2 (by decide)
      | cons b s => rw [ih, getLast?_cons_cons]
    · rw [getLast?_cons, getLast?_cons, ih]

/-- The encoded text of every value is closed. -/
theorem closed_removeDoubleEscaping {s : Str} (h : Json.Closed s) :
    Json.Closed (removeDoubleEscaping s) := by
  obtain ⟨start, u, rfl, hu, hslash⟩ := h
  have hlast : (removeDoubleEscaping (start ++ [u])).getLast? = some u := by
    rw [getLast?_removeDoubleEscaping, getLast?_concat]
  refine ⟨(removeDoubleEscaping (start ++ [u])).dropLast, u, ?_, hu, hslash⟩
  exact (dropLast_append_getLast? u hlast).symm

theorem closed_encode (v : Json) : Json.Closed (encode v) :=
  closed_removeDoubleEscaping (Json.closed_stringify _)

theorem removeDoubleEscaping_closed {s : Str} (h : Json.Closed s) (t : Str) :
    removeDoubleEscaping (s ++ t) = removeDoubleEscaping s ++ removeDoubleEscaping t :=
  removeDoubleEscaping_append (fun u hu => (h.last u hu).2) t

/-- The replacement goes through a list of texts. -/
theorem removeDoubleEscaping_join {texts : List Str} (h : ∀ s ∈ texts, Json.Closed s) (t : Str) :
    removeDoubleEscaping (Str.join (unit ',') texts ++ t) =
      Str.join (unit ',') (texts.map removeDoubleEscaping) ++ removeDoubleEscaping t := by
  induction texts with
  | nil => rfl
  | cons s texts ih =>
    have hs := h s mem_cons_self
    have hrest := ih (forall_mem_cons.mp h).2
    by_cases htexts : texts = []
    · subst htexts
      rw [Str.join_singleton, removeDoubleEscaping_closed hs, map_singleton, Str.join_singleton]
    · have hmap : texts.map removeDoubleEscaping ≠ [] := by simpa using htexts
      rw [Str.join_cons _ _ htexts, append_assoc, removeDoubleEscaping_closed hs,
        cons_append, removeDoubleEscaping_of_ne (by decide), hrest, map_cons,
        Str.join_cons _ _ hmap, append_assoc, cons_append]

/-- What the payload holds for an event. -/
def payloadItem (c : WriterConfig) (event : Json) : Json :=
  match c.type with
  | .spans => eventData c.tracerVersion event
  | .evalMetrics => event

/-- The text in front of the events. -/
def payloadHead (c : WriterConfig) : Str :=
  match c.type with
  | .spans => lit "["
  | .evalMetrics =>
    lit "\x7b\"data\":\x7b\"type\":\"evaluation_metric\",\"attributes\":\x7b\"metrics\":["

/-- The text behind the events. -/
def payloadTail (c : WriterConfig) : Str :=
  match c.type with
  | .spans => lit "]"
  | .evalMetrics => lit "]\x7d\x7d\x7d"

theorem encodeItems_eq_map (items : List Json) : encodeItems items = items.map encodeStrings := by
  induction items with
  | nil => rfl
  | cons item items ih => rw [encodeItems, ih, map_cons]

/-- The text of a payload before the replacement, event by event. -/
theorem stringify_makePayload (c : WriterConfig) (events : List Json) :
    (encodeStrings (makePayload c events)).stringify = payloadHead c ++
      (Str.join (unit ',') (events.map fun e => (encodeStrings (payloadItem c e)).stringify) ++
        payloadTail c) := by
  unfold makePayload payloadHead payloadTail payloadItem
  cases c.type with
  | spans =>
    show (Json.arr (encodeItems _)).stringify = _
    rw [encodeItems_eq_map, Json.stringify, Json.stringifyItems_eq_join, map_map, map_map]
    rfl
  | evalMetrics =>
    have htype : encodeUnicode (lit "evaluation_metric") = lit "evaluation_metric" := by decide
    show (Json.obj [(lit "data", .obj [(lit "type", .str (encodeUnicode (lit "evaluation_metric"))),
      (lit "attributes", .obj [(lit "metrics", .arr (encodeItems events))])])]).stringify = _
    rw [encodeItems_eq_map]
    simp only [Json.stringify, Json.stringifyMembers, Json.stringifyItems_eq_join, map_map,
      append_assoc]
    rfl

/-- The text in front of the events is closed. -/
theorem closed_payloadHead (c : WriterConfig) : Json.Closed (payloadHead c) := by
  unfold payloadHead
  cases c.type with
  | spans => exact Json.closed_concat [] (by decide) (by decide)
  | evalMetrics =>
    exact Json.closed_concat
      (lit "\x7b\"data\":\x7b\"type\":\"evaluation_metric\",\"attributes\":\x7b\"metrics\":")
      (by decide) (by decide)

/-- **The text of a request**: the encoded events with commas between them. -/
theorem encode_makePayload (c : WriterConfig) (events : List Json) :
    encode (makePayload c events) = payloadHead c ++
      (Str.join (unit ',') (events.map fun e => encode (payloadItem c e)) ++ payloadTail c) := by
  have htexts : ∀ s ∈ events.map fun e => (encodeStrings (payloadItem c e)).stringify,
      Json.Closed s := by
    intro s hs
    obtain ⟨e, -, rfl⟩ := mem_map.mp hs
    exact Json.closed_stringify _
  have hhead : unit '\\' ∉ payloadHead c := by
    unfold payloadHead
    cases c.type with
    | spans => decide
    | evalMetrics => decide
  have htail : unit '\\' ∉ payloadTail c := by
    unfold payloadTail
    cases c.type with
    | spans => decide
    | evalMetrics => decide
  rw [encode, stringify_makePayload, removeDoubleEscaping_closed (closed_payloadHead c),
    removeDoubleEscaping_of_notMem hhead, removeDoubleEscaping_join htexts,
    removeDoubleEscaping_of_notMem htail, map_map]
  rfl

/-- The bytes that a request takes, from those of its events as they are encoded. -/
def payloadBytes (c : WriterConfig) (events : List Json) : ℕ :=
  (payloadHead c).length +
    Json.joinedBytes (events.map fun e => byteLength (encode (payloadItem c e))) +
    (payloadTail c).length

theorem byteLength_encode_makePayload (c : WriterConfig) (events : List Json) :
    byteLength (encode (makePayload c events)) = payloadBytes c events := by
  have htexts : ∀ s ∈ events.map fun e => encode (payloadItem c e), Json.Closed s := by
    intro s hs
    obtain ⟨e, -, rfl⟩ := mem_map.mp hs
    exact closed_encode _
  have hascii : byteLength (payloadHead c) = (payloadHead c).length ∧
      byteLength (payloadTail c) = (payloadTail c).length := by
    unfold payloadHead payloadTail
    cases c.type with
    | spans => decide
    | evalMetrics => decide
  rw [encode_makePayload, Json.byteLength_append (closed_payloadHead c),
    Json.byteLength_join htexts, hascii.1, hascii.2, map_map, payloadBytes, Nat.add_assoc]
  rfl

/-! ## What is asked of a run -/

/-- The destination that a routing asks for.  What it leaves open is as for an event without one. -/
def WriterConfig.wanted (c : WriterConfig) (agentless : Bool) (routing : Routing) :
    Destination where
  apiKey := if routing.apiKey = [] then (c.getOptions agentless).apiKey else some routing.apiKey
  host :=
    if routing.site ≠ [] then .intake routing.site
    else if routing.apiKey = [] then (c.getOptions agentless).host
    else .intake c.site

/-- The entries whose routing has the API key. -/
def under (apiKey : Str) (entries : List Buffered) : List Buffered :=
  entries.filter fun e => e.routing.apiKey == apiKey

namespace Writer

/-- The buffer of an API key. -/
def bufferAt (w : Writer) (apiKey : Str) : Option LLMObsBuffer :=
  if apiKey = [] then some w.buffer else w.multiTenantBuffers.get? apiKey

/-- The entries that wait in the buffer of an API key. -/
def held (w : Writer) (apiKey : Str) : List Buffered :=
  ((w.bufferAt apiKey).map LLMObsBuffer.entries).getD []

/-- Of every API key the accepted events are, in order, those that were sent and those that wait.
Every request is the encoding of its events, goes where they want it, and is within the limit. -/
structure Isolated (c : WriterConfig) (w : Writer) : Prop where
  order : ∀ apiKey, under apiKey (w.sent.flatMap Request.entries) ++ w.held apiKey =
    under apiKey w.accepted
  payload : ∀ r ∈ w.sent, r.payload = encode (makePayload c (r.entries.map Buffered.event))
  routed : ∀ r ∈ w.sent, ∀ e ∈ r.entries, ∃ agentless, r.destination = c.wanted agentless e.routing
  within : ∀ r ∈ w.sent, byteLength r.payload ≤ EVP_PAYLOAD_SIZE_LIMIT

/-- The buffer that an event joins: a new one where `append` flushes for it. -/
def joined (c : WriterConfig) (w : Writer) (event : Json) (routing : Routing) : LLMObsBuffer :=
  let buffer := (w.getBuffer routing).1
  if c.type = .spans ∧ EVP_PAYLOAD_SIZE_LIMIT < buffer.size + byteLength event.stringify ∧
      w.agentless ≠ none then ⟨[], 0, routing⟩
  else buffer

end Writer

/-- The requests of the buffer go to the site of the routing. -/
def SameSite (c : WriterConfig) (buffer : LLMObsBuffer) (routing : Routing) : Prop :=
  if routing.apiKey = [] then routing.site = [] else c.siteOf routing = c.siteOf buffer.routing

instance (c : WriterConfig) (buffer : LLMObsBuffer) (routing : Routing) :
    Decidable (SameSite c buffer routing) :=
  inferInstanceAs (Decidable (if routing.apiKey = [] then _ else _))

/-- There is room for one more event, as the events are encoded. -/
def RoomFor (c : WriterConfig) (buffer : LLMObsBuffer) (event : Json) : Prop :=
  payloadBytes c (buffer.entries.map Buffered.event ++ [event]) ≤ EVP_PAYLOAD_SIZE_LIMIT

/-- An event that is appended joins a buffer whose requests go to its site, with room for it. -/
def Writer.Fits (c : WriterConfig) (w : Writer) : WriterCall → Prop
  | .append event routing => ∀ event', Writer.processed c event = some event' →
      (w.joined c event' routing).entries.length < BUFFER_LIMIT →
      SameSite c (w.joined c event' routing) routing ∧ RoomFor c (w.joined c event' routing) event'
  | .flush | .setAgentless _ => True

instance (c : WriterConfig) (w : Writer) : ∀ call, Decidable (w.Fits c call)
  | .append event routing =>
    match h : Writer.processed c event with
    | none => isTrue fun event' he => by rw [h] at he; cases he
    | some event' =>
      have : Decidable (RoomFor c (w.joined c event' routing) event') :=
        inferInstanceAs (Decidable (_ ≤ _))
      decidable_of_iff ((w.joined c event' routing).entries.length < BUFFER_LIMIT →
          SameSite c (w.joined c event' routing) routing ∧
            RoomFor c (w.joined c event' routing) event')
        ⟨fun hall _ he => Option.some.inj (h.symm.trans he) ▸ hall, fun hall => hall event' h⟩
  | .flush => isTrue trivial
  | .setAgentless _ => isTrue trivial

/-! ## The entries of a key -/

theorem under_append (apiKey : Str) (l m : List Buffered) :
    under apiKey (l ++ m) = under apiKey l ++ under apiKey m := filter_append l m

theorem under_eq_self {apiKey : Str} {l : List Buffered} (h : ∀ e ∈ l, e.routing.apiKey = apiKey) :
    under apiKey l = l :=
  filter_eq_self.mpr fun e he => beq_iff_eq.mpr (h e he)

theorem under_eq_nil {apiKey : Str} {l : List Buffered} (h : ∀ e ∈ l, e.routing.apiKey ≠ apiKey) :
    under apiKey l = [] :=
  filter_eq_nil_iff.mpr fun e he => by simpa using h e he

/-- In buffers that hold their own, the entries of a key are those of its buffer. -/
theorem under_flatMap {m : OrderedMap Str LLMObsBuffer}
    (hown : ∀ e ∈ m.entries, ∀ x ∈ e.2.entries, x.routing.apiKey = e.1) (apiKey : Str) :
    under apiKey (m.entries.flatMap fun e => e.2.entries) =
      ((m.get? apiKey).map LLMObsBuffer.entries).getD [] := by
  obtain ⟨l, hnodup⟩ := m
  induction l with
  | nil => rfl
  | cons e l ih =>
    have hbuffer := hown e mem_cons_self
    have hrest := ih (nodup_cons.mp hnodup).2 (forall_mem_cons.mp hown).2
    rw [flatMap_cons, under_append, hrest, get?_mk_cons]
    by_cases hkey : apiKey = e.1
    · have hnone : OrderedMap.get? ⟨l, (nodup_cons.mp hnodup).2⟩ apiKey = none := by
        rw [get?_eq_none_iff, hkey]
        exact (nodup_cons.mp hnodup).1
      rw [if_pos hkey, hnone, hkey, under_eq_self hbuffer]
      exact append_nil _
    · rw [if_neg hkey, under_eq_nil fun x hx h => hkey (h.symm.trans (hbuffer x hx))]
      rfl

namespace Writer

/-! ## Buffers -/

@[simp] theorem bufferAt_nil (w : Writer) : w.bufferAt [] = some w.buffer := if_pos rfl

theorem bufferAt_of_ne (w : Writer) {apiKey : Str} (h : apiKey ≠ []) :
    w.bufferAt apiKey = w.multiTenantBuffers.get? apiKey := if_neg h

theorem bufferAt_setBuffer (w : Writer) (apiKey key : Str) (buffer : LLMObsBuffer) :
    (w.setBuffer apiKey buffer).bufferAt key =
      if key = apiKey then some buffer else w.bufferAt key := by
  unfold setBuffer
  by_cases hnil : apiKey = []
  · rw [if_pos hnil, hnil]
    by_cases hkey : key = []
    · rw [hkey]
      rfl
    · rw [if_neg hkey, bufferAt_of_ne _ hkey, bufferAt_of_ne _ hkey]
  · rw [if_neg hnil]
    by_cases hkey : key = []
    · have hne : key ≠ apiKey := fun h => hnil (h ▸ hkey)
      rw [if_neg hne, hkey]
      rfl
    · rw [bufferAt_of_ne _ hkey, bufferAt_of_ne _ hkey]
      exact get?_set _ _ _ _

/-- `_getBuffer` finds the buffer of the API key, or makes one. -/
theorem getBuffer_spec (w : Writer) (routing : Routing) :
    (w.bufferAt routing.apiKey = some (w.getBuffer routing).1 ∧ (w.getBuffer routing).2 = w) ∨
    (routing.apiKey ≠ [] ∧ w.bufferAt routing.apiKey = none ∧
      (w.getBuffer routing).1 = ⟨[], 0, routing⟩ ∧
      (w.getBuffer routing).2 = w.setBuffer routing.apiKey ⟨[], 0, routing⟩) := by
  unfold getBuffer
  by_cases hnil : routing.apiKey = []
  · rw [hnil]
    exact Or.inl ⟨bufferAt_nil w, rfl⟩
  · rw [if_neg hnil, bufferAt_of_ne _ hnil]
    cases hfind : w.multiTenantBuffers.get? routing.apiKey with
    | some buffer => exact Or.inl ⟨rfl, rfl⟩
    | none =>
      refine Or.inr ⟨hnil, rfl, rfl, ?_⟩
      unfold setBuffer
      rw [if_neg hnil]

end Writer

/-! ## The invariant -/

/-- A buffer of an API key holds events of that key and of its own site, and no more than a request
can take. -/
structure Holds (c : WriterConfig) (apiKey : Str) (buffer : LLMObsBuffer) : Prop where
  own : ∀ e ∈ buffer.entries, e.routing.apiKey = apiKey
  site : ∀ e ∈ buffer.entries, SameSite c buffer e.routing
  within : buffer.entries ≠ [] →
    payloadBytes c (buffer.entries.map Buffered.event) ≤ EVP_PAYLOAD_SIZE_LIMIT

theorem holds_nil (c : WriterConfig) (apiKey : Str) {buffer : LLMObsBuffer}
    (h : buffer.entries = []) : Holds c apiKey buffer where
  own e he := absurd he (by rw [h]; exact not_mem_nil)
  site e he := absurd he (by rw [h]; exact not_mem_nil)
  within hne := absurd h hne

structure Writer.Inv (c : WriterConfig) (w : Writer) : Prop where
  keys : w.multiTenantBuffers.get? [] = none
  holds : ∀ apiKey buffer, w.bufferAt apiKey = some buffer → Holds c apiKey buffer
  isolated : w.Isolated c

/-! ## A flush -/

namespace Writer

variable {c : WriterConfig} {w : Writer}

theorem get?_cleanupEmptyBuffers {m : OrderedMap Str LLMObsBuffer}
    (h : ∀ e ∈ m.entries, e.2.entries = []) (apiKey : Str) :
    (cleanupEmptyBuffers m).get? apiKey = none := by
  rw [Option.eq_none_iff_forall_ne_some]
  intro buffer hbuffer
  obtain ⟨hmem, hget⟩ := get?_foldl_delete_eq_some.mp hbuffer
  have hentry := mem_entries_iff.mpr hget
  refine hmem (mem_map.mpr ⟨_, mem_filter.mpr ⟨hentry, ?_⟩, rfl⟩)
  rw [h _ hentry]
  rfl

/-- The requests of a flush, when the writer knows where to send. -/
def requests (c : WriterConfig) (w : Writer) (agentless : Bool) : List Request :=
  (if w.buffer.entries.isEmpty then [] else [c.request (c.getOptions agentless) w.buffer.entries])
    ++ w.multiTenantBuffers.entries.filterMap fun e =>
      if e.2.entries.isEmpty then none
      else some (c.request ⟨some e.1, .intake (c.siteOf e.2.routing)⟩ e.2.entries)

variable {agentless : Bool}

theorem sent_flush (h : w.agentless = some agentless) :
    (w.flush c).sent = w.sent ++ w.requests c agentless := by
  unfold flush
  rw [h]
  rfl

theorem accepted_flush (c : WriterConfig) (w : Writer) : (w.flush c).accepted = w.accepted := by
  unfold flush
  cases w.agentless with
  | none => rfl
  | some agentless => rfl

theorem flush_of_none (h : w.agentless = none) : w.flush c = w := by
  unfold flush
  rw [h]

/-- After a flush the default buffer is empty, and the others are gone. -/
theorem bufferAt_flush (h : w.agentless = some agentless) (apiKey : Str) :
    (apiKey = [] ∧ ∃ buffer, (w.flush c).bufferAt apiKey = some buffer ∧ buffer.entries = []) ∨
    (apiKey ≠ [] ∧ (w.flush c).bufferAt apiKey = none) := by
  by_cases hkey : apiKey = []
  · subst hkey
    refine Or.inl ⟨rfl, _, bufferAt_nil _, ?_⟩
    unfold flush
    rw [h]
    dsimp only
    split
    · next hempty => exact List.isEmpty_iff.mp hempty
    · rfl
  · refine Or.inr ⟨hkey, ?_⟩
    rw [bufferAt_of_ne _ hkey]
    unfold flush
    rw [h]
    refine get?_cleanupEmptyBuffers (fun e he => ?_) apiKey
    obtain ⟨e', -, rfl⟩ := mem_map.mp he
    dsimp only
    split
    · next hempty => exact List.isEmpty_iff.mp hempty
    · rfl

theorem held_flush (h : w.agentless = some agentless) (apiKey : Str) :
    (w.flush c).held apiKey = [] := by
  unfold held
  rcases bufferAt_flush (c := c) h apiKey with ⟨-, buffer, hbuffer, hempty⟩ | ⟨-, hnone⟩
  · rw [hbuffer, Option.map_some, Option.getD_some, hempty]
  · rw [hnone]
    rfl

/-- A request of a flush is made of a buffer. -/
theorem mem_requests {r : Request} (h : r ∈ w.requests c agentless) :
    (w.buffer.entries ≠ [] ∧ r = c.request (c.getOptions agentless) w.buffer.entries) ∨
    ∃ apiKey buffer, w.multiTenantBuffers.get? apiKey = some buffer ∧ buffer.entries ≠ [] ∧
      r = c.request ⟨some apiKey, .intake (c.siteOf buffer.routing)⟩ buffer.entries := by
  rcases mem_append.mp h with h | h
  · split at h
    · exact absurd h not_mem_nil
    · next hne =>
      exact Or.inl ⟨fun hnil => hne (List.isEmpty_iff.mpr hnil), mem_singleton.mp h⟩
  · obtain ⟨e, he, hr⟩ := mem_filterMap.mp h
    split at hr
    · cases hr
    · next hne =>
      exact Or.inr ⟨e.1, e.2, mem_entries_iff.mp he,
        fun hnil => hne (List.isEmpty_iff.mpr hnil), (Option.some.inj hr).symm⟩

theorem entries_requests (w : Writer) (agentless : Bool) :
    (w.requests c agentless).flatMap Request.entries =
      w.buffer.entries ++ w.multiTenantBuffers.entries.flatMap fun e => e.2.entries := by
  unfold requests
  rw [flatMap_append]
  congr 1
  · split
    · next hempty => exact (List.isEmpty_iff.mp hempty).symm
    · exact flatMap_singleton _ _
  · induction w.multiTenantBuffers.entries with
    | nil => rfl
    | cons e l ih =>
      rw [flatMap_cons, ← ih]
      by_cases hempty : e.2.entries.isEmpty = true
      · rw [filterMap_cons_none (by rw [if_pos hempty]), List.isEmpty_iff.mp hempty]
        rfl
      · rw [filterMap_cons_some (by rw [if_neg hempty])]
        rfl

/-- **A flush sends, of every key, what waited for it.** -/
theorem under_requests (hkeys : w.multiTenantBuffers.get? [] = none)
    (hholds : ∀ apiKey buffer, w.bufferAt apiKey = some buffer → Holds c apiKey buffer)
    (agentless : Bool) (apiKey : Str) :
    under apiKey ((w.requests c agentless).flatMap Request.entries) = w.held apiKey := by
  have hdefault := (hholds [] w.buffer (bufferAt_nil w)).own
  have hne : ∀ e ∈ w.multiTenantBuffers.entries, e.1 ≠ [] := by
    rintro e he hnil
    have hget := mem_entries_iff.mp he
    rw [hnil, hkeys] at hget
    cases hget
  have hown : ∀ e ∈ w.multiTenantBuffers.entries, ∀ x ∈ e.2.entries, x.routing.apiKey = e.1 := by
    intro e he
    refine (hholds e.1 e.2 ?_).own
    rw [bufferAt_of_ne _ (hne e he)]
    exact mem_entries_iff.mp he
  rw [entries_requests, under_append, under_flatMap hown]
  unfold held
  by_cases hkey : apiKey = []
  · subst hkey
    rw [under_eq_self hdefault, hkeys]
    exact append_nil _
  · rw [under_eq_nil fun e he h => hkey (h.symm.trans (hdefault e he)), bufferAt_of_ne _ hkey]
    rfl

/-- A buffer that holds its own makes a request that goes where its events want it. -/
theorem routed_of_holds (hkeys : w.multiTenantBuffers.get? [] = none)
    (hholds : ∀ apiKey buffer, w.bufferAt apiKey = some buffer → Holds c apiKey buffer)
    {r : Request} (h : r ∈ w.requests c agentless) {e : Buffered}
    (he : e ∈ r.entries) : r.destination = c.wanted agentless e.routing := by
  unfold WriterConfig.wanted
  rcases mem_requests h with ⟨-, rfl⟩ | ⟨apiKey, buffer, hget, -, rfl⟩
  · have hbuffer := hholds [] w.buffer (bufferAt_nil w)
    have hkey := hbuffer.own e he
    have hsite := hbuffer.site e he
    unfold SameSite at hsite
    rw [if_pos hkey] at hsite
    rw [if_pos hkey, if_neg (not_not.mpr hsite), if_pos hkey]
    rfl
  · have hne : apiKey ≠ [] := by
      rintro rfl
      rw [hkeys] at hget
      cases hget
    have hbuffer := hholds apiKey buffer (by rw [bufferAt_of_ne _ hne]; exact hget)
    have hkey : e.routing.apiKey = apiKey := hbuffer.own e he
    have hnil : e.routing.apiKey ≠ [] := hkey ▸ hne
    have hsite := hbuffer.site e he
    unfold SameSite at hsite
    rw [if_neg hnil] at hsite
    rw [if_neg hnil, if_neg hnil]
    show (⟨some apiKey, .intake (c.siteOf buffer.routing)⟩ : Destination) = _
    rw [← hsite, hkey, WriterConfig.siteOf]
    by_cases hopen : e.routing.site = []
    · rw [if_pos hopen, if_neg (not_not.mpr hopen)]
    · rw [if_neg hopen, if_pos hopen]

theorem inv_flush (h : w.Inv c) : (w.flush c).Inv c := by
  cases hagentless : w.agentless with
  | none => rwa [flush_of_none hagentless]
  | some agentless =>
    have hsent := sent_flush (c := c) hagentless
    refine ⟨?_, ?_, ?_, ?_, ?_, ?_⟩
    · unfold flush
      rw [hagentless]
      refine get?_cleanupEmptyBuffers (fun e he => ?_) []
      obtain ⟨e', -, rfl⟩ := mem_map.mp he
      dsimp only
      split
      · next hempty => exact List.isEmpty_iff.mp hempty
      · rfl
    · intro apiKey buffer hbuffer
      rcases bufferAt_flush (c := c) hagentless apiKey with ⟨-, b, hb, hempty⟩ | ⟨-, hnone⟩
      · rw [hb] at hbuffer
        exact holds_nil c apiKey (Option.some.inj hbuffer ▸ hempty)
      · rw [hnone] at hbuffer
        cases hbuffer
    · intro apiKey
      rw [hsent, flatMap_append, under_append, under_requests h.keys h.holds,
        held_flush hagentless, accepted_flush, append_nil]
      exact h.isolated.order apiKey
    · intro r hr
      rw [hsent, mem_append] at hr
      rcases hr with hr | hr
      · exact h.isolated.payload r hr
      · rcases mem_requests hr with ⟨-, rfl⟩ | ⟨apiKey, buffer, -, -, rfl⟩
        · rfl
        · rfl
    · intro r hr e he
      rw [hsent, mem_append] at hr
      rcases hr with hr | hr
      · exact h.isolated.routed r hr e he
      · exact ⟨agentless, routed_of_holds h.keys h.holds hr he⟩
    · intro r hr
      rw [hsent, mem_append] at hr
      rcases hr with hr | hr
      · exact h.isolated.within r hr
      · rcases mem_requests hr with ⟨hne, rfl⟩ | ⟨apiKey, buffer, hget, hne, rfl⟩
        · refine (byteLength_encode_makePayload c _).trans_le ?_
          exact (h.holds [] w.buffer (bufferAt_nil w)).within hne
        · refine (byteLength_encode_makePayload c _).trans_le ?_
          have hnil : apiKey ≠ [] := by
            rintro rfl
            rw [h.keys] at hget
            cases hget
          exact (h.holds apiKey buffer (by rw [bufferAt_of_ne _ hnil]; exact hget)).within hne

end Writer

/-! ## An append -/

namespace Writer

variable {c : WriterConfig} {w : Writer}

theorem setBuffer_spec (w : Writer) (apiKey : Str) (buffer : LLMObsBuffer) :
    (w.setBuffer apiKey buffer).sent = w.sent ∧ (w.setBuffer apiKey buffer).accepted = w.accepted ∧
      (w.setBuffer apiKey buffer).agentless = w.agentless ∧
      (w.multiTenantBuffers.get? [] = none →
        (w.setBuffer apiKey buffer).multiTenantBuffers.get? [] = none) := by
  unfold setBuffer
  by_cases hnil : apiKey = []
  · rw [if_pos hnil]
    exact ⟨rfl, rfl, rfl, id⟩
  · rw [if_neg hnil]
    refine ⟨rfl, rfl, rfl, fun h => ?_⟩
    rw [← h]
    exact get?_set_of_ne _ (Ne.symm hnil) _

theorem held_setBuffer (w : Writer) (apiKey key : Str) (buffer : LLMObsBuffer) :
    (w.setBuffer apiKey buffer).held key = if key = apiKey then buffer.entries else w.held key := by
  unfold held
  rw [bufferAt_setBuffer]
  by_cases hkey : key = apiKey
  · rw [if_pos hkey, if_pos hkey]
    rfl
  · rw [if_neg hkey, if_neg hkey]

/-- The buffer that `_getBuffer` gives holds what waits for its key, and a new one changes
nothing. -/
theorem held_getBuffer (w : Writer) (routing : Routing) :
    (w.getBuffer routing).1.entries = w.held routing.apiKey := by
  unfold held
  rcases getBuffer_spec w routing with ⟨hbuffer, -⟩ | ⟨-, hnone, hbuffer, -⟩
  · rw [hbuffer]
    rfl
  · rw [hbuffer, hnone]
    rfl

theorem inv_getBuffer (h : w.Inv c) (routing : Routing) : (w.getBuffer routing).2.Inv c := by
  rcases getBuffer_spec w routing with ⟨-, hw⟩ | ⟨-, hnone, -, hw⟩
  · rwa [hw]
  · have hspec := setBuffer_spec w routing.apiKey ⟨[], 0, routing⟩
    rw [hw]
    refine ⟨hspec.2.2.2 h.keys, fun apiKey buffer hbuffer => ?_, ?_, ?_, ?_, ?_⟩
    · rw [bufferAt_setBuffer] at hbuffer
      split at hbuffer
      · cases hbuffer
        exact holds_nil c apiKey rfl
      · exact h.holds apiKey buffer hbuffer
    · intro apiKey
      rw [hspec.1, hspec.2.1, held_setBuffer, ← h.isolated.order apiKey]
      split
      · next hkey =>
        unfold held
        rw [hkey, hnone]
        rfl
      · rfl
    · rw [hspec.1]
      exact h.isolated.payload
    · rw [hspec.1]
      exact h.isolated.routed
    · rw [hspec.1]
      exact h.isolated.within

/-- A second `_getBuffer` finds what the first one made. -/
theorem getBuffer_getBuffer (w : Writer) (routing : Routing) :
    ((w.getBuffer routing).2.getBuffer routing).1 = (w.getBuffer routing).1 := by
  rcases getBuffer_spec w routing with ⟨-, hw⟩ | ⟨-, -, hbuffer, hw⟩
  · rw [hw]
  · have hfound : (w.getBuffer routing).2.bufferAt routing.apiKey = some ⟨[], 0, routing⟩ := by
      rw [hw, bufferAt_setBuffer, if_pos rfl]
    rcases getBuffer_spec (w.getBuffer routing).2 routing with ⟨hagain, -⟩ | ⟨-, hnone, -⟩
    · rw [hfound] at hagain
      rw [hbuffer]
      exact (Option.some.inj hagain).symm
    · rw [hfound] at hnone
      cases hnone

/-- **The step of an append**: the event joins a buffer of its own, or is dropped. -/
theorem inv_appendBase (h : w.Inv c) {event : Json} {routing : Routing} {size : ℕ}
    (hfits : (w.getBuffer routing).1.entries.length < BUFFER_LIMIT →
      SameSite c (w.getBuffer routing).1 routing ∧ RoomFor c (w.getBuffer routing).1 event) :
    (w.appendBase event routing size).2.Inv c := by
  have hinv := inv_getBuffer h routing
  have hagain := getBuffer_getBuffer w routing
  have hheld' := held_getBuffer (w.getBuffer routing).2 routing
  unfold appendBase
  generalize hbuffer : (w.getBuffer routing).1 = buffer at *
  generalize hw : (w.getBuffer routing).2 = w' at *
  rw [show w.getBuffer routing = (buffer, w') from Prod.ext hbuffer hw]
  dsimp only
  split
  · exact hinv
  · next hroom =>
    obtain ⟨hsite, hbytes⟩ := hfits (Nat.not_le.mp hroom)
    have hold : Holds c routing.apiKey buffer := by
      rcases getBuffer_spec w' routing with ⟨hfound, -⟩ | ⟨-, -, hnew, -⟩
      · rw [hagain] at hfound
        exact hinv.holds _ _ hfound
      · rw [hagain] at hnew
        exact holds_nil c _ (by rw [hnew])
    have hspec := setBuffer_spec w' routing.apiKey
      { buffer with entries := buffer.entries ++ [⟨event, routing⟩], size := buffer.size + size }
    refine ⟨hspec.2.2.2 hinv.keys, fun apiKey b hb => ?_, fun apiKey => ?_, ?_, ?_, ?_⟩
    · change (w'.setBuffer _ _).bufferAt apiKey = some b at hb
      rw [bufferAt_setBuffer] at hb
      split at hb
      · next hkey =>
        cases hb
        refine ⟨fun e he => ?_, fun e he => ?_, fun _ => ?_⟩
        · rcases mem_append.mp he with he | he
          · exact (hold.own e he).trans hkey.symm
          · rw [mem_singleton.mp he, hkey]
        · rcases mem_append.mp he with he | he
          · exact hold.site e he
          · rw [mem_singleton.mp he]
            exact hsite
        · rw [map_append]
          exact hbytes
      · exact hinv.holds apiKey b hb
    · show under apiKey ((w'.setBuffer _ _).sent.flatMap _) ++ (w'.setBuffer _ _).held apiKey = _
      have horder := hinv.isolated.order apiKey
      rw [hspec.1, held_setBuffer, under_append, ← horder]
      by_cases hkey : apiKey = routing.apiKey
      · rw [if_pos hkey, hkey, ← hheld', hagain, append_assoc]
        have hown : under routing.apiKey [⟨event, routing⟩] = [⟨event, routing⟩] :=
          under_eq_self fun e he => congrArg (fun e => e.routing.apiKey) (mem_singleton.mp he)
        rw [hown]
      · have hnone : under apiKey [⟨event, routing⟩] = [] :=
          under_eq_nil fun e he h => hkey (by rw [← h, mem_singleton.mp he])
        rw [if_neg hkey, hnone, append_nil]
    · rw [hspec.1]
      exact hinv.isolated.payload
    · rw [hspec.1]
      exact hinv.isolated.routed
    · rw [hspec.1]
      exact hinv.isolated.within

end Writer

namespace Writer

variable {c : WriterConfig} {w : Writer}

/-- What `_getBuffer` finds after the flush that an event asked for. -/
theorem getBuffer_flush {agentless : Bool} (h : w.agentless = some agentless) (routing : Routing) :
    ((w.flush c).getBuffer routing).1.entries = [] ∧
      (routing.apiKey ≠ [] → ((w.flush c).getBuffer routing).1 = ⟨[], 0, routing⟩) := by
  rcases getBuffer_spec (w.flush c) routing with ⟨hbuffer, -⟩ | ⟨-, -, hbuffer, -⟩
  · rcases bufferAt_flush (c := c) h routing.apiKey with ⟨hnil, b, hb, hempty⟩ | ⟨-, hnone⟩
    · rw [hb] at hbuffer
      exact ⟨Option.some.inj hbuffer ▸ hempty, fun hne => absurd hnil hne⟩
    · rw [hnone] at hbuffer
      cases hbuffer
  · rw [hbuffer]
    exact ⟨rfl, fun _ => rfl⟩

/-- The condition on an append is about the buffer that the event joins. -/
theorem inv_append (h : w.Inv c) {event : Json} {routing : Routing}
    (hfits : w.Fits c (.append event routing)) {p : Bool × Writer}
    (happend : w.append c event routing = some p) : p.2.Inv c := by
  unfold append at happend
  cases htype : c.type with
  | evalMetrics =>
    rw [htype] at happend
    cases happend
    have hprocessed : processed c event = some event := by
      unfold processed
      rw [if_neg fun hc => by rw [htype] at hc; cases hc.1]
    have hjoined : w.joined c event routing = (w.getBuffer routing).1 := by
      exact if_neg fun hc => by rw [htype] at hc; cases hc.1
    have hevent := hfits event hprocessed
    rw [hjoined] at hevent
    exact inv_appendBase h hevent
  | spans =>
    rw [htype] at happend
    obtain ⟨event', hprocessed, rfl⟩ := Option.map_eq_some_iff.mp happend
    have hevent := hfits event' hprocessed
    have hinv := inv_getBuffer h routing
    have hagain := getBuffer_getBuffer w routing
    have hagentless : (w.getBuffer routing).2.agentless = w.agentless := by
      rcases getBuffer_spec w routing with ⟨-, hw⟩ | ⟨-, -, -, hw⟩
      · rw [hw]
      · rw [hw]
        exact (setBuffer_spec w _ _).2.2.1
    unfold joined at hevent
    dsimp only at hevent ⊢
    generalize (w.getBuffer routing).1 = buffer at *
    by_cases hfull : EVP_PAYLOAD_SIZE_LIMIT < buffer.size + byteLength event'.stringify
    · rw [if_pos hfull]
      cases hknown : w.agentless with
      | none =>
        rw [if_neg fun hc => hc.2.2 hknown, ← hagain] at hevent
        rw [flush_of_none (hagentless.trans hknown)]
        exact inv_appendBase hinv hevent
      | some agentless =>
        have hne : w.agentless ≠ none := by
          rw [hknown]
          exact Option.some_ne_none _
        rw [if_pos ⟨htype, hfull, hne⟩] at hevent
        obtain ⟨hempty, hnew⟩ := getBuffer_flush (c := c) (hagentless.trans hknown) routing
        refine inv_appendBase (inv_flush hinv) fun _ => ?_
        obtain ⟨hsite, hroom⟩ := hevent (Nat.zero_lt_succ _)
        refine ⟨?_, ?_⟩
        · unfold SameSite at hsite ⊢
          by_cases hnil : routing.apiKey = []
          · rw [if_pos hnil] at hsite ⊢
            exact hsite
          · rw [if_neg hnil, hnew hnil]
        · unfold RoomFor at hroom ⊢
          rwa [hempty]
    · rw [if_neg hfull]
      rw [if_neg fun hc => hfull hc.2.1, ← hagain] at hevent
      exact inv_appendBase hinv hevent

theorem inv_init (c : WriterConfig) : ({} : Writer).Inv c where
  keys := rfl
  holds apiKey buffer h := by
    refine holds_nil c apiKey ?_
    by_cases hnil : apiKey = []
    · rw [hnil] at h
      exact Option.some.inj h ▸ rfl
    · rw [bufferAt_of_ne _ hnil] at h
      cases h
  isolated :=
    { order := fun apiKey => by
        unfold held
        by_cases hnil : apiKey = []
        · rw [hnil]
          rfl
        · rw [bufferAt_of_ne _ hnil]
          rfl
      payload := fun r hr => absurd hr not_mem_nil
      routed := fun r hr => absurd hr not_mem_nil
      within := fun r hr => absurd hr not_mem_nil }

theorem inv_step {w' : Writer} {call : WriterCall} (h : w.Inv c) (hfits : w.Fits c call)
    (hstep : w.step c call = some w') : w'.Inv c := by
  cases call with
  | append event routing =>
    cases hstep
    cases happend : w.append c event routing with
    | none => exact h
    | some p => exact inv_append h hfits happend
  | flush =>
    cases hstep
    exact inv_flush h
  | setAgentless agentless =>
    cases hstep
    exact ⟨h.keys, h.holds, h.isolated.order, h.isolated.payload, h.isolated.routed,
      h.isolated.within⟩

end Writer

/-! ## Main results -/

/-- The evaluations of a process that has a site and a key of its own. -/
def evalConfig : WriterConfig where
  type := .evalMetrics
  site := lit "datadoghq.com"
  ddApiKey := lit "key"
  tracerVersion := lit "7.0.0-pre"

/-- An evaluation for one tenant, one for another and one without a routing. -/
def evalCalls : List WriterCall :=
  [.setAgentless true, .append (.str (lit "a")) ⟨lit "key-a", lit "datadoghq.eu"⟩,
    .append (.str (lit "b")) ⟨lit "key-b", []⟩, .append (.str (lit "c")) {}, .flush]

end DdTrace.Llmobs
