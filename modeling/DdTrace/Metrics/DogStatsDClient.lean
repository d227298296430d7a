import DdTrace.Library.Packing
import DdTrace.Library.Run
import DdTrace.Library.Unicode

/-!
# The DogStatsD client

`dogstatsd.js` writes metrics as lines of text into an open buffer.  `_write` closes the buffer
into the queue when the next line would take it over `MAX_BUFFER_SIZE` bytes, and `flush` takes
the queue and hands it to a transport:

* over UDP each closed buffer is one datagram, sent at once to an IP address, and to a host name
  once it is resolved;
* with a metrics proxy they are one HTTP request, and datagrams only where that request fails.

The answers of the network are events of the `World`, so that they may come in any order between
other messages and flushes.

## The argument

A client `Renders` a `Packing` of its lines: the queue holds the bytes of the closed batches, the
open buffer the text of the open one, and the offset its load.  Every line ends in a line feed, so
the bytes of a batch are the bytes of its lines one after the other (`length_render`), and the
offset is positive as soon as a line is open.  `renders_write`, `renders_enqueue` are the two
steps; `tracked_step` carries the packing over a run, beside what each flush has sent
(`Sent`) and been told (`Told`).

* `written_of_run`: what every flush handed over, and what became of it.
* `not_delivered`: the run where nobody hears of a message, because its host is not found.
-/

namespace DdTrace.Dogstatsd

open Library List Option Packing

/-! ## The client -/

/-- Limit from the agent. -/
def MAX_BUFFER_SIZE : ℕ := 1024

/-- `TYPE_COUNTER` and the like. -/
inductive MetricType
  | counter
  | gauge
  | distribution
  | histogram
  deriving DecidableEq

def MetricType.code : MetricType → Str
  | .counter => lit "c"
  | .gauge => lit "g"
  | .distribution => lit "d"
  | .histogram => lit "h"

structure HttpOptions where
  method : Str
  url : Str
  path : Str
  deriving DecidableEq

/-- The options of the constructor; `metricsProxyUrl` as text. -/
structure Options where
  host : Str
  port : ℕ
  tags : List Str
  metricsProxyUrl : Option Str
  deriving DecidableEq

/-- What the client is given by its surroundings: `net.isIP`, the text of a number, and the
container's entity id (the empty text where there is none). -/
structure Env (ν : Type*) where
  isIP : Str → ℕ
  number : ν → Str
  entityId : Str

structure DogStatsDClient where
  httpOptions : Option HttpOptions
  host : Str
  family : ℕ
  port : ℕ
  tagsPrefix : Str
  queue : List (List UInt8)
  buffer : Str
  offset : ℕ
  deriving DecidableEq

variable {ν : Type*}

namespace DogStatsDClient

/-- The constructor. -/
def new (env : Env ν) (o : Options) : DogStatsDClient where
  httpOptions := o.metricsProxyUrl.map fun url => ⟨lit "POST", url, lit "/dogstatsd/v2/proxy"⟩
  host := o.host
  family := env.isIP o.host
  port := o.port
  tagsPrefix := if o.tags.length ≠ 0 then lit "|#" ++ Str.join (unit ',') o.tags else []
  queue := []
  buffer := []
  offset := 0

/-- `_enqueue`: close the open buffer, unless it is empty. -/
def enqueue (c : DogStatsDClient) : DogStatsDClient :=
  if 0 < c.offset then
    { c with queue := c.queue ++ [Unicode.encodeUtf8 c.buffer], buffer := [], offset := 0 }
  else c

/-- `_write`. -/
def write (c : DogStatsDClient) (message : Str) : DogStatsDClient :=
  let offset := Unicode.byteLength message
  let c := if MAX_BUFFER_SIZE < c.offset + offset then c.enqueue else c
  { c with offset := c.offset + offset, buffer := c.buffer ++ message }

/-- The message that `_add` builds, without the line feed. -/
def message (env : Env ν) (tagsPrefix stat : Str) (value : ν) (type : MetricType)
    (tags : List Str) : Str :=
  let message := stat ++ lit ":" ++ env.number value ++ lit "|" ++ type.code
  let message :=
    if tags.length ≠ 0 then
      if tagsPrefix ≠ [] then message ++ tagsPrefix ++ lit "," ++ Str.join (unit ',') tags
      else message ++ lit "|#" ++ Str.join (unit ',') tags
    else message ++ tagsPrefix
  if env.entityId ≠ [] then message ++ lit "|c:" ++ env.entityId else message

/-- `_add`. -/
def add (env : Env ν) (c : DogStatsDClient) (stat : Str) (value : ν) (type : MetricType)
    (tags : List Str) : DogStatsDClient :=
  c.write (message env c.tagsPrefix stat value type tags ++ lit "\n")

end DogStatsDClient

/-- A call that writes a metric. -/
inductive Metric (ν : Type*)
  | increment (stat : Str) (value : ν) (tags : List Str)
  | decrement (stat : Str) (value : ν) (tags : List Str)
  | gauge (stat : Str) (value : ν) (tags : List Str)
  | distribution (stat : Str) (value : ν) (tags : List Str)
  | histogram (stat : Str) (value : ν) (tags : List Str)
  deriving DecidableEq

/-- The methods of the client. -/
def DogStatsDClient.call [Neg ν] (env : Env ν) (c : DogStatsDClient) : Metric ν → DogStatsDClient
  | .increment stat value tags => c.add env stat value .counter tags
  | .decrement stat value tags => c.add env stat (-value) .counter tags
  | .gauge stat value tags => c.add env stat value .gauge tags
  | .distribution stat value tags => c.add env stat value .distribution tags
  | .histogram stat value tags => c.add env stat value .histogram tags

/-- The line a call writes. -/
def Metric.line [Neg ν] (env : Env ν) (tagsPrefix : Str) (m : Metric ν) : Str :=
  match m with
  | .increment stat value tags =>
    DogStatsDClient.message env tagsPrefix stat value .counter tags ++ lit "\n"
  | .decrement stat value tags =>
    DogStatsDClient.message env tagsPrefix stat (-value) .counter tags ++ lit "\n"
  | .gauge stat value tags =>
    DogStatsDClient.message env tagsPrefix stat value .gauge tags ++ lit "\n"
  | .distribution stat value tags =>
    DogStatsDClient.message env tagsPrefix stat value .distribution tags ++ lit "\n"
  | .histogram stat value tags =>
    DogStatsDClient.message env tagsPrefix stat value .histogram tags ++ lit "\n"

theorem DogStatsDClient.call_eq [Neg ν] (env : Env ν) (c : DogStatsDClient) (m : Metric ν) :
    c.call env m = c.write (m.line env c.tagsPrefix) := by
  cases m <;> rfl

/-! ## The network -/

inductive Socket
  | udp4
  | udp6
  deriving DecidableEq

/-- `socket.send(buffer, 0, buffer.length, this._port, address)`. -/
structure Datagram where
  socket : Socket
  payload : List UInt8
  port : ℕ
  address : Str
  deriving DecidableEq

/-- How far one flush has come: its request is under way or was answered, its host is being looked
up or was not found, or its datagrams were sent. -/
inductive Stage
  | posting
  | posted
  | resolving
  | unresolved
  | sent (address : Str) (family : ℕ)
  deriving DecidableEq

/-- A flush that had something to send. -/
structure Sending where
  queue : List (List UInt8)
  stage : Stage
  deriving DecidableEq

/-- The client, its flushes so far, and what went out for the flush of each number. -/
structure World where
  client : DogStatsDClient
  sendings : List Sending
  requests : List (ℕ × List UInt8)
  datagrams : List (ℕ × Datagram)
  deriving DecidableEq

/-- Calls, and the answers of the network to the flush of a number: the outcome of its request
(an error may carry a status), and what its host resolves to. -/
inductive Event (ν : Type*)
  | metric (m : Metric ν)
  | flush
  | response (i : ℕ) (error : Option (Option ℕ))
  | lookup (i : ℕ) (found : Option (Str × ℕ))
  deriving DecidableEq

namespace DogStatsDClient

/-- `_sendUdpFromQueue`. -/
def sendUdpFromQueue (c : DogStatsDClient) (queue : List (List UInt8)) (address : Str)
    (family : ℕ) : List Datagram :=
  queue.map fun buffer => ⟨if family = 6 then .udp6 else .udp4, buffer, c.port, address⟩

/-- `_sendUdp`: the stage it leaves the flush in, and what it sends at once. -/
def sendUdp (c : DogStatsDClient) (queue : List (List UInt8)) : Stage × List Datagram :=
  if c.family = 0 then (.resolving, [])
  else (.sent c.host c.family, c.sendUdpFromQueue queue c.host c.family)

end DogStatsDClient

namespace World

def start (env : Env ν) (o : Options) : World := ⟨.new env o, [], [], []⟩

/-- `flush`. -/
def flush (w : World) : World :=
  let c := w.client.enqueue
  let queue := c.queue
  if queue.length = 0 then { w with client := c }
  else
    let c := { c with queue := [] }
    let i := w.sendings.length
    match c.httpOptions with
    | some _ =>
      -- `_sendHttp`: one request with the buffers concatenated
      { w with
        client := c
        sendings := w.sendings ++ [⟨queue, .posting⟩]
        requests := w.requests ++ [(i, queue.flatten)] }
    | none =>
      { w with
        client := c
        sendings := w.sendings ++ [⟨queue, (c.sendUdp queue).1⟩]
        datagrams := w.datagrams ++ (c.sendUdp queue).2.map (Prod.mk i) }

/-- The callback of the request of flush `i`. -/
def response (w : World) (i : ℕ) (error : Option (Option ℕ)) : Option World :=
  match w.sendings[i]? with
  | some ⟨queue, .posting⟩ =>
    match error with
    | none => some { w with sendings := w.sendings.set i ⟨queue, .posted⟩ }
    | some status =>
      let c := if status = some 404 then { w.client with httpOptions := none } else w.client
      some { w with
        client := c
        sendings := w.sendings.set i ⟨queue, (c.sendUdp queue).1⟩
        datagrams := w.datagrams ++ (c.sendUdp queue).2.map (Prod.mk i) }
  | _ => none

/-- The callback of the lookup of flush `i`. -/
def lookup (w : World) (i : ℕ) (found : Option (Str × ℕ)) : Option World :=
  match w.sendings[i]? with
  | some ⟨queue, .resolving⟩ =>
    match found with
    | none => some { w with sendings := w.sendings.set i ⟨queue, .unresolved⟩ }
    | some (address, family) =>
      some { w with
        sendings := w.sendings.set i ⟨queue, .sent address family⟩
        datagrams := w.datagrams ++
          (w.client.sendUdpFromQueue queue address family).map (Prod.mk i) }
  | _ => none

def step [Neg ν] (env : Env ν) (w : World) : Event ν → Option World
  | .metric m => some { w with client := w.client.call env m }
  | .flush => some w.flush
  | .response i error => w.response i error
  | .lookup i found => w.lookup i found

/-- The datagrams sent for flush `i`, in order. -/
def sentFor (w : World) (i : ℕ) : List Datagram :=
  (w.datagrams.filter fun d => d.1 = i).map Prod.snd

/-- The bodies of the requests made for flush `i`. -/
def bodies (w : World) (i : ℕ) : List (List UInt8) :=
  (w.requests.filter fun r => r.1 = i).map Prod.snd

end World

/-! ## The lines that were written -/

/-- The lines between two flushes: those of each flush that had some, and those since. -/
structure Account where
  flushed : List (List Str)
  pending : List Str
  deriving DecidableEq

def Account.next [Neg ν] (env : Env ν) (tagsPrefix : Str) (a : Account) : Event ν → Account
  | .metric m => { a with pending := a.pending ++ [m.line env tagsPrefix] }
  | .flush => if a.pending = [] then a else ⟨a.flushed ++ [a.pending], []⟩
  | _ => a

def account [Neg ν] (env : Env ν) (tagsPrefix : Str) (evs : List (Event ν)) : Account :=
  evs.foldl (Account.next env tagsPrefix) ⟨[], []⟩

theorem account_concat [Neg ν] (env : Env ν) (tagsPrefix : Str) (evs : List (Event ν))
    (e : Event ν) :
    account env tagsPrefix (evs ++ [e]) = (account env tagsPrefix evs).next env tagsPrefix e := by
  rw [account, foldl_append]
  rfl

/-- The line an event writes. -/
def Event.lines [Neg ν] (env : Env ν) (tagsPrefix : Str) : Event ν → List Str
  | .metric m => [m.line env tagsPrefix]
  | _ => []

/-- The account has every line, in order. -/
theorem flatten_account [Neg ν] (env : Env ν) (tagsPrefix : Str) (evs : List (Event ν)) :
    (account env tagsPrefix evs).flushed.flatten ++ (account env tagsPrefix evs).pending =
      evs.flatMap (Event.lines env tagsPrefix) := by
  induction evs using List.reverseRecOn with
  | nil => rfl
  | append_singleton evs e ih =>
    rw [account_concat, flatMap_append, ← ih]
    cases e with
    | metric m =>
      show (account env tagsPrefix evs).flushed.flatten ++
        ((account env tagsPrefix evs).pending ++ [m.line env tagsPrefix]) = _
      rw [← append_assoc]
      rfl
    | flush =>
      show (Account.flushed (if _ then _ else _)).flatten ++ Account.pending (if _ then _ else _) = _
      by_cases hnil : (account env tagsPrefix evs).pending = []
      · rw [if_pos hnil]
        exact (append_nil _).symm
      · rw [if_neg hnil, flatten_append, flatten_singleton, append_nil]
        exact (append_nil _).symm
    | response i error | lookup i found => exact (append_nil _).symm

/-- The bytes of some lines. -/
def render (batch : List Str) : List UInt8 := Unicode.encodeUtf8 batch.flatten

/-- **A queue of buffers packs some lines**: the lines in order, each whole in one buffer, and every
buffer of at most `MAX_BUFFER_SIZE` bytes or one single line. -/
def Packs (queue : List (List UInt8)) (lines : List Str) : Prop :=
  ∃ batches : List (List Str), batches.flatten = lines ∧ queue = batches.map render ∧
    ∀ batch ∈ batches, batch ≠ [] ∧ ((render batch).length ≤ MAX_BUFFER_SIZE ∨ batch.length = 1)

/-! ## A client and the packing of its lines -/

/-- A string that ends in a line feed. -/
def IsLine (s : Str) : Prop := ∃ body, s = body ++ lit "\n"

theorem isLine_line [Neg ν] (env : Env ν) (tagsPrefix : Str) (m : Metric ν) :
    IsLine (m.line env tagsPrefix) := by
  cases m <;> exact ⟨_, rfl⟩

theorem IsLine.not_high {s : Str} (h : IsLine s) : ∀ u ∈ s.getLast?, Unicode.isHigh u = false := by
  obtain ⟨body, rfl⟩ := h
  intro u hu
  have hlast : (body ++ lit "\n").getLast? = some (unit '\n') := getLast?_concat
  rw [hlast, mem_some_iff] at hu
  rw [← hu]
  decide

theorem IsLine.byteLength_pos {s : Str} (h : IsLine s) : 0 < Unicode.byteLength s := by
  obtain ⟨body, rfl⟩ := h
  exact Unicode.byteLength_pos (append_ne_nil_of_right_ne_nil _ (cons_ne_nil _ _))

/-- The bytes of lines are the bytes of each of them, one after the other. -/
theorem length_render {batch : List Str} (h : ∀ s ∈ batch, IsLine s) :
    (render batch).length = load Unicode.byteLength batch := by
  induction batch with
  | nil => rfl
  | cons s batch ih =>
    have hs := (h s mem_cons_self).not_high
    have hrest := ih (forall_mem_cons.mp h).2
    rw [render, flatten_cons, Unicode.encodeUtf8_append hs, length_append, load, map_cons]
    exact congrArg (Unicode.byteLength s + ·) hrest

/-- **A client renders a packing of its lines.** -/
structure Renders (c : DogStatsDClient) (p : Packing Unicode.byteLength MAX_BUFFER_SIZE) :
    Prop where
  queue : c.queue = p.closed.map render
  buffer : c.buffer = p.opened.flatten
  offset : c.offset = load Unicode.byteLength p.opened
  lines : ∀ s ∈ p.items, IsLine s

variable {c : DogStatsDClient} {env : Env ν} {o : Options}
  {p : Packing Unicode.byteLength MAX_BUFFER_SIZE}

theorem Renders.offset_pos_iff (h : Renders c p) :
    0 < c.offset ↔ p.opened ≠ [] := by
  rw [h.offset]
  constructor
  · intro hpos hnil
    rw [hnil] at hpos
    exact absurd hpos (Nat.lt_irrefl 0)
  · intro hne
    obtain ⟨s, rest, heq⟩ := exists_cons_of_ne_nil hne
    have hs : IsLine s := by
      apply h.lines
      rw [Packing.items, heq]
      exact mem_append_right _ mem_cons_self
    rw [heq, load, map_cons]
    exact Nat.add_pos_left hs.byteLength_pos _

theorem renders_enqueue (h : Renders c p) : Renders c.enqueue p.close := by
  by_cases hopen : p.opened = []
  · have hoff : ¬0 < c.offset := fun hpos => h.offset_pos_iff.mp hpos hopen
    rwa [DogStatsDClient.enqueue, if_neg hoff, close_of_nil hopen]
  · rw [DogStatsDClient.enqueue, if_pos (h.offset_pos_iff.mpr hopen)]
    constructor
    · rw [closed_close_of_ne hopen, map_append, h.queue, h.buffer]
      rfl
    · rw [opened_close]
      rfl
    · rw [opened_close]
      rfl
    · rw [items_close]
      exact h.lines

theorem renders_write (h : Renders c p) {s : Str} (hs : IsLine s) :
    Renders (c.write s) (p.write s) := by
  have hlines : ∀ t ∈ (p.write s).items, IsLine t := by
    intro t ht
    rw [items_write] at ht
    rcases mem_append.mp ht with ht | ht
    · exact h.lines t ht
    · rw [mem_singleton.mp ht]
      exact hs
  by_cases hfull : MAX_BUFFER_SIZE < load Unicode.byteLength p.opened + Unicode.byteLength s
  · -- the line does not fit: it starts a buffer of its own
    have hc := renders_enqueue h
    rw [DogStatsDClient.write, h.offset, if_pos hfull]
    rw [Packing.write, dif_pos hfull] at hlines ⊢
    constructor
    · exact hc.queue
    · rw [hc.buffer, opened_close, flatten_singleton]
      rfl
    · rw [hc.offset, opened_close, load_nil, load_singleton, Nat.zero_add]
    · exact hlines
  · rw [DogStatsDClient.write, h.offset, if_neg hfull]
    rw [Packing.write, dif_neg hfull] at hlines ⊢
    constructor
    · exact h.queue
    · rw [h.buffer, flatten_append, flatten_singleton]
    · rw [load_concat, h.offset]
    · exact hlines

/-- What the closed buffers of a client pack. -/
theorem packs_of_renders (h : Renders c p) (hopen : p.opened = []) : Packs c.queue p.items := by
  have hitems : p.items = p.closed.flatten := by rw [Packing.items, hopen, append_nil]
  refine ⟨p.closed, hitems.symm, h.queue, fun batch hb => ⟨?_, ?_⟩⟩
  · rintro rfl
    exact p.nonempty hb
  · have hlines : ∀ s ∈ batch, IsLine s := by
      intro s hs
      apply h.lines
      rw [hitems]
      exact mem_flatten.mpr ⟨batch, hb, hs⟩
    rw [length_render hlines]
    exact p.fits batch hb

/-- Where a client sends to and what it prefixes tags with. -/
structure Settings (env : Env ν) (o : Options) (c : DogStatsDClient) : Prop where
  host : c.host = o.host
  family : c.family = env.isIP o.host
  port : c.port = o.port
  tagsPrefix : c.tagsPrefix = (DogStatsDClient.new env o).tagsPrefix
  httpOptions : o.metricsProxyUrl = none → c.httpOptions = none

theorem settings_new (env : Env ν) (o : Options) : Settings env o (.new env o) :=
  ⟨rfl, rfl, rfl, rfl, fun h => by rw [DogStatsDClient.new, h]; rfl⟩

theorem settings_enqueue (h : Settings env o c) : Settings env o c.enqueue := by
  unfold DogStatsDClient.enqueue
  split
  · exact ⟨h.host, h.family, h.port, h.tagsPrefix, h.httpOptions⟩
  · exact h

theorem settings_write (h : Settings env o c) (s : Str) : Settings env o (c.write s) := by
  have hc : Settings env o (if MAX_BUFFER_SIZE < c.offset + Unicode.byteLength s then c.enqueue
      else c) := by
    split
    · exact settings_enqueue h
    · exact h
  exact ⟨hc.host, hc.family, hc.port, hc.tagsPrefix, hc.httpOptions⟩

/-! ## What a flush has sent and been told -/

/-- No answer of the network was about flush `i`. -/
def Unanswered (evs : List (Event ν)) (i : ℕ) : Prop :=
  (∀ error, .response i error ∉ evs) ∧ ∀ found, .lookup i found ∉ evs

/-- The answers that brought flush `i` to a stage, for a client of the options `o`. -/
def Told (env : Env ν) (o : Options) (evs : List (Event ν)) (i : ℕ) : Stage → Prop
  | .posting => Unanswered evs i
  | .posted => (∀ error, .response i error ∈ evs → error = none) ∧ ∀ found, .lookup i found ∉ evs
  | .resolving =>
    env.isIP o.host = 0 ∧ .response i none ∉ evs ∧ ∀ found, .lookup i found ∉ evs
  | .unresolved =>
    env.isIP o.host = 0 ∧ .response i none ∉ evs ∧ ∀ found, .lookup i found ∈ evs → found = none
  | .sent address family =>
    .response i none ∉ evs ∧ (∀ found, .lookup i found ∈ evs → found = some (address, family)) ∧
      (env.isIP o.host ≠ 0 → address = o.host ∧ family = env.isIP o.host)

/-- Some buffers as datagrams. -/
def datagramsTo (o : Options) (address : Str) (family : ℕ) (queue : List (List UInt8)) :
    List Datagram :=
  queue.map fun buffer => ⟨if family = 6 then .udp6 else .udp4, buffer, o.port, address⟩

/-- The datagrams of a flush at a stage. -/
def Sending.datagrams (o : Options) (s : Sending) : List Datagram :=
  match s.stage with
  | .sent address family => datagramsTo o address family s.queue
  | _ => []

/-- Whether the request of a flush is under way or went through. -/
def Stage.viaHttp : Stage → Bool
  | .posting => true
  | .posted => true
  | _ => false

section About

variable {env : Env ν} {o : Options} {evs : List (Event ν)} {e : Event ν} {i : ℕ}

/-- An event that is no answer to flush `i`. -/
def NotAbout (i : ℕ) (e : Event ν) : Prop :=
  (∀ error, e ≠ .response i error) ∧ ∀ found, e ≠ .lookup i found

theorem NotAbout.response (h : NotAbout i e) (error : Option (Option ℕ)) :
    .response i error ∈ evs ++ [e] ↔ .response i error ∈ evs := by
  rw [mem_append, mem_singleton]
  exact or_iff_left fun he => h.1 error he.symm

theorem NotAbout.lookup (h : NotAbout i e) (found : Option (Str × ℕ)) :
    .lookup i found ∈ evs ++ [e] ↔ .lookup i found ∈ evs := by
  rw [mem_append, mem_singleton]
  exact or_iff_left fun he => h.2 found he.symm

theorem NotAbout.told (h : NotAbout i e) (st : Stage) :
    Told env o (evs ++ [e]) i st ↔ Told env o evs i st := by
  cases st <;> simp only [Told, Unanswered, h.response, h.lookup]

theorem NotAbout.unanswered (h : NotAbout i e) : Unanswered (evs ++ [e]) i ↔ Unanswered evs i := by
  simp only [Unanswered, h.response, h.lookup]

theorem notAbout_metric (i : ℕ) (m : Metric ν) : NotAbout i (.metric m) :=
  ⟨fun _ h => (by cases h), fun _ h => (by cases h)⟩

theorem notAbout_flush (i : ℕ) : NotAbout i (.flush : Event ν) :=
  ⟨fun _ h => (by cases h), fun _ h => (by cases h)⟩

theorem notAbout_response {j : ℕ} (h : j ≠ i) (error : Option (Option ℕ)) :
    NotAbout (ν := ν) i (.response j error) :=
  ⟨fun _ he => h (Event.response.inj he).1, fun _ he => (by cases he)⟩

theorem notAbout_lookup {j : ℕ} (h : j ≠ i) (found : Option (Str × ℕ)) :
    NotAbout (ν := ν) i (.lookup j found) :=
  ⟨fun _ he => (by cases he), fun _ he => h (Event.lookup.inj he).1⟩

end About

/-- **What a run keeps track of**: the packing of the lines since the last flush, the buffers of
every flush, the answers it was given, and what went out for it. -/
structure Tracked [Neg ν] (env : Env ν) (o : Options) (evs : List (Event ν)) (w : World) :
    Prop where
  settings : Settings env o w.client
  packing : ∃ p, Renders w.client p ∧
    p.items = (account env (DogStatsDClient.new env o).tagsPrefix evs).pending
  flushed : List.Forall₂ (fun s lines => Packs s.queue lines) w.sendings
    (account env (DogStatsDClient.new env o).tagsPrefix evs).flushed
  told : ∀ i s, w.sendings[i]? = some s → Told env o evs i s.stage
  fresh : ∀ i, w.sendings.length ≤ i → Unanswered evs i ∧ w.bodies i = []
  sent : ∀ i, w.sentFor i = (w.sendings[i]?.map (Sending.datagrams o)).getD []
  requested : ∀ i s, w.sendings[i]? = some s →
    w.bodies i = [s.queue.flatten] ∧ o.metricsProxyUrl ≠ none ∨
      w.bodies i = [] ∧ s.stage.viaHttp = false ∧ ∀ error, .response i error ∉ evs

theorem tracked_start [Neg ν] (env : Env ν) (o : Options) :
    Tracked env o [] (World.start env o) where
  settings := settings_new env o
  packing := ⟨Packing.empty, ⟨rfl, rfl, rfl, fun _ h => absurd h not_mem_nil⟩, rfl⟩
  flushed := List.Forall₂.nil
  told := fun _ _ h => absurd h (by simp [World.start])
  fresh := fun _ _ => ⟨⟨fun _ => not_mem_nil, fun _ => not_mem_nil⟩, rfl⟩
  sent := fun _ => by simp [World.sentFor, World.start]
  requested := fun _ _ h => absurd h (by simp [World.start])

/-- What is logged under a number, after more was logged under one number. -/
theorem filter_append_tagged {β : Type*} (l : List (ℕ × β)) (new : List β) (i j : ℕ) :
    ((l ++ new.map (Prod.mk i)).filter fun d => d.1 = j).map Prod.snd =
      (l.filter fun d => d.1 = j).map Prod.snd ++ if i = j then new else [] := by
  rw [filter_append, map_append]
  congr 1
  by_cases h : i = j
  · have hall : (new.map (Prod.mk i)).filter (fun d => d.1 = j) = new.map (Prod.mk i) := by
      apply filter_eq_self.mpr
      intro d hd
      obtain ⟨_, _, rfl⟩ := List.mem_map.mp hd
      exact decide_eq_true h
    rw [hall, if_pos h, List.map_map]
    exact List.map_id _
  · have hnone : (new.map (Prod.mk i)).filter (fun d => d.1 = j) = [] := by
      apply filter_eq_nil_iff.mpr
      intro d hd
      obtain ⟨_, _, rfl⟩ := List.mem_map.mp hd
      rw [decide_eq_true_eq]
      exact h
    rw [hnone, if_neg h, map_nil]

/-- Where a client sends at once, it sends to the address it was given. -/
theorem datagrams_sendUdp (h : Settings env o c) (queue : List (List UInt8)) :
    (c.sendUdp queue).2 = Sending.datagrams o ⟨queue, (c.sendUdp queue).1⟩ := by
  unfold DogStatsDClient.sendUdp
  split
  · rfl
  · show c.sendUdpFromQueue queue c.host c.family = datagramsTo o c.host c.family queue
    rw [DogStatsDClient.sendUdpFromQueue, datagramsTo, h.port]

theorem viaHttp_sendUdp (c : DogStatsDClient) (queue : List (List UInt8)) :
    (c.sendUdp queue).1.viaHttp = false := by
  unfold DogStatsDClient.sendUdp
  split <;> rfl

theorem told_sendUdp (h : Settings env o c)
    (queue : List (List UInt8)) {evs : List (Event ν)} {i : ℕ} (hr : .response i none ∉ evs)
    (hl : ∀ found, .lookup i found ∉ evs) : Told env o evs i (c.sendUdp queue).1 := by
  unfold DogStatsDClient.sendUdp
  by_cases hf : c.family = 0
  · rw [if_pos hf]
    exact ⟨h.family ▸ hf, hr, hl⟩
  · rw [if_neg hf]
    exact ⟨hr, fun found hmem => absurd hmem (hl found), fun _ => ⟨h.host, h.family⟩⟩

section Steps

variable [Neg ν] {env : Env ν} {o : Options} {evs : List (Event ν)} {w : World}

theorem tracked_metric (h : Tracked env o evs w) (m : Metric ν) :
    Tracked env o (evs ++ [.metric m]) { w with client := w.client.call env m } := by
  obtain ⟨p, hp, hitems⟩ := h.packing
  have hacc : account env (DogStatsDClient.new env o).tagsPrefix (evs ++ [.metric m]) = _ :=
    account_concat _ _ _ _
  have hcall := DogStatsDClient.call_eq env w.client m
  rw [h.settings.tagsPrefix] at hcall
  constructor
  · rw [hcall]
    exact settings_write h.settings _
  · refine ⟨p.write (m.line env (DogStatsDClient.new env o).tagsPrefix), ?_, ?_⟩
    · rw [hcall]
      exact renders_write hp (isLine_line env _ m)
    · rw [items_write, hacc, hitems]
      rfl
  · rw [hacc]
    exact h.flushed
  · exact fun i s hs => ((notAbout_metric i m).told _).mpr (h.told i s hs)
  · exact fun i hi => ⟨(notAbout_metric i m).unanswered.mpr (h.fresh i hi).1, (h.fresh i hi).2⟩
  · exact h.sent
  · intro i s hs
    rcases h.requested i s hs with hreq | hreq
    · exact Or.inl hreq
    · exact Or.inr ⟨hreq.1, hreq.2.1, fun error =>
        fun hmem => hreq.2.2 error (((notAbout_metric i m).response error).mp hmem)⟩

/-- A flush of the client that has nothing to send leaves the packing closed. -/
theorem tracked_flush_nil (h : Tracked env o evs w) (hnil : w.client.enqueue.queue = []) :
    Tracked env o (evs ++ [.flush]) { w with client := w.client.enqueue } := by
  obtain ⟨p, hp, hitems⟩ := h.packing
  have hclose := renders_enqueue hp
  have hpending : (account env (DogStatsDClient.new env o).tagsPrefix evs).pending = [] := by
    rw [← hitems, ← closed_close_eq_nil_iff]
    have hqueue := hclose.queue
    rw [hnil] at hqueue
    exact map_eq_nil_iff.mp hqueue.symm
  have hacc : account env (DogStatsDClient.new env o).tagsPrefix (evs ++ [.flush]) =
      account env (DogStatsDClient.new env o).tagsPrefix evs := by
    rw [account_concat, Account.next, if_pos hpending]
  constructor
  · exact settings_enqueue h.settings
  · exact ⟨p.close, hclose, by rw [items_close, hacc, hitems]⟩
  · rw [hacc]
    exact h.flushed
  · exact fun i s hs => ((notAbout_flush i).told _).mpr (h.told i s hs)
  · exact fun i hi => ⟨(notAbout_flush i).unanswered.mpr (h.fresh i hi).1, (h.fresh i hi).2⟩
  · exact h.sent
  · intro i s hs
    rcases h.requested i s hs with hreq | hreq
    · exact Or.inl hreq
    · exact Or.inr ⟨hreq.1, hreq.2.1, fun error hmem =>
        hreq.2.2 error (((notAbout_flush i).response error).mp hmem)⟩

/-- A flush that takes the queue: it gets the next number and the stage `st`, after `requests` and
`new` datagrams. -/
theorem tracked_flush_taken (h : Tracked env o evs w) (hne : w.client.enqueue.queue ≠ [])
    (st : Stage) (requests : List (List UInt8))
    (htold : Told env o (evs ++ [.flush]) w.sendings.length st)
    (hreq : requests = [w.client.enqueue.queue.flatten] ∧ o.metricsProxyUrl ≠ none ∨
      requests = [] ∧ st.viaHttp = false) :
    Tracked env o (evs ++ [.flush])
      { client := { w.client.enqueue with queue := [] }
        sendings := w.sendings ++ [⟨w.client.enqueue.queue, st⟩]
        requests := w.requests ++ requests.map (Prod.mk w.sendings.length)
        datagrams := w.datagrams ++ (Sending.datagrams o ⟨w.client.enqueue.queue, st⟩).map
          (Prod.mk w.sendings.length) } := by
  obtain ⟨p, hp, hitems⟩ := h.packing
  have hclose := renders_enqueue hp
  have hpending : (account env (DogStatsDClient.new env o).tagsPrefix evs).pending ≠ [] := by
    rw [← hitems]
    intro hnil
    apply hne
    rw [hclose.queue, closed_close_eq_nil_iff.mpr hnil, map_nil]
  have hacc : account env (DogStatsDClient.new env o).tagsPrefix (evs ++ [.flush]) =
      ⟨(account env (DogStatsDClient.new env o).tagsPrefix evs).flushed ++
        [(account env (DogStatsDClient.new env o).tagsPrefix evs).pending], []⟩ := by
    rw [account_concat, Account.next, if_neg hpending]
  have hpacks := packs_of_renders hclose (opened_close p)
  rw [items_close, hitems] at hpacks
  have hold : ∀ {i}, i < w.sendings.length →
      (w.sendings ++ [⟨w.client.enqueue.queue, st⟩])[i]? = w.sendings[i]? :=
    fun hi => getElem?_append_left hi
  have hnew : (w.sendings ++ [⟨w.client.enqueue.queue, st⟩])[w.sendings.length]? =
      some ⟨w.client.enqueue.queue, st⟩ := getElem?_concat_length
  have hlen : (w.sendings ++ [(⟨w.client.enqueue.queue, st⟩ : Sending)]).length =
      w.sendings.length + 1 := length_append
  have hout : ∀ {i}, w.sendings.length < i →
      (w.sendings ++ [⟨w.client.enqueue.queue, st⟩])[i]? = none := fun hi =>
    getElem?_eq_none (by rw [hlen]; exact hi)
  constructor
  · have hs := settings_enqueue h.settings
    exact ⟨hs.host, hs.family, hs.port, hs.tagsPrefix, hs.httpOptions⟩
  · refine ⟨Packing.empty, ⟨rfl, ?_, ?_, fun _ hmem => absurd hmem not_mem_nil⟩, ?_⟩
    · rw [hclose.buffer, opened_close]
      rfl
    · rw [hclose.offset, opened_close]
      rfl
    · rw [hacc]
      rfl
  · rw [hacc]
    exact rel_append h.flushed (List.Forall₂.cons hpacks List.Forall₂.nil)
  · intro i s hs
    rcases Nat.lt_trichotomy i w.sendings.length with hi | rfl | hi
    · exact ((notAbout_flush i).told _).mpr (h.told i s ((hold hi).symm.trans hs))
    · rw [← some.inj (hnew.symm.trans hs)]
      exact htold
    · cases (hout hi).symm.trans hs
  · intro i hi
    have hi' : w.sendings.length + 1 ≤ i := hlen ▸ hi
    refine ⟨(notAbout_flush i).unanswered.mpr (h.fresh i (by omega)).1, ?_⟩
    show ((w.requests ++ requests.map (Prod.mk w.sendings.length)).filter _).map _ = []
    rw [filter_append_tagged, if_neg (by omega), append_nil]
    exact (h.fresh i (by omega)).2
  · intro i
    show ((w.datagrams ++ _).filter _).map _ = _
    rw [filter_append_tagged]
    have hsent := h.sent i
    unfold World.sentFor at hsent
    rw [hsent]
    rcases Nat.lt_trichotomy i w.sendings.length with hi | rfl | hi
    · rw [if_neg (by omega), append_nil, hold hi]
    · rw [if_pos rfl, hnew, getElem?_eq_none (Nat.le_refl _)]
      rfl
    · rw [if_neg (by omega), append_nil, getElem?_eq_none (by omega), hout hi]
  · intro i s hs
    have hbodies : ∀ j, World.bodies
        { client := { w.client.enqueue with queue := [] }
          sendings := w.sendings ++ [⟨w.client.enqueue.queue, st⟩]
          requests := w.requests ++ requests.map (Prod.mk w.sendings.length)
          datagrams := w.datagrams ++ (Sending.datagrams o ⟨w.client.enqueue.queue, st⟩).map
            (Prod.mk w.sendings.length) } j =
        w.bodies j ++ if w.sendings.length = j then requests else [] :=
      filter_append_tagged _ _ _
    rw [hbodies]
    rcases Nat.lt_trichotomy i w.sendings.length with hi | rfl | hi
    · rw [if_neg (by omega), append_nil]
      rcases h.requested i s ((hold hi).symm.trans hs) with hold' | hold'
      · exact Or.inl hold'
      · exact Or.inr ⟨hold'.1, hold'.2.1, fun error hmem =>
          hold'.2.2 error (((notAbout_flush i).response error).mp hmem)⟩
    · rw [if_pos rfl, (h.fresh _ (Nat.le_refl _)).2, ← some.inj (hnew.symm.trans hs)]
      rcases hreq with hreq | hreq
      · exact Or.inl hreq
      · exact Or.inr ⟨hreq.1, hreq.2, fun error hmem =>
          (h.fresh _ (Nat.le_refl _)).1.1 error (((notAbout_flush _).response error).mp hmem)⟩
    · cases (hout hi).symm.trans hs

theorem tracked_flush (h : Tracked env o evs w) : Tracked env o (evs ++ [.flush]) w.flush := by
  have hfresh := (notAbout_flush _).unanswered.mpr (h.fresh _ (Nat.le_refl w.sendings.length)).1
  unfold World.flush
  by_cases hnil : w.client.enqueue.queue.length = 0
  · rw [if_pos hnil]
    exact tracked_flush_nil h (length_eq_zero_iff.mp hnil)
  · rw [if_neg hnil]
    have hne : w.client.enqueue.queue ≠ [] := fun hq => hnil (by rw [hq]; rfl)
    have hsettings := settings_enqueue h.settings
    have hsettings' : Settings env o { w.client.enqueue with queue := [] } :=
      ⟨hsettings.host, hsettings.family, hsettings.port, hsettings.tagsPrefix,
        hsettings.httpOptions⟩
    dsimp only
    split
    · next options hoptions =>
      have hproxy : o.metricsProxyUrl ≠ none := fun hnone => by
        rw [hsettings.httpOptions hnone] at hoptions
        cases hoptions
      have htaken := tracked_flush_taken h hne .posting [w.client.enqueue.queue.flatten] hfresh (Or.inl ⟨rfl, hproxy⟩)
      rwa [Sending.datagrams, map_nil, append_nil] at htaken
    · have htaken := tracked_flush_taken h hne _ []
        (told_sendUdp hsettings' w.client.enqueue.queue (hfresh.1 none) hfresh.2)
        (Or.inr ⟨rfl, viaHttp_sendUdp _ _⟩)
      rwa [← datagrams_sendUdp hsettings', map_nil, append_nil] at htaken

/-- An answer to flush `i` that takes it from a stage without datagrams to the stage `st`, and sends
the datagrams of that stage. -/
theorem tracked_answer (h : Tracked env o evs w) {e : Event ν} {i : ℕ} {s : Sending}
    (hs : w.sendings[i]? = some s) (hbefore : s.datagrams o = [])
    (habout : ∀ j, j ≠ i → NotAbout j e)
    (hacc : ∀ a : Account, a.next env (DogStatsDClient.new env o).tagsPrefix e = a)
    {c : DogStatsDClient} (hc : Settings env o c) (hqueue : c.queue = w.client.queue)
    (hbuffer : c.buffer = w.client.buffer) (hoffset : c.offset = w.client.offset) (st : Stage)
    (htold : Told env o (evs ++ [e]) i st)
    (hreq : w.bodies i = [s.queue.flatten] ∨ st.viaHttp = false ∧ ∀ error, e ≠ .response i error) :
    Tracked env o (evs ++ [e])
      { w with
        client := c
        sendings := w.sendings.set i ⟨s.queue, st⟩
        datagrams := w.datagrams ++ (Sending.datagrams o ⟨s.queue, st⟩).map (Prod.mk i) } := by
  have hi : i < w.sendings.length := (List.getElem?_eq_some_iff.mp hs).1
  have haccount : account env (DogStatsDClient.new env o).tagsPrefix (evs ++ [e]) =
      account env (DogStatsDClient.new env o).tagsPrefix evs := by
    rw [account_concat, hacc]
  have hself : (w.sendings.set i ⟨s.queue, st⟩)[i]? = some ⟨s.queue, st⟩ :=
    getElem?_set_self hi
  have hother : ∀ {j}, j ≠ i → (w.sendings.set i ⟨s.queue, st⟩)[j]? = w.sendings[j]? :=
    fun hj => getElem?_set_ne (Ne.symm hj)
  constructor
  · exact hc
  · obtain ⟨p, hp, hitems⟩ := h.packing
    refine ⟨p, ⟨hqueue.trans hp.queue, hbuffer.trans hp.buffer, hoffset.trans hp.offset,
      hp.lines⟩, ?_⟩
    rw [haccount]
    exact hitems
  · rw [haccount]
    have hflushed := h.flushed
    rw [List.forall₂_iff_get] at hflushed ⊢
    obtain ⟨hlen, hget⟩ := hflushed
    refine ⟨(length_set ..).trans hlen, fun j hj hj' => ?_⟩
    have hj'' : j < w.sendings.length := by
      rw [length_set] at hj
      exact hj
    have hpacks := hget j hj'' hj'
    by_cases hji : j = i
    · subst hji
      have hold : w.sendings.get ⟨j, hj''⟩ = s :=
        some.inj ((getElem?_eq_getElem hj'').symm.trans hs)
      rw [hold] at hpacks
      simpa using hpacks
    · simpa [getElem_set_ne (Ne.symm hji)] using hpacks
  · intro j t ht
    by_cases hji : j = i
    · subst hji
      rw [← some.inj (hself.symm.trans ht)]
      exact htold
    · exact ((habout j hji).told _).mpr (h.told j t ((hother hji).symm.trans ht))
  · intro j hj
    have hj' : w.sendings.length ≤ j := by
      rw [← length_set]
      exact hj
    exact ⟨(habout j (by omega)).unanswered.mpr (h.fresh j hj').1, (h.fresh j hj').2⟩
  · intro j
    show ((w.datagrams ++ _).filter _).map _ = _
    rw [filter_append_tagged]
    have hsent := h.sent j
    unfold World.sentFor at hsent
    rw [hsent]
    by_cases hji : j = i
    · subst hji
      rw [if_pos rfl, hs, hself, map_some, hbefore]
      rfl
    · rw [if_neg (Ne.symm hji), append_nil, hother hji]
  · intro j t ht
    by_cases hji : j = i
    · subst hji
      rw [← some.inj (hself.symm.trans ht)]
      rcases h.requested j s hs with hold | hold
      · exact Or.inl hold
      · rcases hreq with hreq | hreq
        · exact absurd (hold.1.symm.trans hreq) (cons_ne_nil _ _).symm
        · refine Or.inr ⟨hold.1, hreq.1, fun error hmem => ?_⟩
          rcases mem_append.mp hmem with hmem | hmem
          · exact hold.2.2 error hmem
          · exact hreq.2 error (mem_singleton.mp hmem).symm
    · rcases h.requested j t ((hother hji).symm.trans ht) with hold | hold
      · exact Or.inl hold
      · exact Or.inr ⟨hold.1, hold.2.1, fun error hmem =>
          hold.2.2 error (((habout j hji).response error).mp hmem)⟩

theorem tracked_response (h : Tracked env o evs w) {i : ℕ} {error : Option (Option ℕ)} {w' : World}
    (hstep : w.response i error = some w') : Tracked env o (evs ++ [.response i error]) w' := by
  unfold World.response at hstep
  split at hstep
  · next queue hs =>
    have hbodies : w.bodies i = [queue.flatten] := by
      rcases h.requested i _ hs with hreq | hreq
      · exact hreq.1
      · cases hreq.2.1
    have htold : Unanswered evs i := h.told i _ hs
    have hmem : ∀ x, .response i x ∈ evs ++ [.response (ν := ν) i error] → x = error := by
      intro x hx
      rcases mem_append.mp hx with hx | hx
      · exact absurd hx (htold.1 x)
      · exact (Event.response.inj (mem_singleton.mp hx)).2
    have hlookup : ∀ found, .lookup i found ∉ evs ++ [.response (ν := ν) i error] := by
      intro found hx
      rcases mem_append.mp hx with hx | hx
      · exact htold.2 found hx
      · cases mem_singleton.mp hx
    cases error with
    | none =>
      have hw' := some.inj hstep
      have hanswer := tracked_answer h hs rfl (fun j hj => notAbout_response (Ne.symm hj) none)
        (fun _ => rfl) h.settings rfl rfl rfl .posted ⟨hmem, hlookup⟩ (Or.inl hbodies)
      rw [Sending.datagrams, map_nil, append_nil] at hanswer
      rw [← hw']
      exact hanswer
    | some status =>
      have hw' := some.inj hstep
      have hc : Settings env o
          (if status = some 404 then { w.client with httpOptions := none } else w.client) := by
        split
        · exact ⟨h.settings.host, h.settings.family, h.settings.port, h.settings.tagsPrefix,
            fun _ => rfl⟩
        · exact h.settings
      have hnone : .response i none ∉ evs ++ [.response (ν := ν) i (some status)] := fun hx => by
        cases hmem none hx
      have hanswer := tracked_answer h hs rfl
        (fun j hj => notAbout_response (Ne.symm hj) (some status)) (fun _ => rfl) hc
        (by split <;> rfl) (by split <;> rfl) (by split <;> rfl) _
        (told_sendUdp hc queue hnone hlookup) (Or.inl hbodies)
      rw [← datagrams_sendUdp hc] at hanswer
      rw [← hw']
      exact hanswer
  · cases hstep

theorem tracked_lookup (h : Tracked env o evs w) {i : ℕ} {found : Option (Str × ℕ)} {w' : World}
    (hstep : w.lookup i found = some w') : Tracked env o (evs ++ [.lookup i found]) w' := by
  unfold World.lookup at hstep
  split at hstep
  · next queue hs =>
    obtain ⟨hfamily, hresponse, hlookups⟩ : Told env o evs i .resolving := h.told i _ hs
    have hnone : .response i none ∉ evs ++ [.lookup (ν := ν) i found] := by
      intro hx
      rcases mem_append.mp hx with hx | hx
      · exact hresponse hx
      · cases mem_singleton.mp hx
    have hmem : ∀ x, .lookup i x ∈ evs ++ [.lookup (ν := ν) i found] → x = found := by
      intro x hx
      rcases mem_append.mp hx with hx | hx
      · exact absurd hx (hlookups x)
      · exact (Event.lookup.inj (mem_singleton.mp hx)).2
    have hno : ∀ error, Event.lookup (ν := ν) i found ≠ .response i error := fun _ he => by cases he
    cases found with
    | none =>
      have hw' := some.inj hstep
      have hanswer := tracked_answer h hs rfl (fun j hj => notAbout_lookup (Ne.symm hj) none)
        (fun _ => rfl) h.settings rfl rfl rfl .unresolved ⟨hfamily, hnone, hmem⟩
        (Or.inr ⟨rfl, hno⟩)
      rw [Sending.datagrams, map_nil, append_nil] at hanswer
      rw [← hw']
      exact hanswer
    | some answer =>
      have hw' := some.inj hstep
      have hanswer := tracked_answer h hs rfl
        (fun j hj => notAbout_lookup (Ne.symm hj) (some answer)) (fun _ => rfl) h.settings rfl rfl rfl
        (.sent answer.1 answer.2) ⟨hnone, hmem, fun hne => absurd hfamily hne⟩ (Or.inr ⟨rfl, hno⟩)
      have hport := h.settings.port
      rw [← hw', DogStatsDClient.sendUdpFromQueue, hport]
      exact hanswer
  · cases hstep

/-- **One event.** -/
theorem tracked_step (h : Tracked env o evs w) {e : Event ν} {w' : World}
    (hstep : w.step env e = some w') : Tracked env o (evs ++ [e]) w' := by
  cases e with
  | metric m => exact some.inj hstep ▸ tracked_metric h m
  | flush => exact some.inj hstep ▸ tracked_flush h
  | response i error => exact tracked_response h hstep
  | lookup i found => exact tracked_lookup h hstep

theorem tracked_of_run {run : List (Event ν)}
    (hrun : Run.exec (World.step env) (World.start env o) run = some w) : Tracked env o run w :=
  Run.invariant_history (I := fun evs w => Tracked env o evs w) (C := fun _ _ => True)
    (fun _ _ _ _ h _ hstep => tracked_step h hstep) (tracked_start env o)
    (Run.every_of_forall_mem (fun _ _ _ => trivial) _) hrun

end Steps

/-! ## What becomes of every message -/

/-- The lines of a run that flush `i` had to send; none for a flush that is yet to come. -/
def linesOf [Neg ν] (env : Env ν) (o : Options) (run : List (Event ν)) (i : ℕ) : List Str :=
  (account env (DogStatsDClient.new env o).tagsPrefix run).flushed[i]?.getD []

/-- **The fate of flush `i` of a run**, whose buffers are `queue`.  The datagrams sent for it, if
any, are its buffers in order, each once; the request made for it, if any, is one with all of
them. -/
structure Fate (env : Env ν) (o : Options) (run : List (Event ν)) (w : World) (i : ℕ)
    (queue : List (List UInt8)) : Prop where
  datagrams : w.sentFor i = [] ∨ ∃ address family, w.sentFor i = datagramsTo o address family queue
  requests : w.bodies i = [] ∨ w.bodies i = [queue.flatten]
  /-- Without a proxy there is no request, and an IP address is sent to at once. -/
  direct : o.metricsProxyUrl = none → w.bodies i = [] ∧
    (env.isIP o.host ≠ 0 → w.sentFor i = datagramsTo o o.host (env.isIP o.host) queue)
  /-- A host that is found is sent to. -/
  found : ∀ address family, env.isIP o.host = 0 → .lookup i (some (address, family)) ∈ run →
    w.sentFor i = datagramsTo o address family queue
  /-- A host that is not found is not sent to. -/
  notFound : env.isIP o.host = 0 → .lookup i none ∈ run → w.sentFor i = []
  /-- A request that goes through is all that is sent. -/
  accepted : .response i none ∈ run → w.bodies i = [queue.flatten] ∧ w.sentFor i = []
  /-- Where the request fails an IP address is sent to. -/
  refused : ∀ status, .response i (some status) ∈ run → w.bodies i = [queue.flatten] ∧
    (env.isIP o.host ≠ 0 → w.sentFor i = datagramsTo o o.host (env.isIP o.host) queue)

theorem fate_of_tracked [Neg ν] {run : List (Event ν)} {w : World}
    (h : Tracked env o run w) {i : ℕ} {s : Sending} (hs : w.sendings[i]? = some s) :
    Fate env o run w i s.queue := by
  have hsent : w.sentFor i = s.datagrams o := by
    rw [h.sent, hs]
    rfl
  have htold := h.told i s hs
  have hreq := h.requested i s hs
  have hbodies : ∀ error, .response i error ∈ run → w.bodies i = [s.queue.flatten] := by
    intro error hmem
    rcases hreq with hreq | hreq
    · exact hreq.1
    · exact absurd hmem (hreq.2.2 error)
  obtain ⟨queue, st⟩ := s
  constructor
  · rw [hsent]
    cases st with
    | sent address family => exact Or.inr ⟨address, family, rfl⟩
    | posting | posted | resolving | unresolved => exact Or.inl rfl
  · rcases hreq with hreq | hreq
    · exact Or.inr hreq.1
    · exact Or.inl hreq.1
  · intro hproxy
    rcases hreq with hreq | hreq
    · exact absurd hproxy hreq.2
    · refine ⟨hreq.1, fun hip => ?_⟩
      rw [hsent]
      cases st with
      | sent address family =>
        obtain ⟨rfl, rfl⟩ := htold.2.2 hip
        rfl
      | posting | posted => cases hreq.2.1
      | resolving | unresolved => exact absurd htold.1 hip
  · intro address family _ hmem
    rw [hsent]
    cases st with
    | sent address' family' =>
      have heq := some.inj (htold.2.1 _ hmem)
      rw [Sending.datagrams, ← (Prod.mk.inj heq).1, ← (Prod.mk.inj heq).2]
    | posting | posted => exact absurd hmem (htold.2 _)
    | resolving => exact absurd hmem (htold.2.2 _)
    | unresolved => cases htold.2.2 _ hmem
  · intro _ hmem
    rw [hsent]
    cases st with
    | sent address family => cases htold.2.1 _ hmem
    | posting => rfl
    | posted => rfl
    | resolving => rfl
    | unresolved => rfl
  · intro hmem
    refine ⟨hbodies none hmem, ?_⟩
    rw [hsent]
    cases st with
    | sent address family => exact absurd hmem htold.1
    | posting => rfl
    | posted => rfl
    | resolving => rfl
    | unresolved => rfl
  · intro status hmem
    refine ⟨hbodies _ hmem, fun hip => ?_⟩
    rw [hsent]
    cases st with
    | sent address family =>
      obtain ⟨rfl, rfl⟩ := htold.2.2 hip
      rfl
    | posting => exact absurd hmem (htold.1 _)
    | posted => cases htold.1 _ hmem
    | resolving | unresolved => exact absurd htold.1 hip

/-- **Every message leaves with its flush**: the buffers that a flush hands over pack exactly the
lines written since the flush before, and what is sent for it is these buffers.  The lines written
since the last flush are in the client. -/
theorem written_of_run [Neg ν] (env : Env ν) (o : Options) {run : List (Event ν)} {w : World}
    (hrun : Run.exec (World.step env) (World.start env o) run = some w) :
    (∃ lines : List (List Str), ∃ pending : List Str, lines.flatten ++ pending =
        run.flatMap (Event.lines env (DogStatsDClient.new env o).tagsPrefix) ∧
      lines.length = w.sendings.length ∧ (∀ i, linesOf env o run i = lines[i]?.getD []) ∧
      Packs w.client.enqueue.queue pending) ∧
    ∀ i s, w.sendings[i]? = some s →
      Packs s.queue (linesOf env o run i) ∧ Fate env o run w i s.queue := by
  have h := tracked_of_run hrun
  refine ⟨⟨_, _, flatten_account env _ run, h.flushed.length_eq.symm, fun _ => rfl, ?_⟩,
    fun i s hs => ⟨?_, fate_of_tracked h hs⟩⟩
  · obtain ⟨p, hp, hitems⟩ := h.packing
    have hpacks := packs_of_renders (renders_enqueue hp) (opened_close p)
    rwa [items_close, hitems] at hpacks
  · obtain ⟨hi, hget⟩ := List.getElem?_eq_some_iff.mp hs
    have hi' := h.flushed.length_eq ▸ hi
    have hpacks := (List.forall₂_iff_get.mp h.flushed).2 i hi hi'
    rw [linesOf, getElem?_eq_getElem hi', ← hget]
    exact hpacks

/-- A metric and a flush. -/
def oneMetric : List (Event ℤ) := [.metric (.gauge (lit "a") 1 []), .flush]

/-- A container without an id, where a host is no IP address. -/
def hostEnv : Env ℤ := ⟨fun _ => 0, fun n => lit (toString n), []⟩

/-- A client that sends to a host name. -/
def hostOptions : Options := ⟨lit "agent", 8125, [], none⟩

theorem written_of_run_host :
    ∃ w, Run.exec (World.step hostEnv) (World.start hostEnv hostOptions) oneMetric = some w ∧
      ∀ i s, w.sendings[i]? = some s → Packs s.queue (linesOf hostEnv hostOptions oneMetric i) ∧
          Fate hostEnv hostOptions oneMetric w i s.queue :=
  ⟨_, rfl, (written_of_run hostEnv hostOptions rfl).2⟩

/-- **A message is lost** when its host is not found: no datagram carries it, although the flush is
over. -/
theorem not_delivered : ¬∀ (env : Env ℤ) (o : Options) (run : List (Event ℤ)) (w : World),
      Run.exec (World.step env) (World.start env o) run = some w →
      ∀ i s, w.sendings[i]? = some s → s.stage ≠ .posting → s.stage ≠ .resolving →
        Packs ((w.sentFor i).map Datagram.payload) (linesOf env o run i) := by
  intro h
  have hlost := h hostEnv hostOptions (oneMetric ++ [.lookup 0 none]) _ rfl 0 _ rfl
    (by decide) (by decide)
  obtain ⟨batches, hflat, hmap, _⟩ := hlost
  have hnil : batches = [] := map_eq_nil_iff.mp hmap.symm
  rw [hnil] at hflat
  exact absurd hflat (by decide)

end DdTrace.Dogstatsd
