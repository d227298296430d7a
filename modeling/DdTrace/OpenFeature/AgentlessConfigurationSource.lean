import DdTrace.Library.JsonReader
import DdTrace.Library.OrderedMap
import DdTrace.Library.Run

/-!
# The poll loops of the feature flags

`openfeature/agentless_configuration_source.js` polls an endpoint for the configuration of the
feature flags.  Every `start` that finds no running loop makes a new one, with an abort controller
of its own; `stop` aborts the controller and forgets it.  A loop that was stopped still has a
request or a sleep in flight while the next one runs, and `Source.step` lets them end in any order.
A loop touches what it shares with the others only as long as its controller is the current one.

The function that applies a configuration is not a part of this code.  It can raise, and it can stop
and start the source before it returns.  `JSON.parse` is a parameter.

* `Entry`: what the loops do, and `Proper`, what is asked of it.
* `Source.Inv`: a loop that is neither done nor aborted is the current one, a poll has made as many
  requests as its attempts, and the ETag is that of the configuration applied last.
* `proper_of_run`: **in every run only the running loop requests and applies, a poll makes at most
  `MAX_ATTEMPTS` requests, and a request carries the ETag of the configuration applied last**.
-/

namespace DdTrace.OpenFeature

open Library

/-! ## Responses -/

def MAX_ATTEMPTS : ℕ := 3

/-- A header as `node:http` gives it. -/
inductive HeaderValue where
  | one (value : Str)
  | many (values : List Str)

/-- What `request` calls back with.  A request that failed has no status. -/
structure PollResponse where
  statusCode : Option ℕ
  body : Option Str
  etag : Option HeaderValue

def isRetryableStatus (status : ℕ) : Bool :=
  status == 408 || status == 429 || (500 ≤ status && status ≤ 599)

/-- `response.statusCode === undefined || isRetryableStatus(response.statusCode)` -/
def PollResponse.retryable (response : PollResponse) : Bool :=
  match response.statusCode with
  | none => true
  | some status => isRetryableStatus status

/-- The property of what `JSON.parse` gave, where of two members with one key the last counts. -/
def property (key : Str) : Json → Option Json
  | .obj members => OrderedMap.lastValue members key
  | _ => none

def isString : Option Json → Bool
  | some (.str _) => true
  | _ => false

def isObject : Option Json → Bool
  | some (.obj _) => true
  | _ => false

/-- `parseConfiguration` over `JSON.parse`.  Nothing where it throws. -/
def parseConfiguration (parse : Str → Option Json) (body : Option Str) : Option Json := do
  let parsed ← parse (← body)
  let data ← property (lit "data") parsed
  let attributes ← property (lit "attributes") data
  let environment ← property (lit "environment") attributes
  match property (lit "type") data with
  | some (.str type) =>
    if type = lit "universal-flag-configuration" ∧
        isString (property (lit "format") attributes) = true ∧
        isString (property (lit "createdAt") attributes) = true ∧
        isString (property (lit "name") environment) = true ∧
        isObject (property (lit "flags") attributes) = true then some attributes
    else none
  | _ => none

/-- The ETag of a response: without white space around it, and nothing when nothing is left. -/
def etagOf (response : PollResponse) : Option Str :=
  let value := match response.etag with
    | some (.one value) => some value
    | some (.many values) => values.head?
    | none => none
  value.bind fun value => if value.trim = [] then none else some value.trim

/-! ## The loops -/

/-- Where a loop is: a request of an attempt is in flight, or it was answered and the loop has not
gone on yet; the loop sleeps before the next attempt; `#pollOnce` has returned; the loop sleeps
before the next poll; it has ended. -/
inductive Phase where
  | requesting (attempt : ℕ)
  | answered (attempt : ℕ) (response : PollResponse)
  | retrying (attempt : ℕ)
  | polled
  | waiting
  | done

/-- A call of `#poll`: where it is, whether its controller is aborted, and how many times it has
called `#pollOnce`. -/
structure PollLoop where
  phase : Phase
  aborted : Bool
  polls : ℕ

/-- What the source does: a loop begins, `stop` is called, a loop issues a request of a poll with an
`If-None-Match` header or without, `#applyConfiguration` is called and returns. -/
inductive Entry where
  | started (loop : ℕ)
  | stopped
  | requested (loop poll : ℕ) (ifNoneMatch : Option Str)
  | applying (loop : ℕ) (configuration : Json)
  | applied (configuration : Json) (response : PollResponse)

/-- The state of the source: its loops, that of the current controller, the ETag, and what was done,
the last first. -/
structure Source where
  loops : List PollLoop := []
  abortController : Option ℕ := none
  etag : Option Str := none
  log : List Entry := []

/-- What calls the source while a configuration is applied. -/
inductive SourceCall where
  | start
  | stop

namespace Source

/-- The loop changed. -/
def setLoop (s : Source) (i : ℕ) (f : PollLoop → PollLoop) : Source :=
  { s with loops := s.loops.modify i f }

def setPhase (s : Source) (i : ℕ) (phase : Phase) : Source :=
  s.setLoop i fun loop => { loop with phase := phase }

/-- `#request` of an attempt. -/
def request (s : Source) (i attempt : ℕ) : Source :=
  match s.loops[i]? with
  | none => s
  | some loop =>
    { s.setPhase i (.requesting attempt) with log := .requested i loop.polls s.etag :: s.log }

/-- `start` -/
def start (s : Source) : Source :=
  match s.abortController with
  | some _ => s
  | none =>
    let i := s.loops.length
    let started : Source := { s with
      abortController := some i
      loops := s.loops ++ [⟨.polled, false, 1⟩]
      log := .started i :: s.log }
    started.request i 1

/-- `stop` -/
def stop (s : Source) : Source :=
  let stopped := match s.abortController with
    | some i => s.setLoop i fun loop => { loop with aborted := true }
    | none => s
  { stopped with abortController := none, log := .stopped :: s.log }

def call (s : Source) : SourceCall → Source
  | .start => s.start
  | .stop => s.stop

/-- `#apply`, when the function that applies makes the calls and returns or raises. -/
def apply (parse : Str → Option Json) (s : Source) (i : ℕ) (response : PollResponse)
    (calls : List SourceCall) (returned : Bool) : Source :=
  if response.statusCode = some 200 then
    match parseConfiguration parse response.body with
    | none => s
    | some configuration =>
      let s := calls.foldl call { s with log := .applying i configuration :: s.log }
      if returned then
        { s with etag := etagOf response, log := .applied configuration response :: s.log }
      else s
  else s

/-- The end of `#poll`. -/
def finish (s : Source) (i : ℕ) : Source :=
  let ended := s.setLoop i fun loop => { loop with phase := .done }
  if s.abortController = some i then { ended with abortController := none } else ended

/-- `#pollOnce` behind its request. -/
def answer (parse : Str → Option Json) (s : Source) (i attempt : ℕ)
    (response : PollResponse) (calls : List SourceCall) (returned : Bool) : Source :=
  if s.abortController ≠ some i then s.setPhase i .polled
  else if response.retryable = false then
    (s.apply parse i response calls returned).setPhase i .polled
  else if attempt = MAX_ATTEMPTS then s.setPhase i .polled
  else s.setPhase i (.retrying attempt)

end Source

/-- What can happen: a call, the callback of a request, the code behind an `await` that ended, the
end of a sleep, and an exception out of it. -/
inductive SourceEvent where
  | call (c : SourceCall)
  | respond (loop : ℕ) (response : PollResponse)
  | resume (loop : ℕ) (calls : List SourceCall) (returned : Bool)
  | wake (loop : ℕ)
  | throw (loop : ℕ)

/-- One event.  The sleep of an aborted loop ends with an `AbortError`, that of any other when its
timer expires. -/
def Source.step (parse : Str → Option Json) (s : Source) : SourceEvent → Option Source
  | .call c => some (s.call c)
  | .respond i response =>
    match s.loops[i]? with
    | some ⟨.requesting attempt, _, _⟩ => some (s.setPhase i (.answered attempt response))
    | _ => none
  | .resume i calls returned =>
    match s.loops[i]? with
    | some ⟨.answered attempt response, _, _⟩ =>
      some (s.answer parse i attempt response calls returned)
    | some ⟨.polled, _, _⟩ =>
      some (if s.abortController = some i then s.setPhase i .waiting else s.finish i)
    | _ => none
  | .wake i =>
    match s.loops[i]? with
    | some ⟨.retrying attempt, aborted, _⟩ =>
      some (if aborted then s.setPhase i .polled else s.request i (attempt + 1))
    | some ⟨.waiting, aborted, _⟩ =>
      some (if aborted then s.finish i
        else (s.setLoop i fun loop => { loop with polls := loop.polls + 1 }).request i 1)
    | _ => none
  | .throw i =>
    match s.loops[i]? with
    | some ⟨.retrying _, _, _⟩ | some ⟨.waiting, _, _⟩ => some (s.finish i)
    | _ => none

/-! ## What is asked of the log -/

/-- The loop that runs: that of the last start, when no stop came after it. -/
def running : List Entry → Option ℕ
  | [] => none
  | .started i :: _ => some i
  | .stopped :: _ => none
  | .requested _ _ _ :: before | .applying _ _ :: before | .applied _ _ :: before => running before

/-- The ETag that came with the configuration applied last. -/
def lastEtag : List Entry → Option Str
  | [] => none
  | .applied _ response :: _ => etagOf response
  | .requested _ _ _ :: before | .applying _ _ :: before | .started _ :: before
  | .stopped :: before => lastEtag before

/-- The requests of a poll of a loop. -/
def requestsOf (i poll : ℕ) : List Entry → ℕ
  | [] => 0
  | .requested j p _ :: before => requestsOf i poll before + if j = i ∧ p = poll then 1 else 0
  | .applied _ _ :: before | .applying _ _ :: before | .started _ :: before
  | .stopped :: before => requestsOf i poll before

/-- What may be done after what was done before. -/
def Allowed (parse : Str → Option Json) (before : List Entry) : Entry → Prop
  | .requested i poll ifNoneMatch => running before = some i ∧
      requestsOf i poll before < MAX_ATTEMPTS ∧ ifNoneMatch = lastEtag before
  | .applying i _ => running before = some i
  | .applied configuration response => response.statusCode = some 200 ∧
      parseConfiguration parse response.body = some configuration
  | .started _ | .stopped => True

/-- Only the running loop requests and applies, a poll has at most `MAX_ATTEMPTS` requests, every
request carries the ETag of the configuration applied last, and what counts as applied came with the
status 200 and was well formed. -/
def Proper (parse : Str → Option Json) (log : List Entry) : Prop :=
  ∀ after e before, log = after ++ e :: before → Allowed parse before e

theorem proper_nil (parse : Str → Option Json) : Proper parse [] := by
  intro after e before h
  simp at h

theorem proper_cons {parse : Str → Option Json} {e : Entry} {log : List Entry}
    (he : Allowed parse log e) (h : Proper parse log) : Proper parse (e :: log) := by
  intro after e' before hlog
  cases after with
  | nil =>
    obtain ⟨rfl, rfl⟩ := List.cons.inj hlog
    exact he
  | cons x after => exact h after e' before (List.cons.inj hlog).2

/-! ## The invariant -/

/-- The requests that the poll of a loop has made, by where the loop is. -/
def Phase.Made (n : ℕ) : Phase → Prop
  | .requesting attempt | .answered attempt _ => n = attempt ∧ attempt ≤ MAX_ATTEMPTS
  | .retrying attempt => n = attempt ∧ attempt < MAX_ATTEMPTS
  | .polled | .waiting | .done => n ≤ MAX_ATTEMPTS

theorem Phase.Made.le {n : ℕ} {phase : Phase} (h : phase.Made n) : n ≤ MAX_ATTEMPTS := by
  cases phase with
  | requesting attempt | answered attempt response => exact h.1.trans_le h.2
  | retrying attempt => exact h.1.trans_le h.2.le
  | polled => exact h
  | waiting => exact h
  | done => exact h

structure Source.Inv (parse : Str → Option Json) (s : Source) : Prop where
  proper : Proper parse s.log
  owner : ∀ i, s.abortController = some i → running s.log = some i
  live : ∀ i (loop : PollLoop), s.loops[i]? = some loop → loop.aborted = false →
    loop.phase ≠ .done → s.abortController = some i
  etag : s.etag = lastEtag s.log
  made : ∀ i (loop : PollLoop), s.loops[i]? = some loop →
    loop.phase.Made (requestsOf i loop.polls s.log)
  later : ∀ i (loop : PollLoop), s.loops[i]? = some loop → ∀ poll, loop.polls < poll →
    requestsOf i poll s.log = 0
  fresh : ∀ i, s.loops.length ≤ i → ∀ poll, requestsOf i poll s.log = 0

namespace Source

variable {parse : Str → Option Json} {s s' : Source} {i : ℕ} {loop : PollLoop}

theorem getElem?_setLoop (s : Source) (i j : ℕ) (f : PollLoop → PollLoop) :
    (s.setLoop i f).loops[j]? = if i = j then s.loops[j]?.map f else s.loops[j]? := by
  unfold setLoop
  rw [List.getElem?_modify]
  split <;> simp

/-- **A loop goes on**: what is true of it where it comes to is enough. -/
theorem inv_setLoop (h : s.Inv parse) {f : PollLoop → PollLoop} (hloop : s.loops[i]? = some loop)
    (hlive : (f loop).aborted = false → (f loop).phase ≠ .done → s.abortController = some i)
    (hmade : (f loop).phase.Made (requestsOf i (f loop).polls s.log))
    (hlater : ∀ poll, (f loop).polls < poll → requestsOf i poll s.log = 0) :
    (s.setLoop i f).Inv parse := by
  have hcases : ∀ j x, (s.setLoop i f).loops[j]? = some x →
      (j = i ∧ x = f loop) ∨ s.loops[j]? = some x := by
    intro j x hx
    rw [getElem?_setLoop] at hx
    by_cases hj : i = j
    · subst hj
      rw [if_pos rfl, hloop] at hx
      exact Or.inl ⟨rfl, (Option.some.inj hx).symm⟩
    · rw [if_neg hj] at hx
      exact Or.inr hx
  refine ⟨h.proper, h.owner, ?_, h.etag, ?_, ?_, ?_⟩
  · intro j x hx
    rcases hcases j x hx with ⟨rfl, rfl⟩ | hx
    · exact hlive
    · exact h.live j x hx
  · intro j x hx
    rcases hcases j x hx with ⟨rfl, rfl⟩ | hx
    · exact hmade
    · exact h.made j x hx
  · intro j x hx
    rcases hcases j x hx with ⟨rfl, rfl⟩ | hx
    · exact hlater
    · exact h.later j x hx
  · intro j hj
    refine h.fresh j ?_
    simpa [setLoop] using hj

theorem inv_setPhase (h : s.Inv parse) (hloop : s.loops[i]? = some loop)
    (hdone : loop.phase ≠ .done) {phase : Phase}
    (hmade : phase.Made (requestsOf i loop.polls s.log)) :
    (s.setPhase i phase).Inv parse :=
  inv_setLoop h hloop (fun haborted _ => h.live i loop hloop haborted hdone) hmade
    (h.later i loop hloop)

/-- **The step of a request**: the current loop issues it, and its poll has made one less. -/
theorem inv_request (h : s.Inv parse) (hloop : s.loops[i]? = some loop)
    (howner : s.abortController = some i) {attempt : ℕ}
    (hmade : requestsOf i loop.polls s.log + 1 = attempt) (hle : attempt ≤ MAX_ATTEMPTS) :
    (s.request i attempt).Inv parse := by
  have hlt : requestsOf i loop.polls s.log < MAX_ATTEMPTS := by omega
  have hlog : (s.request i attempt).log = .requested i loop.polls s.etag :: s.log := by
    simp [request, hloop]
  have hloops : ∀ j, (s.request i attempt).loops[j]? =
      if i = j then s.loops[j]?.map fun loop => { loop with phase := .requesting attempt }
      else s.loops[j]? := by
    intro j
    rw [request, hloop]
    exact getElem?_setLoop s i j _
  have hcount : ∀ j poll, requestsOf j poll (s.request i attempt).log =
      requestsOf j poll s.log + if i = j ∧ loop.polls = poll then 1 else 0 := by
    intro j poll
    rw [hlog, requestsOf]
  have hcontroller : (s.request i attempt).abortController = s.abortController := by
    simp [request, hloop, setPhase, setLoop]
  refine ⟨?_, ?_, ?_, ?_, ?_, ?_, ?_⟩
  · rw [hlog]
    exact proper_cons ⟨h.owner i howner, hlt, h.etag⟩ h.proper
  · intro j hj
    rw [hcontroller] at hj
    rw [hlog]
    exact h.owner j hj
  · intro j x hx haborted hdone
    rw [hloops] at hx
    rw [hcontroller]
    by_cases hij : i = j
    · rw [howner, hij]
    · rw [if_neg hij] at hx
      exact h.live j x hx haborted hdone
  · rw [hlog, lastEtag, ← h.etag]
    simp [request, hloop, setPhase, setLoop]
  · intro j x hx
    rw [hloops] at hx
    rw [hcount]
    by_cases hij : i = j
    · subst hij
      rw [if_pos rfl, hloop] at hx
      cases hx
      simpa [Phase.Made, hmade] using hle
    · rw [if_neg hij] at hx
      simpa [hij] using h.made j x hx
  · intro j x hx poll hpoll
    rw [hloops] at hx
    rw [hcount]
    by_cases hij : i = j
    · subst hij
      rw [if_pos rfl, hloop] at hx
      cases hx
      have hne : loop.polls ≠ poll := Nat.ne_of_lt hpoll
      simpa [hne] using h.later i loop hloop poll hpoll
    · rw [if_neg hij] at hx
      simpa [hij] using h.later j x hx poll hpoll
  · intro j hj poll
    have hlength : (s.request i attempt).loops.length = s.loops.length := by
      simp [request, hloop, setPhase, setLoop]
    have hij : i ≠ j := by
      rintro rfl
      rw [hlength, ← List.getElem?_eq_none_iff, hloop] at hj
      cases hj
    rw [hlength] at hj
    rw [hcount]
    simpa [hij] using h.fresh j hj poll

end Source

namespace Source

variable {parse : Str → Option Json} {s s' : Source} {i : ℕ} {loop : PollLoop}

/-! ## Calls -/

theorem inv_start (h : s.Inv parse) : s.start.Inv parse := by
  unfold start
  cases howner : s.abortController with
  | some i => exact h
  | none =>
    have hnone : ∀ poll, requestsOf s.loops.length poll s.log = 0 := h.fresh _ le_rfl
    have hcases : ∀ j x, (s.loops ++ [⟨.polled, false, 1⟩])[j]? = some x →
        (j = s.loops.length ∧ x = ⟨.polled, false, 1⟩) ∨ s.loops[j]? = some x := by
      intro j x hx
      rcases Nat.lt_trichotomy j s.loops.length with hj | hj | hj
      · exact Or.inr (by rwa [List.getElem?_append_left hj] at hx)
      · subst hj
        exact Or.inl ⟨rfl, by simpa using hx.symm⟩
      · rw [List.getElem?_eq_none (by rw [List.length_append]; exact hj)] at hx
        cases hx
    have hlive : ∀ (j : ℕ) (x : PollLoop), s.loops[j]? = some x → x.aborted = false →
        x.phase = .done := by
      intro j x hx haborted
      by_contra hdone
      have hcurrent := h.live j x hx haborted hdone
      rw [howner] at hcurrent
      cases hcurrent
    refine inv_request (s := { s with
      abortController := some s.loops.length
      loops := s.loops ++ [⟨.polled, false, 1⟩]
      log := .started s.loops.length :: s.log }) ⟨?_, ?_, ?_, h.etag, ?_, ?_, ?_⟩
      List.getElem?_concat_length rfl (congrArg (· + 1) (hnone 1)) (by decide)
    · exact proper_cons trivial h.proper
    · intro j hj
      cases hj
      rfl
    · intro j x hx haborted hdone
      rcases hcases j x hx with ⟨rfl, -⟩ | hx
      · rfl
      · exact absurd (hlive j x hx haborted) hdone
    · intro j x hx
      rcases hcases j x hx with ⟨rfl, rfl⟩ | hx
      · exact (hnone 1).trans_le (Nat.zero_le _)
      · exact h.made j x hx
    · intro j x hx poll hpoll
      rcases hcases j x hx with ⟨rfl, rfl⟩ | hx
      · exact hnone poll
      · exact h.later j x hx poll hpoll
    · intro j hj poll
      refine h.fresh j ?_ poll
      rw [List.length_append] at hj
      omega

theorem inv_stop (h : s.Inv parse) : s.stop.Inv parse := by
  have hproper : Proper parse (.stopped :: s.log) := proper_cons trivial h.proper
  unfold stop
  cases howner : s.abortController with
  | none =>
    refine ⟨hproper, fun j hj => (by cases hj), fun j x hx haborted hdone => ?_, h.etag, h.made,
      h.later, h.fresh⟩
    exact howner ▸ h.live j x hx haborted hdone
  | some i =>
    have hcases : ∀ j x, (s.setLoop i fun loop => { loop with aborted := true }).loops[j]? =
        some x → ∃ y, s.loops[j]? = some y ∧ x.phase = y.phase ∧ x.polls = y.polls ∧
          (x.aborted = false → x = y ∧ j ≠ i) := by
      intro j x hx
      rw [getElem?_setLoop] at hx
      by_cases hj : i = j
      · rw [if_pos hj] at hx
        obtain ⟨y, hy, rfl⟩ := Option.map_eq_some_iff.mp hx
        exact ⟨y, hy, rfl, rfl, fun hfalse => by cases hfalse⟩
      · rw [if_neg hj] at hx
        exact ⟨x, hx, rfl, rfl, fun _ => ⟨rfl, Ne.symm hj⟩⟩
    refine ⟨hproper, fun j hj => (by cases hj), ?_, h.etag, ?_, ?_, ?_⟩
    · intro j x hx haborted hdone
      obtain ⟨y, hy, -, -, hsame⟩ := hcases j x hx
      obtain ⟨rfl, hne⟩ := hsame haborted
      have hcurrent := h.live j x hy haborted hdone
      rw [howner, Option.some_inj] at hcurrent
      exact absurd hcurrent.symm hne
    · intro j x hx
      obtain ⟨y, hy, hphase, hpolls, -⟩ := hcases j x hx
      rw [hphase, hpolls]
      exact h.made j y hy
    · intro j x hx poll hpoll
      obtain ⟨y, hy, -, hpolls, -⟩ := hcases j x hx
      exact h.later j y hy poll (hpolls ▸ hpoll)
    · intro j hj
      refine h.fresh j ?_
      simpa [setLoop] using hj

/-- What calls do to a loop that is there: they can abort it. -/
theorem getElem?_call (c : SourceCall) (hloop : s.loops[i]? = some loop) :
    ∃ aborted, (s.call c).loops[i]? = some { loop with aborted := aborted } := by
  have hlt : i < s.loops.length := (List.getElem?_eq_some_iff.mp hloop).1
  cases c with
  | stop =>
    show ∃ aborted, s.stop.loops[i]? = _
    unfold stop
    cases howner : s.abortController with
    | none => exact ⟨loop.aborted, hloop⟩
    | some j =>
      have hget := getElem?_setLoop s j i fun loop => { loop with aborted := true }
      by_cases hj : j = i
      · rw [if_pos hj, hloop] at hget
        exact ⟨true, hget⟩
      · rw [if_neg hj, hloop] at hget
        exact ⟨loop.aborted, hget⟩
  | start =>
    show ∃ aborted, s.start.loops[i]? = _
    unfold start
    cases howner : s.abortController with
    | some j => exact ⟨loop.aborted, hloop⟩
    | none =>
      refine ⟨loop.aborted, ?_⟩
      have hne : s.loops.length ≠ i := by omega
      simp [request, setPhase, getElem?_setLoop, hne, List.getElem?_append_left hlt, hloop]

theorem inv_call (h : s.Inv parse) (c : SourceCall) : (s.call c).Inv parse := by
  cases c with
  | start => exact inv_start h
  | stop => exact inv_stop h

theorem inv_calls (h : s.Inv parse) (calls : List SourceCall) (hloop : s.loops[i]? = some loop) :
    (calls.foldl call s).Inv parse ∧
      ∃ aborted, (calls.foldl call s).loops[i]? = some { loop with aborted := aborted } := by
  induction calls generalizing s loop with
  | nil => exact ⟨h, loop.aborted, hloop⟩
  | cons c calls ih =>
    obtain ⟨aborted, hcall⟩ := getElem?_call c hloop
    obtain ⟨hinv, aborted', hrest⟩ := ih (inv_call h c) hcall
    exact ⟨hinv, aborted', hrest⟩

/-! ## Responses and sleeps -/

/-- **The step of a configuration**: the current loop applies it, and whatever the function that
applies it does, the loop is where it was. -/
theorem inv_apply (h : s.Inv parse) (howner : s.abortController = some i)
    (hloop : s.loops[i]? = some loop) (response : PollResponse) (calls : List SourceCall)
    (returned : Bool) : (s.apply parse i response calls returned).Inv parse ∧
      ∃ aborted, (s.apply parse i response calls returned).loops[i]? =
        some { loop with aborted := aborted } := by
  unfold apply
  by_cases hstatus : response.statusCode = some 200
  · rw [if_pos hstatus]
    cases hparsed : parseConfiguration parse response.body with
    | none => exact ⟨h, loop.aborted, hloop⟩
    | some configuration =>
      have happlying : Source.Inv parse { s with log := .applying i configuration :: s.log } :=
        ⟨proper_cons (h.owner i howner) h.proper, h.owner, h.live, h.etag, h.made, h.later, h.fresh⟩
      obtain ⟨hinv, hfound⟩ := inv_calls happlying calls hloop
      dsimp only
      split
      · refine ⟨⟨proper_cons ⟨hstatus, hparsed⟩ hinv.proper, hinv.owner, hinv.live, rfl, hinv.made,
          hinv.later, hinv.fresh⟩, hfound⟩
      · exact ⟨hinv, hfound⟩
  · rw [if_neg hstatus]
    exact ⟨h, loop.aborted, hloop⟩

theorem inv_finish (h : s.Inv parse) (hloop : s.loops[i]? = some loop) :
    (s.finish i).Inv parse := by
  have hended : (s.setLoop i fun loop => { loop with phase := .done }).Inv parse :=
    inv_setLoop h hloop (fun _ hdone => absurd rfl hdone) (h.made i loop hloop).le
      (h.later i loop hloop)
  unfold finish
  split
  · next howner =>
    refine ⟨hended.proper, fun j hj => (by cases hj), ?_, hended.etag, hended.made, hended.later,
      hended.fresh⟩
    intro j x hx haborted hdone
    have hcurrent := hended.live j x hx haborted hdone
    have hi : s.abortController = some j := hcurrent
    rw [howner, Option.some_inj] at hi
    subst hi
    have hget := getElem?_setLoop s i i fun loop => { loop with phase := .done }
    rw [if_pos rfl, hloop] at hget
    rw [show (s.setLoop i fun loop => { loop with phase := .done }).loops[i]? = some x from hx]
      at hget
    cases hget
    exact absurd rfl hdone
  · exact hended

theorem inv_answer (h : s.Inv parse) {attempt : ℕ} {response : PollResponse}
    (hloop : s.loops[i]? = some loop) (hphase : loop.phase = .answered attempt response)
    (calls : List SourceCall) (returned : Bool) :
    (s.answer parse i attempt response calls returned).Inv parse := by
  have hmade := h.made i loop hloop
  rw [hphase] at hmade
  have hdone : loop.phase ≠ .done := by simp [hphase]
  have hle := hmade.le
  unfold answer
  by_cases howner : s.abortController = some i
  · rw [if_neg (not_not.mpr howner)]
    split
    · obtain ⟨hinv, aborted, hfound⟩ := inv_apply h howner hloop response calls returned
      exact inv_setPhase hinv hfound hdone (hinv.made i _ hfound).le
    · split
      · exact inv_setPhase h hloop hdone hle
      · next hlast =>
        exact inv_setPhase h hloop hdone ⟨hmade.1, lt_of_le_of_ne hmade.2 hlast⟩
  · rw [if_pos howner]
    exact inv_setPhase h hloop hdone hle

theorem inv_step {ev : SourceEvent} (h : s.Inv parse) (hstep : s.step parse ev = some s') :
    s'.Inv parse := by
  cases ev with
  | call c =>
    cases hstep
    exact inv_call h c
  | respond i response =>
    simp only [step] at hstep
    split at hstep
    · next attempt aborted polls hloop =>
      cases hstep
      exact inv_setPhase h hloop (by simp) (h.made i _ hloop)
    · cases hstep
  | resume i calls returned =>
    simp only [step] at hstep
    split at hstep
    · next attempt response aborted polls hloop =>
      cases hstep
      exact inv_answer h hloop rfl calls returned
    · next aborted polls hloop =>
      cases hstep
      split
      · exact inv_setPhase h hloop (by simp) (h.made i _ hloop)
      · exact inv_finish h hloop
    · cases hstep
  | wake i =>
    simp only [step] at hstep
    split at hstep
    · next attempt aborted polls hloop =>
      cases hstep
      have hmade := h.made i _ hloop
      cases aborted with
      | true => exact inv_setPhase h hloop (by simp) hmade.le
      | false =>
        have howner := h.live i _ hloop rfl (by simp)
        exact inv_request h hloop howner (congrArg (· + 1) hmade.1) hmade.2
    · next aborted polls hloop =>
      cases hstep
      cases aborted with
      | true => exact inv_finish h hloop
      | false =>
        -- the poll that begins has no request yet
        have howner := h.live i _ hloop rfl (by simp)
        have hnone := h.later i _ hloop (polls + 1) (Nat.lt_succ_self polls)
        have hnext : (s.setLoop i fun loop => { loop with polls := loop.polls + 1 }).Inv parse :=
          inv_setLoop h hloop (fun _ _ => howner) (hnone.trans_le (Nat.zero_le _))
            fun poll hpoll => h.later i _ hloop poll (Nat.lt_of_succ_lt hpoll)
        have hfound : (s.setLoop i fun loop => { loop with polls := loop.polls + 1 }).loops[i]? =
            some ⟨.waiting, false, polls + 1⟩ := by
          rw [getElem?_setLoop, if_pos rfl, hloop]
          rfl
        exact inv_request hnext hfound howner (congrArg (· + 1) hnone) (by decide)
    · cases hstep
  | throw i =>
    simp only [step] at hstep
    split at hstep
    · next attempt aborted polls hloop =>
      cases hstep
      exact inv_finish h hloop
    · next aborted polls hloop =>
      cases hstep
      exact inv_finish h hloop
    · cases hstep

theorem inv_init (parse : Str → Option Json) : ({} : Source).Inv parse where
  proper := proper_nil parse
  owner i hi := by cases hi
  live i loop hloop := by simp at hloop
  etag := rfl
  made i loop hloop := by simp at hloop
  later i loop hloop := by simp at hloop
  fresh i _ poll := rfl

end Source

/-! ## Main results -/

theorem requestsOf_le {parse : Str → Option Json} {log : List Entry} (h : Proper parse log)
    (i poll : ℕ) : requestsOf i poll log ≤ MAX_ATTEMPTS := by
  induction log with
  | nil => exact Nat.zero_le _
  | cons e before ih =>
    have hbefore := ih fun after e' before' hlog => h (e :: after) e' before' (by rw [hlog]; rfl)
    have hallowed := h [] e before rfl
    cases e with
    | requested j p ifNoneMatch =>
      rw [requestsOf]
      split
      · next hsame =>
        obtain ⟨rfl, rfl⟩ := hsame
        exact hallowed.2.1
      · exact hbefore
    | started j | stopped | applying j configuration => exact hbefore
    | applied configuration response => exact hbefore

/-- **Only the running loop polls.**  In every run, in whatever order requests are answered and
sleeps end, only the loop of the last start that no stop came after requests and applies, each poll
makes at most `MAX_ATTEMPTS` requests, and the `If-None-Match` of a request is the ETag that came
with the configuration applied last. -/
theorem proper_of_run {parse : Str → Option Json} {events : List SourceEvent} {s : Source}
    (hrun : Run.exec (Source.step parse) {} events = some s) :
    Proper parse s.log ∧ ∀ i poll, requestsOf i poll s.log ≤ MAX_ATTEMPTS := by
  have hinv : s.Inv parse := Run.invariant (C := fun _ _ => True)
    (fun _ _ _ h _ hstep => Source.inv_step h hstep) (Source.inv_init parse)
    (Run.every_of_forall_mem (fun _ _ _ => trivial) _) hrun
  exact ⟨hinv.proper, requestsOf_le hinv.proper⟩

/-- A response with an empty configuration. -/
def flagsResponse : PollResponse where
  statusCode := some 200
  body := some (lit "\x7b\"data\":\x7b\"type\":\"universal-flag-configuration\"," ++
    lit "\"attributes\":\x7b\"format\":\"\",\"createdAt\":\"\"," ++
    lit "\"environment\":\x7b\"name\":\"\"\x7d,\"flags\":\x7b\x7d\x7d\x7d\x7d")
  etag := some (.one (lit "v1 "))

/-- A loop applies a configuration and is stopped; the next one requests with its ETag. -/
def pollEvents : List SourceEvent :=
  [.call .start, .respond 0 flagsResponse, .resume 0 [] true, .call .stop, .call .start,
    .resume 0 [] true]

/-- `proper_of_run` at a run. -/
theorem proper_pollEvents : ∃ s, Run.exec (Source.step Json.parse) {} pollEvents = some s ∧
    s.log.head? = some (.requested 1 1 (some (lit "v1"))) ∧
    Proper Json.parse s.log ∧ ∀ i poll, requestsOf i poll s.log ≤ MAX_ATTEMPTS := by
  have hparsed : (parseConfiguration Json.parse flagsResponse.body).isSome = true := by
    decide +kernel
  obtain ⟨configuration, hconfiguration⟩ := Option.isSome_iff_exists.mp hparsed
  have hstatus : flagsResponse.statusCode = some 200 := rfl
  have hetag : etagOf flagsResponse = some (lit "v1") := by decide
  have hrun : ∃ s, Run.exec (Source.step Json.parse) {} pollEvents = some s ∧
      s.log.head? = some (.requested 1 1 (some (lit "v1"))) := by
    simp [pollEvents, Run.exec, Source.step, Source.call, Source.start, Source.request,
      Source.setPhase, Source.setLoop, Source.answer, Source.apply, Source.stop, Source.finish,
      PollResponse.retryable, isRetryableStatus, hstatus, hconfiguration, hetag]
  obtain ⟨s, hexec, hhead⟩ := hrun
  exact ⟨s, hexec, hhead, proper_of_run hexec⟩

end DdTrace.OpenFeature
