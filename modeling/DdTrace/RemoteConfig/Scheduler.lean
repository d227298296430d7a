import DdTrace.Library.Run

/-!
# The poll loop of remote config

`remote_config/scheduler.js` arms one timeout at a time: `start` arms the first, the callback that
a timeout runs is `poll`, and the completion that `poll` is handed arms the next one.  The state
`Polling` keeps what the interleavings are about:

* `timer` is the field `_timer`, the last handle `setTimeout` returned (it stays set after its
  timeout has fired);
* `armed` are the timeouts the event loop still has to fire;
* `inFlight` counts the polls that have not called their completion yet;
* `created` and `issued` count the timeouts armed and the polls issued so far.

How long a timeout waits plays no part: `fire` may take any armed timeout at any moment, so every
order of firings and completions is a run of `step`.

## What goes wrong

`stop` clears the timeout that `_timer` names.  While a poll is in flight that one has fired, and
the completion of the poll arms the next one after the stop (`not_stopped_polling`); a `start` in
between makes it two chains.  When every `stop` meets no poll in flight the loop is what it should
be, over any run: `polling_of_stops_idle`.

`remote_config/index.js` starts and stops the scheduler from `subscribeProducts` and
`unsubscribeProducts`; `Client` is that layer, and `Client.step_simulates` says that each of its
steps is at most one action of the scheduler, so that `Client.one_poll_chain` holds of the client
as long as the last product is not unsubscribed while a poll is in flight.
-/

namespace DdTrace.RemoteConfig

open Library List Option

/-- The handle `setTimeout` returns. -/
abbrev Timeout := ℕ

/-- The scheduler, with the timeouts the event loop holds for it and the polls under way. -/
structure Polling where
  timer : Option Timeout := none
  armed : List Timeout := []
  inFlight : ℕ := 0
  created : ℕ := 0
  issued : ℕ := 0
  deriving DecidableEq

namespace Polling

/-- `setTimeout(this._callback, interval, …)`, with its handle kept in `_timer`. -/
def runAfterDelay (s : Polling) : Polling :=
  { s with timer := some s.created, armed := s.armed ++ [s.created], created := s.created + 1 }

/-- A scheduler that holds a timer is already started. -/
def start (s : Polling) : Polling :=
  match s.timer with
  | some _ => s
  | none => s.runAfterDelay

/-- `clearTimeout` of a handle whose timeout has fired, or of `null`, does nothing. -/
def clearTimeout (s : Polling) : Option Timeout → Polling
  | some t => { s with armed := s.armed.erase t }
  | none => s

def stop (s : Polling) : Polling :=
  { s.clearTimeout s.timer with timer := none }

/-- An armed timeout runs the callback, which issues a poll. -/
def fire (s : Polling) (t : Timeout) : Option Polling :=
  if t ∈ s.armed then
    some { s with armed := s.armed.erase t, inFlight := s.inFlight + 1, issued := s.issued + 1 }
  else none

/-- Every path through the callback of `request` ends in `cb()`, which is `runAfterDelay`. -/
def complete (s : Polling) : Option Polling :=
  if 0 < s.inFlight then some { s with inFlight := s.inFlight - 1 }.runAfterDelay else none

end Polling

/-- What can happen to a scheduler. -/
inductive Act where
  | start
  | stop
  | fire (t : Timeout)
  | complete
  deriving DecidableEq

/-- One action of the scheduler or of the event loop. -/
def step (s : Polling) : Act → Option Polling
  | .start => some s.start
  | .stop => some s.stop
  | .fire t => s.fire t
  | .complete => s.complete

/-! ## One chain at a time -/

/-- The two shapes of a scheduler whose stops found no poll in flight: stopped, with nothing under
way, or started, with one timeout armed or one poll in flight. -/
inductive OneChain : Polling → Prop where
  | stopped {s : Polling} : s.timer = none → s.armed = [] → s.inFlight = 0 → OneChain s
  | waiting {s : Polling} (t : Timeout) :
      s.timer = some t → s.armed = [t] → s.inFlight = 0 → OneChain s
  | polling {s : Polling} (t : Timeout) :
      s.timer = some t → s.armed = [] → s.inFlight = 1 → OneChain s

/-- A stop that takes place while a poll is in flight is what the condition rules out. -/
def StopsIdle (s : Polling) (a : Act) : Prop := a = .stop → s.inFlight = 0

variable {s s' : Polling}

theorem OneChain.length_le (h : OneChain s) : s.armed.length + s.inFlight ≤ 1 := by
  rcases h with ⟨-, ha, hf⟩ | ⟨t, -, ha, hf⟩ | ⟨t, -, ha, hf⟩ <;> rw [ha, hf] <;> simp

theorem oneChain_runAfterDelay (ha : s.armed = []) (hf : s.inFlight = 0) :
    OneChain s.runAfterDelay :=
  .waiting s.created rfl (by rw [Polling.runAfterDelay, ha]; rfl) hf

theorem OneChain.start (h : OneChain s) : OneChain s.start := by
  rcases ht : s.timer with _ | t
  · rw [Polling.start, ht]
    rcases h with ⟨-, ha, hf⟩ | ⟨t, ht', -, -⟩ | ⟨t, ht', -, -⟩
    · exact oneChain_runAfterDelay ha hf
    all_goals
      rw [ht] at ht'
      cases ht'
  · rw [Polling.start, ht]
    exact h

/-- A stop with no poll in flight leaves nothing under way. -/
theorem OneChain.stop (h : OneChain s) (hf : s.inFlight = 0) :
    s.stop.timer = none ∧ s.stop.armed = [] ∧ s.stop.inFlight = 0 := by
  rcases h with ⟨ht, ha, -⟩ | ⟨t, ht, ha, -⟩ | ⟨t, -, -, hf'⟩
  · exact ⟨rfl, by rw [Polling.stop, ht]; exact ha, by rw [Polling.stop, ht]; exact hf⟩
  · refine ⟨rfl, ?_, by rw [Polling.stop, ht]; exact hf⟩
    rw [Polling.stop, ht]
    show s.armed.erase t = []
    rw [ha, erase_cons_head]
  · rw [hf] at hf'
    cases hf'

theorem OneChain.fire {t : Timeout} (h : OneChain s) (hs : s.fire t = some s') :
    OneChain s' := by
  rw [Polling.fire] at hs
  split at hs
  · next hmem =>
    rw [some_inj] at hs
    subst hs
    rcases h with ⟨-, ha, -⟩ | ⟨t', ht, ha, hf⟩ | ⟨t', -, ha, -⟩
    · rw [ha] at hmem
      cases hmem
    · rw [ha, mem_singleton] at hmem
      subst hmem
      refine .polling t ht ?_ (by rw [hf])
      rw [ha, erase_cons_head]
    · rw [ha] at hmem
      cases hmem
  · cases hs

theorem OneChain.complete (h : OneChain s) (hs : s.complete = some s') :
    OneChain s' := by
  rw [Polling.complete] at hs
  split at hs
  · next hpos =>
    rw [some_inj] at hs
    subst hs
    rcases h with ⟨-, -, hf⟩ | ⟨t, -, -, hf⟩ | ⟨t, -, ha, hf⟩
    · omega
    · omega
    · exact oneChain_runAfterDelay ha (by rw [hf])
  · cases hs

/-- **One step keeps one chain**, provided that a stop meets no poll in flight. -/
theorem OneChain.step {a : Act} (h : OneChain s) (hC : StopsIdle s a)
    (hs : step s a = some s') : OneChain s' := by
  cases a with
  | start =>
    rw [RemoteConfig.step, some_inj] at hs
    exact hs ▸ h.start
  | stop =>
    rw [RemoteConfig.step, some_inj] at hs
    obtain ⟨ht, ha, hf⟩ := h.stop (hC rfl)
    exact hs ▸ .stopped ht ha hf
  | fire t => exact h.fire hs
  | complete => exact h.complete hs

theorem oneChain_run {as : List Act} (hC : Run.Every step StopsIdle {} as)
    (hr : Run.exec step {} as = some s) : OneChain s :=
  Run.invariant (fun _ _ _ h hC hs => h.step hC hs) (.stopped rfl rfl rfl) hC hr

/-! ## After a stop -/

/-- Nothing is under way and, but for a start, nothing can begin. -/
def Silent (n : ℕ) (s : Polling) : Prop :=
  s.timer = none ∧ s.armed = [] ∧ s.inFlight = 0 ∧ s.issued = n

theorem Silent.step {n : ℕ} {a : Act} (h : Silent n s) (ha : a ≠ .start)
    (hs : step s a = some s') : Silent n s' := by
  obtain ⟨ht, harm, hf, hn⟩ := h
  cases a with
  | start => exact absurd rfl ha
  | stop =>
    rw [RemoteConfig.step, some_inj] at hs
    subst hs
    rw [Polling.stop, ht]
    exact ⟨rfl, harm, hf, hn⟩
  | fire t =>
    rw [RemoteConfig.step, Polling.fire, harm] at hs
    cases hs
  | complete =>
    rw [RemoteConfig.step, Polling.complete, if_neg (by omega)] at hs
    cases hs

theorem issued_stop (s : Polling) : s.stop.issued = s.issued := by
  rw [Polling.stop]
  cases s.timer <;> rfl

/-- What the loop is for: at most one timeout or poll at any moment, and no poll issued after a
stop that no start follows. -/
def OnePollChain (as : List Act) (s : Polling) : Prop :=
  s.armed.length + s.inFlight ≤ 1 ∧ ∀ pre post t, as = pre ++ .stop :: post → .start ∉ post →
      Run.exec step {} pre = some t → s.issued = t.issued

/-- **The poll loop**, over every run whose stops meet no poll in flight: at most one chain is
alive, and after a stop with no later start no further poll is issued. -/
theorem polling_of_stops_idle {as : List Act} {s : Polling}
    (hC : Run.Every step StopsIdle {} as) (hr : Run.exec step {} as = some s) :
    OnePollChain as s := by
  refine ⟨(oneChain_run hC hr).length_le, ?_⟩
  intro pre post t has hpost ht
  subst has
  have hchain : OneChain t := oneChain_run hC.prefix ht
  have hrest := hC.suffix ht
  obtain ⟨u, hu, hpost'⟩ := Run.exec_append_eq_some.mp hr
  rw [ht, some_inj] at hu
  subst hu
  rw [Run.exec_cons_eq_some] at hpost'
  obtain ⟨v, hv, hrun⟩ := hpost'
  rw [step, some_inj] at hv
  subst hv
  obtain ⟨h1, h2, h3⟩ := hchain.stop (hrest.1 rfl)
  have hsilent : Silent t.issued t.stop := ⟨h1, h2, h3, issued_stop t⟩
  have hnostart : Run.Every step (fun _ a => a ≠ .start) t.stop post :=
    by
    refine Run.every_of_forall_mem (fun a ha _ hst => ?_) _
    rw [hst] at ha
    exact hpost ha
  exact (Run.invariant (fun _ _ _ h hC hs => h.step hC hs) hsilent hnostart hrun).2.2.2

/-- A run of three polls, stopped between two of them and started again. -/
theorem polling_of_stops_idle_restart :
    OnePollChain [.start, .fire 0, .complete, .stop, .start, .fire 2, .complete, .fire 3, .complete,
      .stop] ⟨none, [], 0, 5, 3⟩ :=
  polling_of_stops_idle (by simp [Run.Every, StopsIdle, step, Polling.fire, Polling.complete,
    Polling.start, Polling.runAfterDelay, Polling.stop, Polling.clearTimeout]) (by decide)

/-- **A stop while a poll is in flight does not stop the loop**: the poll completes, arms the next
timeout, and a further poll is issued. -/
theorem not_stopped_polling :
    ¬ ∀ as s, Run.exec step {} as = some s → OnePollChain as s := by
  intro h
  have hrun := (h [.start, .fire 0, .stop, .complete, .fire 1] ⟨some 1, [], 1, 2, 2⟩ (by decide)).2
    [.start, .fire 0] [.complete, .fire 1] ⟨some 0, [], 1, 1, 1⟩ rfl (by decide) (by decide)
  exact absurd hrun (by decide)

/-! ## The client that starts and stops the scheduler -/

/-- The subscribed products, a `Set` in insertion order, and the scheduler. -/
structure Client (P : Type*) where
  products : List P := []
  scheduler : Polling := {}

/-- What can happen to a client. -/
inductive ClientAct (P : Type*) where
  | subscribeProducts (products : List P)
  | unsubscribeProducts (products : List P)
  | fire (t : Timeout)
  | complete

namespace Client

variable {P : Type*} [DecidableEq P]

/-- The scheduler is started when the set of products becomes nonempty. -/
def subscribeProducts (c : Client P) (products : List P) : Client P :=
  let subscribed := products.foldl (fun s p => if p ∈ s then s else s ++ [p]) c.products
  if c.products = [] ∧ subscribed ≠ [] then ⟨subscribed, c.scheduler.start⟩
  else ⟨subscribed, c.scheduler⟩

/-- The scheduler is stopped when the set of products becomes empty. -/
def unsubscribeProducts (c : Client P) (products : List P) : Client P :=
  let subscribed := c.products.filter fun p => p ∉ products
  if c.products ≠ [] ∧ subscribed = [] then ⟨subscribed, c.scheduler.stop⟩
  else ⟨subscribed, c.scheduler⟩

/-- One action of the client or of the event loop. -/
def step (c : Client P) : ClientAct P → Option (Client P)
  | .subscribeProducts ps => some (c.subscribeProducts ps)
  | .unsubscribeProducts ps => some (c.unsubscribeProducts ps)
  | .fire t => (c.scheduler.fire t).map fun s => { c with scheduler := s }
  | .complete => c.scheduler.complete.map fun s => { c with scheduler := s }

/-- The last product is not unsubscribed while a poll is in flight. -/
def UnsubscribesIdle (c : Client P) (a : ClientAct P) : Prop :=
  ∀ ps, a = .unsubscribeProducts ps → c.products ≠ [] →
    c.products.filter (fun p => p ∉ ps) = [] → c.scheduler.inFlight = 0

/-- Each step of the client is at most one action of its scheduler, and a stop among them meets
no poll in flight when the step meets `UnsubscribesIdle`. -/
theorem step_simulates {c c' : Client P} {a : ClientAct P} (h : step c a = some c')
    (hC : UnsubscribesIdle c a) :
    c'.scheduler = c.scheduler ∨
      ∃ b, RemoteConfig.step c.scheduler b = some c'.scheduler ∧ StopsIdle c.scheduler b := by
  cases a with
  | subscribeProducts ps =>
    rw [step, some_inj, subscribeProducts] at h
    subst h
    split
    · exact Or.inr ⟨.start, rfl, fun hb => Act.noConfusion hb⟩
    · exact Or.inl rfl
  | unsubscribeProducts ps =>
    rw [step, some_inj, unsubscribeProducts] at h
    subst h
    split
    · next hlast => exact Or.inr ⟨.stop, rfl, fun _ => hC ps rfl hlast.1 hlast.2⟩
    · exact Or.inl rfl
  | fire t =>
    rw [step, map_eq_some_iff] at h
    obtain ⟨s, hs, rfl⟩ := h
    exact Or.inr ⟨.fire t, hs, fun hb => Act.noConfusion hb⟩
  | complete =>
    rw [step, map_eq_some_iff] at h
    obtain ⟨s, hs, rfl⟩ := h
    exact Or.inr ⟨.complete, hs, fun hb => Act.noConfusion hb⟩

/-- **One poll chain in the client**, over every run that does not unsubscribe the last product
while a poll is in flight. -/
theorem one_poll_chain {as : List (ClientAct P)} {c : Client P}
    (hC : Run.Every step UnsubscribesIdle {} as) (hr : Run.exec step {} as = some c) :
    c.scheduler.armed.length + c.scheduler.inFlight ≤ 1 := by
  have hstep : ∀ (c : Client P) a c', OneChain c.scheduler → UnsubscribesIdle c a →
      step c a = some c' → OneChain c'.scheduler := by
    intro c a c' hc hC h
    rcases step_simulates h hC with heq | ⟨b, hb, hidle⟩
    · exact heq ▸ hc
    · exact hc.step hidle hb
  exact (Run.invariant (I := fun c : Client P => OneChain c.scheduler) hstep
    (.stopped rfl rfl rfl) hC hr).length_le

/-- A product is unsubscribed between two polls. -/
theorem one_poll_chain_once : ∃ c : Client Unit,
    c.scheduler.issued = 1 ∧ c.scheduler.armed.length + c.scheduler.inFlight ≤ 1 := by
  have hr : Run.exec step {} [.subscribeProducts [()], .fire 0, .complete,
      .unsubscribeProducts [()]] = some ⟨[], none, [], 0, 2, 1⟩ := rfl
  exact ⟨_, rfl, one_poll_chain (by simp [Run.Every, UnsubscribesIdle]; decide) hr⟩

end Client

end DdTrace.RemoteConfig
