import DdTrace.Library.OrderedMap
import DdTrace.Library.Text

/-!
# Telemetry requests and the retry slot

`telemetry.js` keeps one message for retry, `retryData`.  `createPayload` sends it along with the
next message, as a `message-batch` of two, and `updateRetryData`, the callback of `sendData`, decides
from the answer what the slot holds next.

The data of integrations and dependencies are what must not be lost.  `Item.carried` lists the
messages of the two kinds whose data an item has: itself, or those an extended heartbeat collects.
`State.Holds` says where a datum still is: in the slot, among the messages saved for the extended
heartbeat, or in a request under way.

* `holds_createPayload`: a message built by `createPayload` has what the slot has.
* `holds_updateRetryData`: after the callback a datum is still held, unless the message brought it
  to its end or only the slot had it and the message did not.
* `State.Kept` is what is asked of a run; `kept_answered` and `kept_of_same` are the two ways a step
  keeps it.
-/

namespace DdTrace.Telemetry

open Library Str List

/-! ## Messages -/

/-- An entry of `app-integrations-change`. -/
structure Integration where
  name : Str
  enabled : Bool
  autoEnabled : Bool
  processTags : OrderedMap Str Str
  deriving DecidableEq

/-- An entry of `app-dependencies-loaded`. -/
structure Dependency where
  name : Option Str
  version : Option Str
  deriving DecidableEq

/-- An entry of `app-endpoints`. -/
structure Endpoint where
  type : Str
  method : Str
  path : Str
  operationName : Str
  resourceName : Str
  deriving DecidableEq

/-- `getProducts`. -/
structure Products where
  appsecEnabled : Bool
  profilerVersion : Str
  profilerEnabled : Bool
  deriving DecidableEq

/-- `getInstallSignature`. -/
structure InstallSignature where
  installId : Option Str
  installTime : Option Str
  installType : Option Str
  deriving DecidableEq

/-- `errors.agentError`. -/
structure AgentError where
  code : ℕ
  message : Str
  deriving DecidableEq

/-- `appStarted(config)`, the payload of `app-started` and of `app-extended-heartbeat`. -/
structure App (κ : Type) where
  products : Products
  configuration : List κ
  installSignature : Option InstallSignature
  error : Option AgentError
  deriving DecidableEq

/-- A request type other than `message-batch`, with its payload. -/
inductive Item (κ : Type)
  | appStarted (app : App κ)
  | appIntegrationsChange (integrations : List Integration)
  | appDependenciesLoaded (dependencies : List Dependency)
  | appEndpoints (isFirst : Bool) (endpoints : List Endpoint)
  | appClientConfigurationChange (configuration : List κ)
  | appHeartbeat
  | appClosing
  | appExtendedHeartbeat (app : App κ) (integrations : List (List Integration))
      (dependencies : List (List Dependency))
  deriving DecidableEq

/-- What `sendData` is given: a request type with its payload, or a `message-batch`. -/
inductive Message (κ : Type)
  | single (item : Item κ)
  | batch (current retry : Item κ)
  deriving DecidableEq

variable {κ : Type}

/-- The messages of integrations and dependencies whose data the item has. -/
def Item.carried : Item κ → List (Item κ)
  | .appIntegrationsChange integrations => [.appIntegrationsChange integrations]
  | .appDependenciesLoaded dependencies => [.appDependenciesLoaded dependencies]
  | .appExtendedHeartbeat _ integrations dependencies =>
    integrations.map .appIntegrationsChange ++ dependencies.map .appDependenciesLoaded
  | _ => []

def Message.items : Message κ → List (Item κ)
  | .single item => [item]
  | .batch current retry => [current, retry]

def Message.carried (m : Message κ) : List (Item κ) := m.items.flatMap Item.carried

/-- The item is no collection of other messages. -/
def Item.isPlain : Item κ → Bool
  | .appExtendedHeartbeat .. => false
  | _ => true

/-! ## The state -/

/-- A request under way; `tracked` when its callback is `updateRetryData`. -/
structure Request (κ : Type) where
  seqId : ℕ
  message : Message κ
  tracked : Bool
  deriving DecidableEq

/-- How a message ended: delivered or not. -/
structure Answer (κ : Type) where
  message : Message κ
  delivered : Bool
  deriving DecidableEq

/-- The variables of `telemetry.js`, `dependencies.js` and `endpoints.js`, with the requests under
way, the callbacks the event loop holds, and the answers so far. -/
structure State (κ : Type) where
  retryData : Option (Item κ) := none
  heartbeatFailedIntegrations : List (List Integration) := []
  heartbeatFailedDependencies : List (List Dependency) := []
  plugins : OrderedMap Str Bool := .empty
  sentIntegrations : List Str := []
  latestConfiguration : List κ := []
  agentError : Option AgentError := none
  savedDependenciesToSend : List Str := []
  detectedDependencyKeys : List Str := []
  detectedDependencyVersions : List Str := []
  initialLoad : Bool := true
  immediates : ℕ := 0
  pendingEndpoints : OrderedMap Str (Str × Str × Str) := .empty
  flushScheduled : Bool := false
  isFirstPayload : Bool := true
  seqId : ℕ := 0
  flight : List (Request κ) := []
  answered : List (Answer κ) := []
  deriving DecidableEq

/-- The settings telemetry reads. -/
structure Config where
  appsecEnabled : Bool
  profiling : Str
  installId : Option Str
  installTime : Option Str
  installType : Option Str
  tracerVersion : Str
  processTags : OrderedMap Str Str
  dependencyCollection : Bool
  endpointMessageLimit : ℕ
  isCiVisibility : Bool
  agentlessEnabled : Bool
  agentlessUrl : Option Str
  site : Option Str
  apiKey : Option Str

/-- What is outside the repository: `new URL` does not throw, and `toUpperCase`. -/
structure Env where
  validUrl : Str → Bool
  toUpperCase : Str → Str

/-- A string that is there and not empty. -/
def truthy (s : Option Str) : Bool := s.any fun s => s ≠ []

def getAgentlessTelemetryEndpoint (site : Option Str) : Str :=
  if site = some (lit "datad0g.com") then lit "https://all-http-intake.logs.datad0g.com"
  else lit "https://instrumentation-telemetry-intake." ++ site.getD (lit "undefined")

/-- The endpoint of the backend is no URL. -/
def Config.badEndpoint (env : Env) (config : Config) : Bool :=
  !env.validUrl (getAgentlessTelemetryEndpoint config.site)

/-- `sendData` finds no URL to send to. -/
def Config.unaddressed (env : Env) (config : Config) : Bool :=
  config.isCiVisibility && config.agentlessEnabled && config.agentlessUrl.isNone &&
    config.badEndpoint env

/-- A failed request is made again to the backend, whose endpoint is no URL: `sendData` returns
before its callback. -/
def Config.unreported (env : Env) (config : Config) : Bool :=
  truthy config.apiKey && truthy config.site && config.badEndpoint env

namespace State

variable (s : State κ)

/-! ## The retry slot -/

def updateRetryData (error : Bool) (m : Message κ) : State κ :=
  if !error then { s with retryData := none }
  else match m with
    | .single item => { s with retryData := some item }
    | .batch current retry =>
      let s := { s with retryData := some current }
      match retry with
      | .appIntegrationsChange integrations =>
        { s with heartbeatFailedIntegrations := s.heartbeatFailedIntegrations ++ [integrations] }
      | .appDependenciesLoaded dependencies =>
        { s with heartbeatFailedDependencies := s.heartbeatFailedDependencies ++ [dependencies] }
      | _ => s

def createPayload (item : Item κ) : Message κ :=
  match s.retryData with
  | some retryData => .batch item retryData
  | none => .single item

/-- A message comes to its end. -/
def answer (m : Message κ) (error : Bool) : State κ :=
  { s with answered := s.answered ++ [⟨m, !error⟩] }

/-- `sendData`: the request is made, or the callback has the error of the URL at once. -/
def sendData (env : Env) (config : Config) (m : Message κ) (tracked : Bool) : State κ :=
  if config.unaddressed env then
    let s := s.answer m true
    if tracked then s.updateRetryData true m else s
  else
    { s with
      seqId := s.seqId + 1
      flight := s.flight ++ [⟨s.seqId + 1, m, tracked⟩] }

/-- The callback of `request`.  What becomes of the second request to the backend is only logged. -/
def complete (env : Env) (config : Config) (i : ℕ) (error : Bool) : Option (State κ) :=
  match s.flight[i]? with
  | none => none
  | some q =>
    let s := ({ s with flight := s.flight.eraseIdx i } : State κ).answer q.message error
    if error && config.unreported env then some s
    else if q.tracked then some (s.updateRetryData error q.message)
    else some s

/-! ## What is held -/

/-- The messages saved for the extended heartbeat. -/
def saved : List (Item κ) :=
  s.heartbeatFailedIntegrations.map .appIntegrationsChange ++
    s.heartbeatFailedDependencies.map .appDependenciesLoaded

/-- The data that the slot has. -/
def slotted : List (Item κ) := s.retryData.elim [] Item.carried

/-- The datum is saved for the extended heartbeat, or in a request under way. -/
def Elsewhere (x : Item κ) : Prop := x ∈ s.saved ∨ ∃ q ∈ s.flight, x ∈ q.message.carried

/-- The datum is held for retry. -/
def Holds (x : Item κ) : Prop := x ∈ s.slotted ∨ s.Elsewhere x

instance [DecidableEq κ] (x : Item κ) : Decidable (s.Elsewhere x) :=
  inferInstanceAs (Decidable (_ ∨ _))

instance [DecidableEq κ] (x : Item κ) : Decidable (s.Holds x) :=
  inferInstanceAs (Decidable (_ ∨ _))

/-- **What is asked**: the data of a message that failed are in a later message that was delivered,
or still held. -/
def Kept : Prop :=
  ∀ before m after x, s.answered = before ++ ⟨m, false⟩ :: after → x ∈ m.carried →
    (∃ a ∈ after, a.delivered = true ∧ x ∈ a.message.carried) ∨ s.Holds x

/-- An extended heartbeat is never in the slot, nor in a request whose callback could put it
there. -/
structure Plain : Prop where
  slot : ∀ item, s.retryData = some item → item.isPlain = true
  flight : ∀ q ∈ s.flight, q.tracked = true → ∀ item ∈ q.message.items, item.isPlain = true

end State

variable {s s' : State κ} {env : Env} {config : Config}

theorem carried_single (item : Item κ) : (Message.single item).carried = item.carried :=
  append_nil _

variable {x : Item κ} {m : Message κ} {error : Bool}

theorem mem_carried_batch {current retry : Item κ} :
    x ∈ (Message.batch current retry).carried ↔ x ∈ current.carried ∨ x ∈ retry.carried := by
  rw [Message.carried, Message.items, flatMap_cons, flatMap_singleton, mem_append]

/-- A message built by `createPayload` has what the slot has. -/
theorem holds_createPayload (item : Item κ) (h : x ∈ s.slotted) :
    x ∈ (s.createPayload item).carried := by
  unfold State.slotted at h
  unfold State.createPayload
  cases hslot : s.retryData with
  | none =>
    rw [hslot] at h
    cases h
  | some held =>
    rw [hslot] at h
    exact mem_carried_batch.mpr (Or.inr h)

theorem plain_createPayload (h : s.Plain) {item : Item κ} (hitem : item.isPlain = true) :
    ∀ i ∈ (s.createPayload item).items, i.isPlain = true := by
  unfold State.createPayload
  split
  · next held hslot =>
    rintro i hi
    rcases mem_cons.mp hi with rfl | hi
    · exact hitem
    · rw [mem_singleton.mp hi]
      exact h.slot held hslot
  · rintro i hi
    rwa [mem_singleton.mp hi]

/-! ## The callback -/

@[simp] theorem flight_updateRetryData (error : Bool) (m : Message κ) :
    (s.updateRetryData error m).flight = s.flight := by
  unfold State.updateRetryData
  split
  · rfl
  · split
    · rfl
    · split <;> rfl

@[simp] theorem answered_updateRetryData (error : Bool) (m : Message κ) :
    (s.updateRetryData error m).answered = s.answered := by
  unfold State.updateRetryData
  split
  · rfl
  · split
    · rfl
    · split <;> rfl

/-- The callback saves more, and forgets nothing that is saved. -/
theorem saved_updateRetryData (h : x ∈ s.saved) : x ∈ (s.updateRetryData error m).saved := by
  unfold State.updateRetryData
  split
  · exact h
  · split
    · exact h
    · split
      · rw [State.saved, map_append, mem_append, mem_append]
        rcases mem_append.mp h with h | h
        · exact Or.inl (Or.inl h)
        · exact Or.inr h
      · rw [State.saved, map_append, mem_append, mem_append]
        rcases mem_append.mp h with h | h
        · exact Or.inl h
        · exact Or.inr (Or.inl h)
      · exact h

theorem elsewhere_updateRetryData (h : s.Elsewhere x) :
    (s.updateRetryData error m).Elsewhere x := by
  rcases h with h | ⟨q, hq, hx⟩
  · exact Or.inl (saved_updateRetryData h)
  · refine Or.inr ⟨q, ?_, hx⟩
    rwa [flight_updateRetryData]

/-- **A failure** leaves all data of the message in the slot or saved. -/
theorem holds_of_failed (hplain : ∀ item ∈ m.items, item.isPlain = true)
    (hx : x ∈ m.carried) : (s.updateRetryData true m).Holds x := by
  cases m with
  | single item =>
    rw [carried_single] at hx
    exact Or.inl hx
  | batch current retry =>
    rcases mem_carried_batch.mp hx with hx | hx
    · refine Or.inl ?_
      have hslot : (s.updateRetryData true (.batch current retry)).retryData = some current := by
        cases retry <;> rfl
      unfold State.slotted
      rwa [hslot]
    · refine Or.inr (Or.inl ?_)
      cases retry with
      | appIntegrationsChange integrations =>
        rw [mem_singleton.mp hx]
        show _ ∈ List.map _ (_ ++ [integrations]) ++ _
        rw [map_append]
        exact mem_append_left _ (mem_append_right _ (mem_singleton_self _))
      | appDependenciesLoaded dependencies =>
        rw [mem_singleton.mp hx]
        show _ ∈ _ ++ List.map _ (_ ++ [dependencies])
        rw [map_append]
        exact mem_append_right _ (mem_append_right _ (mem_singleton_self _))
      | appExtendedHeartbeat app integrations dependencies =>
        cases hplain _ (mem_cons_of_mem _ (mem_singleton_self _))
      | appStarted app | appEndpoints isFirst endpoints => exact absurd hx not_mem_nil
      | appClientConfigurationChange configuration | appHeartbeat => exact absurd hx not_mem_nil
      | appClosing => exact absurd hx not_mem_nil

/-- **The callback**: where what the slot has is in the message or elsewhere, what was held is held,
or was in a message that was delivered. -/
theorem holds_updateRetryData (hplain : ∀ item ∈ m.items, item.isPlain = true)
    (hslot : ∀ x ∈ s.slotted, x ∈ m.carried ∨ s.Elsewhere x) (h : s.Holds x) :
    (s.updateRetryData error m).Holds x ∨ error = false ∧ x ∈ m.carried := by
  have hcarried : x ∈ m.carried ∨ s.Elsewhere x := h.elim (hslot x) Or.inr
  rcases hcarried with hx | hx
  · cases error with
    | false => exact Or.inr ⟨rfl, hx⟩
    | true => exact Or.inl (holds_of_failed hplain hx)
  · exact Or.inl (Or.inr (elsewhere_updateRetryData hx))

theorem plain_updateRetryData (h : s.Plain) (hm : ∀ item ∈ m.items, item.isPlain = true) :
    (s.updateRetryData error m).Plain := by
  refine ⟨fun item hitem => ?_, ?_⟩
  · revert hitem
    unfold State.updateRetryData
    split
    · intro hitem
      cases hitem
    · split
      · intro hitem
        rw [← Option.some.inj hitem]
        exact hm _ (mem_singleton_self _)
      · split <;> exact fun hitem => Option.some.inj hitem ▸ hm _ mem_cons_self
  · rw [flight_updateRetryData]
    exact h.flight

/-! ## Two ways to keep the data -/

/-- Nothing was answered, and what was held still is. -/
theorem kept_of_same (h : s.Kept) (hanswered : s'.answered = s.answered)
    (hholds : ∀ x, s.Holds x → s'.Holds x) : s'.Kept := by
  intro before m after x heq hx
  rw [hanswered] at heq
  exact (h before m after x heq hx).imp_right (hholds x)

/-- A message was answered: what was held still is, or was in the message and delivered; and what
failed is held. -/
theorem kept_answered (h : s.Kept) (m : Message κ) (error : Bool)
    (hanswered : s'.answered = s.answered ++ [⟨m, !error⟩])
    (hholds : ∀ x, s.Holds x → s'.Holds x ∨ error = false ∧ x ∈ m.carried)
    (hfailed : error = true → ∀ x ∈ m.carried, s'.Holds x) : s'.Kept := by
  intro before failed after x heq hx
  rw [hanswered] at heq
  rcases eq_nil_or_concat after with rfl | ⟨after', last, rfl⟩
  · have hlast := (append_inj_right' heq rfl)
    rw [List.cons.injEq, Answer.mk.injEq] at hlast
    obtain ⟨⟨rfl, herror⟩, -⟩ := hlast
    refine Or.inr (hfailed ?_ x hx)
    simpa using herror
  · rw [concat_eq_append, ← cons_append, ← append_assoc] at heq
    obtain ⟨hbefore, hlast⟩ := append_inj' heq rfl
    rw [List.cons.injEq] at hlast
    rw [concat_eq_append, ← hlast.1]
    rcases h before failed after' x hbefore hx with ⟨a, ha, hdone, hxa⟩ | hheld
    · exact Or.inl ⟨a, mem_append_left _ ha, hdone, hxa⟩
    · rcases hholds x hheld with hheld | ⟨herror, hxm⟩
      · exact Or.inr hheld
      · refine Or.inl ⟨_, mem_append_right _ (mem_singleton_self _), ?_, hxm⟩
        rw [herror]
        rfl

end DdTrace.Telemetry
