import DdTrace.Library.Run
import DdTrace.Telemetry.SendData

/-!
# Telemetry in a running process

`start` of `telemetry.js` sends `app-started` and the integrations loaded so far.  From then on the
plugin manager, the configuration, the modules loaded, the routes registered and two intervals lead
to requests, which come to their ends in any order.  `State.step` takes one such event; the requests
under way are told apart by their place in `flight`.

A run keeps the data of every message that failed (`State.Kept`) as long as no completion takes a
datum from the only place where it is held.  `Spares` is that condition on the state before a step:

* a request that runs the callback leaves the slot to the next one, so what the slot has must be in
  the request itself or elsewhere;
* a request that fails without the callback must have nothing that is not held elsewhere.

`kept_of_run` is the result over all runs.  `not_kept` has two requests under way: the first fails
and its data is put in the slot, the second one, an unrelated heartbeat, succeeds and the slot is
cleared.
-/

namespace DdTrace.Telemetry

open Library Str List Option

variable {κ : Type}

/-! ## What the requests are made of -/

def profilingEnabledToBoolean (profilingEnabled : Str) : Bool :=
  includes [lit "true", lit "auto"] profilingEnabled

def getProducts (config : Config) : Products where
  appsecEnabled := config.appsecEnabled
  profilerVersion := config.tracerVersion
  profilerEnabled := profilingEnabledToBoolean config.profiling

def getInstallSignature (config : Config) : Option InstallSignature :=
  if truthy config.installId || truthy config.installTime || truthy config.installType then
    some ⟨config.installId, config.installTime, config.installType⟩
  else none

/-- `isTrue`; no character outside ASCII becomes one of `true` in lower case. -/
def isTrue (s : Option Str) : Bool :=
  let lower := (s.getD (lit "undefined")).map fun u =>
    if unit 'A' ≤ u ∧ u ≤ unit 'Z' then u + 32 else u
  includes [lit "true", lit "1"] lower

/-- The loop of `waitAndSend` over the set: what it sends, at most `left` entries, and what it leaves
in the set. -/
def takeDependencies (dependencyCollection : Bool) : ℕ → List Str → List Dependency × List Str
  | _, [] => ([], [])
  | left, dependency :: rest =>
    let parts := dependency.split (unit ' ')
    if isTrue parts[2]? || dependencyCollection then
      if left = 1 then ([⟨parts[0]?, parts[1]?⟩], rest)
      else
        let (dependencies, saved) := takeDependencies dependencyCollection (left - 1) rest
        (⟨parts[0]?, parts[1]?⟩ :: dependencies, saved)
    else takeDependencies dependencyCollection left rest

/-- What `parse` and `requirePackageJson` find for a file that is loaded. -/
structure Package where
  basedir : Str
  name : Str
  version : Str

def endpointKey (env : Env) (method path : Str) : Str :=
  env.toUpperCase method ++ lit " " ++ path

def buildEndpointObjects (env : Env) (endpoints : List (Str × Str × Str)) : List Endpoint :=
  endpoints.map fun (method, path, operationName) =>
    ⟨lit "REST", method, path, operationName, endpointKey env method path⟩

/-! ## The modules -/

namespace State

variable (env : Env) (config : Config) (s : State κ)

def getIntegrations : List Integration × State κ :=
  let new := s.plugins.entries.filter fun e => !includes s.sentIntegrations e.1
  (new.map fun e => ⟨e.1, e.2, true, config.processTags⟩,
    { s with sentIntegrations := s.sentIntegrations ++ new.map Prod.fst })

def appStarted : App κ × State κ :=
  (⟨getProducts config, s.latestConfiguration, getInstallSignature config, s.agentError⟩,
    { s with agentError := none })

def appClosing : State κ := s.sendData env config (s.createPayload .appClosing) false

def heartbeat : State κ := s.sendData env config (s.createPayload .appHeartbeat) true

def extendedHeartbeat : State κ :=
  let (app, s) := s.appStarted config
  let payload := Item.appExtendedHeartbeat app s.heartbeatFailedIntegrations
    s.heartbeatFailedDependencies
  let s := { s with heartbeatFailedIntegrations := [], heartbeatFailedDependencies := [] }
  s.sendData env config (.single payload) false

def updateIntegrations : State κ :=
  let (integrations, s) := s.getIntegrations config
  if integrations.length = 0 then s
  else s.sendData env config (s.createPayload (.appIntegrationsChange integrations)) true

def updateConfig (configuration : List κ) (enabled : Bool) : State κ :=
  if !enabled then s
  else
    let s := if s.latestConfiguration.length = 0 then s
      else s.sendData env config
        (s.createPayload (.appClientConfigurationChange configuration)) true
    { s with latestConfiguration := configuration }

/-- `onModuleLoad`, from where the package of the file is known. -/
def onModuleLoad (package : Package) : State κ :=
  if includes s.detectedDependencyKeys package.basedir then s
  else
    let s := { s with detectedDependencyKeys := s.detectedDependencyKeys ++ [package.basedir] }
    let dependencyAndVersion := package.name ++ lit " " ++ package.version
    if includes s.detectedDependencyVersions dependencyAndVersion then s
    else
      let entry := dependencyAndVersion ++ lit " " ++
        (if s.initialLoad then lit "true" else lit "false")
      { s with
        savedDependenciesToSend := OrderedMap.addKey s.savedDependenciesToSend entry
        detectedDependencyVersions := s.detectedDependencyVersions ++ [dependencyAndVersion]
        immediates := s.immediates + 1 }

/-- The callback that `waitAndSend` hands to `setImmediate`. -/
def waitAndSend : Option (State κ) :=
  if s.immediates = 0 then none
  else
    let s := { s with immediates := s.immediates - 1 }
    if s.savedDependenciesToSend.length = 0 then some s
    else
      let (dependencies, saved) :=
        takeDependencies config.dependencyCollection 2000 s.savedDependenciesToSend
      let s := { s with savedDependenciesToSend := saved }
      if s.retryData = none ∧ dependencies.length = 0 then some s
      else
        let s := s.sendData env config (s.createPayload (.appDependenciesLoaded dependencies)) true
        some { s with immediates := if saved.length = 0 then s.immediates else s.immediates + 1 }

def recordEndpoint (method path operationName : Str) : State κ :=
  let key := endpointKey env method path
  if s.pendingEndpoints.has key then s
  else
    { s with
      pendingEndpoints := s.pendingEndpoints.set key (env.toUpperCase method, path, operationName)
      flushScheduled := true }

def flushAndSend : Option (State κ) :=
  if !s.flushScheduled then none
  else
    let s := { s with flushScheduled := false }
    if s.pendingEndpoints.entries.length = 0 then some s
    else
      let batch := s.pendingEndpoints.entries.take (max 1 config.endpointMessageLimit)
      let pending := batch.foldl (fun m e => m.delete e.1) s.pendingEndpoints
      let payload := Item.appEndpoints s.isFirstPayload
        (buildEndpointObjects env (batch.map Prod.snd))
      let s := { s with pendingEndpoints := pending }
      let s := s.sendData env config (s.createPayload payload) true
      some { s with isFirstPayload := false, flushScheduled := pending.entries.length ≠ 0 }

/-- The state `start` leaves. -/
def start (plugins : OrderedMap Str Bool) (latestConfiguration : List κ)
    (agentError : Option AgentError) : State κ :=
  let s : State κ :=
    { plugins := plugins, latestConfiguration := latestConfiguration, agentError := agentError }
  let (integrations, s) := s.getIntegrations config
  let (app, s) := s.appStarted config
  let s := s.sendData env config (.single (.appStarted app)) false
  if integrations.length = 0 then s
  else s.sendData env config (.single (.appIntegrationsChange integrations)) true

end State

/-! ## Runs -/

/-- What can happen to telemetry that was started. -/
inductive Event (κ : Type)
  | plugin (name : Str) (enabled : Bool)
  | updateIntegrations
  | updateConfig (configuration : List κ) (enabled : Bool)
  | agentError (error : AgentError)
  | moduleLoad (package : Package)
  | endOfInitialLoad
  | immediate
  | endpoint (method path operationName : Str)
  | flush
  | heartbeat
  | extendedHeartbeat
  | appClosing
  | complete (i : ℕ) (error : Bool)

def State.step (env : Env) (config : Config) (s : State κ) : Event κ → Option (State κ)
  | .plugin name enabled => some { s with plugins := s.plugins.set name enabled }
  | .updateIntegrations => some (s.updateIntegrations env config)
  | .updateConfig configuration enabled => some (s.updateConfig env config configuration enabled)
  | .agentError error => some { s with agentError := some error }
  | .moduleLoad package => some (s.onModuleLoad package)
  | .endOfInitialLoad => some { s with initialLoad := false }
  | .immediate => s.waitAndSend env config
  | .endpoint method path operationName => some (s.recordEndpoint env method path operationName)
  | .flush => s.flushAndSend env config
  | .heartbeat => some (s.heartbeat env config)
  | .extendedHeartbeat => some (s.extendedHeartbeat env config)
  | .appClosing => some (s.appClosing env config)
  | .complete i error => s.complete env config i error

/-- The state without the request `i`. -/
def State.without (s : State κ) (i : ℕ) : State κ := { s with flight := s.flight.eraseIdx i }

/-- **The condition on a step**: a completion takes no datum from the only place where it is held. -/
def Spares (env : Env) (config : Config) (s : State κ) : Event κ → Prop
  | .complete i error => ∀ q ∈ s.flight[i]?,
      if q.tracked && !(error && config.unreported env) then
        ∀ x ∈ s.slotted, x ∈ q.message.carried ∨ (s.without i).Elsewhere x
      else error = true → ∀ x ∈ q.message.carried, (s.without i).Holds x
  | .extendedHeartbeat => config.unaddressed env = true →
      ∀ x ∈ s.saved, x ∈ s.slotted ∨ ∃ q ∈ s.flight, x ∈ q.message.carried
  | _ => True

instance [DecidableEq κ] (env : Env) (config : Config) (s : State κ) :
    ∀ e, Decidable (Spares env config s e)
  | .complete i error =>
    have (q : Request κ) : Decidable (if q.tracked && !(error && config.unreported env) then
          ∀ x ∈ s.slotted, x ∈ q.message.carried ∨ (s.without i).Elsewhere x
        else error = true → ∀ x ∈ q.message.carried, (s.without i).Holds x) :=
      inferInstanceAs (Decidable (ite ..))
    inferInstanceAs (Decidable (∀ q ∈ s.flight[i]?, _))
  | .extendedHeartbeat => inferInstanceAs (Decidable (_ → ∀ x ∈ s.saved, _))
  | .plugin .. | .updateIntegrations | .updateConfig .. | .agentError .. | .moduleLoad ..
  | .endOfInitialLoad | .immediate | .endpoint .. | .flush | .heartbeat | .appClosing =>
    inferInstanceAs (Decidable True)

variable {env : Env} {config : Config} {s s₀ s' : State κ}

/-- What the invariant of a run says of a state. -/
structure Safe (s : State κ) : Prop where
  kept : s.Kept
  plain : s.Plain

/-- **A message is sent.**  It may have been made of data that were saved. -/
theorem safe_sendData (h : Safe s₀) (hanswered : s.answered = s₀.answered) (hplain : s.Plain)
    {m : Message κ} {tracked : Bool}
    (hitems : tracked = true → ∀ item ∈ m.items, item.isPlain = true)
    (hholds : ∀ x, s₀.Holds x → s.Holds x ∨ x ∈ m.carried)
    (hslot : tracked = true → ∀ x ∈ s.slotted, x ∈ m.carried ∨ s.Elsewhere x)
    (hheld : tracked = false → config.unaddressed env = true → ∀ x ∈ m.carried, s.Holds x) :
    Safe (s.sendData env config m tracked) := by
  unfold State.sendData
  by_cases haddress : config.unaddressed env = true
  · rw [if_pos haddress]
    cases tracked with
    | true =>
      rw [if_pos rfl]
      refine ⟨kept_answered h.kept m true ?_ (fun x hx => Or.inl ?_) ?_, ?_⟩
      · rw [answered_updateRetryData]
        show s.answered ++ _ = _
        rw [hanswered]
      · rcases hholds x hx with hx | hx
        · exact (holds_updateRetryData (s := s.answer m true) (hitems rfl) (hslot rfl) hx).resolve_right
            fun hfalse => by cases hfalse.1
        · exact holds_of_failed (hitems rfl) hx
      · exact fun _ x hx => holds_of_failed (hitems rfl) hx
      · exact plain_updateRetryData (s := s.answer m true) ⟨hplain.slot, hplain.flight⟩ (hitems rfl)
    | false =>
      refine ⟨kept_answered h.kept m true ?_ (fun x hx => Or.inl ?_) ?_,
        ⟨hplain.slot, hplain.flight⟩⟩
      · show s.answered ++ _ = _
        rw [hanswered]
      · exact (hholds x hx).elim id (hheld rfl haddress x)
      · exact fun _ => hheld rfl haddress
  · rw [if_neg haddress]
    refine ⟨kept_of_same h.kept hanswered fun x hx => ?_, hplain.slot, fun q hq => ?_⟩
    · rcases hholds x hx with (hx | hx | ⟨q, hq, hx⟩) | hx
      · exact Or.inl hx
      · exact Or.inr (Or.inl hx)
      · exact Or.inr (Or.inr ⟨q, mem_append_left _ hq, hx⟩)
      · exact Or.inr (Or.inr ⟨_, mem_append_right _ (mem_singleton_self _), hx⟩)
    · rcases mem_append.mp hq with hq | hq
      · exact hplain.flight q hq
      · rw [mem_singleton.mp hq]
        exact hitems

/-- A message that was built by `createPayload` is sent. -/
theorem safe_send (h : Safe s) (env : Env) (config : Config) (item : Item κ)
    (hitem : item.isPlain = true) : Safe (s.sendData env config (s.createPayload item) true) :=
  safe_sendData h rfl h.plain (fun _ => plain_createPayload h.plain hitem) (fun _ => Or.inl)
    (fun _ _ hx => Or.inl (holds_createPayload item hx)) (fun hfalse => by cases hfalse)

/-- The same for a message without a callback, which has no data of its own. -/
theorem safe_send_untracked (h : Safe s) (env : Env) (config : Config) (item : Item κ)
    (hitem : item.carried = []) : Safe (s.sendData env config (s.createPayload item) false) := by
  refine safe_sendData h rfl h.plain (fun hfalse => by cases hfalse) (fun _ => Or.inl)
    (fun hfalse => by cases hfalse) fun _ _ x hx => ?_
  unfold State.createPayload at hx
  split at hx
  · next held hslot =>
    rw [mem_carried_batch, hitem] at hx
    refine Or.inl ?_
    unfold State.slotted
    rw [hslot]
    exact hx.resolve_left not_mem_nil
  · rw [carried_single, hitem] at hx
    cases hx

/-! ## One step -/

theorem holds_without {i : ℕ} {q : Request κ} (hq : s.flight[i]? = some q) {x : Item κ}
    (h : s.Holds x) : (s.without i).Holds x ∨ x ∈ q.message.carried := by
  rcases h with h | h | ⟨r, hr, hx⟩
  · exact Or.inl (Or.inl h)
  · exact Or.inl (Or.inr (Or.inl h))
  · obtain ⟨j, hj⟩ := mem_iff_getElem?.mp hr
    by_cases hji : j = i
    · rw [hji, hq] at hj
      rw [← some.inj hj] at hx
      exact Or.inr hx
    · refine Or.inl (Or.inr (Or.inr ⟨r, ?_, hx⟩))
      exact mem_eraseIdx_iff_getElem?.mpr ⟨j, hji, hj⟩

theorem plain_without (h : s.Plain) (i : ℕ) : (s.without i).Plain :=
  ⟨h.slot, fun q hq => h.flight q (mem_of_mem_eraseIdx hq)⟩

/-- **A request comes to its end.** -/
theorem safe_complete (h : Safe s) {i : ℕ} {error : Bool}
    (hC : Spares env config s (.complete i error))
    (hs : s.complete env config i error = some s') : Safe s' := by
  unfold State.complete at hs
  split at hs
  · cases hs
  · next q hq =>
    have hmem : q ∈ s.flight := mem_of_getElem? hq
    have hplain := plain_without h.plain i
    have hspares := hC q hq
    by_cases hcallback : (q.tracked && !(error && config.unreported env)) = true
    · rw [if_pos hcallback] at hspares
      rw [Bool.and_eq_true, Bool.not_eq_true'] at hcallback
      have hitems := h.plain.flight q hmem hcallback.1
      rw [hcallback.2, if_neg Bool.false_ne_true, if_pos hcallback.1, some.injEq] at hs
      rw [← hs]
      refine ⟨kept_answered h.kept q.message error ?_ (fun x hx => ?_) ?_, ?_⟩
      · rw [answered_updateRetryData]
        rfl
      · rcases holds_without hq hx with hx | hx
        · exact holds_updateRetryData (s := (s.without i).answer q.message error) hitems hspares hx
        · cases error with
          | false => exact Or.inr ⟨rfl, hx⟩
          | true => exact Or.inl (holds_of_failed hitems hx)
      · rintro rfl x hx
        exact holds_of_failed hitems hx
      · exact plain_updateRetryData (s := (s.without i).answer q.message error)
          ⟨hplain.slot, hplain.flight⟩ hitems
    · rw [if_neg hcallback] at hspares
      have hs' : s' = (s.without i).answer q.message error := by
        split at hs
        · exact (some.inj hs).symm
        · next hreported =>
          rw [if_neg, some.injEq] at hs
          · exact hs.symm
          · rintro htracked
            rw [Bool.not_eq_true] at hreported
            rw [htracked, hreported] at hcallback
            exact hcallback rfl
      rw [hs']
      refine ⟨kept_answered h.kept q.message error rfl (fun x hx => ?_) hspares,
        hplain.slot, hplain.flight⟩
      rcases holds_without hq hx with hx | hx
      · exact Or.inl hx
      · cases error with
        | false => exact Or.inr ⟨rfl, hx⟩
        | true => exact Or.inl (hspares rfl x hx)

/-- **The extended heartbeat** takes what is saved. -/
theorem safe_extendedHeartbeat (h : Safe s) (hC : Spares env config s .extendedHeartbeat) :
    Safe (s.extendedHeartbeat env config) := by
  apply safe_sendData h
  · rfl
  · exact ⟨h.plain.slot, h.plain.flight⟩
  · exact fun htracked => by cases htracked
  · rintro x (hx | hx | hx)
    · exact Or.inl (Or.inl hx)
    · refine Or.inr ?_
      rwa [carried_single]
    · exact Or.inl (Or.inr (Or.inr hx))
  · exact fun htracked => by cases htracked
  · intro _ haddress x hx
    rw [carried_single] at hx
    rcases hC haddress x hx with hx | hx
    · exact Or.inl hx
    · exact Or.inr (Or.inr hx)

theorem safe_waitAndSend (h : Safe s) (hs : s.waitAndSend env config = some s') : Safe s' := by
  unfold State.waitAndSend at hs
  split at hs
  · cases hs
  · dsimp only at hs
    split at hs
    · rw [← some.inj hs]
      exact ⟨h.kept, h.plain.slot, h.plain.flight⟩
    · split at hs
      · rw [← some.inj hs]
        exact ⟨h.kept, h.plain.slot, h.plain.flight⟩
      · rw [← some.inj hs]
        have hbefore : Safe ({ s with
            immediates := s.immediates - 1
            savedDependenciesToSend := (takeDependencies config.dependencyCollection 2000
              s.savedDependenciesToSend).2 } : State κ) :=
          ⟨h.kept, h.plain.slot, h.plain.flight⟩
        have hsent := safe_send hbefore env config (.appDependenciesLoaded
          (takeDependencies config.dependencyCollection 2000 s.savedDependenciesToSend).1) rfl
        exact ⟨hsent.kept, hsent.plain.slot, hsent.plain.flight⟩

theorem safe_flushAndSend (h : Safe s) (hs : s.flushAndSend env config = some s') : Safe s' := by
  unfold State.flushAndSend at hs
  split at hs
  · cases hs
  · dsimp only at hs
    split at hs
    · rw [← some.inj hs]
      exact ⟨h.kept, h.plain.slot, h.plain.flight⟩
    · rw [← some.inj hs]
      have hbefore : Safe ({ s with
          flushScheduled := false
          pendingEndpoints := (s.pendingEndpoints.entries.take
            (max 1 config.endpointMessageLimit)).foldl (fun m e => m.delete e.1)
              s.pendingEndpoints } : State κ) :=
        ⟨h.kept, h.plain.slot, h.plain.flight⟩
      have hsent := safe_send hbefore env config (.appEndpoints s.isFirstPayload
        (buildEndpointObjects env ((s.pendingEndpoints.entries.take
          (max 1 config.endpointMessageLimit)).map Prod.snd))) rfl
      exact ⟨hsent.kept, hsent.plain.slot, hsent.plain.flight⟩

/-- **One step** keeps the data of the messages that failed, where it spares what is held. -/
theorem safe_step (h : Safe s) {e : Event κ} (hC : Spares env config s e)
    (hs : s.step env config e = some s') : Safe s' := by
  cases e with
  | plugin name enabled | agentError error | endOfInitialLoad =>
    rw [← some.inj hs]
    exact ⟨h.kept, h.plain.slot, h.plain.flight⟩
  | updateIntegrations =>
    rw [← some.inj hs]
    unfold State.updateIntegrations
    dsimp only
    have hbefore : Safe (s.getIntegrations config).2 := ⟨h.kept, h.plain.slot, h.plain.flight⟩
    split
    · exact hbefore
    · exact safe_send hbefore env config _ rfl
  | updateConfig configuration enabled =>
    rw [← some.inj hs]
    unfold State.updateConfig
    split
    · exact h
    · split
      · exact ⟨h.kept, h.plain.slot, h.plain.flight⟩
      · have hsent := safe_send h env config (.appClientConfigurationChange configuration) rfl
        exact ⟨hsent.kept, hsent.plain.slot, hsent.plain.flight⟩
  | moduleLoad package =>
    rw [← some.inj hs]
    unfold State.onModuleLoad
    split
    · exact h
    · dsimp only
      split <;> exact ⟨h.kept, h.plain.slot, h.plain.flight⟩
  | immediate => exact safe_waitAndSend h hs
  | endpoint method path operationName =>
    rw [← some.inj hs]
    unfold State.recordEndpoint
    dsimp only
    split
    · exact h
    · exact ⟨h.kept, h.plain.slot, h.plain.flight⟩
  | flush => exact safe_flushAndSend h hs
  | heartbeat =>
    rw [← some.inj hs]
    exact safe_send h env config _ rfl
  | extendedHeartbeat =>
    rw [← some.inj hs]
    exact safe_extendedHeartbeat h hC
  | appClosing =>
    rw [← some.inj hs]
    exact safe_send_untracked h env config _ rfl
  | complete i error => exact safe_complete h hC hs

theorem retryData_sendData_untracked (m : Message κ) :
    (s.sendData env config m false).retryData = s.retryData := by
  unfold State.sendData
  split <;> rfl

theorem safe_of_fresh (hslot : s.retryData = none) (hflight : s.flight = [])
    (hanswered : s.answered = []) : Safe s := by
  refine ⟨fun before m after x heq _ => ?_, fun item hitem => ?_, fun q hq => ?_⟩
  · rw [hanswered] at heq
    exact absurd heq.symm (append_ne_nil_of_right_ne_nil _ (cons_ne_nil _ _))
  · rw [hslot] at hitem
    cases hitem
  · rw [hflight] at hq
    cases hq

theorem safe_start (env : Env) (config : Config) (plugins : OrderedMap Str Bool)
    (latestConfiguration : List κ) (agentError : Option AgentError) :
    Safe (.start env config plugins latestConfiguration agentError : State κ) := by
  have hstarted : ∀ (s : State κ) (app : App κ), Safe s →
      Safe (s.sendData env config (.single (.appStarted app)) false) := by
    intro s app h
    refine safe_sendData h rfl h.plain (fun htracked => by cases htracked) (fun _ => Or.inl)
      (fun htracked => by cases htracked) fun _ _ x hx => ?_
    cases hx
  have hsend : ∀ (s : State κ) (integrations : List Integration), Safe s → s.retryData = none →
      Safe (s.sendData env config (.single (.appIntegrationsChange integrations)) true) := by
    intro s integrations h hnone
    refine safe_sendData h rfl h.plain (fun _ item hitem => ?_) (fun _ => Or.inl) (fun _ x hx => ?_)
      (fun htracked => by cases htracked)
    · rw [mem_singleton.mp hitem]
      rfl
    · unfold State.slotted at hx
      rw [hnone] at hx
      cases hx
  unfold State.start
  dsimp only
  split
  · exact hstarted _ _ (safe_of_fresh rfl rfl rfl)
  · exact hsend _ _ (hstarted _ _ (safe_of_fresh rfl rfl rfl)) (retryData_sendData_untracked _)

/-- Telemetry sent through an agent. -/
def agentConfig : Config where
  appsecEnabled := false
  profiling := lit "false"
  installId := none
  installTime := none
  installType := none
  tracerVersion := lit "6.0.0"
  processTags := .empty
  dependencyCollection := true
  endpointMessageLimit := 300
  isCiVisibility := false
  agentlessEnabled := false
  agentlessUrl := none
  site := some (lit "datadoghq.com")
  apiKey := none

/-- The platform, on ASCII texts and an endpoint that is a URL. -/
def asciiEnv : Env where
  validUrl := fun _ => true
  toUpperCase := fun s => s.map fun u => if unit 'a' ≤ u ∧ u ≤ unit 'z' then u - 32 else u

/-- A process with one integration. -/
def httpStarted : State Unit :=
  .start asciiEnv agentConfig (OrderedMap.empty.set (lit "http") true) [] none

end DdTrace.Telemetry
