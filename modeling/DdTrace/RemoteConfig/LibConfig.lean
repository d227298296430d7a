import DdTrace.Library.Run
import DdTrace.RemoteConfig.Transaction

/-!
# The library configurations of remote config

`config/remote_config.js` keeps the `APM_TRACING` files that target this process.  Its batch
handler removes the unapplied ones from a map by config id and puts every file that it is brought
there, unless the service target of the file names another service or environment.

`Tracked` is the manager beside the configurations that the client has applied, and a run is a
sequence of update transactions.  `Reflects` says what the map is for: it holds, under their ids,
the applied files whose targets are met.

## What goes wrong

`addConfig` returns before it touches the map when the file does not match, and nothing removes
the version that is there.  After a modify that takes a file away from this process the map holds
its old version (`not_reflects`).  Two more ways lead to a wrong map: the key is the id alone,
which two applied paths can share, and `k8s_target_v2` is read for the priority only, so that a
file for another cluster is kept.  `reflects_of_run` is the other side: on a run whose steps do
none of this the map is right in every state.
-/

namespace DdTrace.RemoteConfig

open Library List Option OrderedMap Transaction

/-- `service_target` -/
structure ServiceTarget where
  service : Option Str
  env : Option Str
  deriving DecidableEq

/-- A file of the product `APM_TRACING`, by its targets. -/
structure LibConfigFile (K : Type*) where
  serviceTarget : Option ServiceTarget
  k8sTargetV2 : Option K
  deriving DecidableEq

/-- `name && name !== '*'` -/
def isSpecific (name : Option Str) : Bool := name.any fun n => n ≠ [] && n ≠ lit "*"

/-- A stored file. -/
structure LibConfigEntry (K : Type*) where
  conf : LibConfigFile K
  priority : ℕ
  deriving DecidableEq

/-- The manager: the stored files by config id. -/
structure RCClientLibConfigManager (K : Type*) where
  configs : OrderedMap Str (LibConfigEntry K) := .empty
  currentService : Option Str
  currentEnv : Option Str

namespace RCClientLibConfigManager

variable {K : Type*}

def calculatePriority (conf : LibConfigFile K) : ℕ :=
  let byService := conf.serviceTarget.bind fun serviceTarget =>
    if isSpecific serviceTarget.service && isSpecific serviceTarget.env then some 5
    else if isSpecific serviceTarget.service then some 4
    else if isSpecific serviceTarget.env then some 3
    else none
  byService.getD (if conf.k8sTargetV2.isSome then 2 else 1)

def matchesCurrentServiceEnv (m : RCClientLibConfigManager K) (conf : LibConfigFile K) : Bool :=
  match conf.serviceTarget with
  | none => true
  | some serviceTarget =>
    if isSpecific serviceTarget.service && serviceTarget.service ≠ m.currentService then false
    else if isSpecific serviceTarget.env && serviceTarget.env ≠ m.currentEnv then false
    else true

def addConfig (m : RCClientLibConfigManager K) (configId : Str) (conf : LibConfigFile K) :
    RCClientLibConfigManager K :=
  if m.matchesCurrentServiceEnv conf then
    { m with configs := m.configs.set configId ⟨conf, calculatePriority conf⟩ }
  else m

def removeConfig (m : RCClientLibConfigManager K) (configId : Str) : RCClientLibConfigManager K :=
  { m with configs := m.configs.delete configId }

/-- The batch handler that `enable` sets: the manager after it.  A file that is `null` has no
`service_target` to read, and the handler throws. -/
def handle (m : RCClientLibConfigManager K) (tx : Transaction (LibConfigFile K)) :
    Option (RCClientLibConfigManager K) :=
  tx.delivered.foldlM (fun m item => item.file.map (m.addConfig item.id))
    (tx.toUnapply.foldl (fun m item => m.removeConfig item.id) m)

/-! ## The map after the handler -/

/-- What `addConfig` stores of an item, when it stores it. -/
def stored (m : RCClientLibConfigManager K) (item : RcConfigState (LibConfigFile K)) :
    Option (Str × LibConfigEntry K) :=
  item.file.bind fun conf =>
    if m.matchesCurrentServiceEnv conf then some (item.id, ⟨conf, calculatePriority conf⟩)
    else none

variable {m m' : RCClientLibConfigManager K} {tx : Transaction (LibConfigFile K)}

variable {item : RcConfigState (LibConfigFile K)}

theorem stored_eq_some {e : Str × LibConfigEntry K} :
    m.stored item = some e ↔ ∃ conf, item.file = some conf ∧
      m.matchesCurrentServiceEnv conf = true ∧ e = (item.id, ⟨conf, calculatePriority conf⟩) := by
  rw [stored, bind_eq_some_iff]
  refine exists_congr fun conf => and_congr_right fun _ => ?_
  by_cases h : m.matchesCurrentServiceEnv conf = true
  · rw [if_pos h, some_inj]
    exact ⟨fun he => ⟨h, he.symm⟩, fun he => he.2.symm⟩
  · rw [if_neg h]
    exact iff_of_false nofun fun he => h he.1

/-- Two managers of one process. -/
def SameProcess (m m' : RCClientLibConfigManager K) : Prop :=
  m'.currentService = m.currentService ∧ m'.currentEnv = m.currentEnv

theorem foldl_removeConfig (l : List (RcConfigState (LibConfigFile K))) :
    l.foldl (fun m item => m.removeConfig item.id) m =
      { m with configs := (l.map RcConfigState.id).foldl (fun c id => c.delete id) m.configs } := by
  induction l generalizing m with
  | nil => rfl
  | cons item l ih => rw [foldl_cons, ih]; rfl

theorem addConfig_of_stored {conf : LibConfigFile K}
    (h : item.file = some conf) : m.addConfig item.id conf =
      { m with configs := (m.stored item).toList.foldl (fun c e => c.set e.1 e.2) m.configs } := by
  rw [addConfig, stored, h, bind_some]
  by_cases hm : m.matchesCurrentServiceEnv conf = true
  · rw [if_pos hm, if_pos hm]
    rfl
  · rw [if_neg hm, if_neg hm]
    rfl

theorem foldlM_addConfig {l : List (RcConfigState (LibConfigFile K))}
    (h : l.foldlM (fun m item => item.file.map (m.addConfig item.id)) m = some m') :
    (∀ item ∈ l, item.file.isSome) ∧ m' = { m with
        configs := (l.filterMap m.stored).foldl (fun c e => c.set e.1 e.2) m.configs } := by
  induction l generalizing m with
  | nil =>
    cases h
    exact ⟨by simp, rfl⟩
  | cons item l ih =>
    obtain ⟨u, hu, h⟩ := bind_eq_some_iff.mp h
    obtain ⟨conf, hconf, rfl⟩ := map_eq_some_iff.mp hu
    obtain ⟨hall, rfl⟩ := ih h
    refine ⟨fun i hi => ?_, ?_⟩
    · rcases mem_cons.mp hi with rfl | hi
      · rw [hconf]
        rfl
      · exact hall i hi
    · rw [addConfig_of_stored hconf]
      cases hs : m.stored item with
      | none => rw [filterMap_cons_none hs]; rfl
      | some e => rw [filterMap_cons_some hs]; rfl

/-- **The map after the handler**: the last matching file that was delivered under an id, else
what was there unless the id was unapplied. -/
theorem get?_handle (h : m.handle tx = some m') {id : Str} {e : LibConfigEntry K} :
    m'.configs.get? id = some e ↔
      OrderedMap.lastValue (tx.delivered.filterMap m.stored) id = some e ∨
        (OrderedMap.lastValue (tx.delivered.filterMap m.stored) id = none ∧
          id ∉ tx.toUnapply.map RcConfigState.id ∧ m.configs.get? id = some e) := by
  rw [handle, foldl_removeConfig] at h
  obtain ⟨-, rfl⟩ := foldlM_addConfig h
  rw [get?_foldl_set, or_eq_some_iff, get?_foldl_delete_eq_some]
  rfl

theorem sameProcess_handle (h : m.handle tx = some m') : SameProcess m m' := by
  rw [handle, foldl_removeConfig] at h
  obtain ⟨-, rfl⟩ := foldlM_addConfig h
  exact ⟨rfl, rfl⟩

theorem file_of_handle (h : m.handle tx = some m') (hitem : item ∈ tx.delivered) :
    ∃ conf, item.file = some conf := by
  exact isSome_iff_exists.mp ((foldlM_addConfig h).1 item hitem)

end RCClientLibConfigManager

/-! ## Runs of transactions -/

/-- The manager beside the applied configurations of its product. -/
structure Tracked (K : Type*) where
  applied : AppliedConfigs (LibConfigFile K) := .empty
  manager : RCClientLibConfigManager K

namespace Tracked

open RCClientLibConfigManager

variable {K : Type*} {clusterMatches : K → Bool} {s t : Tracked K}
  {tx : Transaction (LibConfigFile K)}

/-- One transaction: the client commits it and the batch handler sees it. -/
def step (s : Tracked K) (tx : Transaction (LibConfigFile K)) : Option (Tracked K) :=
  (s.manager.handle tx).map fun manager => ⟨tx.commit s.applied, manager⟩

/-- Before the first transaction. -/
def init (currentService currentEnv : Option Str) : Tracked K where
  manager := { currentService := currentService, currentEnv := currentEnv }

/-- A target names the value, or none in particular. -/
def Names (target current : Option Str) : Prop := isSpecific target = true → target = current

/-- The file is for this process: its service, its environment and its cluster. -/
def TargetsProcess (clusterMatches : K → Bool) (s : Tracked K) (conf : LibConfigFile K) : Prop :=
  (∀ target, conf.serviceTarget = some target →
    Names target.service s.manager.currentService ∧ Names target.env s.manager.currentEnv) ∧
  ∀ cluster, conf.k8sTargetV2 = some cluster → clusterMatches cluster = true

/-- The map holds the applied files that are for this process, under their ids and with their
priorities, and nothing else. -/
def Reflects (clusterMatches : K → Bool) (s : Tracked K) : Prop :=
  ∀ id e, s.manager.configs.get? id = some e ↔
    ∃ path item, s.applied.get? path = some item ∧ item.id = id ∧ item.file = some e.conf ∧
      TargetsProcess clusterMatches s e.conf ∧ e.priority = calculatePriority e.conf

/-- What a transaction must not do for the map to stay right.  No file that is for this process is
modified into one that is not; the applied files for this process have ids of their own; no
unapplied file shares its id with such a file that stays; and files for other clusters do not
arrive. -/
structure Harmless (clusterMatches : K → Bool) (s : Tracked K)
    (tx : Transaction (LibConfigFile K)) : Prop where
  modify : ∀ item ∈ tx.delivered, ∀ conf, item.file = some conf →
    ¬ TargetsProcess clusterMatches s conf → ∀ current, s.applied.get? item.path = some current →
      ∀ conf', current.file = some conf' → ¬ TargetsProcess clusterMatches s conf'
  ids : ∀ path item path' item', (tx.commit s.applied).get? path = some item →
    (tx.commit s.applied).get? path' = some item' → item.id = item'.id →
      ∀ conf conf', item.file = some conf → TargetsProcess clusterMatches s conf →
        item'.file = some conf' → TargetsProcess clusterMatches s conf' → conf = conf'
  unapply : ∀ gone ∈ tx.toUnapply, ∀ path item, s.applied.get? path = some item →
    (tx.commit s.applied).get? path = some item → item.id = gone.id →
      (∀ i ∈ tx.delivered, i.path ≠ path) →
        ∀ conf, item.file = some conf → ¬ TargetsProcess clusterMatches s conf
  cluster : ∀ item ∈ tx.delivered, ∀ conf, item.file = some conf →
    ∀ cluster, conf.k8sTargetV2 = some cluster → clusterMatches cluster = true

/-- The invariant of a run: the applied files are under their own paths and for this cluster, and
the map reflects them. -/
structure Inv (clusterMatches : K → Bool) (s : Tracked K) : Prop where
  keyed : Transaction.Keyed s.applied
  cluster : ∀ path item conf, s.applied.get? path = some item → item.file = some conf →
    ∀ cluster, conf.k8sTargetV2 = some cluster → clusterMatches cluster = true
  reflects : Reflects clusterMatches s

theorem names_iff {target current : Option Str} :
    Names target current ↔ (isSpecific target && decide (target ≠ current)) = false := by
  rw [Names, Bool.and_eq_false_iff, decide_eq_false_iff_not]
  cases isSpecific target with
  | false => simp
  | true => simp

/-- The service and environment part is what the code asks. -/
theorem matchesCurrentServiceEnv_iff (conf : LibConfigFile K) :
    s.manager.matchesCurrentServiceEnv conf = true ↔ ∀ target, conf.serviceTarget = some target →
      Names target.service s.manager.currentService ∧ Names target.env s.manager.currentEnv := by
  unfold matchesCurrentServiceEnv
  cases conf.serviceTarget with
  | none => simp
  | some target =>
    simp only [some.injEq, forall_eq', names_iff]
    cases isSpecific target.service && decide (target.service ≠ s.manager.currentService) with
    | true => simp
    | false =>
      cases isSpecific target.env && decide (target.env ≠ s.manager.currentEnv) with
      | true => simp
      | false => simp

/-- What a step does to the two sides. -/
theorem step_eq_some (h : step s tx = some t) :
    s.manager.handle tx = some t.manager ∧ t.applied = tx.commit s.applied := by
  obtain ⟨m, hm, rfl⟩ := map_eq_some_iff.mp h
  exact ⟨hm, rfl⟩

theorem targetsProcess_step (h : step s tx = some t) (conf : LibConfigFile K) :
    TargetsProcess clusterMatches t conf ↔ TargetsProcess clusterMatches s conf := by
  obtain ⟨hservice, henv⟩ := sameProcess_handle (step_eq_some h).1
  rw [TargetsProcess, TargetsProcess, hservice, henv]

/-- The items that the handler stores are the delivered ones for this process. -/
theorem exists_stored_iff (hcluster : ∀ item ∈ tx.delivered, ∀ conf, item.file = some conf →
    ∀ cluster, conf.k8sTargetV2 = some cluster → clusterMatches cluster = true) {id : Str}
    {e : LibConfigEntry K} :
    (id, e) ∈ tx.delivered.filterMap s.manager.stored ↔ ∃ item ∈ tx.delivered, item.id = id ∧
      item.file = some e.conf ∧ TargetsProcess clusterMatches s e.conf ∧
        e.priority = calculatePriority e.conf := by
  rw [mem_filterMap]
  constructor
  · rintro ⟨item, hitem, hstored⟩
    obtain ⟨conf, hconf, hm, he⟩ := stored_eq_some.mp hstored
    cases he
    exact ⟨item, hitem, rfl, hconf,
      ⟨(matchesCurrentServiceEnv_iff conf).mp hm, hcluster item hitem conf hconf⟩, rfl⟩
  · rintro ⟨item, hitem, rfl, hconf, htarget, hprio⟩
    refine ⟨item, hitem, stored_eq_some.mpr ⟨e.conf, hconf, ?_, ?_⟩⟩
    · exact (matchesCurrentServiceEnv_iff e.conf).mpr htarget.1
    · rw [← hprio]

/-- **One transaction keeps the map right.** -/
theorem inv_step (hinv : Inv clusterMatches s) (hfits : tx.Fits s.applied)
    (hsafe : Harmless clusterMatches s tx) (h : step s tx = some t) : Inv clusterMatches t := by
  obtain ⟨hhandle, happlied⟩ := step_eq_some h
  have hget : ∀ {path item}, t.applied.get? path = some item ↔
      (item ∈ tx.delivered ∧ item.path = path) ∨
        ((∀ i ∈ tx.delivered, i.path ≠ path) ∧ path ∉ tx.toUnapply.map RcConfigState.path ∧
          s.applied.get? path = some item) := by
    rw [happlied]
    exact get?_commit_eq_some hfits.nodup_delivered
  refine ⟨?_, ?_, ?_⟩
  · rw [happlied]
    exact keyed_commit hfits hinv.keyed
  · intro path item conf hitem hconf
    rcases hget.mp hitem with ⟨hmem, -⟩ | ⟨-, -, hold⟩
    · exact hsafe.cluster item hmem conf hconf
    · exact hinv.cluster path item conf hold hconf
  · intro id e
    rw [get?_handle hhandle]
    simp only [targetsProcess_step h]
    constructor
    · rintro (hlast | ⟨hlast, hid, hold⟩)
      · -- delivered in this transaction
        obtain ⟨item, hitem, rfl, hconf, htarget, hprio⟩ :=
          (exists_stored_iff hsafe.cluster).mp (mem_of_lastValue hlast)
        exact ⟨item.path, item, hget.mpr (Or.inl ⟨hitem, rfl⟩), rfl, hconf, htarget, hprio⟩
      · -- stored before, and neither unapplied nor replaced
        obtain ⟨path, item, hitem, rfl, hconf, htarget, hprio⟩ := (hinv.reflects id e).mp hold
        obtain ⟨rfl, hpath⟩ := hinv.keyed path item hitem
        refine ⟨item.path, item, hget.mpr (Or.inr ⟨fun i hi hip => ?_, fun hun => ?_, hitem⟩), rfl,
          hconf, htarget, hprio⟩
        · obtain ⟨conf, hi'⟩ := file_of_handle hhandle hi
          by_cases hmatch : TargetsProcess clusterMatches s conf
          · refine lastValue_eq_none_iff.mp hlast (List.mem_map.mpr
              ⟨(item.id, ⟨conf, calculatePriority conf⟩), ?_, rfl⟩)
            have hiid := hfits.path i hi
            rw [hip, hpath, some_inj, Prod.mk.injEq] at hiid
            exact (exists_stored_iff hsafe.cluster).mpr ⟨i, hi, hiid.2.symm, hi', hmatch, rfl⟩
          · exact hsafe.modify i hi conf hi' hmatch item (by rwa [hip]) e.conf hconf htarget
        · obtain ⟨gone, hgone, hgp⟩ := List.mem_map.mp hun
          have hsame := hfits.unapplied gone hgone
          rw [hgp, hitem, some_inj] at hsame
          exact hid (List.mem_map.mpr ⟨gone, hgone, by rw [hsame]⟩)
    · rintro ⟨path, item, hitem, rfl, hconf, htarget, hprio⟩
      cases hlast : OrderedMap.lastValue (tx.delivered.filterMap s.manager.stored) item.id with
      | some e' =>
        -- the last file delivered under the id is this one
        obtain ⟨item', hitem', hid', hconf', htarget', hprio'⟩ :=
          (exists_stored_iff hsafe.cluster).mp (mem_of_lastValue hlast)
        have hcommit := hget.mpr (Or.inl ⟨hitem', rfl⟩)
        rw [happlied] at hcommit hitem
        have hc := hsafe.ids item'.path item' path item hcommit hitem hid' e'.conf e.conf hconf'
          htarget' hconf htarget
        refine Or.inl (congrArg some ?_)
        obtain ⟨conf, priority⟩ := e
        obtain ⟨conf', priority'⟩ := e'
        simp only at hc hprio hprio'
        rw [hprio, hprio', hc]
      | none =>
        refine Or.inr ⟨rfl, ?_, ?_⟩
        · intro hun
          obtain ⟨gone, hgone, hgid⟩ := List.mem_map.mp hun
          rcases hget.mp hitem with ⟨hmem, -⟩ | ⟨hno, -, hold⟩
          · exact lastValue_eq_none_iff.mp hlast (List.mem_map.mpr ⟨(item.id, e),
              (exists_stored_iff hsafe.cluster).mpr ⟨item, hmem, rfl, hconf, htarget, hprio⟩, rfl⟩)
          · exact hsafe.unapply gone hgone path item hold (by rwa [← happlied]) hgid.symm hno
              e.conf hconf htarget
        · rcases hget.mp hitem with ⟨hmem, -⟩ | ⟨-, -, hold⟩
          · exact absurd (List.mem_map.mpr ⟨(item.id, e),
              (exists_stored_iff hsafe.cluster).mpr ⟨item, hmem, rfl, hconf, htarget, hprio⟩, rfl⟩)
              (lastValue_eq_none_iff.mp hlast)
          · exact (hinv.reflects _ e).mpr ⟨path, item, hold, rfl, hconf, htarget, hprio⟩

theorem inv_init (currentService currentEnv : Option Str) :
    Inv clusterMatches (init currentService currentEnv : Tracked K) where
  keyed := keyed_empty
  cluster := fun _ _ _ h => by cases h
  reflects := fun id e => by
    constructor
    · intro h
      cases h
    · rintro ⟨_, _, h, _⟩
      cases h

/-- **The stored files are the applied files for this process**, after every transaction of a run
whose steps are all harmless. -/
theorem reflects_of_run (currentService currentEnv : Option Str)
    {txs : List (Transaction (LibConfigFile K))}
    (hfits : Run.Every step (fun s tx => tx.Fits s.applied) (init currentService currentEnv) txs)
    (hsafe : Run.Every step (Harmless clusterMatches) (init currentService currentEnv) txs)
    (hrun : Run.exec step (init currentService currentEnv) txs = some t) :
    Reflects clusterMatches t :=
  (Run.invariant (fun _ _ _ hinv hC h => inv_step hinv hC.1 hC.2 h)
    (inv_init currentService currentEnv) (hfits.and hsafe) hrun).reflects

/-! ## Two runs -/

/-- A file for the service, under the path `datadog/1/APM_TRACING/a/cfg`. -/
def itemFor (object : ℕ) (service : Str) : RcConfigState (LibConfigFile Unit) where
  object := object
  path := lit "datadog/1/APM_TRACING/a/cfg"
  product := lit "APM_TRACING"
  id := lit "a"
  version := some object
  applyState := .unacknowledged
  applyError := []
  length := some 1
  hashes := some (.ofEntries [(lit "sha256", service)])
  file := some ⟨some ⟨some service, none⟩, none⟩

theorem parseConfigPath_itemFor (object : ℕ) (service : Str) :
    parseConfigPath (itemFor object service).path =
      some ((itemFor object service).product, (itemFor object service).id) := by
  show parseConfigPath (lit "datadog/1/APM_TRACING/a/cfg") = some (lit "APM_TRACING", lit "a")
  decide +kernel

/-- The file arrives, then another version of it. -/
def applyThenModify (service service' : Str) : List (Transaction (LibConfigFile Unit)) :=
  [⟨[], [itemFor 0 service], []⟩, ⟨[], [], [itemFor 1 service']⟩]

theorem fits_applyThenModify (service service' current : Str) :
    Run.Every step (fun s tx => tx.Fits s.applied) (init (some current) none)
      (applyThenModify service service') := by
  refine ⟨⟨nofun, ?_, nofun, ?_, ?_⟩, fun t ht => ⟨⟨nofun, nofun, ?_, ?_, ?_⟩, fun _ _ => trivial⟩⟩
  · intro item _
    rfl
  · intro item hitem
    rw [mem_singleton.mp hitem]
    exact parseConfigPath_itemFor 0 service
  · exact nodup_singleton _
  · intro item hitem
    rw [mem_singleton.mp hitem, (step_eq_some ht).2]
    exact ⟨itemFor 0 service, rfl⟩
  · intro item hitem
    rw [mem_singleton.mp hitem]
    exact parseConfigPath_itemFor 1 service'
  · exact nodup_singleton _

/-- Bringing the only path a file for this process is harmless. -/
theorem harmless_of_only {item : RcConfigState (LibConfigFile K)} {conf : LibConfigFile K}
    (hdelivered : tx.delivered = [item]) (hunapply : tx.toUnapply = [])
    (hconf : item.file = some conf) (htarget : TargetsProcess clusterMatches s conf)
    (hpath : ∀ path current, s.applied.get? path = some current → path = item.path) :
    Harmless clusterMatches s tx := by
  have hcommit : ∀ path i, (tx.commit s.applied).get? path = some i → i = item := by
    intro path i h
    rw [get?_commit_eq_some (by rw [hdelivered]; exact nodup_singleton _), hdelivered] at h
    rcases h with ⟨h, -⟩ | ⟨h, -, hold⟩
    · exact mem_singleton.mp h
    · exact absurd (hpath path i hold).symm (h item mem_cons_self)
  refine ⟨fun i hi conf' hconf' hno => ?_, fun path i path' i' h h' _ c c' hc _ hc' _ => ?_,
    fun gone hgone => ?_, fun i hi conf' hconf' => ?_⟩
  · rw [hdelivered, mem_singleton] at hi
    rw [hi, hconf, some_inj] at hconf'
    exact absurd (hconf' ▸ htarget) hno
  · rw [hcommit path i h] at hc
    rw [hcommit path' i' h', hc, some_inj] at hc'
    exact hc'
  · rw [hunapply] at hgone
    cases hgone
  · rw [hdelivered, mem_singleton] at hi
    rw [hi, hconf, some_inj] at hconf'
    exact hconf' ▸ htarget.2

/-- A second version for the service of the process is stored in place of the first. -/
theorem reflects_of_run_modify : ∃ t, Run.exec step (init (some (lit "web")) none)
      (applyThenModify (lit "web") (lit "web")) = some t ∧ Reflects (fun _ => false) t := by
  have htarget : ∀ s : Tracked Unit, s.manager.currentService = some (lit "web") →
      TargetsProcess (fun _ => false) s ⟨some ⟨some (lit "web"), none⟩, none⟩ := by
    rintro s hs
    refine ⟨fun target htarget => ?_, nofun⟩
    cases htarget
    exact ⟨fun _ => hs.symm, nofun⟩
  refine ⟨_, rfl, reflects_of_run (some (lit "web")) none
    (fits_applyThenModify (lit "web") (lit "web") (lit "web"))
    ⟨harmless_of_only rfl rfl rfl (htarget _ rfl) nofun, fun t ht => ⟨harmless_of_only rfl rfl rfl
      (htarget t (sameProcess_handle (step_eq_some ht).1).1) ?_, fun _ _ => trivial⟩⟩ rfl⟩
  intro path current hget
  have hone : ((Transaction.mk [] [itemFor 0 (lit "web")] []).delivered.map
    RcConfigState.path).Nodup := nodup_singleton _
  rw [(step_eq_some ht).2, get?_commit_eq_some hone] at hget
  rcases hget with ⟨h, rfl⟩ | ⟨-, -, h⟩
  · rw [mem_singleton.mp h]
    rfl
  · cases h

/-- **A modify that takes the file away from this process leaves its old version stored.** -/
theorem not_reflects :
    ¬ ∀ (currentService currentEnv : Option Str) (txs : List (Transaction (LibConfigFile Unit)))
      (t : Tracked Unit),
      Run.Every step (fun s tx => tx.Fits s.applied) (init currentService currentEnv) txs →
        Run.exec step (init currentService currentEnv) txs = some t →
          Reflects (fun _ => true) t := by
  intro h
  have hreflects := h (some (lit "web")) none (applyThenModify (lit "web") (lit "db")) _
    (fits_applyThenModify (lit "web") (lit "db") (lit "web")) rfl
  obtain ⟨path, item, hitem, -, hfile, -, -⟩ :=
    (hreflects (lit "a") ⟨⟨some ⟨some (lit "web"), none⟩, none⟩, 4⟩).mp (by decide +kernel)
  have hmem := mem_values_iff.mpr ⟨path, hitem⟩
  revert hfile
  rw [mem_singleton.mp hmem]
  decide +kernel

end Tracked
end DdTrace.RemoteConfig
