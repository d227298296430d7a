import DdTrace.Library.Binary64
import DdTrace.Library.Overlay
import DdTrace.RemoteConfig.LibConfig

/-!
# The merged library configuration

After each transaction `config/remote_config.js` merges the `lib_config` of the stored files: they
are sorted by priority, `Object.assign` puts one on top of the other, and what is left is renamed
and reshaped for the tracer.

The sort is stable, so that files of one priority stay in the order of the map, and the last of
them wins.  `Object.assign` copies a `null` like any other value, and only
`transformRemoteConfigToLocalOption` leaves it out.  `transformers.tracing_sampling_rules` writes
into the rules that are stored, and finds its own result there when it runs again, which is not
iterable.

* `getMergedLibConfig`, `transformRemoteConfigToLocalOption`, `handle`: the code.
* `targets_addConfig`, `targets_removeConfig`: the map is the one of `RCClientLibConfigManager`.
* `setting_getMergedLibConfig`: a merged option is what comes out of the settings of the files.
* `merged_cases`: the option that the last file of the highest priority sets, and the condition
  under which the order of the map does not matter.  `merged_ne` shows that it does in general.
-/

namespace DdTrace.RemoteConfig

open Library OrderedMap Overlay

/-! ## Options -/

/-- `RemoteConfigOptions`. -/
inductive RemoteConfigOption
  | dynamicInstrumentationEnabled
  | codeOriginEnabled
  | tracingHeaderTags
  | tracingTags
  | tracingSamplingRate
  | logInjectionEnabled
  | tracingEnabled
  | tracingSamplingRules
  deriving DecidableEq

structure HeaderTag where
  header : Str
  tagName : Option Str

structure SamplingTag where
  key : Str
  valueGlob : Str

/-- The tags of a rule: none, as they are sent, and as they are reformatted. -/
inductive RuleTags
  | none
  | list (tags : List SamplingTag)
  | object (tags : OrderedMap Str Str)

/-- A sampling rule, with what is not looked at here. -/
structure SamplingRule (ρ : Type) where
  tags : RuleTags
  rest : ρ

namespace RemoteConfigOption

/-- What an option is set to remotely. -/
def Value (ρ : Type) : RemoteConfigOption → Type
  | dynamicInstrumentationEnabled | codeOriginEnabled | logInjectionEnabled | tracingEnabled => Bool
  | tracingHeaderTags => List HeaderTag
  | tracingTags => List Str
  | tracingSamplingRate => Binary64
  | tracingSamplingRules => List (SamplingRule ρ)

/-- What an option is set to locally. -/
def LocalValue (ρ : Type) : RemoteConfigOption → Type
  | dynamicInstrumentationEnabled | codeOriginEnabled | logInjectionEnabled | tracingEnabled => Bool
  | tracingHeaderTags => List Str
  | tracingTags => OrderedMap Str Str
  | tracingSamplingRate => Binary64
  | tracingSamplingRules => List (SamplingRule ρ)

end RemoteConfigOption

open RemoteConfigOption

/-- `lib_config`: options that are there, and perhaps `null`. -/
abbrev LibConfig (ρ : Type) : Type := (o : RemoteConfigOption) → Option (Option (o.Value ρ))

/-- `TracerOptions`. -/
abbrev LocalOptions (ρ : Type) : Type := (o : RemoteConfigOption) → Option (o.LocalValue ρ)

/-! ## The files and their merge -/

/-- A file of the product `APM_TRACING`. -/
structure ApmTracingFile (K ρ : Type) extends LibConfigFile K where
  libConfig : Option (LibConfig ρ)

/-- A stored file. -/
structure StoredFile (K ρ : Type) where
  conf : ApmTracingFile K ρ
  priority : ℕ

/-- The manager with the whole files. -/
structure LibConfigManager (K ρ : Type) where
  configs : OrderedMap Str (StoredFile K ρ) := .empty
  currentService : Option Str
  currentEnv : Option Str

/-- `Object.assign` of a `lib_config`. -/
def assign {ρ : Type} (merged : LibConfig ρ) : Option (LibConfig ρ) → LibConfig ρ
  | none => merged
  | some libConfig => fun o => (libConfig o).or (merged o)

namespace LibConfigManager

variable {K ρ : Type}

/-- The manager of the targets alone. -/
def targets (m : LibConfigManager K ρ) : RCClientLibConfigManager K where
  configs := m.configs.mapValues fun stored => ⟨stored.conf.toLibConfigFile, stored.priority⟩
  currentService := m.currentService
  currentEnv := m.currentEnv

def addConfig (m : LibConfigManager K ρ) (configId : Str) (conf : ApmTracingFile K ρ) :
    LibConfigManager K ρ :=
  if m.targets.matchesCurrentServiceEnv conf.toLibConfigFile then
    let priority := RCClientLibConfigManager.calculatePriority conf.toLibConfigFile
    { m with configs := m.configs.set configId ⟨conf, priority⟩ }
  else m

def removeConfig (m : LibConfigManager K ρ) (configId : Str) : LibConfigManager K ρ :=
  { m with configs := m.configs.delete configId }

/-- `[...this.configs.values()].sort((a, b) => a.priority - b.priority)`, with the ids. -/
def sorted (m : LibConfigManager K ρ) : List (Str × StoredFile K ρ) :=
  Overlay.sorted (fun e => e.2.priority) m.configs.entries

def getMergedLibConfig (m : LibConfigManager K ρ) : Option (LibConfig ρ) :=
  if m.configs.entries.isEmpty then none
  else if m.sorted.any fun e => e.2.conf.libConfig.isSome then
    some (m.sorted.foldl (fun merged e => assign merged e.2.conf.libConfig) fun _ => none)
  else none

/-- The setting of an option in a stored file. -/
def setting (o : RemoteConfigOption) (e : Str × StoredFile K ρ) : Option (Option (o.Value ρ)) :=
  e.2.conf.libConfig.bind fun libConfig => libConfig o

end LibConfigManager

/-! ## The transformers -/

/-- An assignment to a property of `{}`. -/
def setProperty (carrier : OrderedMap Str Str) (key value : Str) : OrderedMap Str Str :=
  if key = lit "__proto__" then carrier else carrier.set key value

namespace Tagger

def addNonEmpty (carrier : OrderedMap Str Str) (key value : Str) : OrderedMap Str Str :=
  if key = [] then carrier else setProperty carrier key value

def slice (s : Str) (start stop : ℕ) : Str := (s.take stop).drop start

/-- The loop of `add` from the index `i` on, and what follows it. -/
def addFrom (s : Str) : ℕ → Str → ℕ → ℕ → OrderedMap Str Str → OrderedMap Str Str
  | _, [], keyStart, valueStart, carrier =>
    if s.getLast? = some (unit ',') then carrier
    else
      let valueStart := if valueStart = 0 then s.length else valueStart
      addNonEmpty carrier (Str.trim (slice s keyStart valueStart))
        (Str.trim (s.drop (valueStart + 1)))
  | i, char :: rest, keyStart, valueStart, carrier =>
    if char = unit ':' then
      addFrom s (i + 1) rest keyStart (if valueStart = 0 then i else valueStart) carrier
    else if char = unit ',' then
      let valueStart := if valueStart = 0 then i else valueStart
      addFrom s (i + 1) rest (i + 1) 0 (addNonEmpty carrier (Str.trim (slice s keyStart valueStart))
          (Str.trim (slice s (valueStart + 1) i)))
    else addFrom s (i + 1) rest keyStart valueStart carrier

/-- `add` of `tagger.js` on a list of strings. -/
def add (carrier : OrderedMap Str Str) (keyValuePairs : List Str) : OrderedMap Str Str :=
  keyValuePairs.foldl (fun carrier s => addFrom s 0 s 0 0 carrier) carrier

end Tagger

/-- A rule with its tags as an object.  What is an object already is not iterable. -/
def reformatRule {ρ : Type} (rule : SamplingRule ρ) : Option (SamplingRule ρ) :=
  match rule.tags with
  | .none => some rule
  | .list tags =>
    let reformattedTags := tags.foldl (fun m tag => setProperty m tag.key tag.valueGlob) .empty
    some { rule with tags := .object reformattedTags }
  | .object _ => none

/-- What `transformers.tracing_sampling_rules` makes of the rules, and whether it comes to an
end. -/
def reformatRules {ρ : Type} : List (SamplingRule ρ) → List (SamplingRule ρ) × Bool
  | [] => ([], true)
  | rule :: rules =>
    match reformatRule rule with
    | none => (rule :: rules, false)
    | some rule' => (rule' :: (reformatRules rules).1, (reformatRules rules).2)

def headerTag (tag : HeaderTag) : Str :=
  match tag.tagName with
  | none | some [] => tag.header
  | some tagName => tag.header ++ unit ':' :: tagName

/-- `transformers[name]?.(value) ?? value`, unless it throws. -/
def transform {ρ : Type} : (o : RemoteConfigOption) → o.Value ρ → Option (o.LocalValue ρ)
  | dynamicInstrumentationEnabled, value | codeOriginEnabled, value | logInjectionEnabled, value
  | tracingEnabled, value => some value
  | tracingHeaderTags, (headerTags : List HeaderTag) => some (headerTags.map headerTag)
  | tracingTags, (tags : List Str) => some (Tagger.add .empty tags)
  | tracingSamplingRate, value => some value
  | tracingSamplingRules, (rules : List (SamplingRule ρ)) =>
    if (reformatRules rules).2 then some (reformatRules rules).1 else none

/-- The options that are there and not `null`, unless a transformer throws. -/
def transformRemoteConfigToLocalOption {ρ : Type} (libConfig : LibConfig ρ) :
    Option (LocalOptions ρ) :=
  match (libConfig tracingSamplingRules).join with
  | some (rules : List (SamplingRule ρ)) =>
    if (reformatRules rules).2 then some fun o => (libConfig o).join.bind (transform o) else none
  | none => some fun o => (libConfig o).join.bind (transform o)

/-! ## The handler -/

namespace LibConfigManager

variable {K ρ : Type}

/-- A `lib_config` with other rules. -/
def withRules (libConfig : LibConfig ρ) (rules : List (SamplingRule ρ)) : LibConfig ρ
  | tracingSamplingRules => some (some rules)
  | o => libConfig o

/-- The stored files after the transformers have run: the rules that were merged are those of a
stored file, and written there. -/
def rewritten (m : LibConfigManager K ρ) : LibConfigManager K ρ :=
  match (m.sorted.filter fun e => (setting tracingSamplingRules e).isSome).getLast? with
  | some (id, stored) =>
    match stored.conf.libConfig with
    | some libConfig =>
      match (libConfig tracingSamplingRules).join with
      | some (rules : List (SamplingRule ρ)) =>
        let conf := { stored.conf with
          libConfig := some (withRules libConfig (reformatRules rules).1) }
        { m with configs := m.configs.set id { stored with conf := conf } }
      | none => m
    | none => m
  | none => m

/-- The changes that a transaction brings.  The handler throws at a file that is `null`. -/
def applyChanges (m : LibConfigManager K ρ) (tx : Transaction (ApmTracingFile K ρ)) :
    Option (LibConfigManager K ρ) :=
  tx.delivered.foldlM (fun m item => item.file.map (m.addConfig item.id))
    (tx.toUnapply.foldl (fun m item => m.removeConfig item.id) m)

/-- The batch handler: the manager after it and what `setRemoteConfig` is called with, unless a
transformer throws. -/
def handle (m : LibConfigManager K ρ) (tx : Transaction (ApmTracingFile K ρ)) :
    Option (LibConfigManager K ρ × Option (Option (LocalOptions ρ))) :=
  (m.applyChanges tx).map fun m =>
    match m.getMergedLibConfig with
    | none => (m, some none)
    | some libConfig => (m.rewritten, (transformRemoteConfigToLocalOption libConfig).map some)

variable (m : LibConfigManager K ρ)

/-- **The map** is the one of the manager of the targets. -/
theorem targets_addConfig (configId : Str) (conf : ApmTracingFile K ρ) :
    (m.addConfig configId conf).targets = m.targets.addConfig configId conf.toLibConfigFile := by
  unfold addConfig RCClientLibConfigManager.addConfig
  split
  · exact congrArg (RCClientLibConfigManager.mk · _ _) (mapValues_set _ m.configs _ _)
  · rfl

theorem targets_removeConfig (configId : Str) :
    (m.removeConfig configId).targets = m.targets.removeConfig configId :=
  congrArg (RCClientLibConfigManager.mk · _ _) (mapValues_delete _ m.configs _)

/-! ## What is merged -/

theorem assign_apply (merged : LibConfig ρ) (e : Str × StoredFile K ρ) (o : RemoteConfigOption) :
    assign merged e.2.conf.libConfig o = (setting o e).or (merged o) := by
  unfold setting
  cases e.2.conf.libConfig with
  | none => rfl
  | some libConfig => rfl

theorem foldl_assign (l : List (Str × StoredFile K ρ)) (merged : LibConfig ρ)
    (o : RemoteConfigOption) :
    l.foldl (fun merged e => assign merged e.2.conf.libConfig) merged o =
      (Overlay.top (setting o) l).or (merged o) := by
  induction l generalizing merged with
  | nil => rfl
  | cons e l ih =>
    rw [List.foldl_cons, ih, assign_apply, top_cons, Option.or_assoc]

/-- **A merged option** is what comes out of the settings of the stored files. -/
theorem setting_getMergedLibConfig (o : RemoteConfigOption) :
    (m.getMergedLibConfig.bind fun libConfig => libConfig o) =
      Overlay.overlay (fun e => e.2.priority) (setting o) m.configs.entries := by
  unfold getMergedLibConfig
  by_cases hempty : m.configs.entries.isEmpty = true
  · rw [List.isEmpty_iff.mp hempty]
    rfl
  rw [if_neg hempty]
  by_cases hany : (m.sorted.any fun e => e.2.conf.libConfig.isSome) = true
  · rw [if_pos hany, Option.bind_some, foldl_assign, Option.or_none]
    rfl
  · rw [if_neg hany]
    refine (overlay_eq_none_iff.mpr fun e he => ?_).symm
    have hnone : e.2.conf.libConfig = none := by
      refine Option.not_isSome_iff_eq_none.mp fun hsome => hany ?_
      exact List.any_eq_true.mpr ⟨e, mem_sorted.mpr he, hsome⟩
    unfold setting
    rw [hnone]
    rfl

/-- The value of an option, where the merged configuration has one. -/
def merged (m : LibConfigManager K ρ) (o : RemoteConfigOption) : Option (o.Value ρ) :=
  (m.getMergedLibConfig.bind fun libConfig => libConfig o).join

theorem merged_eq (o : RemoteConfigOption) : m.merged o =
    (Overlay.overlay (fun e => e.2.priority) (setting o) m.configs.entries).join := by
  rw [merged, setting_getMergedLibConfig]

/-- Files of one priority that mention the option set it to the same. -/
def Agree (m : LibConfigManager K ρ) (o : RemoteConfigOption) : Prop :=
  ∀ e ∈ m.configs.entries, ∀ e' ∈ m.configs.entries, e.2.priority = e'.2.priority →
    (setting o e).isSome → (setting o e').isSome → setting o e = setting o e'

/-- A file that mentions the option, and the last one in the map of its priority, which is the
highest of those that do. -/
def Wins (m : LibConfigManager K ρ) (o : RemoteConfigOption) (e : Str × StoredFile K ρ) : Prop :=
  Overlay.Wins (fun e => e.2.priority) (setting o) m.configs.entries e

theorem perm_entries {m m' : LibConfigManager K ρ}
    (h : ∀ id, m'.configs.get? id = m.configs.get? id) :
    m.configs.entries.Perm m'.configs.entries := by
  refine (List.perm_ext_iff_of_nodup (List.Nodup.of_map _ m.configs.nodup)
    (List.Nodup.of_map _ m'.configs.nodup)).mpr fun e => ?_
  rw [mem_entries_iff, mem_entries_iff, h]

/-- What the transformers are given is what is merged. -/
theorem transform_merged {m : LibConfigManager K ρ} {libConfig : LibConfig ρ}
    {options : LocalOptions ρ} (h : m.getMergedLibConfig = some libConfig)
    (hoptions : transformRemoteConfigToLocalOption libConfig = some options)
    (o : RemoteConfigOption) : options o = (m.merged o).bind (transform o) := by
  rw [merged, h]
  unfold transformRemoteConfigToLocalOption at hoptions
  split at hoptions
  · split at hoptions
    · cases hoptions
      rfl
    · cases hoptions
  · cases hoptions
    rfl

/-- **The merged configuration.**  An option has the value of the file that wins, if that is not
`null`, and none if no file sets it to a value.  Where files of one priority agree on it, it does
not depend on the order of the map.  What the transformers, unless they throw, make of it is what
is set. -/
theorem merged_cases (m : LibConfigManager K ρ) (o : RemoteConfigOption) :
    (∀ e v, m.Wins o e → setting o e = some (some v) → m.merged o = some v) ∧
    ((∀ e ∈ m.configs.entries, ∀ v, setting o e ≠ some (some v)) → m.merged o = none) ∧
    (m.Agree o → ∀ m' : LibConfigManager K ρ, (∀ id, m'.configs.get? id = m.configs.get? id) →
      m'.merged o = m.merged o) ∧
    ∀ libConfig options, m.getMergedLibConfig = some libConfig →
      transformRemoteConfigToLocalOption libConfig = some options →
        options o = (m.merged o).bind (transform o) := by
  refine ⟨fun e v hwins hset => ?_, fun hnone => ?_, fun hagree m' hget => ?_,
    fun libConfig options h hoptions => transform_merged h hoptions o⟩
  · rw [merged_eq, overlay_of_wins hwins, hset]
    rfl
  · rw [merged_eq]
    by_cases hsome : ∃ e ∈ m.configs.entries, (setting o e).isSome
    · obtain ⟨e, he⟩ := exists_wins (fun e => e.2.priority) hsome
      rw [overlay_of_wins he]
      cases hset : setting o e with
      | none => rfl
      | some value =>
        cases value with
        | none => rfl
        | some v => exact absurd hset (hnone e he.mem v)
    · rw [overlay_eq_none_iff.mpr fun e he =>
        Option.not_isSome_iff_eq_none.mp fun hset => hsome ⟨e, he, hset⟩]
      rfl
  · rw [merged_eq, merged_eq, overlay_perm (perm_entries hget) hagree]

/-! ## Two files -/

/-- A file for the service or for the organisation that enables or disables tracing. -/
def fileFor (service : Option Str) (enabled : Bool) : ApmTracingFile Unit Unit where
  serviceTarget := service.map fun service => ⟨some service, none⟩
  k8sTargetV2 := none
  libConfig := some fun o => match o with
    | tracingEnabled => some (some enabled)
    | _ => none

/-- A manager of the service `web` that two files have been added to. -/
def managerOf (id : Str) (conf : ApmTracingFile Unit Unit) (id' : Str)
    (conf' : ApmTracingFile Unit Unit) : LibConfigManager Unit Unit :=
  (LibConfigManager.addConfig { currentService := some (lit "web"), currentEnv := none }
    id conf).addConfig id' conf'

/-- Two files under different ids are in the map in either order. -/
theorem get?_managerOf {id id' : Str} (hne : id ≠ id') {conf conf' : ApmTracingFile Unit Unit}
    {stored stored' : StoredFile Unit Unit}
    (h : (managerOf id conf id' conf').configs = (OrderedMap.empty.set id stored).set id' stored')
    (h' : (managerOf id' conf' id conf).configs = (OrderedMap.empty.set id' stored').set id stored)
    (k : Str) : (managerOf id' conf' id conf).configs.get? k =
      (managerOf id conf id' conf').configs.get? k := by
  rw [h, h', get?_set, get?_set, get?_set, get?_set]
  by_cases hk : k = id
  · rw [if_pos hk, if_neg (by rw [hk]; exact hne), if_pos hk]
  · rw [if_neg hk, if_neg hk]

/-- The file for the service wins, whether it arrives before or after the one for the
organisation. -/
theorem merged_cases_service :
    (managerOf (lit "a") (fileFor none true) (lit "b") (fileFor (some (lit "web")) false)).merged
        tracingEnabled = some false ∧
      (managerOf (lit "b") (fileFor (some (lit "web")) false) (lit "a") (fileFor none true)).merged
        tracingEnabled = some false := by
  obtain ⟨hwins, -, horder, -⟩ := merged_cases
    (managerOf (lit "a") (fileFor none true) (lit "b") (fileFor (some (lit "web")) false))
    tracingEnabled
  have hvalue := hwins (lit "b", ⟨fileFor (some (lit "web")) false, 4⟩) false
    ⟨[(lit "a", ⟨fileFor none true, 1⟩)], [], rfl, rfl, ?_, nofun⟩ rfl
  · refine ⟨hvalue, (horder ?_ _ (get?_managerOf (by decide) rfl rfl)).trans hvalue⟩
    have hentries : (managerOf (lit "a") (fileFor none true) (lit "b")
        (fileFor (some (lit "web")) false)).configs.entries = [(lit "a", ⟨fileFor none true, 1⟩),
            (lit "b", ⟨fileFor (some (lit "web")) false, 4⟩)] := rfl
    unfold Agree
    rw [hentries]
    -- the priorities are 1 and 4
    intro e he e' he' hpriority _ _
    rcases List.mem_pair.mp he with rfl | rfl <;> rcases List.mem_pair.mp he' with rfl | rfl
    · rfl
    · cases hpriority
    · cases hpriority
    · rfl
  · intro e he _
    rw [List.mem_singleton.mp he]
    decide

/-- **Two files of one priority** are merged in the order in which they arrived. -/
theorem merged_ne : ¬∀ (m m' : LibConfigManager Unit Unit) (o : RemoteConfigOption),
      (∀ id, m'.configs.get? id = m.configs.get? id) → m'.merged o = m.merged o := by
  intro h
  have heq := h (managerOf (lit "a") (fileFor none true) (lit "b") (fileFor none false))
    (managerOf (lit "b") (fileFor none false) (lit "a") (fileFor none true)) tracingEnabled
    (get?_managerOf (by decide) rfl rfl)
  cases heq

end LibConfigManager
end DdTrace.RemoteConfig
