import DdTrace.Library.OrderedMap
import DdTrace.Library.Run
import DdTrace.Library.Text

/-!
# Features by remote configuration

`appsec/remote_config.js` takes the files of the product `ASM_FEATURES`.  A file may set the mode of
the collection of user data, and it may switch AppSec on and off.  Only one file may set the mode at
a time: the id of the configuration that does is remembered, and a file of another id is rejected.

The specification is about the files that are applied and were accepted: `World` has them beside the
state of the code, in the order in which they were accepted.

## What goes wrong

Whether a file gives something up is asked of the new text alone, and only when the file goes.  A file
that loses its mode when it is modified keeps its hold on it; and a file that goes gives AppSec back to
the local configuration, although another file may still speak for it.

* `modeStep_eq`, `enableOrDisableAppsec_spec`: the two parts of the handler.
* `World.Inv`, `world_inv_step`: the invariant, and one event.
* `settled_of_run`: **on a run in which no file loses what it carried and no other file speaks for
  what a file leaves, the mode and the activation are those of the applied files after every event**.
-/

namespace DdTrace.Appsec

open Library List Option

/-! ## The configuration and the state -/

/-- What the handler reads of the tracer's configuration. -/
structure FeaturesConfig where
  /-- `appsec.enabled` -/
  enabled : Option Bool
  /-- `appsec.eventTracking.mode` -/
  mode : Str

inductive Activation where
  | oneclick
  | enabled
  | disabled
  deriving DecidableEq

def Activation.fromConfig (config : FeaturesConfig) : Activation :=
  match config.enabled with
  | some true => .enabled
  | some false => .disabled
  | none => .oneclick

/-- A file of the product, with the two members that are of the right type. -/
structure FeaturesFile where
  /-- `auto_user_instrum.mode` -/
  mode : Option Str := none
  /-- `asm.enabled` -/
  asmEnabled : Option Bool := none
  deriving DecidableEq

inductive RcAction where
  | apply
  | modify
  | unapply
  deriving DecidableEq

inductive CollectionMode where
  | anonymization
  | identification
  | disabled
  deriving DecidableEq

/-- The mode that a setting stands for. -/
def CollectionMode.ofSetting (mode : Str) : CollectionMode :=
  if includes [lit "safe", lit "anon", lit "anonymization"] mode then .anonymization
  else if includes [lit "extended", lit "ident", lit "identification"] mode then .identification
  else .disabled

/-- The variables of the modules. -/
structure Features (ι : Type*) where
  collectionMode : Option CollectionMode := none
  autoUserInstrumModeId : Option ι := none
  isEnabled : Bool := false
  deriving DecidableEq

variable {ι π : Type*} [DecidableEq ι] [DecidableEq π]

/-- The mode in force: the one that was set, or the local one, which AppSec starts with. -/
def Features.mode (config : FeaturesConfig) (s : Features ι) : CollectionMode :=
  s.collectionMode.getD (.ofSetting config.mode)

/-! ## The handler -/

def setCollectionMode (mode : Str) (overwrite : Bool) (s : Features ι) : Features ι :=
  if overwrite = false ∧ s.collectionMode.isSome = true then s
  else { s with collectionMode := some (.ofSetting mode) }

/-- `appsec.enable` -/
def enableAppsec (config : FeaturesConfig) (s : Features ι) : Features ι :=
  if s.isEnabled then s else { setCollectionMode config.mode false s with isEnabled := true }

/-- `appsec.disable` -/
def disableAppsec (s : Features ι) : Features ι := { s with isEnabled := false }

def enableOrDisableAppsec (action : RcAction) (rcConfig : FeaturesFile) (config : FeaturesConfig)
    (s : Features ι) : Features ι :=
  match rcConfig.asmEnabled with
  | none => s
  | some enabled =>
    let isRemoteConfigControlling := action = .apply ∨ action = .modify
    let shouldEnable := if isRemoteConfigControlling then enabled else config.enabled.getD false
    if shouldEnable then enableAppsec config s else disableAppsec s

/-- The part of the handler that can reject the file. -/
def modeStep (action : RcAction) (rcConfig : FeaturesFile) (config : FeaturesConfig) (configId : ι)
    (s : Features ι) : Except Str (Features ι) :=
  match rcConfig.mode with
  | none => .ok s
  | some mode =>
    if action = .apply ∨ action = .modify then
      if s.autoUserInstrumModeId ≠ none ∧ s.autoUserInstrumModeId ≠ some configId then
        .error (lit "Multiple auto_user_instrum.mode received in ASM_FEATURES")
      else .ok { setCollectionMode mode true s with autoUserInstrumModeId := some configId }
    else if s.autoUserInstrumModeId = some configId then
      .ok { setCollectionMode config.mode true s with autoUserInstrumModeId := none }
    else .ok s

/-- The handler of the product.  A file that is `null` is left alone. -/
def featuresHandler (action : RcAction) (rcConfig : Option FeaturesFile) (config : FeaturesConfig)
    (configId : ι) (s : Features ι) : Except Str (Features ι) :=
  match rcConfig with
  | none => .ok s
  | some file => do
    let s ← modeStep action file config configId s
    return if Activation.fromConfig config = .oneclick then enableOrDisableAppsec action file config s
      else s

/-- The state before the first file: AppSec was started if it is enabled locally. -/
def Features.start (config : FeaturesConfig) : Features ι :=
  if config.enabled.getD false then enableAppsec config {} else {}

/-! ## Files and events -/

/-- The mode that a file carries. -/
def modeOf (rcConfig : Option FeaturesFile) : Option Str := rcConfig.bind (·.mode)

/-- What a file says about AppSec. -/
def asmEnabledOf (rcConfig : Option FeaturesFile) : Option Bool := rcConfig.bind (·.asmEnabled)

/-- A file with its path. -/
abbrev PlacedFile (π : Type*) := π × Option FeaturesFile

/-- The files that stay when the one at the path goes. -/
def without (path : π) (files : List (PlacedFile π)) : List (PlacedFile π) :=
  files.filter fun e => decide (e.1 ≠ path)

/-- What the last of the files that speak about AppSec says, else the local configuration.  When
AppSec is not activated by one click, no file speaks about it. -/
def activatedBy (config : FeaturesConfig) (files : List (PlacedFile π)) : Bool :=
  if Activation.fromConfig config = .oneclick then
    ((files.filterMap fun e => asmEnabledOf e.2).getLast?).getD (config.enabled.getD false)
  else config.enabled.getD false

/-- An event of the client.  The file of an `unapply` is the one that is applied. -/
inductive FeaturesEvent (π : Type*) where
  | apply (path : π) (file : Option FeaturesFile)
  | modify (path : π) (file : Option FeaturesFile)
  | unapply (path : π)
  deriving DecidableEq

/-- The state of the code, the files that are applied, and those of them that were accepted. -/
structure World (ι π : Type*) where
  features : Features ι
  files : OrderedMap π (Option FeaturesFile) := .empty
  accepted : List (PlacedFile π) := []

namespace World

variable (config : FeaturesConfig) (configId : π → ι)

def start : World ι π where
  features := .start config

/-- A file that is received for a path. -/
def receive (action : RcAction) (path : π) (file : Option FeaturesFile) (w : World ι π) : World ι π :=
  match featuresHandler action file config (configId path) w.features with
  | .error _ => { w with files := w.files.set path file, accepted := without path w.accepted }
  | .ok s =>
    { features := s
      files := w.files.set path file
      accepted := without path w.accepted ++ [(path, file)] }

/-- A file that goes. -/
def release (path : π) (file : Option FeaturesFile) (w : World ι π) : World ι π where
  features := (featuresHandler .unapply file config (configId path) w.features).toOption.getD
    w.features
  files := w.files.delete path
  accepted := without path w.accepted

/-- One event.  Without a handler there is none. -/
def step (w : World ι π) (ev : FeaturesEvent π) : Option (World ι π) :=
  if Activation.fromConfig config = .disabled then none
  else
    match ev with
    | .apply path file =>
      if w.files.has path then none else some (w.receive config configId .apply path file)
    | .modify path file =>
      if w.files.has path then some (w.receive config configId .modify path file) else none
    | .unapply path => (w.files.get? path).map fun file => w.release config configId path file

/-- The mode and the activation are those of the files. -/
structure Settled (w : World ι π) : Prop where
  carried : ∀ e ∈ w.accepted, ∀ m ∈ modeOf e.2, w.features.mode config = .ofSetting m
  free : (∀ e ∈ w.accepted, modeOf e.2 = none) → w.features.mode config = .ofSetting config.mode
  enabled : w.features.isEnabled = activatedBy config w.accepted
  set : w.features.isEnabled = true → w.features.collectionMode = some (w.features.mode config)

/-! ## The steps that lose nothing -/

/-- The file would be rejected. -/
def rejects (path : π) (file : Option FeaturesFile) (w : World ι π) : Bool :=
  (modeOf file).isSome && w.features.autoUserInstrumModeId.any fun id => decide (id ≠ configId path)

/-- No other file with the same id sets the mode. -/
def Alone (path : π) (w : World ι π) : Prop :=
  ∀ e ∈ w.accepted, e.1 ≠ path → configId e.1 = configId path → modeOf e.2 = none

/-- The old text of the file says nothing about AppSec that is lost with it. -/
def Silent (path : π) (w : World ι π) : Prop :=
  activatedBy config (without path w.accepted) = activatedBy config w.accepted

/-- The steps in which no file loses what it carried, no file takes the mode from another one with
its id, and no other file speaks for what a file leaves. -/
def Quiet (w : World ι π) : FeaturesEvent π → Prop
  | .apply path file | .modify path file =>
    ((modeOf file).isSome = true → w.Alone configId path) ∧
    ((∃ e ∈ w.accepted, e.1 = path ∧ (modeOf e.2).isSome = true) → (modeOf file).isSome = true) ∧
    ((asmEnabledOf file = none ∨ w.rejects configId path file = true) → w.Silent config path)
  | .unapply path => ∀ file ∈ w.files.get? path,
    ((modeOf file).isSome = true → w.Alone configId path) ∧
    ((asmEnabledOf file).isSome = true →
      activatedBy config (without path w.accepted) = config.enabled.getD false)

instance (path : π) (w : World ι π) : Decidable (w.Alone configId path) :=
  inferInstanceAs (Decidable (∀ e ∈ w.accepted, e.1 ≠ path → configId e.1 = configId path →
    modeOf e.2 = none))

instance (path : π) (w : World ι π) : Decidable (w.Silent config path) :=
  inferInstanceAs (Decidable (_ = _))

instance (w : World ι π) : ∀ ev, Decidable (w.Quiet config configId ev)
  | .apply path file | .modify path file =>
    inferInstanceAs (Decidable ( ((modeOf file).isSome = true → w.Alone configId path) ∧
      ((∃ e ∈ w.accepted, e.1 = path ∧ (modeOf e.2).isSome = true) → (modeOf file).isSome = true) ∧
      ((asmEnabledOf file = none ∨ w.rejects configId path file = true) → w.Silent config path)))
  | .unapply path =>
    inferInstanceAs (Decidable (∀ file ∈ w.files.get? path,
      ((modeOf file).isSome = true → w.Alone configId path) ∧
      ((asmEnabledOf file).isSome = true →
        activatedBy config (without path w.accepted) = config.enabled.getD false)))

end World

/-! ## What the handler does -/

variable {config : FeaturesConfig} {configId : π → ι} {s s' : Features ι} {action : RcAction}
  {file : Option FeaturesFile} {id : ι}

/-- AppSec starts with the mode in force. -/
theorem enableAppsec_spec (config : FeaturesConfig) (s : Features ι) :
    (enableAppsec config s).autoUserInstrumModeId = s.autoUserInstrumModeId ∧
      (enableAppsec config s).mode config = s.mode config ∧
      (enableAppsec config s).isEnabled = true ∧
      ((s.isEnabled = true → s.collectionMode = some (s.mode config)) →
        (enableAppsec config s).collectionMode = some ((enableAppsec config s).mode config)) := by
  unfold enableAppsec setCollectionMode Features.mode
  cases hs : s.isEnabled with
  | true => exact ⟨rfl, rfl, hs, fun h => h rfl⟩
  | false =>
    cases hm : s.collectionMode with
    | none => exact ⟨rfl, rfl, rfl, fun _ => rfl⟩
    | some m => simp [hm]

/-- The part of the handler that switches AppSec on and off. -/
theorem enableOrDisableAppsec_spec (action : RcAction) (f : FeaturesFile) (config : FeaturesConfig)
    (s : Features ι) :
    (enableOrDisableAppsec action f config s).autoUserInstrumModeId = s.autoUserInstrumModeId ∧
      (enableOrDisableAppsec action f config s).mode config = s.mode config ∧
      (f.asmEnabled = none → (enableOrDisableAppsec action f config s).isEnabled = s.isEnabled) ∧
      (∀ b, f.asmEnabled = some b → (enableOrDisableAppsec action f config s).isEnabled =
        if action = .unapply then config.enabled.getD false else b) ∧
      ((s.isEnabled = true → s.collectionMode = some (s.mode config)) →
        (enableOrDisableAppsec action f config s).isEnabled = true →
        (enableOrDisableAppsec action f config s).collectionMode =
          some ((enableOrDisableAppsec action f config s).mode config)) := by
  obtain ⟨howner, hmode, henabled, hset⟩ := enableAppsec_spec config s
  unfold enableOrDisableAppsec
  cases hf : f.asmEnabled with
  | none => exact ⟨rfl, rfl, fun _ => rfl, fun b hb => (by cases hb), fun h => h⟩
  | some b =>
    have hshould : (if action = .apply ∨ action = .modify then b else config.enabled.getD false) =
        if action = .unapply then config.enabled.getD false else b := by
      cases action <;> rfl
    dsimp only
    rw [hshould]
    cases hb : (if action = .unapply then config.enabled.getD false else b) with
    | true =>
      refine ⟨howner, hmode, fun h => (by cases h), fun c hc => ?_, fun h _ => hset h⟩
      cases hc
      rw [hb]
      exact henabled
    | false =>
      refine ⟨rfl, rfl, fun h => (by cases h), fun c hc => ?_, fun _ h => (by cases h)⟩
      cases hc
      rw [hb]
      rfl

/-- The part of the handler that sets the mode. -/
theorem modeStep_spec {f : FeaturesFile} (h : modeStep action f config id s = .ok s') :
    s'.isEnabled = s.isEnabled ∧ ((s.isEnabled = true → s.collectionMode = some (s.mode config)) →
        s'.isEnabled = true → s'.collectionMode = some (s'.mode config)) ∧
      (f.mode = none → s' = s) ∧
      (∀ m, f.mode = some m → action ≠ .unapply →
        (∀ other, s.autoUserInstrumModeId = some other → other = id) ∧
          s'.autoUserInstrumModeId = some id ∧ s'.mode config = .ofSetting m) ∧
      (f.mode ≠ none → action = .unapply → s.autoUserInstrumModeId = some id →
        s'.autoUserInstrumModeId = none ∧ s'.mode config = .ofSetting config.mode) ∧
      (action = .unapply → s.autoUserInstrumModeId ≠ some id → s' = s) := by
  unfold modeStep at h
  cases hf : f.mode with
  | none =>
    rw [hf] at h
    cases h
    exact ⟨rfl, fun h => h, fun _ => rfl, fun m hm => (by cases hm), fun h => absurd rfl h,
      fun _ _ => rfl⟩
  | some m =>
    rw [hf] at h
    dsimp only at h
    have hset : ∀ (mode : Str) (owner : Option ι),
        ({ setCollectionMode mode true s with autoUserInstrumModeId := owner } : Features ι) =
          { s with collectionMode := some (.ofSetting mode), autoUserInstrumModeId := owner } := by
      intro mode owner
      unfold setCollectionMode
      rw [if_neg (fun h => by cases h.1)]
    by_cases haction : action = .apply ∨ action = .modify
    · have hne : action ≠ .unapply := by
        rintro rfl
        rcases haction with h | h <;> cases h
      rw [if_pos haction] at h
      by_cases howner : s.autoUserInstrumModeId ≠ none ∧ s.autoUserInstrumModeId ≠ some id
      · rw [if_pos howner] at h
        cases h
      · rw [if_neg howner] at h
        cases h
        refine ⟨rfl, fun _ _ => rfl, fun h => (by cases h), fun m' hm' _ => ?_,
          fun _ h => absurd h hne, fun h => absurd h hne⟩
        cases hm'
        refine ⟨fun other hother => ?_, rfl, rfl⟩
        by_contra hcon
        refine howner ⟨?_, ?_⟩
        · rw [hother]
          exact some_ne_none _
        · rw [hother]
          exact fun he => hcon (some.inj he)
    · have hun : action = .unapply := by
        cases action with
        | apply => exact absurd (Or.inl rfl) haction
        | modify => exact absurd (Or.inr rfl) haction
        | unapply => rfl
      rw [if_neg haction] at h
      by_cases howner : s.autoUserInstrumModeId = some id
      · rw [if_pos howner] at h
        cases h
        exact ⟨rfl, fun _ _ => rfl, fun h => (by cases h), fun m' _ h => absurd hun h,
          fun _ _ _ => ⟨rfl, rfl⟩, fun _ h => absurd howner h⟩
      · rw [if_neg howner] at h
        cases h
        exact ⟨rfl, fun h => h, fun h => (by cases h), fun m' _ h => absurd hun h,
          fun _ _ h => absurd h howner, fun _ _ => rfl⟩

/-- What the handler makes of a file that it does not reject. -/
structure FileHandled (config : FeaturesConfig) (action : RcAction) (file : Option FeaturesFile) (id : ι)
    (s s' : Features ι) : Prop where
  silent : (Activation.fromConfig config ≠ .oneclick ∨ asmEnabledOf file = none) →
    s'.isEnabled = s.isEnabled
  enabled : Activation.fromConfig config = .oneclick → ∀ b, asmEnabledOf file = some b →
    s'.isEnabled = if action = .unapply then config.enabled.getD false else b
  set : (s.isEnabled = true → s.collectionMode = some (s.mode config)) →
    s'.isEnabled = true → s'.collectionMode = some (s'.mode config)
  plain : modeOf file = none →
    s'.autoUserInstrumModeId = s.autoUserInstrumModeId ∧ s'.mode config = s.mode config
  takes : ∀ m, modeOf file = some m → action ≠ .unapply →
    (∀ other, s.autoUserInstrumModeId = some other → other = id) ∧
      s'.autoUserInstrumModeId = some id ∧ s'.mode config = .ofSetting m
  release : modeOf file ≠ none → action = .unapply → s.autoUserInstrumModeId = some id →
    s'.autoUserInstrumModeId = none ∧ s'.mode config = .ofSetting config.mode
  keep : action = .unapply → s.autoUserInstrumModeId ≠ some id →
    s'.autoUserInstrumModeId = s.autoUserInstrumModeId ∧ s'.mode config = s.mode config

theorem handled_of_ok (h : featuresHandler action file config id s = .ok s') :
    FileHandled config action file id s s' := by
  unfold featuresHandler at h
  cases file with
  | none =>
    cases h
    exact ⟨fun _ => rfl, fun _ b hb => (by cases hb), fun h => h, fun _ => ⟨rfl, rfl⟩,
      fun m hm => (by cases hm), fun h => absurd rfl h, fun _ _ => ⟨rfl, rfl⟩⟩
  | some f =>
    dsimp only at h
    cases hstep : modeStep action f config id s with
    | error text =>
      rw [hstep] at h
      cases h
    | ok s₁ =>
      rw [hstep] at h
      obtain ⟨henabled, hset, hnone, hsome, hrelease, hkeep⟩ := modeStep_spec hstep
      by_cases hone : Activation.fromConfig config = .oneclick
      · obtain ⟨howner', hmode', hnone', henabled', hset'⟩ :=
          enableOrDisableAppsec_spec action f config s₁
        have hs' : enableOrDisableAppsec action f config s₁ = s' := by
          have heq : (Except.ok (if Activation.fromConfig config = .oneclick then
              enableOrDisableAppsec action f config s₁ else s₁) : Except Str (Features ι)) =
              .ok s' := h
          rw [if_pos hone] at heq
          exact Except.ok.inj heq
        rw [hs'] at howner' hmode' hnone' henabled' hset'
        refine ⟨fun hs => ?_, fun _ b hb => henabled' b hb, fun hs => hset' (hset hs), fun hm => ?_,
          fun m hm ha => ?_, fun hm ha ho => ?_, fun ha ho => ?_⟩
        · rcases hs with hs | hs
          · exact absurd hone hs
          · exact (hnone' hs).trans henabled
        · rw [howner', hmode', hnone hm]
          exact ⟨rfl, rfl⟩
        · rw [howner', hmode']
          exact hsome m hm ha
        · rw [howner', hmode']
          exact hrelease hm ha ho
        · rw [howner', hmode', hkeep ha ho]
          exact ⟨rfl, rfl⟩
      · have hs' : s₁ = s' := by
          have heq : (Except.ok (if Activation.fromConfig config = .oneclick then
              enableOrDisableAppsec action f config s₁ else s₁) : Except Str (Features ι)) =
              .ok s' := h
          rw [if_neg hone] at heq
          exact Except.ok.inj heq
        subst hs'
        refine ⟨fun _ => henabled, fun h => absurd h hone, hset, fun hm => ?_, hsome, hrelease,
          fun ha ho => ?_⟩
        · rw [hnone hm]
          exact ⟨rfl, rfl⟩
        · rw [hkeep ha ho]
          exact ⟨rfl, rfl⟩

/-- A file is rejected because another one holds the mode. -/
theorem modeStep_error {f : FeaturesFile} {text : Str}
    (h : modeStep action f config id s = .error text) :
    action ≠ .unapply ∧ f.mode ≠ none ∧ s.autoUserInstrumModeId ≠ none ∧
      s.autoUserInstrumModeId ≠ some id := by
  unfold modeStep at h
  cases hf : f.mode with
  | none =>
    rw [hf] at h
    cases h
  | some m =>
    rw [hf] at h
    dsimp only at h
    split at h
    · next haction =>
      split at h
      · next howner =>
        refine ⟨?_, some_ne_none m, howner⟩
        rintro rfl
        rcases haction with h | h <;> cases h
      · cases h
    · split at h
      · cases h
      · cases h

theorem rejected_of_error {text : Str} (h : featuresHandler action file config id s = .error text) :
    action ≠ .unapply ∧ modeOf file ≠ none ∧ s.autoUserInstrumModeId ≠ none ∧
      s.autoUserInstrumModeId ≠ some id := by
  unfold featuresHandler at h
  cases file with
  | none => cases h
  | some f =>
    dsimp only at h
    cases hstep : modeStep action f config id s with
    | error text' => exact modeStep_error hstep
    | ok s₁ =>
      rw [hstep] at h
      cases h

/-! ## The invariant -/

/-- What holds after every event. -/
structure World.Inv (config : FeaturesConfig) (configId : π → ι) (w : World ι π) : Prop where
  files : ∀ e ∈ w.accepted, w.files.get? e.1 = some e.2
  owner : ∀ e ∈ w.accepted, ∀ m, modeOf e.2 = some m →
    w.features.autoUserInstrumModeId = some (configId e.1) ∧ w.features.mode config = .ofSetting m
  one : ∀ e ∈ w.accepted, ∀ e' ∈ w.accepted, modeOf e.2 ≠ none → modeOf e'.2 ≠ none → e.1 = e'.1
  free : (∀ e ∈ w.accepted, modeOf e.2 = none) → w.features.autoUserInstrumModeId = none ∧
    w.features.mode config = .ofSetting config.mode
  enabled : w.features.isEnabled = activatedBy config w.accepted
  set : w.features.isEnabled = true → w.features.collectionMode = some (w.features.mode config)

variable {w : World ι π} {path : π}

theorem World.Inv.settled (h : w.Inv config configId) : w.Settled config :=
  ⟨fun e he m hm => (h.owner e he m hm).2, fun hfree => (h.free hfree).2, h.enabled, h.set⟩

theorem world_inv_start : (World.start config : World ι π).Inv config configId := by
  obtain ⟨howner, hmode, henabled, hset⟩ := enableAppsec_spec config ({} : Features ι)
  have hnil : activatedBy config ([] : List (PlacedFile π)) = config.enabled.getD false := by
    unfold activatedBy
    rw [filterMap_nil, getLast?_nil, getD_none, ite_self]
  have hfeatures : (World.start config : World ι π).features = Features.start config := rfl
  refine ⟨fun e he => absurd he not_mem_nil, fun e he => absurd he not_mem_nil,
    fun e he => absurd he not_mem_nil, fun _ => ?_, ?_, ?_⟩
  · rw [hfeatures]
    unfold Features.start
    split
    · exact ⟨howner, hmode⟩
    · exact ⟨rfl, rfl⟩
  · rw [hfeatures]
    show _ = activatedBy config ([] : List (PlacedFile π))
    rw [hnil]
    unfold Features.start
    split
    · next h => rw [henabled, h]
    · next h =>
      rw [Bool.not_eq_true] at h
      rw [h]
  · rw [hfeatures]
    unfold Features.start
    split
    · exact fun _ => hset fun h => (by cases h)
    · exact fun h => by cases h

theorem mem_without {files : List (PlacedFile π)} {e : PlacedFile π} :
    e ∈ without path files ↔ e ∈ files ∧ e.1 ≠ path := by
  rw [without, mem_filter, decide_eq_true_iff]

/-- The file that was received last speaks for AppSec. -/
theorem activatedBy_concat (config : FeaturesConfig) (files : List (PlacedFile π)) (path : π)
    (file : Option FeaturesFile) : activatedBy config (files ++ [(path, file)]) =
      if Activation.fromConfig config = .oneclick then
        (asmEnabledOf file).getD (activatedBy config files)
      else activatedBy config files := by
  unfold activatedBy
  by_cases hone : Activation.fromConfig config = .oneclick
  · rw [if_pos hone, if_pos hone, if_pos hone]
    cases hfile : asmEnabledOf file with
    | none | some b =>
      simp [hfile]
  · rw [if_neg hone, if_neg hone, if_neg hone]

/-- A file that says nothing can go. -/
theorem activatedBy_without {files : List (PlacedFile π)}
    (h : ∀ e ∈ files, e.1 = path → asmEnabledOf e.2 = none) :
    activatedBy config (without path files) = activatedBy config files := by
  have hsame : (without path files).filterMap (fun e => asmEnabledOf e.2) =
      files.filterMap fun e => asmEnabledOf e.2 := by
    induction files with
    | nil => rfl
    | cons e files ih =>
      have hrest := ih (forall_mem_cons.mp h).2
      unfold without at hrest ⊢
      by_cases he : e.1 = path
      · have hv := h e mem_cons_self he
        rw [filter_cons_of_neg (by simpa using he), hrest]
        simp only [filterMap_cons, hv]
      · rw [filter_cons_of_pos (by simpa using he)]
        simp only [filterMap_cons, hrest]
  unfold activatedBy
  rw [hsame]

/-! ## One event -/

/-- A file that is received and accepted. -/
theorem inv_accept (h : w.Inv config configId) (haction : action ≠ .unapply)
    (hhandled : FileHandled config action file (configId path) w.features s)
    (halone : modeOf file ≠ none → w.Alone configId path)
    (hkeeps : (∃ e ∈ w.accepted, e.1 = path ∧ (modeOf e.2).isSome = true) → modeOf file ≠ none)
    (hsilent : asmEnabledOf file = none → w.Silent config path) :
    World.Inv config configId
      { features := s
        files := w.files.set path file
        accepted := without path w.accepted ++ [(path, file)] } := by
  have hmem : ∀ e ∈ without path w.accepted ++ [(path, file)],
      (e ∈ w.accepted ∧ e.1 ≠ path) ∨ e = (path, file) := by
    intro e he
    rcases mem_append.mp he with he | he
    · exact Or.inl (mem_without.mp he)
    · exact Or.inr (mem_singleton.mp he)
  -- Where the file takes the mode, no other file carries one.
  have hothers : modeOf file ≠ none → ∀ e ∈ w.accepted, e.1 ≠ path → modeOf e.2 = none := by
    intro hm e he hne
    by_contra hcarries
    obtain ⟨m, hm'⟩ := ne_none_iff_exists'.mp hcarries
    obtain ⟨m₀, hm₀⟩ := ne_none_iff_exists'.mp hm
    have howner := (hhandled.takes m₀ hm₀ haction).1 _ (h.owner e he m hm').1
    exact hcarries (halone hm e he hne howner)
  refine ⟨fun e he => ?_, fun e he m hm => ?_, fun e he e' he' hm hm' => ?_, fun hfree => ?_, ?_,
    hhandled.set h.set⟩
  · rcases hmem e he with ⟨hin, hne⟩ | rfl
    · rw [OrderedMap.get?_set_of_ne _ hne]
      exact h.files e hin
    · rw [OrderedMap.get?_set, if_pos rfl]
  · rcases hmem e he with ⟨hin, hne⟩ | rfl
    · have hplain : modeOf file = none := by
        by_contra hcarries
        rw [hothers hcarries e hin hne] at hm
        cases hm
      obtain ⟨howner, hmode⟩ := hhandled.plain hplain
      rw [howner, hmode]
      exact h.owner e hin m hm
    · exact (hhandled.takes m hm haction).2
  · rcases hmem e he with ⟨hin, hne⟩ | rfl
    · rcases hmem e' he' with ⟨hin', hne'⟩ | rfl
      · exact h.one e hin e' hin' hm hm'
      · exact absurd (hothers hm' e hin hne) hm
    · rcases hmem e' he' with ⟨hin', hne'⟩ | rfl
      · exact absurd (hothers hm e' hin' hne') hm'
      · rfl
  · have hplain : modeOf file = none :=
      hfree (path, file) (mem_append_right _ mem_cons_self)
    obtain ⟨howner, hmode⟩ := hhandled.plain hplain
    have hold : ∀ e ∈ w.accepted, modeOf e.2 = none := by
      intro e he
      by_cases hne : e.1 = path
      · by_contra hcarries
        exact hkeeps ⟨e, he, hne, isSome_iff_ne_none.mpr hcarries⟩ hplain
      · exact hfree e (mem_append_left _ (mem_without.mpr ⟨he, hne⟩))
    rw [howner, hmode]
    exact h.free hold
  · rw [activatedBy_concat]
    by_cases hone : Activation.fromConfig config = .oneclick
    · rw [if_pos hone]
      cases hfile : asmEnabledOf file with
      | none =>
        rw [hhandled.silent (Or.inr hfile), h.enabled]
        exact (hsilent hfile).symm
      | some b => rw [hhandled.enabled hone b hfile, if_neg haction, getD_some]
    · rw [if_neg hone, hhandled.silent (Or.inl hone), h.enabled]
      unfold activatedBy
      rw [if_neg hone, if_neg hone]

/-- A file that is received and rejected. -/
theorem inv_reject (h : w.Inv config configId)
    (hother : w.features.autoUserInstrumModeId ≠ some (configId path))
    (hsilent : w.Silent config path) :
    World.Inv config configId
      { w with files := w.files.set path file, accepted := without path w.accepted } := by
  have hnone : ∀ e ∈ w.accepted, e.1 = path → modeOf e.2 = none := by
    intro e he hpath
    by_contra hcarries
    obtain ⟨m, hm⟩ := ne_none_iff_exists'.mp hcarries
    rw [← hpath] at hother
    exact hother (h.owner e he m hm).1
  refine ⟨fun e he => ?_, fun e he => h.owner e (mem_without.mp he).1, fun e he e' he' =>
    h.one e (mem_without.mp he).1 e' (mem_without.mp he').1, fun hfree => h.free fun e he => ?_, ?_,
    h.set⟩
  · obtain ⟨hin, hne⟩ := mem_without.mp he
    rw [OrderedMap.get?_set_of_ne _ hne]
    exact h.files e hin
  · by_cases hne : e.1 = path
    · exact hnone e he hne
    · exact hfree e (mem_without.mpr ⟨he, hne⟩)
  · rw [h.enabled]
    exact hsilent.symm

/-- A file that goes. -/
theorem inv_release (h : w.Inv config configId) (hfile : w.files.get? path = some file)
    (hhandled : FileHandled config .unapply file (configId path) w.features s)
    (halone : modeOf file ≠ none → w.Alone configId path)
    (hback : asmEnabledOf file ≠ none →
      activatedBy config (without path w.accepted) = config.enabled.getD false) :
    World.Inv config configId
      { features := s
        files := w.files.delete path
        accepted := without path w.accepted } := by
  have hcontent : ∀ e ∈ w.accepted, e.1 = path → e.2 = file := by
    intro e he hpath
    have hget := h.files e he
    rw [hpath, hfile] at hget
    exact (some.inj hget).symm
  have henabled : s.isEnabled = activatedBy config (without path w.accepted) := by
    by_cases hone : Activation.fromConfig config = .oneclick
    · cases hv : asmEnabledOf file with
      | none =>
        rw [hhandled.silent (Or.inr hv), h.enabled,
          activatedBy_without fun e he hpath => by rw [hcontent e he hpath, hv]]
      | some b =>
        rw [hhandled.enabled hone b hv, if_pos rfl, hback (by rw [hv]; exact some_ne_none b)]
    · rw [hhandled.silent (Or.inl hone), h.enabled]
      unfold activatedBy
      rw [if_neg hone, if_neg hone]
  have hfiles : ∀ e ∈ without path w.accepted, (w.files.delete path).get? e.1 = some e.2 := by
    intro e he
    obtain ⟨hin, hne⟩ := mem_without.mp he
    rw [OrderedMap.get?_delete_of_ne _ hne]
    exact h.files e hin
  by_cases hgives : modeOf file ≠ none ∧ w.features.autoUserInstrumModeId = some (configId path)
  · -- The file holds the mode, and no other one carries it.
    obtain ⟨hm, howner⟩ := hgives
    have hnone : ∀ e ∈ without path w.accepted, modeOf e.2 = none := by
      intro e he
      obtain ⟨hin, hne⟩ := mem_without.mp he
      by_contra hcarries
      obtain ⟨m, hm'⟩ := ne_none_iff_exists'.mp hcarries
      have hid := (h.owner e hin m hm').1
      rw [howner] at hid
      exact hcarries (halone hm e hin hne (some.inj hid).symm)
    refine ⟨hfiles, fun e he m hm' => ?_, fun e he e' he' hm' => absurd (hnone e he) hm', fun _ =>
      hhandled.release hm rfl howner, henabled, hhandled.set h.set⟩
    rw [hnone e he] at hm'
    cases hm'
  · have hsame : s.autoUserInstrumModeId = w.features.autoUserInstrumModeId ∧
        s.mode config = w.features.mode config := by
      by_cases hm : modeOf file = none
      · exact hhandled.plain hm
      · exact hhandled.keep rfl fun howner => hgives ⟨hm, howner⟩
    have hnone : ∀ e ∈ w.accepted, e.1 = path → modeOf e.2 = none := by
      intro e he hpath
      by_contra hcarries
      obtain ⟨m, hm⟩ := ne_none_iff_exists'.mp hcarries
      refine hgives ⟨by rw [← hcontent e he hpath]; exact hcarries, ?_⟩
      rw [← hpath]
      exact (h.owner e he m hm).1
    refine ⟨hfiles, fun e he m hm => ?_, fun e he e' he' =>
      h.one e (mem_without.mp he).1 e' (mem_without.mp he').1, fun hfree => ?_, henabled,
      hhandled.set h.set⟩
    · rw [hsame.1, hsame.2]
      exact h.owner e (mem_without.mp he).1 m hm
    · rw [hsame.1, hsame.2]
      refine h.free fun e he => ?_
      by_cases hne : e.1 = path
      · exact hnone e he hne
      · exact hfree e (mem_without.mpr ⟨he, hne⟩)

theorem inv_receive (h : w.Inv config configId) (haction : action ≠ .unapply)
    (halone : (modeOf file).isSome = true → w.Alone configId path)
    (hkeeps : (∃ e ∈ w.accepted, e.1 = path ∧ (modeOf e.2).isSome = true) →
      (modeOf file).isSome = true)
    (hsilent : (asmEnabledOf file = none ∨ w.rejects configId path file = true) →
      w.Silent config path) :
    (w.receive config configId action path file).Inv config configId := by
  unfold World.receive
  cases hstep : featuresHandler action file config (configId path) w.features with
  | ok s =>
    exact inv_accept h haction (handled_of_ok hstep) (fun hm => halone (isSome_iff_ne_none.mpr hm))
      (fun he => isSome_iff_ne_none.mp (hkeeps he)) fun hv => hsilent (Or.inl hv)
  | error text =>
    obtain ⟨-, hm, howner, hother⟩ := rejected_of_error hstep
    obtain ⟨other, hid⟩ := ne_none_iff_exists'.mp howner
    refine inv_reject h hother (hsilent (Or.inr ?_))
    unfold World.rejects
    rw [Bool.and_eq_true, Option.any_eq_true]
    refine ⟨isSome_iff_ne_none.mpr hm, other, hid, decide_eq_true fun he => hother ?_⟩
    rw [hid, he]

/-- **One event** that loses nothing. -/
theorem world_inv_step {w' : World ι π} {ev : FeaturesEvent π} (h : w.Inv config configId)
    (hquiet : w.Quiet config configId ev) (hstep : w.step config configId ev = some w') :
    w'.Inv config configId := by
  unfold World.step at hstep
  split at hstep
  · cases hstep
  cases ev with
  | apply path file =>
    obtain ⟨halone, hkeeps, hsilent⟩ := hquiet
    dsimp only at hstep
    split at hstep
    · cases hstep
    · cases hstep
      exact inv_receive h (fun he => by cases he) halone hkeeps hsilent
  | modify path file =>
    obtain ⟨halone, hkeeps, hsilent⟩ := hquiet
    dsimp only at hstep
    split at hstep
    · cases hstep
      exact inv_receive h (fun he => by cases he) halone hkeeps hsilent
    · cases hstep
  | unapply path =>
    obtain ⟨file, hfile, rfl⟩ := map_eq_some_iff.mp hstep
    obtain ⟨halone, hback⟩ := hquiet file hfile
    unfold World.release
    cases hrun : featuresHandler .unapply file config (configId path) w.features with
    | ok s =>
      exact inv_release h hfile (handled_of_ok hrun) (fun hm => halone (isSome_iff_ne_none.mpr hm))
        fun hv => hback (isSome_iff_ne_none.mpr hv)
    | error text => exact absurd rfl (rejected_of_error hrun).1

/-- **The mode and the activation are those of the applied files**, after every event of a run in
which no file loses what it carried and no other file speaks for what a file leaves. -/
theorem settled_of_run (config : FeaturesConfig) (configId : π → ι) (evs : List (FeaturesEvent π))
    (w : World ι π)
    (hquiet : Run.Every (World.step config configId) (World.Quiet config configId)
      (World.start config) evs)
    (hrun : Run.exec (World.step config configId) (World.start config) evs = some w) :
    w.Settled config :=
  (Run.invariant (fun _ _ _ hI hq hs => world_inv_step hI hq hs) world_inv_start hquiet hrun).settled

/-- AppSec and the mode are switched by one file, and given back when it goes. -/
def givenBackRun : List (FeaturesEvent ℕ) :=
  [.apply 0 (some ⟨some (lit "anon"), some true⟩), .modify 0 (some ⟨some (lit "ident"), some false⟩),
    .unapply 0]

theorem settled_givenBack : ∃ w, Run.exec (World.step ⟨none, lit "ident"⟩ fun path => path)
        (World.start ⟨none, lit "ident"⟩) givenBackRun = some w ∧
      w.Settled ⟨none, lit "ident"⟩ :=
  ⟨_, rfl, settled_of_run ⟨none, lit "ident"⟩ (fun path => path) givenBackRun _ (by decide) rfl⟩

/-- A file loses its mode and goes, and a file of another id comes. -/
def stuckRun : List (FeaturesEvent ℕ) :=
  [.apply 0 (some ⟨some (lit "ident"), none⟩), .modify 0 (some {}), .unapply 0,
    .apply 1 (some ⟨some (lit "anon"), none⟩)]

/-- No file is accepted any more, and the mode is that of a file that is gone. -/
theorem not_settled_stuck : ∃ w, Run.exec (World.step ⟨none, lit "disabled"⟩ fun path => path)
        (World.start ⟨none, lit "disabled"⟩) stuckRun = some w ∧
      w.accepted = [] ∧ w.features.mode ⟨none, lit "disabled"⟩ = .identification ∧
      ¬ w.Settled ⟨none, lit "disabled"⟩ := by
  refine ⟨_, rfl, rfl, by decide, fun h => ?_⟩
  have hfree := h.free fun e he => absurd he not_mem_nil
  revert hfree
  decide

end DdTrace.Appsec
