import DdTrace.Appsec.RuleManager
import DdTrace.Library.Run

/-!
# The tracked blocking actions

What the rule manager should know after every transaction: the blocking actions of the `ASM` files
that are applied, the default parameters that follow from them, and the default ruleset in the WAF
exactly when no ruleset of remote config is.

`Tracked` is the rule manager beside the files themselves: the latest version of each file whose
application was acknowledged and whose removal was not.  `Reflects` compares the two.

## What goes wrong

`deliver` calls `newActions.set` for a file that declares actions and nothing for a file that
declares none.  So when an applied `ASM` file is modified into a version without actions, the
actions of the old version stay, and so do the default parameters they gave (`not_tracks`).
Three more ways lead to a wrong state: the map is keyed by the id alone, which two `ASM` paths can
share; the fallback looks for the text `ASM_DD` anywhere in a path, which another file can have; and
the WAF may refuse the default ruleset when it is given back.

* `Pass.Inv`: what holds inside a transaction, between two items; `inv_unapply` and `inv_deliver`
  are its step lemmas.
* `tracks_of_run`: on a run whose transactions do none of this, the state is right after every
  transaction.
-/

namespace DdTrace.Appsec

open Library RemoteConfig OrderedMap List

variable {P : Type*}

/-- The applied files, by path. -/
abbrev Files (P : Type*) := AppliedConfigs (AsmConfigFile P)

/-- The files after a report. -/
def Report.after (files : Files P) : Report P → Files P
  | .removed item => files.delete item.path
  | .updated item => files.set item.path item
  | .error _ => files

/-- An applied `ASM` file with the id declares the actions, and there are any. -/
def Declares (files : Files P) (id : Str) (actions : List (Action P)) : Prop :=
  ∃ path item, files.get? path = some item ∧ item.product = lit "ASM" ∧ item.id = id ∧
    actionsOf item = actions ∧ actions ≠ []

/-- The map has, under its id, the actions of every applied `ASM` file, and no others. -/
def Tracks (m : OrderedMap Str (List (Action P))) (files : Files P) : Prop :=
  ∀ id actions, m.get? id = some actions ↔ Declares files id actions

/-- No two applied `ASM` files share the id of the item, if it is one of them. -/
def OwnId (files : Files P) (item : Item P) : Prop :=
  item.product = lit "ASM" → ∀ f ∈ files.values, f.product = lit "ASM" → f.id = item.id →
    f.path = item.path

instance (files : Files P) (item : Item P) : Decidable (OwnId files item) :=
  inferInstanceAs (Decidable (_ → _))

/-- The path names the product and the id. -/
def Named (item : Item P) : Prop := parseConfigPath item.path = some (item.product, item.id)

instance (item : Item P) : Decidable (Named item) := inferInstanceAs (Decidable (_ = _))

/-! ## Texts in paths -/

theorem hasText_iff {s t : Str} : hasText s t = true ↔ t <:+: s := by
  rw [hasText, any_eq_true]
  constructor
  · rintro ⟨u, hu, ht⟩
    exact ( isPrefixOf_iff_prefix.mp ht).isInfix.trans ((mem_tails u s).mp hu).isInfix
  · rintro ⟨a, b, rfl⟩
    refine ⟨t ++ b, (mem_tails _ _).mpr ⟨a, by rw [append_assoc]⟩, ?_⟩
    exact isPrefixOf_iff_prefix.mpr (prefix_append t b)

/-- The product of a path is a part of it. -/
theorem hasText_of_parseConfigPath {path product id : Str}
    (h : parseConfigPath path = some (product, id)) : hasText path product = true := by
  have hmem : product ∈ Str.split (unit '/') path := by
    unfold parseConfigPath at h
    split at h
    · next source org product' id' name hsplit =>
      rw [hsplit]
      split at h
      · cases h
        simp
      · cases h
    · next source product' id' name hsplit =>
      rw [hsplit]
      split at h
      · cases h
        simp
      · cases h
    · cases h
  exact hasText_iff.mpr (Str.isInfix_of_mem_split hmem)

/-! ## The declared actions after a report -/

section Declares

variable {files files' : Files P} {item : Item P} {id : Str} {actions : List (Action P)}

/-- The file under the path of an item has the product and the id of the item. -/
theorem Named.eq_of_get? (hnamed : Named item) (hkeyed : Transaction.Keyed files) {f : Item P}
    (hf : files.get? item.path = some f) : f.product = item.product ∧ f.id = item.id := by
  have hparse := (hkeyed item.path f hf).2
  rw [hnamed, Option.some_inj, Prod.mk.injEq] at hparse
  exact ⟨hparse.1.symm, hparse.2.symm⟩

/-- What happens under the path of an item leaves the actions of the other ids as they are. -/
theorem declares_of_ne (hkeyed : Transaction.Keyed files) (hnamed : Named item)
    (hframe : ∀ path, path ≠ item.path → files'.get? path = files.get? path)
    (hhere : ∀ f, files'.get? item.path = some f → f = item)
    (hother : item.product = lit "ASM" → id ≠ item.id) :
    Declares files' id actions ↔ Declares files id actions := by
  constructor
  · rintro ⟨path, f, hf, hasm, hid, hrest⟩
    have hne : path ≠ item.path := by
      rintro rfl
      cases hhere f hf
      exact hother hasm hid.symm
    rw [hframe path hne] at hf
    exact ⟨path, f, hf, hasm, hid, hrest⟩
  · rintro ⟨path, f, hf, hasm, hid, hrest⟩
    have hne : path ≠ item.path := by
      rintro rfl
      obtain ⟨hproduct, hid'⟩ := hnamed.eq_of_get? hkeyed hf
      exact hother (hproduct ▸ hasm) (hid.symm.trans hid')
    rw [← hframe path hne] at hf
    exact ⟨path, f, hf, hasm, hid, hrest⟩

/-- Under the id of an `ASM` item that has it alone, only the item declares actions. -/
theorem declares_self (hkeyed : Transaction.Keyed files) (hown : OwnId files item)
    (hasm : item.product = lit "ASM")
    (hframe : ∀ path, path ≠ item.path → files'.get? path = files.get? path)
    (hhere : ∀ f, files'.get? item.path = some f → f = item) :
    Declares files' item.id actions ↔
      files'.get? item.path = some item ∧ actionsOf item = actions ∧ actions ≠ [] := by
  constructor
  · rintro ⟨path, f, hf, hfasm, hid, hactions, hne⟩
    by_cases hpath : path = item.path
    · subst hpath
      cases hhere f hf
      exact ⟨hf, hactions, hne⟩
    · rw [hframe path hpath] at hf
      have hfpath := hown hasm f (mem_values_iff.mpr ⟨path, hf⟩) hfasm hid
      exact absurd ((hkeyed path f hf).1.symm.trans hfpath) hpath
  · rintro ⟨hf, hactions, hne⟩
    exact ⟨item.path, item, hf, hasm, rfl, hactions, hne⟩

variable {m : OrderedMap Str (List (Action P))}

/-- The removal of a file. -/
theorem Tracks.removed (h : Tracks m files) (hkeyed : Transaction.Keyed files)
    (hnamed : Named item) (hown : OwnId files item) :
    Tracks (if item.product = lit "ASM" then m.delete item.id else m)
      (files.delete item.path) := by
  have hframe : ∀ path, path ≠ item.path →
      (files.delete item.path).get? path = files.get? path := fun path hne =>
    files.get?_delete_of_ne hne
  have hgone : (files.delete item.path).get? item.path = none := by
    rw [get?_delete, if_pos rfl]
  have hhere : ∀ f, (files.delete item.path).get? item.path = some f → f = item := by
    intro f hf
    rw [hgone] at hf
    cases hf
  intro id actions
  by_cases hasm : item.product = lit "ASM"
  · rw [if_pos hasm, get?_delete]
    by_cases hid : id = item.id
    · subst hid
      rw [declares_self hkeyed hown hasm hframe hhere]
      simp
    · rw [if_neg hid, h id actions, declares_of_ne hkeyed hnamed hframe hhere fun _ => hid]
  · rw [if_neg hasm, h id actions, declares_of_ne hkeyed hnamed hframe hhere fun h => absurd h hasm]

/-- The application of a file that declares actions, or whose id has none. -/
theorem Tracks.updated (h : Tracks m files) (hkeyed : Transaction.Keyed files)
    (hnamed : Named item) (hown : OwnId files item)
    (hsilent : item.product = lit "ASM" → actionsOf item = [] → m.get? item.id = none) :
    Tracks (if item.product = lit "ASM" then
      if actionsOf item ≠ [] then m.set item.id (actionsOf item) else m else m)
      (files.set item.path item) := by
  have hframe : ∀ path, path ≠ item.path →
      (files.set item.path item).get? path = files.get? path := fun path hne =>
    files.get?_set_of_ne hne item
  have hnew : (files.set item.path item).get? item.path = some item := by
    rw [get?_set, if_pos rfl]
  have hhere : ∀ f, (files.set item.path item).get? item.path = some f → f = item := by
    intro f hf
    rw [hnew] at hf
    exact (Option.some.inj hf).symm
  intro id actions
  by_cases hasm : item.product = lit "ASM"
  · rw [if_pos hasm]
    by_cases hid : id = item.id
    · subst hid
      rw [declares_self hkeyed hown hasm hframe hhere, hnew]
      by_cases hactions : actionsOf item = []
      · rw [if_neg (not_not.mpr hactions), hsilent hasm hactions, hactions]
        constructor
        · intro hnone
          cases hnone
        · rintro ⟨-, rfl, hne⟩
          exact absurd rfl hne
      · rw [if_pos hactions, get?_set, if_pos rfl, Option.some_inj]
        constructor
        · rintro rfl
          exact ⟨rfl, rfl, hactions⟩
        · rintro ⟨-, rfl, -⟩
          rfl
    · rw [declares_of_ne hkeyed hnamed hframe hhere fun _ => hid, ← h id actions]
      split
      · rw [get?_set_of_ne m hid]
      · rfl
  · rw [if_neg hasm, h id actions, declares_of_ne hkeyed hnamed hframe hhere fun h => absurd h hasm]

theorem keyed_delete (hkeyed : Transaction.Keyed files) (path : Str) :
    Transaction.Keyed (files.delete path) := by
  intro path' f hf
  rw [get?_delete] at hf
  split at hf
  · cases hf
  · exact hkeyed path' f hf

theorem keyed_set (hkeyed : Transaction.Keyed files) (hnamed : Named item) :
    Transaction.Keyed (files.set item.path item) := by
  intro path f hf
  rw [get?_set] at hf
  split at hf
  · next hpath =>
    cases hf
    exact ⟨hpath.symm, hpath ▸ hnamed⟩
  · exact hkeyed path f hf

end Declares

/-! ## The loaded rulesets -/

namespace Ddwaf

/-- What holds of the loaded configurations at any time: the default ruleset is under its own path,
the text `ASM_DD` tells the rulesets from the rest, and no ruleset of remote config is there beside
the default one. -/
structure Sound (waf : Ddwaf) : Prop where
  path : ∀ path, waf.get? path = some .default → path = defaultWafConfigPath
  text : ∀ path product, waf.get? path = some (.remote product) →
    (hasText path (lit "ASM_DD") = true ↔ product = lit "ASM_DD")
  alone : ∀ path path', waf.get? path = some .default →
    waf.get? path' ≠ some (.remote (lit "ASM_DD"))

variable {waf waf' : Ddwaf} {path product : Str}

theorem Sound.of_le (h : waf.Sound) (hle : ∀ path r, waf'.get? path = some r →
    waf.get? path = some r) : waf'.Sound where
  path p hp := h.path p (hle p _ hp)
  text p product hp := h.text p product (hle p _ hp)
  alone p p' hp hp' := h.alone p p' (hle p _ hp) (hle p' _ hp')

theorem get?_of_delete {r : Ruleset} {path' : Str}
    (h : (waf.delete path).get? path' = some r) : waf.get? path' = some r := by
  rw [get?_delete] at h
  split at h
  · cases h
  · exact h

theorem Sound.delete (h : waf.Sound) (path : Str) : Sound (OrderedMap.delete waf path) :=
  h.of_le fun _ _ => get?_of_delete

/-- A file of remote config is loaded: a ruleset where the default one is not, anything else under a
path of its own. -/
theorem Sound.set_remote (h : waf.Sound)
    (htext : hasText path (lit "ASM_DD") = true ↔ product = lit "ASM_DD")
    (hdefault : product = lit "ASM_DD" → ∀ path', waf.get? path' ≠ some .default) :
    Sound (OrderedMap.set waf path (.remote product)) := by
  refine ⟨fun p hp => ?_, fun p q hp => ?_, fun p p' hp hp' => ?_⟩
  · rw [get?_set] at hp
    split at hp
    · cases hp
    · exact h.path p hp
  · rw [get?_set] at hp
    split at hp
    · next hpath =>
      cases hp
      rw [hpath]
      exact htext
    · exact h.text p q hp
  · rw [get?_set] at hp hp'
    split at hp
    · cases hp
    · split at hp'
      · cases hp'
        exact hdefault rfl p hp
      · exact h.alone p p' hp hp'

theorem Sound.createOrUpdateConfig (h : waf.Sound) (answer : UpdateAnswer)
    (htext : hasText path (lit "ASM_DD") = true ↔ product = lit "ASM_DD")
    (hdefault : product = lit "ASM_DD" → ∀ path', waf.get? path' ≠ some .default) :
    Sound (waf.createOrUpdateConfig path (.remote product) answer).1 := by
  cases answer with
  | loaded => exact h.set_remote htext hdefault
  | failed unloads =>
    cases unloads with
    | true => exact h.delete path
    | false => exact h

theorem Sound.updateConfig (h : waf.Sound) (native : Native)
    (htext : hasText path (lit "ASM_DD") = true ↔ product = lit "ASM_DD") :
    Sound (waf.updateConfig native product path).1 := by
  unfold Ddwaf.updateConfig Ddwaf.removeConfig
  by_cases hproduct : product = lit "ASM_DD"
  · rw [if_pos hproduct]
    by_cases hdrop : native.dropsDefault path = true
    · rw [if_pos hdrop]
      refine (h.delete defaultWafConfigPath).createOrUpdateConfig _ htext fun _ path' hp => ?_
      have hpath := h.path path' (get?_of_delete hp)
      rw [hpath, get?_delete] at hp
      cases hp
    · rw [if_neg hdrop]
      exact h
  · rw [if_neg hproduct]
    exact h.createOrUpdateConfig _ htext fun h => absurd h hproduct

/-- An update that goes through is one that the WAF accepts. -/
theorem loaded_of_updateConfig {native : Native}
    (h : (waf.updateConfig native product path).2 = true) : native.updates path = .loaded := by
  have haccepts : ∀ (waf : Ddwaf) ruleset answer,
      (waf.createOrUpdateConfig path ruleset answer).2 = true → answer = .loaded := by
    intro waf ruleset answer h
    rcases answer with _ | _ | _
    · rfl
    · cases h
    · cases h
  unfold Ddwaf.updateConfig at h
  split at h
  · split at h
    · cases h
    · exact haccepts _ _ _ h
  · exact haccepts _ _ _ h

/-- The default ruleset is loaded exactly when no ruleset of remote config is. -/
def HasOneSource (waf : Ddwaf) : Prop :=
  (∃ path, waf.get? path = some .default) ↔ ¬ ∃ path, waf.get? path = some (.remote (lit "ASM_DD"))

/-- **The fallback.**  After it there is one source of rules, when the default ruleset can be loaded
again. -/
theorem Sound.checkAsmDdFallback (h : waf.Sound) {native : Native}
    (hloads : native.fallback = .loaded) :
    Sound (waf.checkAsmDdFallback native) ∧ HasOneSource (waf.checkAsmDdFallback native) := by
  unfold Ddwaf.checkAsmDdFallback
  split
  · next hany =>
    refine ⟨h, ?_⟩
    obtain ⟨path, hpath, htext⟩ := any_eq_true.mp hany
    obtain ⟨r, hr⟩ := OrderedMap.mem_keys_iff.mp hpath
    constructor
    · rintro ⟨p, hp⟩ ⟨p', hp'⟩
      exact h.alone p p' hp hp'
    · intro hno
      cases r with
      | default => exact ⟨path, hr⟩
      | remote product =>
        rw [(h.text path product hr).mp htext] at hr
        exact absurd ⟨path, hr⟩ hno
  · next hnone =>
    have hno : ∀ path r, waf.get? path = some r → hasText path (lit "ASM_DD") ≠ true := by
      intro path r hr htext
      exact hnone (any_eq_true.mpr ⟨path, OrderedMap.mem_keys_iff.mpr ⟨r, hr⟩, htext⟩)
    have hremote : ∀ path, waf.get? path ≠ some (.remote (lit "ASM_DD")) := fun path hp =>
      hno path _ hp ((h.text path _ hp).mpr rfl)
    rw [hloads]
    have hnew : ∀ path, (OrderedMap.set waf defaultWafConfigPath .default).get? path ≠
        some (.remote (lit "ASM_DD")) := by
      intro path hp
      rw [get?_set] at hp
      split at hp
      · cases hp
      · exact hremote path hp
    refine ⟨⟨fun p hp => ?_, fun p q hp => ?_, fun _ p' _ => hnew p'⟩, ?_⟩
    · by_cases hpath : p = defaultWafConfigPath
      · exact hpath
      · exact h.path p ((get?_set_of_ne _ hpath _).symm.trans hp)
    · have hpath : p ≠ defaultWafConfigPath := by
        rintro rfl
        rw [Ddwaf.createOrUpdateConfig, get?_set] at hp
        cases hp
      exact h.text p q ((get?_set_of_ne _ hpath _).symm.trans hp)
    · refine iff_of_true ⟨defaultWafConfigPath, ?_⟩ ?_
      · rw [Ddwaf.createOrUpdateConfig, get?_set, if_pos rfl]
      · rintro ⟨p, hp⟩
        exact hnew p hp

end Ddwaf

/-! ## Inside a transaction -/

namespace Pass

/-- The files after the reports so far. -/
def files (p : Pass P) (before : Files P) : Files P := p.reports.foldl Report.after before

/-- Between two items: every file is under its own path, the actions are those of the files, and
the WAF is sound. -/
structure Inv (before : Files P) (p : Pass P) : Prop where
  keyed : Transaction.Keyed (p.files before)
  tracks : Tracks p.newActions.map (p.files before)
  sound : p.waf.Sound

/-- What an item must be for its removal to keep the actions right: its id is its own, if the
removal goes through. -/
def CleanRemoval (native : Native) (before : Files P) (p : Pass P) (item : Item P) : Prop :=
  Named item ∧ (native.removes item.path = true → OwnId (p.files before) item)

/-- What an item must be for its update to keep the state right.  If the update goes through, its id
is its own and a file without actions comes under an id that has none; and only a ruleset has
`ASM_DD` in its path. -/
def CleanUpdate (native : Native) (before : Files P) (p : Pass P) (item : Item P) : Prop :=
  Named item ∧ (hasText item.path (lit "ASM_DD") = true → item.product = lit "ASM_DD") ∧
    (native.updates item.path = .loaded → OwnId (p.files before) item ∧
      (item.product = lit "ASM" → actionsOf item = [] → p.newActions.map.has item.id = false))

instance (native : Native) (before : Files P) (p : Pass P) (item : Item P) :
    Decidable (CleanRemoval native before p item) :=
  inferInstanceAs (Decidable (_ ∧ (_ → _)))

instance (native : Native) (before : Files P) (p : Pass P) (item : Item P) :
    Decidable (CleanUpdate native before p item) :=
  inferInstanceAs (Decidable (_ ∧ (_ → _) ∧ (_ → _ ∧ (_ → _ → _))))

variable {native : Native} {before : Files P} {p : Pass P} {item : Item P}

theorem files_report (p : Pass P) (report : Report P) (waf : Ddwaf) (newActions : SpyMap P) :
    files ⟨waf, newActions, p.reports ++ [report]⟩ before = report.after (p.files before) := by
  rw [files, foldl_append]
  rfl

/-- **The removal of one item.** -/
theorem inv_unapply (hinv : Inv before p) (hclean : CleanRemoval native before p item) :
    Inv before (p.unapply native item) := by
  obtain ⟨hnamed, hown⟩ := hclean
  unfold unapply Ddwaf.removeConfig
  split
  · by_cases hremoves : native.removes item.path = true
    · rw [if_pos hremoves]
      refine ⟨?_, ?_, hinv.sound.delete item.path⟩
      · rw [files_report]
        exact keyed_delete hinv.keyed item.path
      · rw [files_report]
        rw [apply_ite SpyMap.map]
        exact hinv.tracks.removed hinv.keyed hnamed (hown hremoves)
    · rw [if_neg hremoves]
      refine ⟨?_, ?_, hinv.sound⟩
      · rw [files_report]
        exact hinv.keyed
      · rw [files_report]
        exact hinv.tracks
  · exact hinv

/-- **The update of one item.** -/
theorem inv_deliver (hinv : Inv before p) (hclean : CleanUpdate native before p item) :
    Inv before (p.deliver native item) := by
  obtain ⟨hnamed, htext, haccepted⟩ := hclean
  have hsound : Ddwaf.Sound (p.waf.updateConfig native item.product item.path).1 := by
    refine hinv.sound.updateConfig native ⟨htext, fun hproduct => ?_⟩
    rw [← hproduct]
    exact hasText_of_parseConfigPath hnamed
  unfold deliver
  split
  · cases hupdate : p.waf.updateConfig native item.product item.path with
    | mk waf accepted =>
      rw [hupdate] at hsound
      cases accepted with
      | false =>
        refine ⟨?_, ?_, hsound⟩
        · rw [files_report]
          exact hinv.keyed
        · rw [files_report]
          exact hinv.tracks
      | true =>
        obtain ⟨hown, hsilent⟩ := haccepted (Ddwaf.loaded_of_updateConfig (by rw [hupdate]))
        refine ⟨?_, ?_, hsound⟩
        · rw [files_report]
          exact keyed_set hinv.keyed hnamed
        · rw [files_report]
          rw [apply_ite SpyMap.map, apply_ite SpyMap.map]
          refine hinv.tracks.updated hinv.keyed hnamed hown fun hasm hactions => ?_
          rw [get?_eq_none_iff]
          exact has_eq_false_iff.mp (hsilent hasm hactions)
  · exact hinv

/-- Until the flag is raised, the map is the one the transaction started with. -/
def Kept (applied : OrderedMap Str (List (Action P))) (p : Pass P) : Prop :=
  p.newActions.modified = false → p.newActions.map = applied

variable {applied : OrderedMap Str (List (Action P))}

theorem kept_unapply (h : Kept applied p) : Kept applied (p.unapply native item) := by
  unfold unapply
  split
  · split
    · exact h
    · intro hmodified
      split at hmodified
      · next hasm =>
        rw [if_pos hasm]
        obtain ⟨hmodified, hhas⟩ := Bool.or_eq_false_iff.mp hmodified
        exact (delete_eq_self hhas).trans (h hmodified)
      · next hasm =>
        rw [if_neg hasm]
        exact h hmodified
  · exact h

theorem kept_deliver (h : Kept applied p) : Kept applied (p.deliver native item) := by
  unfold deliver
  split
  · split
    · exact h
    · intro hmodified
      split at hmodified
      · next hasm =>
        rw [if_pos hasm]
        split at hmodified
        · cases hmodified
        · next hactions =>
          rw [if_neg hactions]
          exact h hmodified
      · next hasm =>
        rw [if_neg hasm]
        exact h hmodified
  · exact h

end Pass

/-! ## Runs of transactions -/

/-- A transaction with the answers of the WAF library. -/
structure Batch (P : Type*) where
  native : Native
  tx : RemoteConfig.Transaction (AsmConfigFile P)

/-- The rule manager beside the applied files. -/
structure Tracked (P : Type*) where
  files : Files P
  manager : RuleManager P

namespace Tracked

/-- After `loadRules`. -/
def init (defaultActions : List (Action P)) : Tracked P := ⟨.empty, .loadRules defaultActions⟩

/-- One transaction. -/
def step (s : Tracked P) (b : Batch P) : Option (Tracked P) :=
  some ⟨(s.manager.pass b.native b.tx).files s.files, s.manager.updateWafFromRC b.native b.tx⟩

/-- The tracked actions are those of the applied files, the default parameters are those of the
first `block` action among them, and the default ruleset is loaded exactly when no other is. -/
structure Reflects (s : Tracked P) : Prop where
  actions : Tracks s.manager.appliedActions s.files
  parameters : s.manager.defaultParameters =
    defaultBlockingActionParameters (concatArrays s.manager.appliedActions)
  ruleset : s.manager.waf.HasOneSource

/-- Every item of the transaction is clean when its turn comes, and the default ruleset can be
loaded again. -/
def Clean (s : Tracked P) (b : Batch P) : Prop :=
  Run.Every (fun p item => some (Pass.unapply b.native p item))
      (Pass.CleanRemoval b.native s.files) s.manager.start b.tx.toUnapply ∧
    Run.Every (fun p item => some (Pass.deliver b.native p item))
      (Pass.CleanUpdate b.native s.files)
      (b.tx.toUnapply.foldl (Pass.unapply b.native) s.manager.start) b.tx.delivered ∧
    b.native.fallback = .loaded

instance (s : Tracked P) (b : Batch P) : Decidable (Clean s b) :=
  inferInstanceAs (Decidable (_ ∧ _ ∧ _))

/-- The invariant of a run. -/
structure Inv (s : Tracked P) : Prop where
  keyed : Transaction.Keyed s.files
  sound : s.manager.waf.Sound
  reflects : s.Reflects

variable {s t : Tracked P} {b : Batch P}

theorem inv_init {defaultActions : List (Action P)}
    (h : ∀ action ∈ defaultActions, action.id ≠ lit "block") : Inv (init defaultActions) := by
  have hget : ∀ path r, (init defaultActions).manager.waf.get? path = some r →
      path = defaultWafConfigPath ∧ r = .default := by
    intro path r hr
    rw [init, RuleManager.loadRules, get?_set] at hr
    split at hr
    · next hpath => exact ⟨hpath, (Option.some.inj hr).symm⟩
    · cases hr
  refine ⟨Transaction.keyed_empty, ⟨fun p hp => (hget p _ hp).1, fun p q hp => ?_,
    fun p p' _ hp' => ?_⟩, ⟨fun id actions => ?_, ?_, ?_⟩⟩
  · cases (hget p _ hp).2
  · cases (hget p' _ hp').2
  · refine iff_of_false (fun hid => by cases hid) ?_
    rintro ⟨path, item, hitem, -⟩
    cases hitem
  · show defaultBlockingActionParameters defaultActions = none
    rw [defaultBlockingActionParameters, find?_eq_none.mpr fun a ha => by simpa using h a ha]
    rfl
  · refine iff_of_true ⟨defaultWafConfigPath, ?_⟩ ?_
    · rw [init, RuleManager.loadRules, get?_set, if_pos rfl]
    · rintro ⟨p, hp⟩
      cases (hget p _ hp).2

/-- The state of the actions at the end of the loops. -/
theorem appliedActions_finish (s : RuleManager P) (native : Native) {p : Pass P}
    (h : p.Kept s.appliedActions) : (s.finish native p).appliedActions = p.newActions.map := by
  rw [RuleManager.finish]
  split
  · rfl
  · next hmodified => exact (h (by simpa using hmodified)).symm

theorem kept_pass (s : RuleManager P) (native : Native)
    (tx : RemoteConfig.Transaction (AsmConfigFile P)) :
    Pass.Kept s.appliedActions (s.pass native tx) := by
  refine List.foldlRecOn _ _ ?_ fun p hp item _ => Pass.kept_deliver hp
  exact List.foldlRecOn _ _ (fun _ => rfl) fun p hp item _ => Pass.kept_unapply hp

/-- **One transaction keeps the state right.** -/
theorem inv_step (hinv : Inv s) (hclean : Clean s b) (h : step s b = some t) : Inv t := by
  obtain ⟨hremovals, hupdates, hfallback⟩ := hclean
  cases h
  have hstart : Pass.Inv s.files s.manager.start :=
    ⟨hinv.keyed, hinv.reflects.actions, hinv.sound⟩
  have hmiddle := Run.invariant (I := Pass.Inv s.files)
    (fun p item q hp hc hq => Option.some.inj hq ▸ Pass.inv_unapply hp hc) hstart hremovals
    (Run.exec_total _ _ _)
  have hend : Pass.Inv s.files (s.manager.pass b.native b.tx) :=
    Run.invariant (I := Pass.Inv s.files)
      (fun p item q hp hc hq => Option.some.inj hq ▸ Pass.inv_deliver hp hc) hmiddle hupdates
      (Run.exec_total _ _ _)
  have hkept := kept_pass s.manager b.native b.tx
  obtain ⟨hsound, hsource⟩ := hend.sound.checkAsmDdFallback hfallback
  refine ⟨hend.keyed, hsound, ⟨?_, ?_, hsource⟩⟩
  · show Tracks (s.manager.finish b.native _).appliedActions _
    rw [appliedActions_finish _ _ hkept]
    exact hend.tracks
  · show (s.manager.finish b.native _).defaultParameters =
      defaultBlockingActionParameters (concatArrays (s.manager.finish b.native _).appliedActions)
    rw [RuleManager.finish]
    by_cases hmodified : (s.manager.pass b.native b.tx).newActions.modified = true
    · rw [if_pos hmodified, if_pos hmodified]
    · rw [if_neg hmodified, if_neg hmodified]
      exact hinv.reflects.parameters

/-- **The tracked actions of a run.**  From a default ruleset without a `block` action, and with
clean transactions only, the tracked actions, the default parameters and the loaded rulesets are
right after every transaction. -/
theorem tracks_of_run {defaultActions : List (Action P)} {batches : List (Batch P)}
    (hdefault : ∀ action ∈ defaultActions, action.id ≠ lit "block")
    (hclean : Run.Every step Clean (init defaultActions) batches)
    (hrun : Run.exec step (init defaultActions) batches = some t) : t.Reflects :=
  (Run.invariant (fun _ _ _ hinv hc hstep => inv_step hinv hc hstep) (inv_init hdefault) hclean
    hrun).reflects

/-! ## A file that drops its actions -/

/-- An `ASM` file at a path of its own, in a version. -/
def asmItem (object : ℕ) (actions : List (Action ℕ)) : Item ℕ where
  object := object
  path := lit "datadog/2/ASM/blocking/config"
  product := lit "ASM"
  id := lit "blocking"
  version := some object
  applyState := .unacknowledged
  applyError := []
  length := none
  hashes := none
  file := some ⟨some actions⟩

/-- A WAF that accepts everything. -/
def accepting : Native := ⟨fun _ => true, fun _ => true, fun _ => .loaded, .loaded⟩

/-- The file comes with a `block` action. -/
def withAction : Batch ℕ := ⟨accepting, ⟨[], [asmItem 1 [⟨lit "block", some 403⟩]], []⟩⟩

/-- The file is modified and declares no action any more. -/
def withoutAction : Batch ℕ := ⟨accepting, ⟨[], [], [asmItem 2 []]⟩⟩

/-- The `block` action of a version that is not applied any more stays. -/
theorem not_tracks : ∃ t, Run.exec step (init ([] : List (Action ℕ))) [withAction, withoutAction] =
    some t ∧ t.manager.defaultParameters = some 403 ∧ ¬ t.Reflects := by
  refine ⟨_, rfl, by decide +kernel, fun h => ?_⟩
  have htracked := (h.actions (lit "blocking") [⟨lit "block", some 403⟩]).mp (by decide +kernel)
  obtain ⟨path, f, hf, -, -, hactions, -⟩ := htracked
  have hempty : ∀ f ∈ (OrderedMap.values (Tracked.files ((Run.exec step
      (init ([] : List (Action ℕ))) [withAction, withoutAction]).getD ⟨.empty, .loadRules []⟩))),
      actionsOf f = [] := by
    decide +kernel
  rw [hempty f (mem_values_iff.mpr ⟨path, hf⟩)] at hactions
  cases hactions

/-- The action is replaced, and then the file is removed. -/
def replacing : List (Batch ℕ) :=
  [withAction, ⟨accepting, ⟨[], [], [asmItem 2 [⟨lit "block", some 500⟩]]⟩⟩,
    ⟨accepting, ⟨[asmItem 2 [⟨lit "block", some 500⟩]], [], []⟩⟩]

theorem tracks_of_replacing : ∃ t, Run.exec step (init []) replacing = some t ∧ t.Reflects := by
  have hrun : ∀ t, Run.exec step (init []) replacing = some t → t.Reflects := fun _ hrun =>
    tracks_of_run (by simp) (by decide +kernel) hrun
  exact ⟨_, rfl, hrun _ rfl⟩

end Tracked

end DdTrace.Appsec
