import DdTrace.Library.Run
import DdTrace.RemoteConfig.Calls

/-!
# Responses that throw

When `parseConfig` throws, `poll` reports the error to the agent, and the agent should send the
update again.  It does so when the state that the next poll sends is the state before the
response.

A response that fails before the first write is `Rejected`, and leaves the client as it was.  The
other throws come after writes, and `unchanged_iff` says when they leave no trace: when the
versions of the response are already stored, and what throws is

* the missing `signed.custom`, between the two versions;
* a batch handler;
* the handler of the first change, with `null` or `undefined`, before anything was changed.

Every later throw has changed the applied configurations (`applied_ne`): the first change of the
transaction has been made, and nothing takes it back.

`not_unchanged` is a response that only a throwing batch handler stops.  Its version is stored all
the same.
-/

namespace DdTrace.RemoteConfig

open Library List Option OrderedMap

variable {F : Type} {h : Handlers} {b : Behaviour F} {s : RcClient F} {r : Response F}
  {targets : Targets} {applied : AppliedConfigs F} {p : Plan F}

/-! ## The first half -/

/-- The file of the path can be turned into an item. -/
def Convertible (r : Response F) (target : TargetMeta) (path : Str) : Prop :=
  ∃ file named version content, r.targetFiles.find? (fun file => file.path = path) = some file ∧
    parseConfigPath path = some named ∧ target.custom = some version ∧
      fromBase64JSON file.raw = .ok content

/-- What the code asks of a path: a target, hashes on both sides where the path has an entry, and
a file unless the digest is the same. -/
def Readable (applied : AppliedConfigs F) (r : Response F) (targets : Targets) (path : Str) :
    Prop :=
  ∃ target, targetOf targets path = .ok target ∧ (∀ current, applied.get? path = some current →
      ∃ hashes hashes', current.hashes = some hashes ∧ target.hashes = some hashes') ∧
    (Unchanged applied targets path ∨ Convertible r target path)

/-- The response throws before the first write. -/
def Rejected (s : RcClient F) (r : Response F) : Prop :=
  (∃ message, r.targets = .throws message) ∨
    ∃ targets, r.targets = .value targets ∧ (targets.signed = none ∨
      ∃ path ∈ r.clientConfigs, ¬ Readable s.appliedConfigs r targets path)

theorem exists_newConf_iff {target : TargetMeta} {object : ℕ} {path : Str} :
    (∃ item, newConf r target object path = .ok item) ↔ Convertible r target path := by
  simp only [newConf_eq_ok]
  constructor
  · rintro ⟨_, file, product, id, version, content, hfile, hpath, hversion, hcontent, -⟩
    exact ⟨file, (product, id), version, content, hfile, hpath, hversion, hcontent⟩
  · rintro ⟨file, ⟨product, id⟩, version, content, hfile, hpath, hversion, hcontent⟩
    exact ⟨_, file, product, id, version, content, hfile, hpath, hversion, hcontent, rfl⟩

/-- One path of the loop throws unless it is readable. -/
theorem exists_planPath_iff {path : Str} :
    (∃ p', planPath applied r targets p path = .ok p') ↔ Readable applied r targets path := by
  simp only [planPath_eq_ok]
  constructor
  · rintro ⟨_, ⟨hun, -⟩ | ⟨item, rfl, -, ⟨⟨target, htarget, hnew⟩, current, target', h₁, h₂, hc, -⟩,
      -⟩ | ⟨item, rfl, -, ⟨hnone, target, htarget, hnew⟩, -⟩⟩
    · obtain ⟨current, target, h₁, h₂, hc, hsha⟩ := hun
      refine ⟨target, hc.index, fun current' hcurrent => ?_, Or.inl ⟨_, _, _, _, hc, hsha⟩⟩
      rw [hc.entry, some_inj] at hcurrent
      exact ⟨h₁, h₂, hcurrent ▸ hc.hashes, hc.hashes'⟩
    · have hsame := hc.index
      rw [htarget, Except.ok.injEq] at hsame
      refine ⟨target, htarget, fun current' hcurrent => ?_,
        Or.inr (exists_newConf_iff.mp ⟨item, hnew⟩)⟩
      rw [hc.entry, some_inj] at hcurrent
      exact ⟨h₁, h₂, hcurrent ▸ hc.hashes, hsame ▸ hc.hashes'⟩
    · refine ⟨target, htarget, fun current' hcurrent => ?_,
        Or.inr (exists_newConf_iff.mp ⟨item, hnew⟩)⟩
      rw [hnone] at hcurrent
      cases hcurrent
  · rintro ⟨target, htarget, hhashes, hor⟩
    rcases hor with hun | hconv
    · exact ⟨p, Or.inl ⟨hun, rfl⟩⟩
    · obtain ⟨item, hnew⟩ := exists_newConf_iff.mpr hconv
      obtain ⟨rfl, hobject⟩ := newConf_fields hnew
      have hb : Brought r targets item := ⟨target, htarget, hobject.symm ▸ hnew⟩
      cases hcurrent : applied.get? item.path with
      | none => exact ⟨_, Or.inr (Or.inr ⟨item, rfl, hobject, ⟨hcurrent, hb⟩, rfl⟩)⟩
      | some current =>
        obtain ⟨h₁, h₂, hh₁, hh₂⟩ := hhashes current hcurrent
        have hc : Compared applied targets item.path current target h₁ h₂ :=
          ⟨hcurrent, htarget, hh₁, hh₂⟩
        by_cases hsha : sha256 h₁ = sha256 h₂
        · exact ⟨p, Or.inl ⟨⟨current, target, h₁, h₂, hc, hsha⟩, rfl⟩⟩
        · exact ⟨_, Or.inr (Or.inl ⟨item, rfl, hobject,
            ⟨hb, current, target, h₁, h₂, hc, hsha⟩, rfl⟩)⟩

/-- The loop throws unless all paths are readable. -/
theorem exists_foldlM_planPath_iff {l : List Str} :
    (∃ p', l.foldlM (planPath applied r targets) p = .ok p') ↔
      ∀ path ∈ l, Readable applied r targets path := by
  induction l generalizing p with
  | nil => exact iff_of_true ⟨p, rfl⟩ nofun
  | cons path l ih =>
    simp only [foldlM_cons, bind_eq_ok, forall_mem_cons]
    rw [← exists_planPath_iff (p := p)]
    constructor
    · rintro ⟨p', p₁, hp₁, hp'⟩
      exact ⟨⟨p₁, hp₁⟩, ih.mp ⟨p', hp'⟩⟩
    · rintro ⟨⟨p₁, hp₁⟩, hl⟩
      obtain ⟨p', hp'⟩ := ih.mpr hl
      exact ⟨p', p₁, hp₁, hp'⟩

/-- **The first half throws exactly on the rejected responses.** -/
theorem exists_plan_iff : (∃ result, plan s r = .ok result) ↔ ¬ Rejected s r := by
  rw [plan, Rejected]
  cases htargets : r.targets with
  | null => exact iff_of_true ⟨_, rfl⟩ (by rintro (⟨_, h⟩ | ⟨_, h, -⟩) <;> cases h)
  | throws message =>
    exact iff_of_false (fun ⟨_, h⟩ => by cases h) (not_not.mpr (Or.inl ⟨message, rfl⟩))
  | value targets =>
    have hfold : (∃ p', r.clientConfigs.foldlM (planPath s.appliedConfigs r targets)
        (planUnapply s r) = .ok p') ↔ _ := exists_foldlM_planPath_iff
    simp only [fromBase64JSON, bind_eq_ok]
    constructor
    · rintro ⟨_, _, hok, h⟩
      cases hok
      simp only [bind_eq_ok, orThrow_eq_ok] at h
      obtain ⟨p, hp, signed, hsigned, -⟩ := h
      rintro (⟨_, h⟩ | ⟨targets', h, hor⟩)
      · cases h
      · cases h
        rcases hor with hnone | ⟨path, hpath, hno⟩
        · rw [hsigned] at hnone
          cases hnone
        · exact hno (hfold.mp ⟨p, hp⟩ path hpath)
    · intro hno
      have hall : ∀ path ∈ r.clientConfigs, Readable s.appliedConfigs r targets path := by
        intro path hpath
        by_contra hread
        exact hno (Or.inr ⟨targets, rfl, Or.inr ⟨path, hpath, hread⟩⟩)
      obtain ⟨p, hp⟩ := hfold.mpr hall
      cases hsigned : targets.signed with
      | none => exact absurd (Or.inr ⟨targets, rfl, Or.inl hsigned⟩) hno
      | some signed =>
        refine ⟨(p, some signed), some targets, rfl, ?_⟩
        simp only [bind_eq_ok, orThrow_eq_ok]
        exact ⟨p, hp, signed, hsigned, rfl⟩

/-! ## The second half -/

/-- Every configuration is under its own path. -/
def ByPath (m : AppliedConfigs F) : Prop := ∀ path item, m.get? path = some item → item.path = path

/-- What `applied_ne` needs of a plan. -/
structure PlanFacts (s : RcClient F) (r : Response F) (p : Plan F) : Prop where
  unapply : p.toUnapply = s.appliedConfigs.values.filter fun conf => !includes r.clientConfigs conf.path
  apply : ∀ item ∈ p.toApply, item.path ∈ r.clientConfigs ∧ item.applyState = .unacknowledged ∧
    s.appliedConfigs.get? item.path = none
  modify : ∀ item ∈ p.toModify, item.path ∈ r.clientConfigs ∧
    item.applyState = .unacknowledged ∧ ∃ current hashes hashes',
      s.appliedConfigs.get? item.path = some current ∧ current.hashes = some hashes ∧
        item.hashes = some hashes' ∧ sha256 hashes ≠ sha256 hashes'

theorem planFacts_of_plan {signed : Option SignedTargets} (hplan : plan s r = .ok (p, signed)) :
    PlanFacts s r p := by
  rcases plan_eq_ok hplan with ⟨-, rfl, -⟩ | ⟨targets, signed', -, hfold, -, -⟩
  · exact ⟨rfl, nofun, nofun⟩
  · have hp := planned_of_foldlM hfold
    refine ⟨hp.toUnapply, fun item hitem => ?_, fun item hitem => ?_⟩
    · obtain ⟨hnone, hb⟩ := hp.fresh item hitem
      exact ⟨hp.freshPaths.subset (List.mem_map_of_mem hitem), hb.unacknowledged.1, hnone⟩
    · obtain ⟨hb, current, target, h₁, h₂, hc, hsha⟩ := hp.modified item hitem
      obtain ⟨target', htarget', -, -, hhashes⟩ := hb.target
      rw [hc.index, Except.ok.injEq] at htarget'
      exact ⟨hp.modifiedPaths.subset (List.mem_map_of_mem hitem), hb.unacknowledged.1, current, h₁,
        h₂, hc.entry, hc.hashes, by rw [hhashes, ← htarget', hc.hashes'], hsha⟩

section Dispatch

variable {handled : List Str} {action : RcAction} {st : Stage F} {item : RcConfigState F}

/-- The table after one item of `dispatch`, whatever its handler does. -/
theorem dispatchItem_applied (h : Handlers) (b : Behaviour F) (handled : List Str)
    (action : RcAction) (st : Stage F) (item : RcConfigState F) :
    (dispatchItem h b handled action st item).applied = st.applied ∨
    ∃ item', pristine item' = pristine item ∧
      ((dispatchItem h b handled action st item).applied = st.applied.set item.path item' ∨
        (action = .unapply ∧
          (dispatchItem h b handled action st item).applied = st.applied.delete item.path)) := by
  cases hst : st.thrown with
  | some e =>
    rw [dispatchItem_of_thrown (by rw [hst]; rfl)]
    exact Or.inl rfl
  | none =>
    have hp := pristine_callHandlerFor (h := h) (b := b) action item
    have hcall : ∃ item' calls thrown, pristine item' = pristine item ∧
        (if includes handled item.path then (item, [], none) else callHandlerFor h b action item) =
          (item', calls, thrown) := by
      by_cases hhandled : includes handled item.path = true
      · rw [if_pos hhandled]
        exact ⟨_, _, _, rfl, rfl⟩
      · rw [if_neg hhandled]
        exact ⟨_, _, _, hp, rfl⟩
    obtain ⟨item', calls, thrown, hp', hcall⟩ := hcall
    rw [dispatchItem, hst, hcall]
    cases thrown with
    | some e =>
      by_cases ha : action = .unapply
      · exact Or.inr ⟨item', hp', Or.inl (if_pos ha)⟩
      · exact Or.inl (if_neg ha)
    | none =>
      by_cases ha : action = .unapply
      · exact Or.inr ⟨item', hp', Or.inr ⟨ha, if_pos ha⟩⟩
      · exact Or.inr ⟨item', hp', Or.inl (if_neg ha)⟩

theorem get?_dispatchItem_of_ne {path : Str} (hne : path ≠ item.path) :
    (dispatchItem h b handled action st item).applied.get? path = st.applied.get? path := by
  rcases dispatchItem_applied h b handled action st item with heq | ⟨item', -, heq | ⟨-, heq⟩⟩
  · rw [heq]
  · rw [heq, get?_set_of_ne _ hne]
  · rw [heq, get?_delete_of_ne _ hne]

theorem byPath_dispatchItem (hby : ByPath st.applied) :
    ByPath (dispatchItem h b handled action st item).applied := by
  intro path i hget
  by_cases hne : path = item.path
  · subst hne
    rcases dispatchItem_applied h b handled action st item with heq | ⟨item', hp, heq | ⟨-, heq⟩⟩
    · rw [heq] at hget
      exact hby _ _ hget
    · rw [heq, get?_set_self, some_inj] at hget
      rw [← hget]
      exact path_of_pristine hp
    · rw [heq, get?_delete_self] at hget
      cases hget
  · rw [get?_dispatchItem_of_ne hne] at hget
    exact hby _ _ hget

end Dispatch

/-- The table with the outcomes of the unapplied configurations. -/
def outcomesApplied (h : Handlers) (b : Behaviour F) (s : RcClient F) (p : Plan F) :
    AppliedConfigs F :=
  (p.toUnapply.map (received h b p)).foldl (fun m item => m.set item.path item) s.appliedConfigs

/-- The three calls of `dispatch` as one pass over the changes. -/
theorem dispatched_eq : dispatched h b s p = p.transaction.changes.foldl
      (fun st e => dispatchItem h b (handledPaths h b p) e.1 st (received h b p e.2))
      ⟨outcomesApplied h b s p, (runBatch b p.transaction 0 h.batch).2.1, none⟩ := by
  simp only [outcomesApplied, dispatched, dispatch, Transaction.changes, Plan.transaction, foldl_append,
    foldl_map]

theorem foldl_of_step {α σ : Type} {f : σ → α → σ} {Q : σ → Prop} {l : List α}
    (hstep : ∀ x ∈ l, ∀ st, Q st → Q (f st x)) {st : σ} (hst : Q st) : Q (l.foldl f st) := by
  induction l generalizing st with
  | nil => exact hst
  | cons x l ih =>
    exact ih (forall_mem_cons.mp hstep).2 (hstep x mem_cons_self st hst)

theorem byPath_outcomesApplied (hby : ByPath s.appliedConfigs) :
    ByPath (outcomesApplied h b s p) := by
  refine foldl_of_step (Q := ByPath) (fun item _ m hm path i hget => ?_) hby
  rw [get?_set] at hget
  split at hget
  · next hp =>
    cases hget
    exact hp.symm
  · exact hm path i hget

theorem byPath_dispatched (hby : ByPath s.appliedConfigs) :
    ByPath (dispatched h b s p).applied := by
  rw [dispatched_eq]
  exact foldl_of_step (Q := fun st : Stage F => ByPath st.applied) (fun _ _ _ hst => byPath_dispatchItem hst)
    (byPath_outcomesApplied hby)

/-- When nothing is unapplied no change is an `unapply`. -/
theorem not_unapply_of_mem (hnil : p.toUnapply = []) {c : RcAction × RcConfigState F}
    (hc : c ∈ p.transaction.changes) : c.1 ≠ .unapply := by
  intro ha
  rcases mem_changes_iff.mp hc with ⟨-, hitem⟩ | ⟨ha', -⟩ | ⟨ha', -⟩
  · rw [show p.transaction.toUnapply = [] from hnil] at hitem
    cases hitem
  · cases ha.symm.trans ha'
  · cases ha.symm.trans ha'

variable {item : RcConfigState F} {e : RcAction × RcConfigState F}

theorem hashes_of_pristine {item' : RcConfigState F} (hp : pristine item' = pristine item) :
    item'.hashes = item.hashes := by
  have hhashes := congrArg RcConfigState.hashes hp
  exact hhashes

/-- The first change is an `unapply` when there is one. -/
theorem toUnapply_eq_nil {rest : List (RcAction × RcConfigState F)}
    (hchanges : p.transaction.changes = e :: rest)
    (ha : e.1 ≠ .unapply) : p.toUnapply = [] := by
  cases hun : p.toUnapply with
  | nil => rfl
  | cons f us =>
    rw [Transaction.changes, show p.transaction.toUnapply = f :: us from hun, map_cons,
      cons_append, List.cons.injEq] at hchanges
    exact absurd (congrArg Prod.fst hchanges.1).symm ha

section Facts

variable (hfacts : PlanFacts s r p) (hby : ByPath s.appliedConfigs)

include hfacts hby

theorem get?_of_mem_toUnapply {item : RcConfigState F} (hitem : item ∈ p.toUnapply) :
    s.appliedConfigs.get? item.path = some item ∧ item.path ∉ r.clientConfigs := by
  rw [hfacts.unapply, mem_filter, mem_values_iff, Bool.not_eq_true', includes_eq_false_iff] at hitem
  obtain ⟨⟨path, hget⟩, hno⟩ := hitem
  rw [hby path item hget]
  exact ⟨hget, hby path item hget ▸ hno⟩

theorem nodup_toUnapply : (p.toUnapply.map RcConfigState.path).Nodup := by
  have hkeys : s.appliedConfigs.values.map RcConfigState.path = s.appliedConfigs.keys := by
    rw [OrderedMap.values, List.map_map]
    exact map_congr_left fun e he => hby e.1 e.2 (mem_entries_iff.mp he)
  rw [hfacts.unapply]
  refine (filter_sublist.map _).nodup ?_
  rw [hkeys]
  exact s.appliedConfigs.nodup_keys

variable {e : RcAction × RcConfigState F} {rest : List (RcAction × RcConfigState F)}

/-- Behind an `unapply` its path does not come again. -/
theorem path_ne_of_mem_rest (hchanges : p.transaction.changes = e :: rest)
    (ha : e.1 = .unapply) {c : RcAction × RcConfigState F} (hc : c ∈ rest) :
    e.2.path ≠ c.2.path := by
  have hnodup := nodup_toUnapply hfacts hby
  have hno : e.2 ∈ p.toUnapply → e.2.path ∉ r.clientConfigs := fun hitem =>
    (get?_of_mem_toUnapply hfacts hby hitem).2
  have hhead : e ∈ p.transaction.changes := hchanges ▸ mem_cons_self
  cases hun : p.toUnapply with
  | nil => exact absurd ha (not_unapply_of_mem hun hhead)
  | cons f us =>
    rw [Transaction.changes, show p.transaction.toUnapply = f :: us from hun, map_cons,
      cons_append] at hchanges
    obtain ⟨rfl, rfl⟩ := hchanges
    rw [hun, map_cons, nodup_cons] at hnodup
    rw [hun] at hno
    have hf := hno mem_cons_self
    intro hpath
    rcases mem_append.mp hc with hc | hc
    · obtain ⟨item, hitem, rfl⟩ := List.mem_map.mp hc
      exact hnodup.1 (List.mem_map.mpr ⟨item, hitem, hpath.symm⟩)
    · rcases mem_append.mp hc with hc | hc
      · obtain ⟨item, hitem, rfl⟩ := List.mem_map.mp hc
        exact hf (hpath ▸ (hfacts.apply item hitem).1)
      · obtain ⟨item, hitem, rfl⟩ := List.mem_map.mp hc
        exact hf (hpath ▸ (hfacts.modify item hitem).1)

/-- **A change that was made is not taken back.** -/
theorem applied_ne (hchanges : p.transaction.changes = e :: rest)
    (hfirst : (dispatchItem h b (handledPaths h b p) e.1
      ⟨outcomesApplied h b s p, (runBatch b p.transaction 0 h.batch).2.1, none⟩
      (received h b p e.2)).thrown = none) :
    (dispatched h b s p).applied ≠ s.appliedConfigs := by
  obtain ⟨-, hstage⟩ := dispatchItem_eq hfirst
  have hmem : ∀ c ∈ rest, c ∈ p.transaction.changes := fun c hc => by
    rw [hchanges]
    exact mem_cons_of_mem _ hc
  have hhead : e ∈ p.transaction.changes := by
    rw [hchanges]
    exact mem_cons_self
  have hget := congrArg (fun m => m.get? e.2.path) hstage.applied
  simp only [get?_mapValues, act, path_received, pristine_received] at hget
  intro heq
  rw [dispatched_eq, hchanges, foldl_cons] at heq
  rcases mem_changes_iff.mp hhead with ⟨ha, hitem⟩ | ⟨ha, hitem⟩ | ⟨ha, hitem⟩
  · -- the path of an `unapply` is gone, and stays gone
    have hold := (get?_of_mem_toUnapply hfacts hby hitem).1
    rw [if_pos ha, get?_delete_self, map_eq_none_iff] at hget
    have hlast := foldl_of_step (Q := fun st : Stage F => st.applied.get? e.2.path = none)
      (f := fun st c => dispatchItem h b (handledPaths h b p) c.1 st (received h b p c.2))
      (l := rest) (fun c hc st hst => ?_) hget
    · rw [heq, hold] at hlast
      cases hlast
    · refine (get?_dispatchItem_of_ne ?_).trans hst
      rw [path_received]
      exact path_ne_of_mem_rest hfacts hby hchanges ha hc
  · -- the path of an `apply` is there, and stays there
    have hold := (hfacts.apply e.2 hitem).2.2
    rw [if_neg (by rw [ha]; decide), get?_set_self] at hget
    obtain ⟨i, hi, -⟩ := map_eq_some_iff.mp hget
    have hnil := toUnapply_eq_nil hchanges (by rw [ha]; decide)
    have hlast := foldl_of_step (Q := fun st : Stage F => ∃ i, st.applied.get? e.2.path = some i)
      (f := fun st c => dispatchItem h b (handledPaths h b p) c.1 st (received h b p c.2))
      (l := rest) (fun c hc st hst => ?_) ⟨i, hi⟩
    · obtain ⟨i', hi'⟩ := hlast
      rw [heq, hold] at hi'
      cases hi'
    · rcases dispatchItem_applied h b (handledPaths h b p) c.1 st (received h b p c.2) with
        happlied | ⟨item', -, happlied | ⟨hc', -⟩⟩
      · rw [happlied]
        exact hst
      · rw [happlied, get?_set]
        split
        · exact ⟨_, rfl⟩
        · exact hst
      · exact absurd hc' (not_unapply_of_mem hnil (hmem c hc))
  · -- the path of a `modify` has another digest, and keeps one
    obtain ⟨-, -, current, h₁, h₂, hold, hh₁, hh₂, hsha⟩ := hfacts.modify e.2 hitem
    rw [if_neg (by rw [ha]; decide), get?_set_self] at hget
    obtain ⟨i, hi, hpi⟩ := map_eq_some_iff.mp hget
    have hnil := toUnapply_eq_nil hchanges (by rw [ha]; decide)
    have hlast := foldl_of_step
      (Q := fun st : Stage F => ∃ i hashes, st.applied.get? e.2.path = some i ∧
        i.hashes = some hashes ∧ sha256 h₁ ≠ sha256 hashes)
      (f := fun st c => dispatchItem h b (handledPaths h b p) c.1 st (received h b p c.2))
      (l := rest) (fun c hc st hst => ?_)
      ⟨i, h₂, hi, (hashes_of_pristine hpi).trans hh₂, hsha⟩
    · obtain ⟨i', hashes, hi', hhashes, hne⟩ := hlast
      rw [heq, hold, some_inj] at hi'
      rw [← hi', hh₁, some_inj] at hhashes
      exact hne (congrArg sha256 hhashes)
    · rcases dispatchItem_applied h b (handledPaths h b p) c.1 st (received h b p c.2) with
        happlied | ⟨item', hp', happlied | ⟨hc', -⟩⟩
      · rw [happlied]
        exact hst
      · rw [happlied, get?_set, path_received]
        by_cases hpath : e.2.path = c.2.path
        · rw [if_pos hpath]
          have hpc := (hashes_of_pristine hp').trans (hashes_of_pristine (pristine_received p c.2))
          rcases mem_changes_iff.mp (hmem c hc) with ⟨hc', -⟩ | ⟨-, hitem'⟩ | ⟨-, hitem'⟩
          · exact absurd hc' (not_unapply_of_mem hnil (hmem c hc))
          · have hnone := (hfacts.apply c.2 hitem').2.2
            rw [← hpath, hold] at hnone
            cases hnone
          · obtain ⟨-, -, current', h₃, h₄, hold', hh₃, hh₄, hsha'⟩ := hfacts.modify c.2 hitem'
            rw [← hpath, hold, some_inj] at hold'
            rw [← hold', hh₁, some_inj] at hh₃
            exact ⟨item', h₄, rfl, hpc.trans hh₄, hh₃ ▸ hsha'⟩
        · rw [if_neg hpath]
          exact hst
      · exact absurd hc' (not_unapply_of_mem hnil (hmem c hc))

end Facts

/-! ## Throws that leave no trace -/

/-- A batch handler that the transaction concerns throws. -/
def BatchThrows (h : Handlers) (b : Behaviour F) (tx : Transaction F) : Prop :=
  ∃ e ∈ h.batch.zipIdx 0, (tx.filterByProducts e.1).isEmpty = false ∧
    (b.batch e.2 (tx.filterByProducts e.1)).throws.isSome = true

theorem runBatch_thrown_iff {tx : Transaction F} {index : ℕ} {l : List (List Str)} :
    (runBatch b tx index l).2.2.isSome = true ↔ ∃ e ∈ l.zipIdx index,
      (tx.filterByProducts e.1).isEmpty = false ∧
        (b.batch e.2 (tx.filterByProducts e.1)).throws.isSome = true := by
  induction l generalizing index with
  | nil => exact iff_of_false nofun fun ⟨_, he, _⟩ => (nomatch he)
  | cons products l ih =>
    rw [zipIdx_cons, exists_mem_cons_iff, ← ih, runBatch]
    dsimp only
    cases hempty : (tx.filterByProducts products).isEmpty with
    | true => simp
    | false =>
      cases hthrows : (b.batch index (tx.filterByProducts products)).throws with
      | some value => simp
      | none => simp

/-- An item after its handler has thrown something without a `toString`. -/
def rejectedItem (b : Behaviour F) (supportsAck : Bool) (action : RcAction)
    (item : RcConfigState F) : RcConfigState F :=
  let acked := if supportsAck then (b.single action item).acks.foldl ackItem item else item
  { acked with applyState := .error }

/-- The handler of an item that nobody has received throws `null` or `undefined`. -/
theorem callHandlerFor_throws_iff {action : RcAction}
    (hitem : item.applyState = .unacknowledged ∨ action = .unapply) :
    (callHandlerFor h b action item).2.2.isSome = true ↔ ∃ supportsAck,
      h.single.get? item.product = some supportsAck ∧
        (b.single action item).result = .threw none := by
  rw [callHandlerFor, if_neg fun hno => hitem.elim hno.1 hno.2]
  cases h.single.get? item.product with
  | none => simp
  | some supportsAck =>
    dsimp only
    rcases (b.single action item).result with _ | _ | _ | text <;> simp

theorem callHandlerFor_of_throws {action : RcAction}
    (hitem : item.applyState = .unacknowledged ∨ action = .unapply) {supportsAck : Bool}
    (hsingle : h.single.get? item.product = some supportsAck)
    (hresult : (b.single action item).result = .threw none) :
    (callHandlerFor h b action item).1 = rejectedItem b supportsAck action item := by
  rw [callHandlerFor, if_neg fun hno => hitem.elim hno.1 hno.2, hsingle]
  dsimp only
  rw [hresult]
  rfl

/-- The first change of the transaction stops it, before anything has changed: no batch handler
reported its path, its handler throws `null` or `undefined`, an unapplied entry was in the state
`ERROR` with the same text already, and so were the outcomes reported of the other ones. -/
def FirstThrows (h : Handlers) (b : Behaviour F) (p : Plan F) : Prop :=
  ∃ e rest supportsAck, p.transaction.changes = e :: rest ∧ e.2.path ∉ handledPaths h b p ∧
    h.single.get? e.2.product = some supportsAck ∧ (b.single e.1 e.2).result = .threw none ∧
      (e.1 = .unapply → rejectedItem b supportsAck e.1 e.2 = e.2) ∧
        ∀ item ∈ p.toUnapply, received h b p item = item

theorem foldl_thrown {handled : List Str} {f : RcConfigState F → RcConfigState F}
    {l : List (RcAction × RcConfigState F)} {st : Stage F} (hst : st.thrown.isSome = true) :
    l.foldl (fun st e => dispatchItem h b handled e.1 st (f e.2)) st = st :=
  foldl_of_step (Q := fun st' => st' = st)
    (fun e _ st' hst' => by rw [hst', dispatchItem_of_thrown hst]) rfl

theorem received_of_not_handled (hhandled : item.path ∉ handledPaths h b p) :
    received h b p item = item := by
  rw [received, applyOutcome, get?_eq_none_iff.mpr hhandled, ite_self]

/-- The first item is called as the transaction has it. -/
theorem state_of_first (hfacts : PlanFacts s r p) (he : e ∈ p.transaction.changes) :
    e.2.applyState = .unacknowledged ∨ e.1 = .unapply := by
  rcases mem_changes_iff.mp he with ⟨ha, -⟩ | ⟨-, hitem⟩ | ⟨-, hitem⟩
  · exact Or.inr ha
  · exact Or.inl (hfacts.apply e.2 hitem).2.1
  · exact Or.inl (hfacts.modify e.2 hitem).2.1

section Facts

variable (hfacts : PlanFacts s r p) (hby : ByPath s.appliedConfigs)

include hfacts hby

/-- An entry with its outcome, in the table with the outcomes. -/
theorem get?_outcomesApplied {item : RcConfigState F} (hitem : item ∈ p.toUnapply) :
    (outcomesApplied h b s p).get? item.path = some (received h b p item) := by
  have hfold : outcomesApplied h b s p =
      ((p.toUnapply.map fun item => (item.path, received h b p item)).foldl
        (fun m e => m.set e.1 e.2) s.appliedConfigs) := by
    rw [outcomesApplied, foldl_map, foldl_map]
    simp only [path_received]
  have hlast : OrderedMap.lastValue (p.toUnapply.map fun item => (item.path, received h b p item))
      item.path = some (received h b p item) := by
    rw [lastValue_eq_some_iff, List.mem_map]
    · exact ⟨item, hitem, rfl⟩
    · rw [List.map_map]
      exact nodup_toUnapply hfacts hby
  rw [hfold, get?_foldl_set, hlast]
  rfl

/-- Outcomes that change nothing. -/
theorem outcomesApplied_eq_self (hsame : ∀ item ∈ p.toUnapply, received h b p item = item) :
    outcomesApplied h b s p = s.appliedConfigs := by
  refine foldl_of_step (Q := fun m => m = s.appliedConfigs) (fun item hitem m hm => ?_) rfl
  obtain ⟨item₀, hitem₀, rfl⟩ := List.mem_map.mp hitem
  rw [hm, hsame item₀ hitem₀]
  exact set_eq_self (get?_of_mem_toUnapply hfacts hby hitem₀).1

/-- **The tables after `dispatch`** are those before it exactly when its first item stopped it
without a trace. -/
theorem dispatched_applied_eq_iff (hne : p.transaction.isEmpty = false) :
    (dispatched h b s p).applied = s.appliedConfigs ↔ FirstThrows h b p := by
  cases hchanges : p.transaction.changes with
  | nil =>
    rw [Transaction.changes, append_eq_nil_iff, append_eq_nil_iff] at hchanges
    simp only [map_eq_nil_iff] at hchanges
    rw [Transaction.isEmpty, hchanges.1, hchanges.2.1, hchanges.2.2] at hne
    cases hne
  | cons e rest =>
    have hhead : e ∈ p.transaction.changes := hchanges ▸ mem_cons_self
    have hstate := state_of_first hfacts hhead
    constructor
    · intro heq
      cases hfirst : (dispatchItem h b (handledPaths h b p) e.1
          ⟨outcomesApplied h b s p, (runBatch b p.transaction 0 h.batch).2.1, none⟩
          (received h b p e.2)).thrown with
      | none => exact absurd heq (applied_ne hfacts hby hchanges hfirst)
      | some err =>
        have hhandled : e.2.path ∉ handledPaths h b p := by
          intro hmem
          rw [dispatchItem, path_received, if_pos (includes_eq_true_iff.mpr hmem)] at hfirst
          cases hfirst
        have hsame := received_of_not_handled hhandled
        rw [dispatched_eq, hchanges, foldl_cons, foldl_thrown (by rw [hfirst]; rfl)] at heq
        rw [hsame, dispatchItem, if_neg (by simp), if_neg (by rwa [includes_eq_true_iff])] at hfirst heq
        have hthrows : (callHandlerFor h b e.1 e.2).2.2.isSome = true := by
          rcases hcall : callHandlerFor h b e.1 e.2 with ⟨item', calls, thrown⟩
          rw [hcall] at hfirst
          cases thrown with
          | none => cases hfirst
          | some err' => rfl
        obtain ⟨supportsAck, hsingle, hresult⟩ := (callHandlerFor_throws_iff hstate).mp hthrows
        have hitem' := callHandlerFor_of_throws hstate hsingle hresult
        rcases hcall : callHandlerFor h b e.1 e.2 with ⟨item', calls, thrown⟩
        rw [hcall] at hthrows hitem' heq
        obtain ⟨err', rfl⟩ := isSome_iff_exists.mp hthrows
        dsimp only at hitem' heq
        refine ⟨e, rest, supportsAck, hchanges, hhandled, hsingle, hresult, fun ha => ?_,
          fun item hitem => ?_⟩
        · rw [if_pos ha] at heq
          have hget := congrArg (fun m => m.get? e.2.path) heq
          rcases mem_changes_iff.mp hhead with ⟨-, hmem⟩ | ⟨ha', -⟩ | ⟨ha', -⟩
          · simp only [get?_set_self, (get?_of_mem_toUnapply hfacts hby hmem).1, some_inj] at hget
            rw [← hitem', hget]
          all_goals cases ha.symm.trans ha'
        · by_cases ha : e.1 = .unapply
          · rw [if_pos ha] at heq
            by_cases hpath : item.path = e.2.path
            · exact received_of_not_handled (by rwa [hpath])
            · have hget := congrArg (fun m => m.get? item.path) heq
              simp only [get?_set_of_ne _ hpath, get?_outcomesApplied hfacts hby hitem,
                (get?_of_mem_toUnapply hfacts hby hitem).1, some_inj] at hget
              exact hget
          · rw [toUnapply_eq_nil hchanges ha] at hitem
            cases hitem
    · rintro ⟨e', rest', supportsAck, hchanges', hhandled, hsingle, hresult, hkept, hsame⟩
      rw [hchanges] at hchanges'
      obtain ⟨rfl, rfl⟩ := hchanges'
      have hthrows := (callHandlerFor_throws_iff (h := h) hstate).mpr ⟨_, hsingle, hresult⟩
      have hitem' := callHandlerFor_of_throws hstate hsingle hresult
      rcases hcall : callHandlerFor h b e.1 e.2 with ⟨item', calls, thrown⟩
      rw [hcall] at hthrows hitem'
      obtain ⟨err, rfl⟩ := isSome_iff_exists.mp hthrows
      have hfirst : dispatchItem h b (handledPaths h b p) e.1
          ⟨outcomesApplied h b s p, (runBatch b p.transaction 0 h.batch).2.1, none⟩
          (received h b p e.2) =
          ⟨if e.1 = .unapply then (outcomesApplied h b s p).set e.2.path item'
            else outcomesApplied h b s p,
            (runBatch b p.transaction 0 h.batch).2.1 ++ calls, some err⟩ := by
        rw [received_of_not_handled hhandled, dispatchItem, if_neg (by simp), if_neg (by rwa [includes_eq_true_iff]), hcall]
      rw [dispatched_eq, hchanges, foldl_cons, hfirst, foldl_thrown rfl,
        outcomesApplied_eq_self hfacts hby hsame]
      dsimp only at hitem' ⊢
      split
      · next ha =>
        rw [hitem', hkept ha]
        rcases mem_changes_iff.mp hhead with ⟨-, hmem⟩ | ⟨ha', -⟩ | ⟨ha', -⟩
        · exact set_eq_self (get?_of_mem_toUnapply hfacts hby hmem).1
        all_goals cases ha.symm.trans ha'
      · rfl

end Facts

/-! ## The client after a throw -/

/-- The state that the next poll sends, and the applied configurations, are the same. -/
structure SameState (s t : RcClient F) : Prop where
  targetsVersion : t.targetsVersion = s.targetsVersion
  backendClientState : t.backendClientState = s.backendClientState
  configStates : t.configStates = s.configStates
  cachedTargetFiles : t.cachedTargetFiles = s.cachedTargetFiles
  appliedConfigs : t.appliedConfigs = s.appliedConfigs

/-- The versions that the response writes are stored already. -/
def KeepsVersions (s : RcClient F) (r : Response F) : Prop :=
  ∀ targets signed, r.targets = .value targets → targets.signed = some signed →
    signed.version = s.targetsVersion ∧
      ∀ state, signed.custom = some state → state = s.backendClientState

/-- What throws comes before any other change: the missing `signed.custom`, a batch handler, or
the handler of the first change. -/
def StopsEarly (h : Handlers) (b : Behaviour F) (s : RcClient F) (r : Response F) : Prop :=
  ∃ p signed, plan s r = .ok (p, signed) ∧
    ((∃ signed', signed = some signed' ∧ signed'.custom = none) ∨
      BatchThrows h b p.transaction ∨ FirstThrows h b p)

theorem sameState_refl (s : RcClient F) : SameState s s := ⟨rfl, rfl, rfl, rfl, rfl⟩

/-- The tables after `perform`. -/
theorem sameTables_perform_iff (hfacts : PlanFacts s r p) (hby : ByPath s.appliedConfigs)
    (hne : p.transaction.isEmpty = false) : SameState s (perform h b s p).client ↔
      BatchThrows h b p.transaction ∨ FirstThrows h b p := by
  rw [perform_def]
  cases hbatch : (runBatch b p.transaction 0 h.batch).2.2 with
  | some e =>
    exact iff_of_true (sameState_refl s) (Or.inl (runBatch_thrown_iff.mp (by rw [hbatch]; rfl)))
  | none =>
    have hno : ¬ BatchThrows h b p.transaction := fun hb => by
      have hsome := runBatch_thrown_iff.mpr hb
      rw [hbatch] at hsome
      cases hsome
    rw [or_iff_right hno, ← dispatched_applied_eq_iff hfacts hby hne]
    dsimp only
    cases hst : (dispatched h b s p).thrown with
    | some e =>
      refine ⟨fun hs => hs.appliedConfigs, fun heq => ⟨rfl, rfl, ?_, rfl, heq⟩⟩
      rw [heq]
      rfl
    | none =>
      have hchanged : (dispatched h b s p).applied ≠ s.appliedConfigs := by
        intro heq
        obtain ⟨e, rest, supportsAck, hchanges, hhandled, hsingle, hresult, -, -⟩ :=
          (dispatched_applied_eq_iff hfacts hby hne).mp heq
        have hhead : e ∈ p.transaction.changes := hchanges ▸ mem_cons_self
        have hcall := (callHandlerFor_throws_iff (h := h) (state_of_first hfacts hhead)).mpr
          ⟨_, hsingle, hresult⟩
        have hfirst : (dispatchItem h b (handledPaths h b p) e.1
            ⟨outcomesApplied h b s p, (runBatch b p.transaction 0 h.batch).2.1, none⟩
            (received h b p e.2)).thrown.isSome = true := by
          rw [received_of_not_handled hhandled, dispatchItem, if_neg (by simp), if_neg (by rwa [includes_eq_true_iff])]
          rcases hc : callHandlerFor h b e.1 e.2 with ⟨item', calls, thrown⟩
          rw [hc] at hcall
          cases thrown with
          | none => cases hcall
          | some err => rfl
        rw [dispatched_eq, hchanges, foldl_cons, foldl_thrown hfirst] at hst
        rw [hst] at hfirst
        cases hfirst
      exact iff_of_false (fun hs => hchanged hs.appliedConfigs) hchanged

theorem versions_perform : (perform h b s p).client.targetsVersion = s.targetsVersion ∧
    (perform h b s p).client.backendClientState = s.backendClientState := by
  rw [perform_def]
  cases (runBatch b p.transaction 0 h.batch).2.2 with
  | some e => exact ⟨rfl, rfl⟩
  | none =>
    dsimp only
    cases (dispatched h b s p).thrown with
    | some e | none => exact ⟨rfl, rfl⟩

/-- **A response that throws leaves the client as it was** exactly when it is rejected, or writes
the versions that are stored and is stopped early. -/
theorem sameState_iff (hby : ByPath s.appliedConfigs)
    (hthrows : (parseConfig h b s r).thrown.isSome = true) :
    SameState s (parseConfig h b s r).client ↔
      Rejected s r ∨ (KeepsVersions s r ∧ StopsEarly h b s r) := by
  rw [parseConfig] at hthrows ⊢
  cases hplan : plan s r with
  | error e =>
    refine iff_of_true (sameState_refl s) (Or.inl ?_)
    by_contra hno
    obtain ⟨result, hresult⟩ := exists_plan_iff.mpr hno
    rw [hplan] at hresult
    cases hresult
  | ok result =>
    obtain ⟨p, signed⟩ := result
    have hnot : ¬ Rejected s r := exists_plan_iff.mp ⟨_, hplan⟩
    have hfacts := planFacts_of_plan hplan
    rw [hplan] at hthrows
    rw [or_iff_right hnot]
    dsimp only at hthrows ⊢
    cases signed with
    | none =>
      have hkeeps : KeepsVersions s r := by
        intro targets signed htargets hsigned
        rcases plan_eq_ok hplan with ⟨hnull, -, -⟩ | ⟨_, _, _, _, _, hno⟩
        · rw [htargets] at hnull
          cases hnull
        · cases hno
      rw [map_none, getD_none] at hthrows ⊢
      cases hempty : p.transaction.isEmpty with
      | true =>
        rw [hempty] at hthrows
        cases hthrows
      | false =>
        rw [if_neg (by simp), sameTables_perform_iff hfacts hby hempty]
        constructor
        · exact fun hor => ⟨hkeeps, p, none, hplan, Or.inr hor⟩
        · rintro ⟨-, p', signed, hplan', ⟨signed', rfl, -⟩ | hor⟩
          · rw [hplan] at hplan'
            cases hplan'
          · rw [hplan] at hplan'
            cases hplan'
            exact hor
    | some signed =>
      obtain ⟨targets, htargets, hsigned⟩ : ∃ targets, r.targets = .value targets ∧
          targets.signed = some signed := by
        rcases plan_eq_ok hplan with ⟨-, -, hno⟩ | ⟨targets, signed', hvalue, -, hsigned, heq⟩
        · cases hno
        · cases heq
          cases htargets : r.targets with
          | value targets' =>
            rw [htargets] at hvalue
            cases hvalue
            exact ⟨targets, rfl, hsigned⟩
          | null | throws message => rw [htargets] at hvalue; cases hvalue
      have hkeeps : KeepsVersions s r ↔ signed.version = s.targetsVersion ∧
          ∀ state, signed.custom = some state → state = s.backendClientState := by
        constructor
        · exact fun hk => hk targets signed htargets hsigned
        · intro hk targets' signed' htargets' hsigned'
          rw [htargets] at htargets'
          cases htargets'
          rw [hsigned] at hsigned'
          cases hsigned'
          exact hk
      have hstops : StopsEarly h b s r ↔ signed.custom = none ∨
          BatchThrows h b p.transaction ∨ FirstThrows h b p := by
        constructor
        · rintro ⟨p', signed', hplan', hor⟩
          rw [hplan] at hplan'
          cases hplan'
          refine hor.imp_left ?_
          rintro ⟨signed', hs, hcustom⟩
          cases hs
          exact hcustom
        · exact fun hor => ⟨p, some signed, hplan, hor.imp_left fun hc => ⟨signed, rfl, hc⟩⟩
      rw [hkeeps, hstops]
      rw [map_some, writeVersions] at hthrows ⊢
      cases hcustom : signed.custom with
      | none =>
        constructor
        · exact fun hs => ⟨⟨hs.targetsVersion, nofun⟩, Or.inl rfl⟩
        · exact fun hk => ⟨hk.1.1, rfl, rfl, rfl, rfl⟩
      | some state =>
        rw [hcustom] at hthrows
        cases hempty : p.transaction.isEmpty with
        | true =>
          rw [hempty] at hthrows
          cases hthrows
        | false =>
          let written := { s with targetsVersion := signed.version, backendClientState := state }
          have htables : SameState written (perform h b written p).client ↔ _ :=
            sameTables_perform_iff (r := r) ⟨hfacts.unapply, hfacts.apply, hfacts.modify⟩ hby hempty
          obtain ⟨hversion, hstate⟩ := versions_perform (h := h) (b := b) (p := p) (s := written)
          constructor
          · intro hs
            refine ⟨⟨hversion.symm.trans hs.targetsVersion, fun state' hstate' => ?_⟩, Or.inr
              (htables.mp ⟨hversion, hstate, hs.configStates, hs.cachedTargetFiles,
                hs.appliedConfigs⟩)⟩
            cases hstate'
            exact hstate.symm.trans hs.backendClientState
          · rintro ⟨⟨hv, hst⟩, hno | hor⟩
            · cases hno
            · have hs := htables.mpr hor
              exact ⟨hversion.trans hv, hstate.trans (hst state rfl), hs.configStates,
                hs.cachedTargetFiles, hs.appliedConfigs⟩

/-! ## Reachable states -/

/-- A poll, with the handlers registered at the time and how they behave, or an acknowledgement
that comes later. -/
inductive ClientEvent (F : Type) where
  | poll (h : Handlers) (b : Behaviour F) (result : PollResult F)
  | settle (object : ℕ) (how : Settlement)

/-- One event. -/
def RcClient.step (s : RcClient F) : ClientEvent F → Option (RcClient F)
  | .poll h b result => some (poll h b s result)
  | .settle object how => some (s.settle object how)

theorem byPath_parseConfig (hby : ByPath s.appliedConfigs) :
    ByPath (parseConfig h b s r).client.appliedConfigs := by
  have hperform : ∀ (s : RcClient F) (p : Plan F), ByPath s.appliedConfigs →
      ByPath (perform h b s p).client.appliedConfigs := by
    intro s p hby
    rw [perform_def]
    cases (runBatch b p.transaction 0 h.batch).2.2 with
    | some e => exact hby
    | none =>
      have hdispatched := byPath_dispatched (h := h) (b := b) (p := p) hby
      dsimp only
      cases (dispatched h b s p).thrown with
      | some e | none => exact hdispatched
  rw [parseConfig]
  cases plan s r with
  | error e => exact hby
  | ok result =>
    obtain ⟨p, signed⟩ := result
    cases signed with
    | none =>
      dsimp only [map_none, getD_none]
      split
      · exact hby
      · exact hperform s p hby
    | some signed =>
      dsimp only [map_some, getD_some]
      rw [writeVersions]
      cases signed.custom with
      | none => exact hby
      | some state =>
        dsimp only
        split
        · exact hby
        · exact hperform _ p hby

theorem byPath_clearError (hby : ByPath s.appliedConfigs) :
    ByPath s.clearError.appliedConfigs := by
  unfold RcClient.clearError
  split <;> exact hby

theorem byPath_step {t : RcClient F} {e : ClientEvent F} (hby : ByPath s.appliedConfigs)
    (hstep : s.step e = some t) : ByPath t.appliedConfigs := by
  cases e with
  | poll h b result =>
    cases hstep
    cases result with
    | failed => exact hby
    | upToDate | malformed message => exact byPath_clearError hby
    | response r =>
      have hparse := byPath_parseConfig (h := h) (b := b) (r := r) (byPath_clearError hby)
      rw [poll]
      cases (parseConfig h b s.clearError r).thrown with
      | some e | none => exact hparse
  | settle object how =>
    cases hstep
    intro path item hget
    rw [RcClient.settle, get?_mapValues, map_eq_some_iff] at hget
    obtain ⟨item₀, hitem₀, rfl⟩ := hget
    have hpath := hby path item₀ hitem₀
    split
    · rw [path_of_pristine (pristine_settleItem item₀ how), hpath]
    · exact hpath

/-- **When a throw is forgotten**: in every reachable state, for every response that throws. -/
theorem unchanged_iff {events : List (ClientEvent F)}
    (hreach : Run.exec RcClient.step ({} : RcClient F) events = some s)
    (hthrows : (parseConfig h b s r).thrown.isSome = true) :
    SameState s (parseConfig h b s r).client ↔
      Rejected s r ∨ (KeepsVersions s r ∧ StopsEarly h b s r) :=
  sameState_iff (Run.invariant (I := fun s : RcClient F => ByPath s.appliedConfigs)
    (C := fun _ _ => True) (fun _ _ _ hby _ hstep => byPath_step hby hstep) (fun _ _ hget => by cases hget)
    (Run.every_of_forall_mem (fun _ _ _ => trivial) _) hreach) hthrows

/-! ## A batch handler that throws -/

/-- A response with one file of the product `P` and the version 7. -/
def versionSeven : Response Unit where
  clientConfigs := [lit "datadog/1/P/a/cfg"]
  targets := .value ⟨some
    { targets := some (.ofEntries [(lit "datadog/1/P/a/cfg",
        ⟨some (some 1), some 9, some (.ofEntries [(lit "sha256", lit "x")])⟩)])
      version := some 7
      custom := some (some (lit "state")) }⟩
  targetFiles := [⟨lit "datadog/1/P/a/cfg", .value ()⟩]

/-- Handlers that throw at every call. -/
def failing : Behaviour Unit where
  batch := fun _ _ => ⟨[], some (some (lit "Error: no"))⟩
  single := fun _ _ => ⟨[], .threw (some (lit "Error: no"))⟩

/-- The second time the version is stored already, and the throw leaves no trace. -/
theorem unchanged_iff_again :
    ∃ s, Run.exec RcClient.step {} [.poll ⟨[[lit "P"]], .empty⟩ failing (.response versionSeven)] =
      some s ∧ (SameState s (parseConfig ⟨[[lit "P"]], .empty⟩ failing s versionSeven).client ↔
        Rejected s versionSeven ∨ (KeepsVersions s versionSeven ∧
          StopsEarly ⟨[[lit "P"]], .empty⟩ failing s versionSeven)) := by
  have hreach : Run.exec RcClient.step {}
      [.poll ⟨[[lit "P"]], .empty⟩ failing (.response versionSeven)] =
        some (poll ⟨[[lit "P"]], .empty⟩ failing {} (.response versionSeven)) := rfl
  exact ⟨_, hreach, unchanged_iff hreach (by decide +kernel)⟩

/-- **The version of an update whose batch handler threw is stored**: the next poll acknowledges
it. -/
theorem not_unchanged : ¬ ∀ (events : List (ClientEvent Unit)) (s : RcClient Unit) (h : Handlers)
      (b : Behaviour Unit) (r : Response Unit), Run.exec RcClient.step {} events = some s →
        (parseConfig h b s r).thrown.isSome = true → SameState s (parseConfig h b s r).client := by
  intro hall
  have hsame := hall [] {} ⟨[[lit "P"]], .empty⟩ failing versionSeven rfl (by decide +kernel)
  have hversion : (parseConfig ⟨[[lit "P"]], .empty⟩ failing {} versionSeven).client.targetsVersion =
      some 7 := by decide +kernel
  rw [hsame.targetsVersion] at hversion
  cases hversion

end DdTrace.RemoteConfig
