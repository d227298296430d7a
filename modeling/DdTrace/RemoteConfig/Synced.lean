import DdTrace.Library.Run
import DdTrace.RemoteConfig.Calls

/-!
# The tables stay in step

A `Session` is a client and the exchanges it has had: the configurations applied before each
response, the response, and the calls it led to.  Its steps are the responses that `parseConfig`
takes without throwing, and the acknowledgements that arrive in between.

`Synced` is what holds after every step of a session whose responses have an index and list no
path twice.

* The applied configurations are those of the last response, each with the version, length and
  hashes of the signed target it came from, and with the digest of the last target.
* `cached_target_files` and `config_states` list the same configurations.
* What a receiver is told of a path is an `apply`, then `modify`s, then an `unapply`, and so on
  again; and a `modify` comes only with another digest.  The automaton `follow` reads such
  sequences, and the induction keeps its state equal to whether the path is applied.

The receivers are each batch handler, the handler of a product that no batch handler takes, and
the handlers of a product together (`Receiver`).
-/

namespace DdTrace.RemoteConfig

open Library List Option OrderedMap

variable {F : Type} {h : Handlers} {b : Behaviour F}

/-! ## Sequences of actions -/

/-- Reads a sequence of actions for one path, from whether the path is applied. -/
def follow : Bool → List RcAction → Option Bool
  | applied, [] => some applied
  | false, .apply :: l => follow true l
  | true, .modify :: l => follow true l
  | true, .unapply :: l => follow false l
  | _, _ :: _ => none

/-- The sequence is made of runs `apply modify … modify unapply`, the last one maybe under way. -/
def Follows (l : List RcAction) : Prop := (follow false l).isSome

example : Follows [.apply, .modify, .modify, .unapply, .apply] := rfl

example : ¬ Follows [.apply, .unapply, .modify] := nofun

theorem follow_append (applied : Bool) (l l' : List RcAction) :
    follow applied (l ++ l') = (follow applied l).bind fun applied' => follow applied' l' := by
  induction l generalizing applied with
  | nil => rfl
  | cons action l ih =>
    cases applied with
    | true =>
      cases action with
      | apply => rfl
      | modify => exact ih true
      | unapply => exact ih false
    | false =>
      cases action with
      | apply => exact ih true
      | modify => rfl
      | unapply => rfl

variable {tx : Transaction F} {applied : AppliedConfigs F}

theorem mem_keys_commit (hfits : tx.Fits applied) {path : Str} :
    path ∈ (tx.commit applied).keys ↔ (∃ item ∈ tx.delivered, item.path = path) ∨
      (path ∉ tx.toUnapply.map RcConfigState.path ∧ path ∈ applied.keys) := by
  rw [OrderedMap.mem_keys_iff, OrderedMap.mem_keys_iff]
  simp only [Transaction.get?_commit_eq_some hfits.nodup_delivered]
  constructor
  · rintro ⟨item, ⟨hitem, hpath⟩ | ⟨-, hun, hget⟩⟩
    · exact Or.inl ⟨item, hitem, hpath⟩
    · exact Or.inr ⟨hun, item, hget⟩
  · rintro (⟨item, hitem, hpath⟩ | ⟨hun, item, hget⟩)
    · exact ⟨item, Or.inl ⟨hitem, hpath⟩⟩
    · by_cases hdel : ∃ item ∈ tx.delivered, item.path = path
      · obtain ⟨item', hitem', hpath'⟩ := hdel
        exact ⟨item', Or.inl ⟨hitem', hpath'⟩⟩
      · exact ⟨item, Or.inr ⟨fun i hi hp => hdel ⟨i, hi, hp⟩, hun, hget⟩⟩

/-- **One transaction is one step of the automaton**: the action for a path takes whether it was
applied to whether it is. -/
theorem follow_actionsFor (hfits : tx.Fits applied) (path : Str) :
    follow (applied.has path) (tx.actionsFor path) = some ((tx.commit applied).has path) := by
  have hnodup := hfits.nodup
  rw [map_append, nodup_append] at hnodup
  rw [Transaction.actionsFor]
  rcases changesOf_cases hfits path with ⟨hnil, hno⟩ | ⟨⟨action, item⟩, he, rfl, hone⟩
  · have hsame : path ∈ (tx.commit applied).keys ↔ path ∈ applied.keys := by
      rw [mem_keys_commit hfits]
      constructor
      · rintro (⟨item, hitem, hpath⟩ | ⟨-, hmem⟩)
        · rcases mem_append.mp hitem with hitem | hitem
          · exact absurd hpath (hno (.apply, item) (mem_changes_iff.mpr (Or.inr (Or.inl ⟨rfl, hitem⟩))))
          · exact absurd hpath (hno (.modify, item) (mem_changes_iff.mpr (Or.inr (Or.inr ⟨rfl, hitem⟩))))
        · exact hmem
      · refine fun hmem => Or.inr ⟨fun hun => ?_, hmem⟩
        obtain ⟨item, hitem, hpath⟩ := List.mem_map.mp hun
        exact hno (.unapply, item) (mem_changes_iff.mpr (Or.inl ⟨rfl, hitem⟩)) hpath
    rw [hnil, map_nil, follow, some_inj, Bool.eq_iff_iff, has_eq_true_iff, has_eq_true_iff, hsame]
  · rw [hone]
    rcases mem_changes_iff.mp he with ⟨rfl, hitem⟩ | ⟨rfl, hitem⟩ | ⟨rfl, hitem⟩
    · have hbefore : applied.has item.path = true := has_eq_true_iff.mpr
        (OrderedMap.mem_keys_iff.mpr ⟨item, hfits.unapplied item hitem⟩)
      have hafter : (tx.commit applied).has item.path = false := by
        have hun := List.mem_map_of_mem (f := RcConfigState.path) hitem
        rw [has_eq_false_iff, mem_keys_commit hfits]
        rintro (⟨i, hi, hpath⟩ | ⟨hno, -⟩)
        · exact hnodup.2.2 _ hun _ (List.mem_map_of_mem hi) hpath.symm
        · exact hno hun
      rw [hbefore, hafter]
      rfl
    · have hbefore : applied.has item.path = false := has_eq_false_iff.mpr
        (get?_eq_none_iff.mp (hfits.fresh item hitem))
      have hafter : (tx.commit applied).has item.path = true := has_eq_true_iff.mpr
        ((mem_keys_commit hfits).mpr (Or.inl ⟨item, mem_append_left _ hitem, rfl⟩))
      rw [hbefore, hafter]
      rfl
    · have hbefore : applied.has item.path = true := has_eq_true_iff.mpr
        (OrderedMap.mem_keys_iff.mpr (hfits.modified item hitem))
      have hafter : (tx.commit applied).has item.path = true := has_eq_true_iff.mpr
        ((mem_keys_commit hfits).mpr (Or.inl ⟨item, mem_append_right _ hitem, rfl⟩))
      rw [hbefore, hafter]
      rfl

/-! ## A response that goes through -/

/-- What a response with an index does when nothing throws. -/
structure Accepted (h : Handlers) (b : Behaviour F) (s : RcClient F) (r : Response F)
    (targets : Targets) (p : Plan F) (taken : Taken F) : Prop where
  index : r.targets = .value targets
  planned : Planned s r targets p
  applied : taken.client.appliedConfigs.mapValues pristine =
    (p.transaction.commit s.appliedConfigs).mapValues pristine
  cached : cacheFiles s.appliedConfigs.values = (s.cachedTargetFiles, none) →
    cacheFiles taken.client.appliedConfigs.values = (taken.client.cachedTargetFiles, none)
  calls : taken.calls = callsOf h b p

theorem callsOf_of_isEmpty {p : Plan F} (hempty : p.transaction.isEmpty = true) :
    callsOf h b p = [] := by
  have hchanges := isEmpty_of_changes hempty
  have hbatch : ∀ e : List Str × ℕ, batchCall p.transaction e = none := fun e => by
    rw [batchCall]
    simp only [Transaction.isEmpty, Bool.and_eq_true, List.isEmpty_iff] at hempty ⊢
    simp [Transaction.filterByProducts, hempty.1.1, hempty.1.2, hempty.2]
  rw [callsOf, singleCalls_eq, hchanges, flatMap_nil, append_nil, filterMap_eq_nil_iff]
  exact fun e _ => hbatch e

theorem commit_of_isEmpty (hempty : tx.isEmpty = true) : tx.commit applied = applied := by
  simp only [Transaction.isEmpty, Bool.and_eq_true, List.isEmpty_iff] at hempty
  rw [Transaction.commit, Transaction.delivered, hempty.1.1, hempty.1.2, hempty.2]
  rfl

theorem accepted_of_parseConfig {s : RcClient F} {r : Response F} {targets : Targets}
    (hkeyed : Transaction.Keyed s.appliedConfigs) (htargets : r.targets = .value targets)
    (hok : (parseConfig h b s r).thrown = none) :
    ∃ p, Accepted h b s r targets p (parseConfig h b s r) := by
  rw [parseConfig] at hok ⊢
  cases hplan : plan s r with
  | error e =>
    rw [hplan] at hok
    cases hok
  | ok result =>
    obtain ⟨p, signed⟩ := result
    rw [hplan] at hok
    rcases plan_eq_ok hplan with ⟨hnull, -, -⟩ | ⟨targets', signed', hvalue, hfold, -, rfl⟩
    · rw [htargets] at hnull
      cases hnull
    · rw [htargets] at hvalue
      cases hvalue
      have hplanned := planned_of_foldlM hfold
      dsimp only [map_some, getD_some] at hok ⊢
      rw [writeVersions] at hok ⊢
      cases hcustom : signed'.custom with
      | none =>
        rw [hcustom] at hok
        cases hok
      | some state =>
        rw [hcustom] at hok
        by_cases hempty : p.transaction.isEmpty = true
        · rw [if_pos hempty]
          refine ⟨p, htargets, hplanned, ?_, id, (callsOf_of_isEmpty hempty).symm⟩
          rw [commit_of_isEmpty hempty]
        · rw [if_neg hempty] at hok ⊢
          have hun : ∀ item ∈ p.toUnapply, s.appliedConfigs.get? item.path = some item :=
            fun item hitem => ((mem_toUnapply hkeyed hplanned).mp hitem).1
          obtain ⟨happlied, hcached, hcalls⟩ := perform_eq (s :=
            { s with targetsVersion := signed'.version, backendClientState := state }) hun hok
          exact ⟨p, htargets, hplanned, happlied, fun _ => hcached, hcalls⟩

/-! ## Sessions -/

/-- A response and what it met and led to. -/
structure Exchange (F : Type) where
  before : AppliedConfigs F
  response : Response F
  calls : List (Call F)

/-- A client with its history. -/
structure Session (F : Type) where
  client : RcClient F := {}
  history : List (Exchange F) := []

/-- A response with the behaviour of the handlers during it, or an acknowledgement that comes
later. -/
inductive RcEvent (F : Type) where
  | response (r : Response F) (b : Behaviour F)
  | settle (object : ℕ) (how : Settlement)

namespace Session

/-- One step: a response that `parseConfig` takes without throwing, or an acknowledgement. -/
def step (h : Handlers) (s : Session F) : RcEvent F → Option (Session F)
  | .response r b =>
    let taken := parseConfig h b s.client r
    if taken.thrown = none then
      some ⟨taken.client, s.history ++ [⟨s.client.appliedConfigs, r, taken.calls⟩]⟩
    else none
  | .settle object how => some { s with client := s.client.settle object how }

/-- What a receiver has been told of a path. -/
def toldOf (s : Session F) (path : Str) (rcv : Receiver) : List RcAction :=
  s.history.flatMap fun e => told path e.calls rcv

end Session

/-- The responses of the claim: with an index, no path twice, and batch handlers that report paths
of their own view. -/
def RcEvent.Regular : RcEvent F → Prop
  | .response r b =>
    (∃ targets, r.targets = .value targets) ∧ r.clientConfigs.Nodup ∧ b.OwnPaths
  | .settle _ _ => True

/-- The signed target of a path in a response. -/
def Response.TargetIs (r : Response F) (path : Str) (target : TargetMeta) : Prop :=
  ∃ targets, r.targets = .value targets ∧ targetOf targets path = .ok target

/-- The item was made from the target and the file that the response has for its path. -/
def Exchange.Brings (e : Exchange F) (item : RcConfigState F) : Prop :=
  ∃ target, e.response.TargetIs item.path target ∧
    newConf e.response target item.object item.path = .ok (pristine item) ∧
      target.custom = some item.version ∧ item.length = target.length ∧ item.hashes = target.hashes

/-- The entry has the digest of the path's target in the response. -/
def Exchange.SameDigest (e : Exchange F) (item : RcConfigState F) : Prop :=
  ∃ target hashes hashes', e.response.TargetIs item.path target ∧ item.hashes = some hashes ∧
    target.hashes = some hashes' ∧ sha256 hashes = sha256 hashes'

/-- A `modify` of the path comes with another digest than that of the entry. -/
def Exchange.ModifiesChanged (e : Exchange F) : Prop :=
  ∀ path, .modify ∈ e.calls.flatMap (Call.actionsFor path) →
    ∃ current target hashes hashes', e.before.get? path = some current ∧
      e.response.TargetIs path target ∧ current.hashes = some hashes ∧
        target.hashes = some hashes' ∧ sha256 hashes ≠ sha256 hashes'

/-- The receivers of a path are told one action. -/
def Exchange.OneAction (e : Exchange F) : Prop :=
  ∀ path, ∀ action ∈ e.calls.flatMap (Call.actionsFor path),
    ∀ action' ∈ e.calls.flatMap (Call.actionsFor path), action = action'

/-- A cached file lists its configuration. -/
def RcCachedTargetFile.Lists (file : RcCachedTargetFile) (conf : RcConfigState F) : Prop :=
  file.path = conf.path ∧ file.length = conf.length ∧
    ∃ hashes, conf.hashes = some hashes ∧ file.hashes = hashes.entries

/-- An entry of `config_states` mirrors its configuration. -/
def ConfigState.Mirrors (state : ConfigState) (conf : RcConfigState F) : Prop :=
  state.id = conf.id ∧ state.version = conf.version ∧ state.product = conf.product ∧
    state.applyState = conf.applyState ∧ state.applyError = conf.applyError

/-- **The tables are in step.** -/
structure Synced (h : Handlers) (s : Session F) : Prop where
  paths : ∀ last, s.history.getLast? = some last →
    ∀ path, path ∈ s.client.appliedConfigs.keys ↔ path ∈ last.response.clientConfigs
  targets : ∀ path item, s.client.appliedConfigs.get? path = some item →
    item.path = path ∧ (∃ e ∈ s.history, e.Brings item) ∧
      ∀ last, s.history.getLast? = some last → last.SameDigest item
  cached : List.Forall₂ RcCachedTargetFile.Lists s.client.cachedTargetFiles
    s.client.appliedConfigs.values
  states : List.Forall₂ ConfigState.Mirrors s.client.configStates s.client.appliedConfigs.values
  toldBatch : ∀ index path, Follows (s.toldOf path (.batch index))
  toldProduct : ∀ path, NoBatch h path → Follows (s.toldOf path .product)
  toldAnyone : ∀ path, Follows (s.toldOf path .anyone)
  oneAction : ∀ e ∈ s.history, e.OneAction
  modifies : ∀ e ∈ s.history, e.ModifiesChanged

/-! ## The invariant -/

/-- A receiver has followed a path: it knows whether the path is applied if it hears of it, and
has been told nothing if it does not. -/
def Tracks (h : Handlers) (s : Session F) (path : Str) (rcv : Receiver) : Prop :=
  (rcv.Hears h path → follow false (s.toldOf path rcv) = some (s.client.appliedConfigs.has path)) ∧
  (¬ rcv.Hears h path → s.toldOf path rcv = [])

variable {s : Session F}

theorem Tracks.follows {path : Str} {rcv : Receiver} (ht : Tracks h s path rcv) :
    Follows (s.toldOf path rcv) := by
  by_cases hh : rcv.Hears h path
  · rw [Follows, ht.1 hh]
    rfl
  · rw [ht.2 hh]
    rfl

/-- The invariant of a session. -/
structure SyncInv (h : Handlers) (s : Session F) : Prop where
  keyed : Transaction.Keyed s.client.appliedConfigs
  empty : s.history = [] → s.client.appliedConfigs.keys = []
  paths : ∀ last, s.history.getLast? = some last →
    ∀ path, path ∈ s.client.appliedConfigs.keys ↔ path ∈ last.response.clientConfigs
  targets : ∀ path item, s.client.appliedConfigs.get? path = some item →
    (∃ e ∈ s.history, e.Brings item) ∧ ∀ last, s.history.getLast? = some last → last.SameDigest item
  cached : cacheFiles s.client.appliedConfigs.values = (s.client.cachedTargetFiles, none)
  tracks : ∀ path rcv, (rcv = .product → NoBatch h path) → Tracks h s path rcv
  oneAction : ∀ e ∈ s.history, e.OneAction
  modifies : ∀ e ∈ s.history, e.ModifiesChanged

theorem cacheFiles_lists {l : List (RcConfigState F)} {files : List RcCachedTargetFile}
    (hl : cacheFiles l = (files, none)) : List.Forall₂ RcCachedTargetFile.Lists files l := by
  induction l generalizing files with
  | nil =>
    cases hl
    exact List.Forall₂.nil
  | cons conf l ih =>
    rw [cacheFiles] at hl
    cases hhashes : conf.hashes with
    | none =>
      rw [hhashes] at hl
      cases hl
    | some hashes =>
      rw [hhashes, Prod.mk.injEq] at hl
      rw [← hl.1]
      exact List.Forall₂.cons ⟨rfl, rfl, hashes, hhashes, rfl⟩ (ih (Prod.ext rfl hl.2))

theorem SyncInv.synced (hs : SyncInv h s) : Synced h s where
  paths := hs.paths
  targets := fun path item hget => ⟨(hs.keyed path item hget).1, hs.targets path item hget⟩
  cached := cacheFiles_lists hs.cached
  states := by
    rw [RcClient.configStates, List.forall₂_map_left_iff]
    exact List.forall₂_same.mpr fun conf _ => ⟨rfl, rfl, rfl, rfl, rfl⟩
  toldBatch := fun index path => (hs.tracks path (.batch index) nofun).follows
  toldProduct := fun path hno => (hs.tracks path .product fun _ => hno).follows
  toldAnyone := fun path => (hs.tracks path .anyone nofun).follows
  oneAction := hs.oneAction
  modifies := hs.modifies

theorem syncInv_init (h : Handlers) : SyncInv h ({} : Session F) where
  keyed := Transaction.keyed_empty
  empty := fun _ => rfl
  paths := nofun
  targets := nofun
  cached := rfl
  tracks := fun _ _ _ => ⟨fun _ => rfl, fun _ => rfl⟩
  oneAction := nofun
  modifies := nofun

/-! ### Acknowledgements -/

theorem Exchange.Brings.of_pristine {e : Exchange F} {item item' : RcConfigState F}
    (hp : pristine item' = pristine item) (hb : e.Brings item) : e.Brings item' := by
  show e.Brings (pristine item')
  rw [hp]
  exact hb

theorem Exchange.SameDigest.of_pristine {e : Exchange F} {item item' : RcConfigState F}
    (hp : pristine item' = pristine item) (hb : e.SameDigest item) : e.SameDigest item' := by
  show e.SameDigest (pristine item')
  rw [hp]
  exact hb

theorem keyed_iff_pristine {m : AppliedConfigs F} :
    Transaction.Keyed m ↔ Transaction.Keyed (m.mapValues pristine) := by
  constructor
  · intro hk path item hget
    rw [get?_mapValues, map_eq_some_iff] at hget
    obtain ⟨i, hi, rfl⟩ := hget
    exact hk path i hi
  · intro hk path item hget
    exact hk path (pristine item) (by rw [get?_mapValues, hget]; rfl)

theorem cacheFiles_map {f : RcConfigState F → RcConfigState F}
    (hf : ∀ item, pristine (f item) = pristine item) (l : List (RcConfigState F)) :
    cacheFiles (l.map f) = cacheFiles l := by
  induction l with
  | nil => rfl
  | cons conf l ih =>
    have hpath := path_of_pristine (hf conf)
    have hlength : (f conf).length = conf.length := by
      have hp := congrArg RcConfigState.length (hf conf)
      exact hp
    have hhashes : (f conf).hashes = conf.hashes := by
      have hp := congrArg RcConfigState.hashes (hf conf)
      exact hp
    rw [map_cons, cacheFiles, cacheFiles, hhashes, hpath, hlength, ih]

/-- An acknowledgement changes how one item was received. -/
theorem syncInv_settle (hs : SyncInv h s) (object : ℕ) (how : Settlement) :
    SyncInv h { s with client := s.client.settle object how } := by
  have hf : ∀ item : RcConfigState F, pristine (if item.object = object then settleItem item how
      else item) = pristine item := by
    intro item
    split
    · exact pristine_settleItem item how
    · rfl
  have hkeys : (s.client.settle object how).appliedConfigs.keys = s.client.appliedConfigs.keys :=
    keys_mapValues _ _
  have hget : ∀ path item, (s.client.settle object how).appliedConfigs.get? path = some item →
      ∃ item₀, s.client.appliedConfigs.get? path = some item₀ ∧
        pristine item = pristine item₀ := by
    intro path item hitem
    rw [RcClient.settle, get?_mapValues, map_eq_some_iff] at hitem
    obtain ⟨item₀, hitem₀, rfl⟩ := hitem
    exact ⟨item₀, hitem₀, hf item₀⟩
  refine ⟨fun path item hitem => ?_, fun hnil => ?_, fun last hlast path => ?_,
    fun path item hitem => ?_, ?_, fun path rcv hrcv => ?_, hs.oneAction, hs.modifies⟩
  · obtain ⟨item₀, hitem₀, hp⟩ := hget path item hitem
    have hk := hs.keyed path item₀ hitem₀
    have hpath := path_of_pristine hp
    have hproduct := product_of_pristine hp
    have hid : item.id = item₀.id := by
      have h := congrArg RcConfigState.id hp
      exact h
    rw [hpath, hproduct, hid]
    exact hk
  · rw [hkeys]
    exact hs.empty hnil
  · rw [hkeys]
    exact hs.paths last hlast path
  · obtain ⟨item₀, hitem₀, hp⟩ := hget path item hitem
    obtain ⟨⟨e, he, hb⟩, hlast⟩ := hs.targets path item₀ hitem₀
    exact ⟨⟨e, he, hb.of_pristine hp⟩, fun last hl => (hlast last hl).of_pristine hp⟩
  · show cacheFiles (OrderedMap.values (s.client.appliedConfigs.mapValues _)) = _
    rw [values_mapValues, cacheFiles_map hf]
    exact hs.cached
  · have ht := hs.tracks path rcv hrcv
    refine ⟨fun hh => ?_, ht.2⟩
    rw [has_congr hkeys]
    exact ht.1 hh

/-! ### Responses -/

section Response

variable {s : RcClient F} {r : Response F} {targets : Targets} {p : Plan F} {taken : Taken F}

/-- The entries after an accepted response: a new item, or the entry of before with the digest of
the target. -/
theorem Accepted.entry (ha : Accepted h b s r targets p taken)
    (hkeyed : Transaction.Keyed s.appliedConfigs) (hnodup : r.clientConfigs.Nodup) {path : Str}
    {item : RcConfigState F} (hget : taken.client.appliedConfigs.get? path = some item) :
    path ∈ r.clientConfigs ∧ ∃ item₀, pristine item = pristine item₀ ∧ item₀.path = path ∧
      (Brought r targets item₀ ∨
        (s.appliedConfigs.get? path = some item₀ ∧ Unchanged s.appliedConfigs targets path)) := by
  have hfits := fits_of_planned hkeyed ha.planned hnodup
  have hmap := congrArg (fun m => m.get? path) ha.applied
  simp only [get?_mapValues, hget, map_some] at hmap
  obtain ⟨item₀, hcommit, hp⟩ := map_eq_some_iff.mp hmap.symm
  rcases (Transaction.get?_commit_eq_some hfits.nodup_delivered).mp hcommit with
    ⟨hmem, rfl⟩ | ⟨hno, hun, hold⟩
  · rcases mem_append.mp hmem with hmem | hmem
    · exact ⟨ha.planned.freshPaths.subset (List.mem_map_of_mem hmem), item₀, hp.symm, rfl,
        Or.inl (ha.planned.fresh item₀ hmem).2⟩
    · exact ⟨ha.planned.modifiedPaths.subset (List.mem_map_of_mem hmem), item₀, hp.symm, rfl,
        Or.inl (ha.planned.modified item₀ hmem).1⟩
  · have hpath := (hkeyed path item₀ hold).1
    have hconfigs : path ∈ r.clientConfigs := by
      by_contra hnot
      refine hun (List.mem_map.mpr ⟨item₀, (mem_toUnapply hkeyed ha.planned).mpr ?_, hpath⟩)
      rw [hpath]
      exact ⟨hold, hnot⟩
    refine ⟨hconfigs, item₀, hp.symm, hpath, Or.inr ⟨hold, ?_⟩⟩
    rcases ha.planned.covers path hconfigs with hun | hmem | hmem
    · exact hun
    · obtain ⟨i, hi, rfl⟩ := List.mem_map.mp hmem
      exact absurd rfl (hno i (mem_append_left _ hi))
    · obtain ⟨i, hi, rfl⟩ := List.mem_map.mp hmem
      exact absurd rfl (hno i (mem_append_right _ hi))

theorem Accepted.keys_eq (ha : Accepted h b s r targets p taken) :
    taken.client.appliedConfigs.keys = (p.transaction.commit s.appliedConfigs).keys := by
  rw [← keys_mapValues pristine, ha.applied, keys_mapValues]

/-- The paths after an accepted response are those it lists. -/
theorem Accepted.paths (ha : Accepted h b s r targets p taken)
    (hkeyed : Transaction.Keyed s.appliedConfigs) (hnodup : r.clientConfigs.Nodup) (path : Str) :
    path ∈ taken.client.appliedConfigs.keys ↔ path ∈ r.clientConfigs := by
  constructor
  · intro hmem
    obtain ⟨item, hget⟩ := OrderedMap.mem_keys_iff.mp hmem
    exact (ha.entry hkeyed hnodup hget).1
  · intro hmem
    rw [ha.keys_eq, mem_keys_commit (fits_of_planned hkeyed ha.planned hnodup)]
    rcases ha.planned.covers path hmem with ⟨current, _, _, _, hc, -⟩ | hfresh | hmodified
    · refine Or.inr ⟨fun hun => ?_, OrderedMap.mem_keys_iff.mpr ⟨current, hc.entry⟩⟩
      obtain ⟨item, hitem, rfl⟩ := List.mem_map.mp hun
      exact ((mem_toUnapply hkeyed ha.planned).mp hitem).2 hmem
    · obtain ⟨item, hitem, rfl⟩ := List.mem_map.mp hfresh
      exact Or.inl ⟨item, mem_append_left _ hitem, rfl⟩
    · obtain ⟨item, hitem, rfl⟩ := List.mem_map.mp hmodified
      exact Or.inl ⟨item, mem_append_right _ hitem, rfl⟩

theorem Accepted.unreceived (ha : Accepted h b s r targets p taken) :
    Unreceived p.transaction := by
  intro item hitem
  rcases mem_append.mp hitem with hitem | hitem
  · exact (ha.planned.fresh item hitem).2.unacknowledged.1
  · exact (ha.planned.modified item hitem).1.unacknowledged.1

/-- What the exchange brings to an item that was made in it. -/
theorem brings_of_brought (ha : Accepted h b s r targets p taken) {item item₀ : RcConfigState F}
    (hp : pristine item = pristine item₀) (hb : Brought r targets item₀)
    (before : AppliedConfigs F) (calls : List (Call F)) :
    Exchange.Brings ⟨before, r, calls⟩ item := by
  refine Exchange.Brings.of_pristine hp ?_
  have hsame : pristine item₀ = item₀ := by
    obtain ⟨hstate, herror⟩ := hb.unacknowledged
    rw [pristine, ← hstate, ← herror]
  obtain ⟨target, htarget, hnew⟩ := hb
  obtain ⟨target', htarget', hversion, hlength, hhashes⟩ := Brought.target ⟨target, htarget, hnew⟩
  rw [htarget, Except.ok.injEq] at htarget'
  subst htarget'
  exact ⟨target, ⟨targets, ha.index, htarget⟩, by rwa [hsame], hversion, hlength, hhashes⟩

/-- The digest of every entry after an accepted response is that of its target. -/
theorem sameDigest_of_entry (ha : Accepted h b s r targets p taken) {item item₀ : RcConfigState F}
    (hp : pristine item = pristine item₀) (hhas : ∃ hashes, item.hashes = some hashes)
    (hentry : Brought r targets item₀ ∨ (s.appliedConfigs.get? item.path = some item₀ ∧
      Unchanged s.appliedConfigs targets item.path))
    (before : AppliedConfigs F) (calls : List (Call F)) :
    Exchange.SameDigest ⟨before, r, calls⟩ item := by
  obtain ⟨hashes, hhashes⟩ := hhas
  rcases hentry with hb | ⟨hold, current, target, h₁, h₂, hc, hsha⟩
  · obtain ⟨target, htarget, -, -, -, hitem⟩ := brings_of_brought ha hp hb before calls
    exact ⟨target, hashes, hashes, htarget, hhashes, by rw [← hitem, hhashes], rfl⟩
  · have hcurrent := hc.entry
    rw [hold, some_inj] at hcurrent
    have hsame : item.hashes = current.hashes := by
      have hp' := congrArg RcConfigState.hashes hp
      rw [hcurrent] at hp'
      exact hp'
    exact ⟨target, h₁, h₂, ⟨targets, ha.index, hc.index⟩, hsame.trans hc.hashes, hc.hashes', hsha⟩

end Response

theorem cacheFiles_hashes {l : List (RcConfigState F)} {files : List RcCachedTargetFile}
    (hl : cacheFiles l = (files, none)) {conf : RcConfigState F} (hconf : conf ∈ l) :
    ∃ hashes, conf.hashes = some hashes := by
  have hlists := cacheFiles_lists hl
  clear hl
  induction hlists with
  | nil => cases hconf
  | cons hfile _ ih =>
    rcases mem_cons.mp hconf with rfl | hconf
    · obtain ⟨-, -, hashes, hhashes, -⟩ := hfile
      exact ⟨hashes, hhashes⟩
    · exact ih hconf

/-- **A response keeps the invariant.** -/
theorem syncInv_response (hs : SyncInv h s) {r : Response F}
    (hregular : RcEvent.Regular (.response r b))
    (hok : (parseConfig h b s.client r).thrown = none) :
    SyncInv h ⟨(parseConfig h b s.client r).client, s.history ++
      [⟨s.client.appliedConfigs, r, (parseConfig h b s.client r).calls⟩]⟩ := by
  obtain ⟨⟨targets, htargets⟩, hnodup, hown⟩ := hregular
  obtain ⟨p, ha⟩ := accepted_of_parseConfig hs.keyed htargets hok
  have hfits := fits_of_planned hs.keyed ha.planned hnodup
  have hcached := ha.cached hs.cached
  have hmem : ∀ e ∈ s.history ++
      [(⟨s.client.appliedConfigs, r, (parseConfig h b s.client r).calls⟩ : Exchange F)],
      e ∈ s.history ∨ e = ⟨s.client.appliedConfigs, r, (parseConfig h b s.client r).calls⟩ :=
    fun e he => (mem_append.mp he).imp_right mem_singleton.mp
  have hlast : ∀ last, (s.history ++ [(⟨s.client.appliedConfigs, r,
      (parseConfig h b s.client r).calls⟩ : Exchange F)]).getLast? = some last →
        last = ⟨s.client.appliedConfigs, r, (parseConfig h b s.client r).calls⟩ := by
    intro last hl
    rw [getLast?_concat, some_inj] at hl
    exact hl.symm
  have hkeyed : Transaction.Keyed (parseConfig h b s.client r).client.appliedConfigs := by
    rw [keyed_iff_pristine, ha.applied, ← keyed_iff_pristine]
    exact Transaction.keyed_commit hfits hs.keyed
  refine ⟨hkeyed, fun hnil => absurd hnil (by simp), fun last hl path => ?_,
    fun path item hget => ?_, hcached, fun path rcv hrcv => ?_, fun e he => ?_, fun e he => ?_⟩
  · rw [hlast last hl]
    exact ha.paths hs.keyed hnodup path
  · obtain ⟨-, item₀, hp, -, hentry⟩ := ha.entry hs.keyed hnodup hget
    have hpath : item.path = path := (hkeyed path item hget).1
    subst hpath
    refine ⟨?_, fun last hl => ?_⟩
    · rcases hentry with hb | ⟨hold, -⟩
      · exact ⟨_, mem_append_right _ (mem_singleton_self _), brings_of_brought ha hp hb _ _⟩
      · obtain ⟨⟨e, he, hb⟩, -⟩ := hs.targets _ item₀ hold
        exact ⟨e, mem_append_left _ he, hb.of_pristine hp⟩
    · rw [hlast last hl]
      exact sameDigest_of_entry ha hp
        (cacheFiles_hashes hcached (mem_values_iff.mpr ⟨_, hget⟩)) hentry _ _
  · have ht := hs.tracks path rcv hrcv
    have htold := told_eq hs.keyed hfits ha.unreceived hown rcv hrcv
    rw [← ha.calls] at htold
    have happend : Session.toldOf ⟨(parseConfig h b s.client r).client, s.history ++
        [⟨s.client.appliedConfigs, r, (parseConfig h b s.client r).calls⟩]⟩ path rcv =
          s.toldOf path rcv ++ told path (parseConfig h b s.client r).calls rcv := by
      rw [Session.toldOf, flatMap_append, flatMap_singleton]
      rfl
    rw [Tracks, happend]
    refine ⟨fun hh => ?_, fun hh => ?_⟩
    · rw [htold.1 hh, follow_append, ht.1 hh, bind_some, follow_actionsFor hfits,
        has_congr ha.keys_eq]
    · rw [ht.2 hh, htold.2 hh]
      rfl
  · rcases hmem e he with he | rfl
    · exact hs.oneAction e he
    · intro path action haction action' haction'
      rw [ha.calls] at haction haction'
      have hone := mem_actionsFor_of_told hfits haction
      rw [mem_actionsFor_of_told hfits haction'] at hone
      exact (singleton_injective hone).symm
  · rcases hmem e he with he | rfl
    · exact hs.modifies e he
    · intro path hmodify
      rw [ha.calls] at hmodify
      have hone := mem_actionsFor_of_told hfits hmodify
      obtain ⟨⟨action, item⟩, he, haction⟩ := List.mem_map.mp
        (hone ▸ mem_singleton_self RcAction.modify)
      obtain ⟨hchange, hpath⟩ := mem_filter.mp he
      have hpath := of_decide_eq_true hpath
      subst hpath
      rcases mem_changes_iff.mp hchange with ⟨ha', -⟩ | ⟨ha', -⟩ | ⟨-, hitem⟩
      · cases haction.symm.trans ha'
      · cases haction.symm.trans ha'
      · obtain ⟨-, current, target, h₁, h₂, hc, hsha⟩ := ha.planned.modified item hitem
        exact ⟨current, target, h₁, h₂, hc.entry, ⟨targets, htargets, hc.index⟩, hc.hashes,
          hc.hashes', hsha⟩

theorem syncInv_step {t : Session F} {e : RcEvent F} (hs : SyncInv h s) (hregular : e.Regular)
    (hstep : Session.step h s e = some t) : SyncInv h t := by
  cases e with
  | response r b =>
    rw [Session.step] at hstep
    split at hstep
    · next hok =>
      cases hstep
      exact syncInv_response hs hregular hok
    · cases hstep
  | settle object how =>
    cases hstep
    exact syncInv_settle hs object how

/-- A batch handler that acknowledges all it is shown, and handlers of products that return. -/
def acknowledging : Behaviour F where
  batch := fun _ view => ⟨view.changes.map fun e => ⟨e.2.path, none⟩, none⟩
  single := fun _ _ => ⟨[], .returned⟩

theorem ownPaths_acknowledging : (acknowledging : Behaviour F).OwnPaths := by
  intro index view report hreport
  obtain ⟨e, he, rfl⟩ := List.mem_map.mp hreport
  exact ⟨e, he, rfl⟩

/-- A response whose files have the digests. -/
def responseOf (files : List (Str × Str)) : Response Unit where
  clientConfigs := files.map Prod.fst
  targets := .value ⟨some
    { targets := some (.ofEntries (files.map fun e =>
        (e.1, ⟨some (some 1), some 9, some (.ofEntries [(lit "sha256", e.2)])⟩)))
      version := some 7
      custom := some (some (lit "state")) }⟩
  targetFiles := files.map fun e => ⟨e.1, .value ()⟩

/-- Two files arrive, one for a batch handler; one of them changes while the other goes; a late
acknowledgement comes in. -/
def threeEvents : List (RcEvent Unit) :=
  [.response (responseOf [(lit "datadog/1/P/a/cfg", lit "x"), (lit "employee/Q/b/cfg", lit "y")])
      acknowledging,
    .settle 1 .resolved,
    .response (responseOf [(lit "datadog/1/P/a/cfg", lit "z")]) acknowledging]

end DdTrace.RemoteConfig
