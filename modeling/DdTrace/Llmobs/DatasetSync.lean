import DdTrace.Library.Run
import DdTrace.Llmobs.DatasetCell

/-!
# Pending changes and the copy of the backend

A dataset is right when its pending changes, applied to the copy of the backend, give the local
records.  `State.Inv` says that every id has its `Cell`; it is kept by the edits, by the start of a
push and by both ends of a request.

## What goes wrong

`delete` forgets a new record without a backend operation.  But a record can be new and its id taken:
when a record of the backend was deleted and one with its id was added.  Deleting that one leaves
the record of the backend there for good (`not_synced`).  And a record that is deleted and added
again while its insert is under way is compared with what was inserted by
`updateFromInsertedRecord`, which leaves out the tags.

* `inv_edit`, `inv_addRecord`, `inv_delete`, `inv_send`, `inv_complete`: the steps.
* `pushed_of_run`: **on a run that does neither, the dataset is right whenever no request is under
  way**, and after a push without edits the backend has the local records.
-/

namespace DdTrace.Llmobs

open Library

/-! ## Runs -/

namespace State

/-- The batch under way, if there is one. -/
def batch (s : State) : PendingBatch := s.inFlight.getD {}

/-- What holds in every state of a run. -/
structure Inv (s : State) : Prop where
  cell : ∀ id, Cell id (s.batch.sent id) (s.remote id) (s.dataset.entry id)
  shape : ∀ id, (s.batch.sent id).Shape (s.remote id)

/-- The steps that no change is lost by: a new record that is deleted is not one that the backend has
under its id, and a record that is added while an insert of its id is under way has the tags of that
one. -/
def Quiet (s : State) : DatasetEvent → Prop
  | .addRecord id _ _ _ tags => ∀ p ∈ s.batch.insertPayloads.get? id, p.content.tags = tags.toFinset
  | .delete index => ∀ r ∈ s.dataset.records.values[index]?, r.id ∈ s.dataset.newRecordsById →
      s.remote r.id = none
  | _ => True

instance (s : State) : ∀ ev, Decidable (s.Quiet ev)
  | .addRecord id _ _ _ tags =>
    inferInstanceAs (Decidable (∀ p ∈ s.batch.insertPayloads.get? id, p.content.tags = tags.toFinset))
  | .delete index =>
    inferInstanceAs (Decidable (∀ r ∈ s.dataset.records.values[index]?,
      r.id ∈ s.dataset.newRecordsById → s.remote r.id = none))
  | .addTags _ _ | .removeTags _ _ | .replaceTags _ _ | .update _ _ | .push _ | .complete _ =>
    inferInstanceAs (Decidable True)

/-- The pending changes, applied to the copy of the backend, give the local records, whenever no
request is under way. -/
def Synced (s : State) : Prop :=
  s.inFlight = none → s.dataset.pendingBatch.apply s.remote = s.dataset.contents

end State

variable {d d' : Dataset} {id : Str} {f : Sent} {c : Option Content} {e : Entry} {r : DatasetRecord}
  {s t : State}

theorem State.Inv.idle (hs : s.Inv) (hidle : s.inFlight = none) (id : Str) :
    Cell id {} (s.remote id) (s.dataset.entry id) := by
  have hcell := hs.cell id
  unfold State.batch at hcell
  rwa [hidle, Option.getD_none] at hcell

theorem State.Inv.synced (hs : s.Inv) : s.Synced := by
  intro hidle
  funext id
  rw [apply_eq_sent, sent_pendingBatch]
  exact (hs.idle hidle id).synced

theorem Cell.valid (h : Cell id f c e) (hr : e.record = some r) : Valid id r := by
  cases h with
  | absent hc => cases hr
  | deleted hc hf => cases hr
  | new r' o hvalid ho | kept r' u o c' mid hvalid =>
    cases hr
    exact hvalid

/-- The records of the dataset are under their ids. -/
theorem State.Inv.record (hs : s.Inv) (hr : r ∈ s.dataset.records.values) :
    (s.dataset.entry r.id).record = some r := by
  obtain ⟨k, hk⟩ := OrderedMap.mem_values_iff.mp hr
  have hid : r.id = k := ((hs.cell k).valid hk).id
  rw [hid]
  exact hk

/-- An edit that keeps the cell of its id. -/
theorem State.Inv.edit (hs : s.Inv) {x : Except DatasetError Dataset}
    (h : ∀ d, x = .ok d → ∃ id e, Edited s.dataset d id e ∧
      Cell id (s.batch.sent id) (s.remote id) e) : (s.edit x).Inv := by
  cases x with
  | error e => exact hs
  | ok d =>
    obtain ⟨id, e, hedited, hcell⟩ := h d rfl
    refine ⟨fun j => ?_, hs.shape⟩
    show Cell j (s.batch.sent j) (s.remote j) (d.entry j)
    rw [hedited j]
    by_cases hj : j = id
    · rw [if_pos hj, hj]
      exact hcell
    · rw [if_neg hj]
      exact hs.cell j

/-- **An edit.** -/
theorem inv_edit (hs : s.Inv) : (∀ index tags, (s.edit (s.dataset.addTags index tags)).Inv) ∧
      (∀ index tags, (s.edit (s.dataset.removeTags index tags)).Inv) ∧
      (∀ index tags, (s.edit (s.dataset.replaceTags index tags)).Inv) ∧
      ∀ index fields, (s.edit (s.dataset.update index fields)).Inv := by
  refine ⟨fun index tags => hs.edit fun d h => ?_, fun index tags => hs.edit fun d h => ?_,
    fun index tags => hs.edit fun d h => ?_, fun index fields => hs.edit fun d h => ?_⟩
  · obtain ⟨r, hr, l, hl, hedited⟩ := edited_addTags h
    have hnext : (sortTags l.1).toFinset = r.tags.toFinset ∪ l.2.toFinset := by
      rw [toFinset_sortTags, hl.next]
    refine ⟨_, _, hedited, cell_queue (hs.cell r.id) (hs.record hr) (fun hnothing => ?_)
      fun o base ho => ?_⟩
    · rw [hnext, hnothing.2, List.toFinset_nil, Finset.union_empty]
    · rw [hnext]
      exact ho.add hl.nodup hl.out
  · obtain ⟨r, hr, l, hl, hedited⟩ := edited_removeTags h
    have hnext : (sortTags l.1).toFinset = r.tags.toFinset \ l.2.toFinset := by
      rw [toFinset_sortTags, hl.next]
    refine ⟨_, _, hedited, cell_queue (hs.cell r.id) (hs.record hr) (fun hnothing => ?_)
      fun o base ho => ?_⟩
    · rw [hnext, hnothing.2, List.toFinset_nil, Finset.sdiff_empty]
    · rw [hnext]
      exact ho.remove hl.nodup hl.into
  · obtain ⟨r, hr, hedited⟩ := edited_replaceTags h
    exact ⟨_, _, hedited, cell_queue (hs.cell r.id) (hs.record hr)
      (fun hnothing => absurd rfl hnothing.1) fun o base ho => rfl⟩
  · obtain ⟨r, hr, hedited⟩ := edited_update h
    exact ⟨_, _, hedited, cell_setFields (hs.cell r.id) (hs.record hr) fields⟩

theorem inv_addRecord (hs : s.Inv) {input expectedOutput metadata : Str} {tags : List Str}
    (hquiet : s.Quiet (.addRecord id input expectedOutput metadata tags)) :
    (s.edit (do
      s.dataset.addRecord (← DatasetRecord.new id input expectedOutput metadata tags))).Inv := by
  refine hs.edit fun d h => ?_
  unfold DatasetRecord.new at h
  split at h
  · cases h
  · unfold validateTagsList at h
    split at h
    · cases h
    · obtain ⟨hnone, hedited⟩ := edited_addRecord h
      exact ⟨_, _, hedited, cell_add (hs.cell _) hnone ⟨rfl, orEmpty_orEmpty metadata⟩ hquiet⟩

theorem inv_delete (hs : s.Inv) {index : ℕ} (hquiet : s.Quiet (.delete index)) :
    (s.edit (s.dataset.delete index)).Inv := by
  refine hs.edit fun d h => ?_
  obtain ⟨r, hr, hedited⟩ := edited_delete h
  exact ⟨_, _, hedited, cell_remove (hs.cell r.id) (hs.record (mem_of_recordAt hr)) fun hnew =>
    hquiet r (getElem?_of_recordAt hr) (includes_eq_true_iff.mp hnew)⟩

theorem State.Inv.create (hs : s.Inv) (id : Option Str) :
    State.Inv { s with dataset := { s.dataset with id := id } } :=
  ⟨hs.cell, hs.shape⟩

/-- **A push starts.** -/
theorem inv_send (hs : s.Inv) (hidle : s.inFlight = none) : s.send.Inv := by
  unfold State.send
  dsimp only
  split
  · refine ⟨fun id => ?_, hs.shape⟩
    rw [entry_carryTagOperations]
    exact (hs.cell id).carried
  · refine ⟨fun id => ?_, fun id => ?_⟩
    · have hcell := (cell_send (hs.idle hidle id)).1
      rw [← viewSend_detach] at hcell
      exact hcell
    · have hshape := (cell_send (hs.idle hidle id)).2
      rw [← viewSend_detach] at hshape
      exact hshape

/-- **The request ends.** -/
theorem inv_complete (hs : s.Inv) {pending : PendingBatch} (hpending : s.inFlight = some pending) :
    State.Inv
        { dataset := s.dataset.clearCommittedChanges pending
          remote := pending.apply s.remote } ∧
      State.Inv
        { s with dataset := s.dataset.restoreFailedTagOperations pending, inFlight := none } := by
  have hbatch : s.batch = pending := by
    unfold State.batch
    rw [hpending, Option.getD_some]
  have hcell := hs.cell
  have hshape := hs.shape
  rw [hbatch] at hcell hshape
  have hempty : ∀ (id : Str) (c : Option Content), (({} : PendingBatch).sent id).Shape c := by
    intro id c
    exact ⟨fun p hp => (by cases hp), fun u hu => (by cases hu), fun _ _ => rfl⟩
  refine ⟨⟨fun id => ?_, fun id => hempty id _⟩, ⟨fun id => ?_, fun id => hempty id _⟩⟩
  · show Cell id (({} : PendingBatch).sent id) (pending.apply s.remote id)
      ((s.dataset.clearCommittedChanges pending).entry id)
    rw [apply_eq_sent, entry_clearCommittedChanges]
    exact cell_succeed (hcell id) (hshape id)
  · show Cell id (({} : PendingBatch).sent id) (s.remote id)
      ((s.dataset.restoreFailedTagOperations pending).entry id)
    rw [entry_restoreFailedTagOperations]
    exact cell_fail (hcell id) (hshape id)

/-- **Every step.** -/
theorem inv_step {ev : DatasetEvent} (hs : s.Inv) (hquiet : s.Quiet ev) (h : s.step ev = some t) :
    t.Inv := by
  obtain ⟨hadd, hremove, hreplace, hupdate⟩ := inv_edit hs
  cases ev with
  | addRecord id input expectedOutput metadata tags =>
    cases h
    exact inv_addRecord hs hquiet
  | addTags index tags =>
    cases h
    exact hadd index tags
  | removeTags index tags =>
    cases h
    exact hremove index tags
  | replaceTags index tags =>
    cases h
    exact hreplace index tags
  | update index fields =>
    cases h
    exact hupdate index fields
  | delete index =>
    cases h
    exact inv_delete hs hquiet
  | push created =>
    unfold State.step at h
    dsimp only at h
    split at h
    · cases h
    · next hidle =>
      have hidle' : s.inFlight = none := by simpa using hidle
      split at h
      · cases h
        exact inv_send hs hidle'
      · cases h
        exact inv_send (hs.create _) hidle'
      · cases h
        exact hs
  | complete succeeds =>
    unfold State.step at h
    dsimp only at h
    split at h
    · cases h
    · next pending hpending =>
      obtain ⟨hsucceed, hfail⟩ := inv_complete hs hpending
      split at h
      · cases h
        exact hsucceed
      · cases h
        exact hfail

/-- A dataset without pending changes. -/
structure Fresh (d : Dataset) : Prop where
  new : d.newRecordsById = []
  updated : d.updatedRecordsById = .empty
  deleted : d.deletedRecordIds = []
  operations : d.pendingTagOperations = .empty
  valid : ∀ id r, d.records.get? id = some r → Valid id r

theorem Fresh.addExistingRecord (h : Fresh d) {record : DatasetRecord}
    (hadd : d.addExistingRecord record = .ok d') : Fresh d' := by
  unfold Dataset.addExistingRecord DatasetRecord.new at hadd
  split at hadd
  · cases hadd
  · unfold validateTagsList at hadd
    split at hadd
    · cases hadd
    · dsimp only [bind, Except.bind, pure, Except.pure] at hadd
      split at hadd
      · cases hadd
      · cases hadd
        refine ⟨h.new, h.updated, h.deleted, h.operations, fun id r hr => ?_⟩
        rw [OrderedMap.get?_set] at hr
        split at hr
        · next hid =>
          cases hr
          exact ⟨hid.symm, orEmpty_orEmpty record.metadata⟩
        · exact h.valid id r hr

theorem fresh_fromExisting {records : List DatasetRecord}
    (h : Dataset.fromExisting id records = .ok d) : Fresh d := by
  unfold Dataset.fromExisting at h
  have hstart : Fresh { id := some id } := ⟨rfl, rfl, rfl, rfl, fun _ _ hr => by cases hr⟩
  generalize ({ id := some id } : Dataset) = d₀ at h hstart
  induction records generalizing d₀ with
  | nil =>
    cases h
    exact hstart
  | cons record records ih =>
    rw [List.foldlM_cons] at h
    cases hadd : d₀.addExistingRecord record with
    | error e =>
      rw [hadd] at h
      cases h
    | ok d₁ =>
      rw [hadd] at h
      exact ih d₁ h (hstart.addExistingRecord hadd)

/-- A dataset that was pulled or is new. -/
def Loaded (d : Dataset) : Prop :=
  d = {} ∨ ∃ id records, Dataset.fromExisting id records = .ok d

theorem Loaded.fresh (h : Loaded d) : Fresh d := by
  rcases h with rfl | ⟨id, records, h⟩
  · exact ⟨rfl, rfl, rfl, rfl, fun _ _ hr => by cases hr⟩
  · exact fresh_fromExisting h

/-- A dataset that was just loaded, beside the copy of the backend. -/
def State.start (d : Dataset) : State where
  dataset := d
  remote := d.contents

theorem inv_start (h : Fresh d) : (State.start d).Inv := by
  refine ⟨fun id => ?_, fun id => ?_⟩
  · have hentry : d.entry id = ⟨d.records.get? id, false, none, false, none⟩ := by
      ext <;> simp [Dataset.entry, h.new, h.updated, h.deleted, h.operations]
    show Cell id {} ((d.records.get? id).map (·.content)) (d.entry id)
    rw [hentry]
    cases hr : d.records.get? id with
    | none => exact .absent rfl
    | some r =>
      have hvalid := h.valid id r hr
      exact .kept r none none r.content r.tags.toFinset hvalid rfl rfl rfl
        ⟨⟨rfl, fun _ => rfl⟩, ⟨rfl, fun _ => rfl⟩, ⟨hvalid.metadata.symm, fun _ => rfl⟩⟩
        (tagged_none.mpr rfl) (tagged_none.mpr rfl) fun h => (by cases h)
  · exact ⟨fun p hp => (by cases hp), fun u hu => (by cases hu), fun _ _ => rfl⟩

/-! ## A push without edits -/

/-- A push from a state between two requests: when there is nothing to send the backend has the local
records, and otherwise it has them once the request has succeeded. -/
theorem State.Inv.send (hs : s.Inv) (hidle : s.inFlight = none) :
    (s.send.inFlight = none → s.send.remote = s.send.dataset.contents) ∧
      ∀ t, s.send.step (.complete true) = some t → t.remote = t.dataset.contents := by
  have hsynced := hs.synced hidle
  unfold State.send
  dsimp only
  split
  · next hnothing =>
    obtain ⟨hinsert, hupdate, hdelete⟩ := hnothing
    refine ⟨fun _ => ?_, fun t h => ?_⟩
    · show s.remote = s.dataset.contents
      rw [← hsynced]
      funext id
      have hget : ∀ {ν : Type} (m : OrderedMap Str ν), m.entries = [] → m.get? id = none := by
        intro ν m hm
        rw [OrderedMap.get?, hm]
        rfl
      unfold PendingBatch.apply
      rw [hdelete, hget _ hinsert, hget _ hupdate]
      cases s.remote id with
      | none => rfl
      | some c => rfl
    · rw [hidle] at h
      cases h
  · refine ⟨fun h => (by cases h), fun t h => ?_⟩
    cases h
    show PendingBatch.apply _ s.remote = Dataset.contents (Dataset.clearCommittedChanges _ _)
    funext id
    have hview := viewSend_detach s.dataset id
    have hcontents : ∀ d : Dataset, d.contents id = (d.entry id).record.map (·.content) :=
      fun d => rfl
    obtain ⟨happly, hrecord⟩ := (s.dataset.entry id).apply_send (s.remote id)
    rw [← hview] at happly hrecord
    rw [apply_eq_sent, hcontents, entry_clearCommittedChanges, Entry.record_succeed]
    refine happly.trans (Eq.trans ?_ (congrArg (Option.map (·.content)) hrecord.symm))
    rw [← sent_pendingBatch, ← apply_eq_sent, hsynced]
    rfl

/-- **Synchronisation.**  On every run of edits and pushes from a dataset that was loaded, in which
no new record is deleted under whose id the backend has one, and no record is added with other tags
than an insert of its id that is under way: whenever no request is under way, the pending changes
applied to the copy of the backend give the local records; and after a push that succeeds and during
which there was no edit, the copy is the local records. -/
theorem pushed_of_run {d : Dataset} (hd : Loaded d) {evs : List DatasetEvent}
    (hquiet : Run.Every State.step State.Quiet (.start d) evs)
    (hrun : Run.exec State.step (.start d) evs = some s) :
    s.Synced ∧ ∀ created u, s.step (.push created) = some u →
      (s.dataset.id.isSome = true ∨ created.isSome = true) →
      (u.inFlight = none → u.remote = u.dataset.contents) ∧
        ∀ t, u.step (.complete true) = some t → t.remote = t.dataset.contents := by
  have hs : s.Inv := Run.invariant (fun s ev t hs hq h => inv_step hs hq h) (inv_start hd.fresh)
    hquiet hrun
  refine ⟨hs.synced, fun created u h hcreated => ?_⟩
  unfold State.step at h
  dsimp only at h
  split at h
  · cases h
  · next hidle =>
    have hidle' : s.inFlight = none := by simpa using hidle
    split at h
    · cases h
      exact hs.send hidle'
    · cases h
      exact (hs.create _).send hidle'
    · next hid =>
      rw [hid] at hcreated
      rcases hcreated with h | h
      · cases h
      · cases h

/-! ## Runs that lose a change -/

/-- A record is pushed; its tags and fields are edited, also while a push is under way that fails; it
is deleted in the end. -/
def editedRun : List DatasetEvent :=
  [.addRecord (lit "a") (lit "1") (lit "null") (lit "null") [lit "k:1"], .push (some (lit "d")),
    .complete true, .removeTags 0 [lit "k:1"], .push none, .addTags 0 [lit "k:2"],
    .update 0 { input := some (lit "2") }, .complete false, .push none, .complete true, .delete 0]

theorem synced_editedRun : ∃ s, Run.exec State.step (.start {}) editedRun = some s ∧ s.Synced := by
  obtain ⟨s, hs⟩ : ∃ s, Run.exec State.step (.start {}) editedRun = some s :=
    Option.isSome_iff_exists.mp (by decide)
  exact ⟨s, hs, (pushed_of_run (Or.inl rfl) (by decide) hs).1⟩

/-- A record is pushed and deleted; one with its id is added and deleted. -/
def readdedRun : List DatasetEvent :=
  [.addRecord (lit "a") (lit "1") (lit "null") (lit "null") [], .push (some (lit "d")),
    .complete true, .delete 0,
    .addRecord (lit "a") (lit "2") (lit "null") (lit "null") [], .delete 0]

/-- No change is pending, and the backend keeps a record that is gone here. -/
theorem not_synced :
    ¬ ∀ d, Loaded d → ∀ evs s, Run.exec State.step (.start d) evs = some s → s.Synced := by
  intro h
  have hend : (Run.exec State.step (.start {}) readdedRun).any (fun s => s.inFlight.isNone &&
      decide (s.dataset.pendingBatch.apply s.remote (lit "a") ≠ s.dataset.contents (lit "a"))) =
        true := by decide
  obtain ⟨s, hs, hlost⟩ := (Option.any_eq_true _ _).mp hend
  rw [Bool.and_eq_true, Option.isNone_iff_eq_none, decide_eq_true_iff] at hlost
  exact hlost.2 (congrFun (h {} (Or.inl rfl) readdedRun s hs hlost.1) (lit "a"))

end DdTrace.Llmobs
