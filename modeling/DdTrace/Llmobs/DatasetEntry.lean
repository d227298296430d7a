import DdTrace.Llmobs.DatasetTags

/-!
# The tables of a dataset at one id

What the tables of a dataset have of one id does not depend on any other, and neither does what a
batch sends of it.  `Entry` is the first and `Sent` the second.  Every operation of the dataset
changes the entry of one record, and the loops at the start and the end of a request change that of
every id they go over, by the same step.

* `Edited`: the dataset after an edit; `edited_addRecord`, `edited_addTags`, `edited_removeTags`,
  `edited_replaceTags`, `edited_update` and `edited_delete` are one lemma for each operation.
* `viewSend_detach`: the start of a request, at one id.
* `entry_clearCommittedChanges`, `entry_restoreFailedTagOperations`: its end.
-/

namespace DdTrace.Llmobs

open Library OrderedMap

/-! ## One id -/

/-- What the tables have of one id. -/
@[ext] structure Entry where
  record : Option DatasetRecord
  isNew : Bool
  update : Option RecordUpdate
  deleted : Bool
  tagOperations : Option TagOperations

/-- What a batch has of one id. -/
@[ext] structure Sent where
  insert : Option RecordPayload := none
  update : Option UpdatePayload := none
  delete : Bool := false
  tagOperations : Option TagOperations := none

def Dataset.entry (d : Dataset) (id : Str) : Entry where
  record := d.records.get? id
  isNew := includes d.newRecordsById id
  update := d.updatedRecordsById.get? id
  deleted := includes d.deletedRecordIds id
  tagOperations := d.pendingTagOperations.get? id

def PendingBatch.sent (b : PendingBatch) (id : Str) : Sent where
  insert := b.insertPayloads.get? id
  update := b.updatePayloads.get? id
  delete := includes b.deleteRecordIds id
  tagOperations := b.inFlightTagOperations.get? id

/-- What a batch makes of one record of the backend. -/
def Sent.apply (f : Sent) (c : Option Content) : Option Content :=
  if f.delete then none
  else ((f.insert.map (·.content)).or c).map fun c => (f.update.map (·.apply c)).getD c

theorem apply_eq_sent (b : PendingBatch) (remote : Remote) (id : Str) :
    b.apply remote id = (b.sent id).apply (remote id) := by
  unfold PendingBatch.apply Sent.apply PendingBatch.sent
  by_cases h : id ∈ b.deleteRecordIds
  · rw [if_pos h, if_pos (includes_eq_true_iff.mpr h)]
  · rw [if_neg h, if_neg fun hd => h (includes_eq_true_iff.mp hd)]

/-- The fields of an update that there need not be. -/
def fieldsOf (u : Option RecordUpdate) : Fields := (u.map (·.fields)).getD {}

/-! ## What an edit does at its id -/

namespace Entry

/-- What a push would send of the id. -/
def pending (e : Entry) : Sent where
  insert := if e.isNew then e.record.map serializedRecord else none
  update := e.update.map fun u =>
    serializedRecordUpdate { u with tagOperations := e.tagOperations }
  delete := e.deleted

/-- `#addRecord` -/
def add (e : Entry) (r : DatasetRecord) : Entry :=
  { e with record := some r, isNew := true, deleted := false }

/-- `update`, with the record that has the fields. -/
def setFields (e : Entry) (r : DatasetRecord) (fields : Fields) : Entry :=
  if e.isNew then { e with record := some r }
  else
    { e with
      record := some r
      update := some
        { fields := (fieldsOf e.update).provide fields r
          tagOperations := e.tagOperations.or (e.update.getD {}).tagOperations } }

/-- `delete` -/
def remove (e : Entry) : Entry :=
  if e.isNew then { e with record := none, isNew := false, tagOperations := none }
  else { e with record := none, update := none, deleted := true, tagOperations := none }

/-- `#queueTagOperation` -/
def queue (e : Entry) (operation : TagOperation) (tags : List Str) : Entry :=
  if operation ≠ .replace ∧ tags = [] then e
  else
    let operations := mergeTagOperations (e.tagOperations.getD {}) operation tags
    if tagOperationsAreEmpty operations then
      { e with
        tagOperations := none
        update := e.update.bind fun u =>
          if u.fields = {} then none else some { u with tagOperations := none } }
    else
      { e with
        tagOperations := some operations
        update :=
          if e.isNew then e.update
          else some { e.update.getD {} with tagOperations := some operations } }

end Entry

variable {d d' : Dataset} {id j : Str}

theorem entry_setRecord (d : Dataset) (r : DatasetRecord) (j : Str) :
    (d.setRecord r).entry j = if j = r.id then { d.entry j with record := some r } else d.entry j := by
  unfold Dataset.entry Dataset.setRecord
  rw [get?_set]
  split
  · rfl
  · rfl

/-- The dataset after an edit: one id has changed. -/
def Edited (d d' : Dataset) (id : Str) (e : Entry) : Prop :=
  ∀ j, d'.entry j = if j = id then e else d.entry j

variable {index : ℕ} {tags : List Str} {r : DatasetRecord}

theorem getElem?_of_recordAt (h : d.recordAt index = .ok r) :
    d.records.values[index]? = some r := by
  unfold Dataset.recordAt at h
  split at h
  · next record hrecord =>
    cases h
    exact hrecord
  · cases h

theorem mem_of_recordAt (h : d.recordAt index = .ok r) : r ∈ d.records.values :=
  List.mem_of_getElem? (getElem?_of_recordAt h)

theorem edited_addRecord (h : d.addRecord r = .ok d') :
    (d.entry r.id).record = none ∧ Edited d d' r.id ((d.entry r.id).add r) := by
  unfold Dataset.addRecord at h
  split at h
  · cases h
  · next hhas =>
    cases h
    refine ⟨by simpa [OrderedMap.has, Dataset.entry] using hhas, fun j => ?_⟩
    by_cases hj : j = r.id
    · subst hj
      ext <;> simp [Dataset.entry, Entry.add, mem_addKey, mem_deleteKey]
    · ext <;> simp [Dataset.entry, hj, mem_addKey, mem_deleteKey, get?_set_of_ne]

theorem edited_queue (d : Dataset) (id : Str) (operation : TagOperation) (tags : List Str) :
    Edited d (d.queueTagOperation id operation tags) id ((d.entry id).queue operation tags) := by
  intro j
  unfold Dataset.queueTagOperation Entry.queue
  by_cases hnothing : operation ≠ .replace ∧ tags = []
  · rw [if_pos hnothing]
    split
    · next h => rw [h]
    · rfl
  · rw [if_neg hnothing]
    dsimp only
    have hops : (d.entry id).tagOperations = d.pendingTagOperations.get? id := rfl
    rw [hops]
    split
    · by_cases hj : j = id
      · subst hj
        unfold Dataset.dropTagOperations
        cases hu : d.updatedRecordsById.get? j with
        | none => ext <;> simp [Dataset.entry, hu]
        | some u =>
          by_cases hfields : u.fields = {}
          all_goals ext <;> simp [Dataset.entry, hu, hfields]
      · unfold Dataset.dropTagOperations
        cases hu : d.updatedRecordsById.get? id with
        | none => ext <;> simp [Dataset.entry, get?_delete_of_ne, hj]
        | some u =>
          by_cases hfields : u.fields = {}
          · ext <;> simp [Dataset.entry, hfields, get?_delete_of_ne, hj]
          · ext <;> simp [Dataset.entry, hfields, get?_delete_of_ne, get?_set_of_ne, hj]
    · by_cases hj : j = id
      · subst hj
        by_cases hnew : j ∈ d.newRecordsById
        all_goals ext <;> simp [Dataset.entry, hnew]
      · by_cases hnew : id ∈ d.newRecordsById
        all_goals ext <;> simp [Dataset.entry, hnew, get?_set_of_ne, hj]

/-- The record with other tags, and the operation queued. -/
theorem edited_retag (d : Dataset) (r : DatasetRecord) (operation : TagOperation)
    (tags : List Str) :
    Edited d ((d.setRecord r).queueTagOperation r.id operation tags) r.id
      ({ d.entry r.id with record := some r }.queue operation tags) := by
  intro j
  rw [edited_queue (d.setRecord r) r.id operation tags j, entry_setRecord, if_pos rfl,
    entry_setRecord]
  split
  · rfl
  · rfl

/-- An edit of the record at an index starts with the record. -/
theorem bind_recordAt {f : DatasetRecord → Except DatasetError Dataset}
    (h : (d.recordAt index >>= f) = .ok d') : ∃ r, d.recordAt index = .ok r ∧ f r = .ok d' := by
  cases hr : d.recordAt index with
  | error e =>
    rw [hr] at h
    cases h
  | ok r =>
    rw [hr] at h
    exact ⟨r, rfl, h⟩

theorem bind_validateTagsList {f : List Str → Except DatasetError Dataset}
    (h : (validateTagsList tags >>= f) = .ok d') : f tags = .ok d' := by
  unfold validateTagsList at h
  split at h
  · cases h
  · exact h

theorem edited_addTags (h : d.addTags index tags = .ok d') :
    ∃ r ∈ d.records.values, ∃ s, Adds r.tags.toFinset s ∧ Edited d d' r.id
        ({ d.entry r.id with record := some { r with tags := sortTags s.1 } }.queue .add s.2) := by
  obtain ⟨r, hr, h⟩ := bind_recordAt (bind_validateTagsList h)
  cases h
  exact ⟨r, mem_of_recordAt hr, _, adds_foldl tags r.tags, edited_retag d { r with tags := _ } .add _⟩

theorem edited_removeTags (h : d.removeTags index tags = .ok d') :
    ∃ r ∈ d.records.values, ∃ s, Removes r.tags.toFinset s ∧ Edited d d' r.id
        ({ d.entry r.id with record := some { r with tags := sortTags s.1 } }.queue .remove s.2) := by
  obtain ⟨r, hr, h⟩ := bind_recordAt (bind_validateTagsList h)
  cases h
  exact ⟨r, mem_of_recordAt hr, _, removes_foldl tags r.tags, edited_retag d { r with tags := _ } .remove _⟩

theorem edited_replaceTags (h : d.replaceTags index tags = .ok d') : ∃ r ∈ d.records.values,
      Edited d d' r.id
        ({ d.entry r.id with record := some { r with tags := tags } }.queue .replace tags) := by
  obtain ⟨r, hr, h⟩ := bind_recordAt (bind_validateTagsList h)
  cases h
  exact ⟨r, mem_of_recordAt hr, edited_retag d { r with tags := tags } .replace tags⟩

theorem edited_update {fields : Fields} (h : d.update index fields = .ok d') :
    ∃ r ∈ d.records.values,
      Edited d d' r.id ((d.entry r.id).setFields (r.withFields fields) fields) := by
  obtain ⟨r, hr, h⟩ := bind_recordAt h
  refine ⟨r, mem_of_recordAt hr, fun j => ?_⟩
  have hid : (r.withFields fields).id = r.id := rfl
  split at h
  · cases h
  · dsimp only at h
    unfold Entry.setFields
    split at h
    · next hnew =>
      cases h
      have hnew' : (d.entry r.id).isNew = true := includes_eq_true_iff.mpr hnew
      rw [entry_setRecord, if_pos hnew']
      by_cases hj : j = r.id
      · rw [if_pos (hj.trans hid.symm), if_pos hj, hj]
      · rw [if_neg hj, if_neg fun h => hj (h.trans hid)]
    · next hnew =>
      cases h
      have hnew' : ¬ (d.entry r.id).isNew = true := fun h => hnew (includes_eq_true_iff.mp h)
      rw [if_neg hnew']
      by_cases hj : j = r.id
      · subst hj
        cases hops : d.pendingTagOperations.get? r.id with
        | none | some o =>
          cases hu : d.updatedRecordsById.get? r.id with
          | none => ext <;> simp [Dataset.entry, Dataset.setRecord, hid, hops, hu, fieldsOf]
          | some u => ext <;> simp [Dataset.entry, Dataset.setRecord, hid, hops, hu, fieldsOf]
      · ext <;> simp [Dataset.entry, Dataset.setRecord, hid, get?_set_of_ne, hj]

theorem edited_delete (h : d.delete index = .ok d') :
    ∃ r, d.recordAt index = .ok r ∧ Edited d d' r.id (d.entry r.id).remove := by
  obtain ⟨r, hr, h⟩ := bind_recordAt h
  refine ⟨r, hr, fun j => ?_⟩
  dsimp only at h
  unfold Entry.remove
  split at h
  · next hnew =>
    cases h
    have hnew' : (d.entry r.id).isNew = true := includes_eq_true_iff.mpr hnew
    rw [if_pos hnew']
    by_cases hj : j = r.id
    · subst hj
      ext <;> simp [Dataset.entry, mem_deleteKey]
    · ext <;> simp [Dataset.entry, mem_deleteKey, get?_delete_of_ne, hj]
  · next hnew =>
    cases h
    have hnew' : ¬ (d.entry r.id).isNew = true := fun h => hnew (includes_eq_true_iff.mp h)
    rw [if_neg hnew']
    by_cases hj : j = r.id
    · subst hj
      ext <;> simp [Dataset.entry, mem_addKey, get?_delete_self]
    · ext <;> simp [Dataset.entry, mem_addKey, get?_delete_of_ne, hj]

/-! ## The start of a request -/

theorem sent_pendingBatch (d : Dataset) (id : Str) :
    d.pendingBatch.sent id = (d.entry id).pending := by
  unfold PendingBatch.sent Dataset.pendingBatch Entry.pending Dataset.entry
  ext1
  · rw [get?_build]
    by_cases h : id ∈ d.newRecordsById
    · rw [if_pos h, if_pos (includes_eq_true_iff.mpr h)]
    · rw [if_neg h, if_neg fun hd => h (includes_eq_true_iff.mp hd)]
  · rw [get?_mapValues]
    unfold Dataset.carryTagOperations
    rw [get?_mapEntries, Option.map_map]
    rfl
  · rfl
  · rfl

namespace Entry

/-- The update with the tag operations that are pending. -/
def carried (e : Entry) : Entry :=
  { e with update := e.update.map fun u => { u with tagOperations := e.tagOperations } }

/-- The tag operations go over to the batch, with an insert. -/
def detachInsert (s : Entry × Sent) : Entry × Sent :=
  match s.1.tagOperations with
  | none => s
  | some o => ({ s.1 with tagOperations := none }, { s.2 with tagOperations := some o })

/-- The tag operations go over to the batch, with an update. -/
def detachUpdate (u : UpdatePayload) (s : Entry × Sent) : Entry × Sent :=
  match s.1.tagOperations with
  | none => s
  | some o =>
    if u.tagOperations = none then s
    else
      ({ s.1 with
          tagOperations := none
          update := s.1.update.map fun u => { u with tagOperations := none } },
        { s.2 with tagOperations := some o })

/-- The id after a push has started, and what was sent of it. -/
def send (e : Entry) : Entry × Sent :=
  let s := (e.pending.insert.map fun _ => detachInsert (e.carried, e.pending)).getD
    (e.carried, e.pending)
  (e.pending.update.map fun u => detachUpdate u s).getD s

end Entry

theorem entry_carryTagOperations (d : Dataset) (id : Str) :
    d.carryTagOperations.entry id = (d.entry id).carried := by
  unfold Dataset.carryTagOperations Dataset.entry Entry.carried
  rw [get?_mapEntries]

/-- The dataset and the batch, at one id. -/
def viewSend (s : Dataset × PendingBatch) (id : Str) : Entry × Sent := (s.1.entry id, s.2.sent id)

theorem viewSend_detachInsert (s : Dataset × PendingBatch) (e : Str × RecordPayload) (j : Str) :
    viewSend (Dataset.detachInsert s e) j =
      if j = e.1 then Entry.detachInsert (viewSend s j) else viewSend s j := by
  unfold Dataset.detachInsert Entry.detachInsert
  by_cases hj : j = e.1
  · subst hj
    rw [if_pos rfl]
    have hops : (viewSend s e.1).1.tagOperations = s.1.pendingTagOperations.get? e.1 := rfl
    rw [hops]
    cases s.1.pendingTagOperations.get? e.1 with
    | none => rfl
    | some o =>
      refine Prod.ext ?_ ?_
      · ext <;> simp [viewSend, Dataset.entry]
      · ext <;> simp [viewSend, PendingBatch.sent]
  · rw [if_neg hj]
    cases s.1.pendingTagOperations.get? e.1 with
    | none => rfl
    | some o =>
      refine Prod.ext ?_ ?_
      · ext <;> simp [viewSend, Dataset.entry, get?_delete_of_ne, hj]
      · ext <;> simp [viewSend, PendingBatch.sent, get?_set_of_ne, hj]

theorem viewSend_detachUpdate (s : Dataset × PendingBatch) (e : Str × UpdatePayload) (j : Str) :
    viewSend (Dataset.detachUpdate s e) j =
      if j = e.1 then Entry.detachUpdate e.2 (viewSend s j) else viewSend s j := by
  unfold Dataset.detachUpdate Entry.detachUpdate
  by_cases hj : j = e.1
  · subst hj
    rw [if_pos rfl]
    have hops : (viewSend s e.1).1.tagOperations = s.1.pendingTagOperations.get? e.1 := rfl
    rw [hops]
    cases s.1.pendingTagOperations.get? e.1 with
    | none => rfl
    | some o =>
      dsimp only
      split
      · rfl
      · cases hu : s.1.updatedRecordsById.get? e.1 with
        | none | some u =>
          refine Prod.ext ?_ ?_
          · ext <;> simp [viewSend, Dataset.entry, hu]
          · ext <;> simp [viewSend, PendingBatch.sent]
  · rw [if_neg hj]
    cases s.1.pendingTagOperations.get? e.1 with
    | none => rfl
    | some o =>
      dsimp only
      split
      · rfl
      · cases s.1.updatedRecordsById.get? e.1 with
        | none =>
          refine Prod.ext ?_ ?_
          · ext <;> simp [viewSend, Dataset.entry, get?_delete_of_ne, hj]
          · ext <;> simp [viewSend, PendingBatch.sent, get?_set_of_ne, hj]
        | some u =>
          refine Prod.ext ?_ ?_
          · ext <;> simp [viewSend, Dataset.entry, get?_delete_of_ne, get?_set_of_ne, hj]
          · ext <;> simp [viewSend, PendingBatch.sent, get?_set_of_ne, hj]

/-- What a push does at one id. -/
theorem viewSend_detach (d : Dataset) (id : Str) :
    viewSend (d.carryTagOperations.detachCommittedTagOperations d.pendingBatch) id =
      (d.entry id).send := by
  have hpending := sent_pendingBatch d id
  have hinsert : d.pendingBatch.insertPayloads.get? id = (d.entry id).pending.insert :=
    congrArg Sent.insert hpending
  have hupdate : d.pendingBatch.updatePayloads.get? id = (d.entry id).pending.update :=
    congrArg Sent.update hpending
  unfold Dataset.detachCommittedTagOperations Entry.send
  rw [view_foldl viewSend (fun _ => Entry.detachUpdate)
      (fun s e => by rw [viewSend_detachUpdate, if_pos rfl])
      (fun s e j hj => by rw [viewSend_detachUpdate, if_neg hj]),
    view_foldl viewSend (fun _ _ => Entry.detachInsert)
      (fun s e => by rw [viewSend_detachInsert, if_pos rfl])
      (fun s e j hj => by rw [viewSend_detachInsert, if_neg hj]), hinsert, hupdate]
  have hstart : viewSend (d.carryTagOperations, d.pendingBatch) id =
      ((d.entry id).carried, (d.entry id).pending) :=
    Prod.ext (entry_carryTagOperations d id) hpending
  rw [hstart]

/-! ## The end of a request -/

namespace Entry

/-- The tag operations of a request that has failed. -/
def restore (o : TagOperations) (e : Entry) : Entry :=
  match e.record with
  | none => e
  | some r =>
    if e.isNew = true ∨ e.deleted = true then e
    else
      let restored := match e.tagOperations with
        | some _ => { replace := some r.tags }
        | none => o
      { e with
        tagOperations := some restored
        update := some { e.update.getD {} with tagOperations := some restored } }

/-- An insert that was committed. -/
def clearInsert (p : RecordPayload) (e : Entry) : Entry :=
  match (if e.isNew then e.record else none) with
  | none => { e with deleted := true }
  | some r =>
    if serializedRecord r = p then { e with isNew := false, tagOperations := none }
    else
      let u := e.update.getD (updateFromInsertedRecord r p)
      { e with
        isNew := false
        update := some (match e.tagOperations with
          | some o => { u with tagOperations := some o }
          | none => u) }

/-- An update that was committed. -/
def clearUpdate (committed : Option TagOperations) (p : UpdatePayload) (e : Entry) : Entry :=
  match e.update, e.tagOperations with
  | some u, none =>
    let comparison := match committed with
      | some o => { u with tagOperations := some o }
      | none => u
    if serializedRecordUpdate comparison = p then { e with update := none, tagOperations := none }
    else e
  | _, _ => e

/-- A delete that was committed. -/
def clearDelete (e : Entry) : Entry :=
  if e.record.isSome then e else { e with deleted := false }

/-- The id after a request that has succeeded. -/
def succeed (f : Sent) (e : Entry) : Entry :=
  let e := (f.insert.map fun p => clearInsert p e).getD e
  let e := (f.update.map fun p => clearUpdate f.tagOperations p e).getD e
  if f.delete then clearDelete e else e

/-- The id after a request that has failed. -/
def fail (f : Sent) (e : Entry) : Entry := (f.tagOperations.map fun o => restore o e).getD e

end Entry

theorem entry_restoreTagOperations (d : Dataset) (e : Str × TagOperations) (j : Str) :
    (d.restoreTagOperations e).entry j =
      if j = e.1 then (d.entry j).restore e.2 else d.entry j := by
  unfold Dataset.restoreTagOperations Entry.restore
  by_cases hj : j = e.1
  · subst hj
    rw [if_pos rfl]
    have hrecord : (d.entry e.1).record = d.records.get? e.1 := rfl
    have hops : (d.entry e.1).tagOperations = d.pendingTagOperations.get? e.1 := rfl
    rw [hrecord]
    cases hr : d.records.get? e.1 with
    | none => rfl
    | some r =>
      dsimp only
      have hcond : (e.1 ∈ d.newRecordsById ∨ e.1 ∈ d.deletedRecordIds) ↔
          ((d.entry e.1).isNew = true ∨ (d.entry e.1).deleted = true) := by
        simp [Dataset.entry]
      by_cases h : e.1 ∈ d.newRecordsById ∨ e.1 ∈ d.deletedRecordIds
      · rw [if_pos h, if_pos (hcond.mp h)]
      · rw [if_neg h, if_neg fun h' => h (hcond.mpr h'), hops]
        cases d.pendingTagOperations.get? e.1 with
        | none | some o => ext <;> simp [Dataset.entry, hr]
  · rw [if_neg hj]
    cases d.records.get? e.1 with
    | none => rfl
    | some r =>
      dsimp only
      split
      · rfl
      · ext <;> simp [Dataset.entry, get?_set_of_ne, hj]

theorem entry_clearInsert (d : Dataset) (e : Str × RecordPayload) (j : Str) :
    (d.clearInsert e).entry j = if j = e.1 then (d.entry j).clearInsert e.2 else d.entry j := by
  unfold Dataset.clearInsert Entry.clearInsert Dataset.newRecord?
  by_cases hj : j = e.1
  · subst hj
    have hrecord : (if (d.entry e.1).isNew = true then (d.entry e.1).record else none) =
        if e.1 ∈ d.newRecordsById then d.records.get? e.1 else none := by
      simp [Dataset.entry]
    have hops : (d.entry e.1).tagOperations = d.pendingTagOperations.get? e.1 := rfl
    have hu : (d.entry e.1).update = d.updatedRecordsById.get? e.1 := rfl
    rw [hrecord]
    cases (if e.1 ∈ d.newRecordsById then d.records.get? e.1 else none) with
    | none => ext <;> simp [Dataset.entry, mem_addKey]
    | some r =>
      dsimp only
      by_cases h : serializedRecord r = e.2
      · rw [if_pos h, if_pos h]
        ext <;> simp [Dataset.entry, mem_deleteKey]
      · rw [if_neg h, if_neg h, hu]
        cases hp : d.pendingTagOperations.get? e.1 with
        | none | some o => ext <;> simp [Dataset.entry, mem_deleteKey, hp]
  · cases (if e.1 ∈ d.newRecordsById then d.records.get? e.1 else none) with
    | none => ext <;> simp [Dataset.entry, mem_addKey, hj]
    | some r =>
      dsimp only
      split
      · ext <;> simp [Dataset.entry, mem_deleteKey, get?_delete_of_ne, hj]
      · ext <;> simp [Dataset.entry, mem_deleteKey, get?_set_of_ne, hj]

theorem entry_clearUpdate (inFlight : OrderedMap Str TagOperations) (d : Dataset)
    (e : Str × UpdatePayload) (j : Str) :
    (d.clearUpdate inFlight e).entry j =
      if j = e.1 then (d.entry j).clearUpdate (inFlight.get? j) e.2 else d.entry j := by
  unfold Dataset.clearUpdate Entry.clearUpdate
  by_cases hj : j = e.1
  · subst hj
    rw [if_pos rfl]
    have hops : (d.entry e.1).tagOperations = d.pendingTagOperations.get? e.1 := rfl
    have hu : (d.entry e.1).update = d.updatedRecordsById.get? e.1 := rfl
    rw [hops, hu]
    cases d.updatedRecordsById.get? e.1 with
    | none => rfl
    | some u =>
      cases d.pendingTagOperations.get? e.1 with
      | some o => rfl
      | none =>
        cases inFlight.get? e.1 with
        | none =>
          dsimp only
          by_cases h : serializedRecordUpdate u = e.2
          · rw [if_pos h, if_pos h]
            ext <;> simp [Dataset.entry]
          · rw [if_neg h, if_neg h]
        | some o =>
          dsimp only
          by_cases h : serializedRecordUpdate { u with tagOperations := some o } = e.2
          · rw [if_pos h, if_pos h]
            ext <;> simp [Dataset.entry]
          · rw [if_neg h, if_neg h]
  · rw [if_neg hj]
    have hgone : Dataset.entry { d with
        updatedRecordsById := d.updatedRecordsById.delete e.1
        pendingTagOperations := d.pendingTagOperations.delete e.1 } j = d.entry j := by
      ext <;> simp [Dataset.entry, get?_delete_of_ne, hj]
    cases d.updatedRecordsById.get? e.1 with
    | none => rfl
    | some u =>
      cases d.pendingTagOperations.get? e.1 with
      | some o => rfl
      | none =>
        cases inFlight.get? e.1 with
        | none | some o =>
          dsimp only
          split
          · exact hgone
          · rfl

theorem entry_clearDelete (d : Dataset) (id j : Str) :
    (d.clearDelete id).entry j = if j = id then (d.entry j).clearDelete else d.entry j := by
  unfold Dataset.clearDelete Entry.clearDelete
  by_cases hj : j = id
  · subst hj
    have hhas : (d.entry j).record.isSome = d.records.has j := rfl
    rw [if_pos rfl, hhas]
    by_cases h : d.records.has j = true
    · rw [if_pos h, if_pos h]
    · rw [if_neg h, if_neg h]
      ext <;> simp [Dataset.entry, mem_deleteKey]
  · split
    · rfl
    · ext <;> simp [Dataset.entry, mem_deleteKey, hj]

theorem clearDelete_clearDelete (e : Entry) : e.clearDelete.clearDelete = e.clearDelete := by
  unfold Entry.clearDelete
  by_cases h : e.record.isSome = true
  · rw [if_pos h, if_pos h]
  · rw [if_neg h]
    rw [if_neg h]

theorem entry_foldl_clearDelete (ids : List Str) (d : Dataset) (j : Str) :
    (ids.foldl Dataset.clearDelete d).entry j =
      if j ∈ ids then (d.entry j).clearDelete else d.entry j := by
  induction ids generalizing d with
  | nil => rfl
  | cons id ids ih =>
    rw [List.foldl_cons, ih, entry_clearDelete]
    by_cases hj : j = id
    · subst hj
      rw [if_pos rfl, if_pos List.mem_cons_self, clearDelete_clearDelete, ite_self]
    · rw [if_neg hj]
      simp only [List.mem_cons, hj, false_or]

theorem entry_clearCommittedChanges (d : Dataset) (b : PendingBatch) (id : Str) :
    (d.clearCommittedChanges b).entry id = (d.entry id).succeed (b.sent id) := by
  unfold Dataset.clearCommittedChanges Entry.succeed
  rw [entry_foldl_clearDelete, view_foldl Dataset.entry
      (fun j p => Entry.clearUpdate (b.inFlightTagOperations.get? j) p)
      (fun d e => by rw [entry_clearUpdate, if_pos rfl])
      (fun d e j hj => by rw [entry_clearUpdate, if_neg hj]),
    view_foldl Dataset.entry (fun _ => Entry.clearInsert)
      (fun d e => by rw [entry_clearInsert, if_pos rfl])
      (fun d e j hj => by rw [entry_clearInsert, if_neg hj])]
  by_cases h : id ∈ b.deleteRecordIds
  · rw [if_pos h, if_pos (show (b.sent id).delete = true from includes_eq_true_iff.mpr h)]
    rfl
  · rw [if_neg h, if_neg (show ¬ (b.sent id).delete = true from fun hd => h (includes_eq_true_iff.mp hd))]
    rfl

theorem entry_restoreFailedTagOperations (d : Dataset) (b : PendingBatch) (id : Str) :
    (d.restoreFailedTagOperations b).entry id = (d.entry id).fail (b.sent id) := by
  unfold Dataset.restoreFailedTagOperations Entry.fail
  rw [view_foldl Dataset.entry (fun _ => Entry.restore)
    (fun d e => by rw [entry_restoreTagOperations, if_pos rfl])
    (fun d e j hj => by rw [entry_restoreTagOperations, if_neg hj])]
  rfl

/-- What was sent of an id is what was pending, and its record stays. -/
theorem Entry.apply_send (e : Entry) (c : Option Content) :
    e.send.2.apply c = e.pending.apply c ∧ e.send.1.record = e.record := by
  have hinsert : ∀ s : Entry × Sent,
      (detachInsert s).2.apply c = s.2.apply c ∧ (detachInsert s).1.record = s.1.record := by
    intro s
    unfold detachInsert
    split
    · exact ⟨rfl, rfl⟩
    · exact ⟨rfl, rfl⟩
  have hupdate : ∀ (u : UpdatePayload) (s : Entry × Sent),
      (detachUpdate u s).2.apply c = s.2.apply c ∧ (detachUpdate u s).1.record = s.1.record := by
    intro u s
    unfold detachUpdate
    split
    · exact ⟨rfl, rfl⟩
    · split
      · exact ⟨rfl, rfl⟩
      · exact ⟨rfl, rfl⟩
  unfold send
  cases e.pending.insert with
  | none =>
    cases e.pending.update with
    | none => exact ⟨rfl, rfl⟩
    | some u => exact hupdate u _
  | some p =>
    cases e.pending.update with
    | none => exact hinsert _
    | some u =>
      exact ⟨(hupdate u _).1.trans (hinsert (e.carried, e.pending)).1,
        (hupdate u _).2.trans (hinsert (e.carried, e.pending)).2⟩

/-- The end of a request changes no record. -/
theorem Entry.record_succeed (f : Sent) (e : Entry) : (e.succeed f).record = e.record := by
  have hinsert : ∀ p (e : Entry), (e.clearInsert p).record = e.record := by
    intro p e
    unfold clearInsert
    split
    · rfl
    · split
      · rfl
      · rfl
  have hupdate : ∀ o u (e : Entry), (e.clearUpdate o u).record = e.record := by
    intro o u e
    unfold clearUpdate
    split
    · cases o with
      | none | some o =>
        dsimp only
        split
        · rfl
        · rfl
    · rfl
  have hdelete : ∀ e : Entry, e.clearDelete.record = e.record := by
    intro e
    unfold clearDelete
    split
    · rfl
    · rfl
  have hcleared : ∀ e : Entry, (if f.delete = true then e.clearDelete else e).record = e.record := by
    intro e
    split
    · exact hdelete e
    · rfl
  unfold succeed
  rw [hcleared]
  cases f.update with
  | none =>
    cases f.insert with
    | none => rfl
    | some p => exact hinsert p e
  | some u =>
    cases f.insert with
    | none => exact hupdate _ u e
    | some p => exact (hupdate _ u _).trans (hinsert p e)

end DdTrace.Llmobs
