import DdTrace.Library.OrderedMap
import DdTrace.Library.SetDelta
import DdTrace.Library.Text

/-!
# LLM Observability datasets

`llmobs/experiments/dataset.js`: records are edited locally, and `push` sends what has changed since
the last push in one batch.  The edits are kept in tables by record id: the records that are new, the
fields that were updated, the tag operations, and the ids of the records that were deleted.  While a
request is under way edits go on; when it ends, the tables are reconciled with what it has sent.

* `mergeTagOperations`: one more tag operation of a record.
* `Dataset.addRecord`, `addTags`, `removeTags`, `replaceTags`, `update`, `delete`: the local edits.
* `Dataset.pendingBatch`, `detachCommittedTagOperations`: what a push sends.
* `Dataset.restoreFailedTagOperations`, `clearCommittedChanges`: the end of a request.
* `State.step`: edits and pushes against the copy of the backend.

The objects of `#records` are those of `#recordsById` and `#newRecordsById`, so an edit of a record
is seen in all three; here the records are in one map in their order, and `newRecordsById` is the ids.
A field is given by its JSON text, which is what `valuesAreEqual` compares and the backend receives.
-/

namespace DdTrace.Llmobs

open Library

/-- The errors of the operations. -/
inductive DatasetError where
  | emptyId
  | malformedTag (tag : Str)
  | outOfRange (index : ℕ)
  | duplicateId (id : Str)
  | emptyUpdate
  deriving DecidableEq

/-- `validateTagsList`: a tag has a colon, and not in front. -/
def validateTagsList (tags : List Str) : Except DatasetError (List Str) :=
  match tags.find? fun tag => (tag.idxOf? (unit ':')).getD 0 = 0 with
  | some tag => .error (.malformedTag tag)
  | none => .ok tags

/-! ## Sets and lists of tags -/

/-- The order of `sort`: by code units. -/
def tagLe : Str → Str → Bool
  | [], _ => true
  | _ :: _, [] => false
  | a :: s, b :: t => if a = b then tagLe s t else decide (a.toNat < b.toNat)

/-- `[...tags].sort()` -/
def sortTags (tags : List Str) : List Str := tags.insertionSort fun s t => tagLe s t = true

/-- `new Set(tags)` -/
def newSet (tags : List Str) : List Str := tags.foldl OrderedMap.addKey []

/-- `Set.prototype.delete` -/
def deleteKey (keys : List Str) (key : Str) : List Str := keys.filter fun k => k ≠ key

/-! ## Records -/

/-- The text of `{}`. -/
def emptyObject : Str := lit "\x7b\x7d"

/-- `metadata ?? {}` -/
def orEmpty (metadata : Str) : Str := if metadata = lit "null" then emptyObject else metadata

structure DatasetRecord where
  id : Str
  input : Str
  expectedOutput : Str
  metadata : Str
  tags : List Str
  deriving DecidableEq

/-- The constructor of a record; the id is the caller's or a new UUID. -/
def DatasetRecord.new (id input expectedOutput metadata : Str) (tags : List Str) :
    Except DatasetError DatasetRecord := do
  if id = [] then throw .emptyId
  let tags ← validateTagsList tags
  return { id, input, expectedOutput, metadata := orEmpty metadata, tags }

/-- What an insert sends of a record. -/
structure RecordPayload where
  input : Str
  expectedOutput : Str
  metadata : Str
  tags : Option (List Str)
  deriving DecidableEq

def serializedRecord (record : DatasetRecord) : RecordPayload where
  input := record.input
  expectedOutput := record.expectedOutput
  metadata := orEmpty record.metadata
  tags := if 0 < record.tags.length then some record.tags else none

/-! ## Tag operations -/

/-- The kind of a tag operation. -/
inductive TagOperation where
  | add | remove | replace
  deriving DecidableEq

/-- `TagOperations` -/
structure TagOperations where
  add : Option (List Str) := none
  remove : Option (List Str) := none
  replace : Option (List Str) := none
  deriving DecidableEq

/-- `tagOperationsAreEmpty` -/
def tagOperationsAreEmpty (operations : TagOperations) : Bool :=
  operations.replace.isNone && operations.add.isNone && operations.remove.isNone

/-- One tag, against the sets of tags to add and to remove. -/
def mergeTag (operation : TagOperation) (s : List Str × List Str) (tag : Str) :
    List Str × List Str :=
  if operation = .add then
    if tag ∈ s.2 then (s.1, deleteKey s.2 tag) else (OrderedMap.addKey s.1 tag, s.2)
  else if tag ∈ s.1 then (deleteKey s.1 tag, s.2)
  else (s.1, OrderedMap.addKey s.2 tag)

/-- One tag, against the set that replaces all tags. -/
def replaceTag (operation : TagOperation) (replaced : List Str) (tag : Str) : List Str :=
  if operation = .add then OrderedMap.addKey replaced tag else deleteKey replaced tag

/-- `if (add.size > 0) merged.add = [...add].sort()` -/
def listed (tags : List Str) : Option (List Str) := if tags = [] then none else some (sortTags tags)

def mergeTagOperations (operations : TagOperations) (operation : TagOperation) (tags : List Str) :
    TagOperations :=
  if operation = .replace then { replace := some tags }
  else
    match operations.replace with
    | some replaced =>
      { replace := some (sortTags (tags.foldl (replaceTag operation) (newSet replaced))) }
    | none =>
      let s := tags.foldl (mergeTag operation)
        (newSet (operations.add.getD []), newSet (operations.remove.getD []))
      { add := listed s.1, remove := listed s.2 }

/-- Tag operations under their names on the wire. -/
structure SerializedTagOperations where
  add : Option (List Str)
  remove : Option (List Str)
  set : Option (List Str)
  deriving DecidableEq

def serializedTagOperations (operations : TagOperations) : SerializedTagOperations where
  add := operations.add
  remove := operations.remove
  set := operations.replace

/-! ## Updates -/

/-- The fields of an update. -/
structure Fields where
  input : Option Str := none
  expectedOutput : Option Str := none
  metadata : Option Str := none
  deriving DecidableEq

/-- An entry of `#updatedRecordsById`. -/
structure RecordUpdate where
  fields : Fields := {}
  tagOperations : Option TagOperations := none
  deriving DecidableEq

/-- What an update sends. -/
structure UpdatePayload where
  fields : Fields
  tagOperations : Option SerializedTagOperations
  deriving DecidableEq

def serializedRecordUpdate (update : RecordUpdate) : UpdatePayload where
  fields := update.fields
  tagOperations := update.tagOperations.map serializedTagOperations

/-- The record with the fields that are given. -/
def DatasetRecord.withFields (record : DatasetRecord) (fields : Fields) : DatasetRecord :=
  { record with
    input := fields.input.getD record.input
    expectedOutput := fields.expectedOutput.getD record.expectedOutput
    metadata := (fields.metadata.map orEmpty).getD record.metadata }

/-- The fields of the update, with those that are given taken from the record. -/
def Fields.provide (update fields : Fields) (record : DatasetRecord) : Fields where
  input := if fields.input.isSome then some record.input else update.input
  expectedOutput :=
    if fields.expectedOutput.isSome then some record.expectedOutput else update.expectedOutput
  metadata := if fields.metadata.isSome then some record.metadata else update.metadata

/-- The fields in which a record differs from the payload that has inserted it. -/
def updateFromInsertedRecord (record : DatasetRecord) (payload : RecordPayload) : RecordUpdate where
  fields :=
    { input := if record.input = payload.input then none else some record.input
      expectedOutput :=
        if record.expectedOutput = payload.expectedOutput then none else some record.expectedOutput
      metadata := if record.metadata = payload.metadata then none else some record.metadata }

/-! ## The dataset -/

structure Dataset where
  id : Option Str := none
  records : OrderedMap Str DatasetRecord := .empty
  newRecordsById : List Str := []
  updatedRecordsById : OrderedMap Str RecordUpdate := .empty
  deletedRecordIds : List Str := []
  pendingTagOperations : OrderedMap Str TagOperations := .empty

/-- A batch that is sent, and the tag operations that it has taken from the tables. -/
structure PendingBatch where
  insertPayloads : OrderedMap Str RecordPayload := .empty
  updatePayloads : OrderedMap Str UpdatePayload := .empty
  deleteRecordIds : List Str := []
  inFlightTagOperations : OrderedMap Str TagOperations := .empty

namespace Dataset

/-- `#recordAt` -/
def recordAt (d : Dataset) (index : ℕ) : Except DatasetError DatasetRecord :=
  match d.records.values[index]? with
  | some record => .ok record
  | none => .error (.outOfRange index)

/-- The object in `#newRecordsById`. -/
def newRecord? (d : Dataset) (id : Str) : Option DatasetRecord :=
  if id ∈ d.newRecordsById then d.records.get? id else none

/-- A record changed where it stands. -/
def setRecord (d : Dataset) (record : DatasetRecord) : Dataset :=
  { d with records := d.records.set record.id record }

/-- `#addRecord` -/
def addRecord (d : Dataset) (record : DatasetRecord) : Except DatasetError Dataset :=
  if d.records.has record.id then .error (.duplicateId record.id)
  else .ok
    { d with
      records := d.records.set record.id record
      deletedRecordIds := deleteKey d.deletedRecordIds record.id
      newRecordsById := OrderedMap.addKey d.newRecordsById record.id }

/-- `#addExistingRecord` -/
def addExistingRecord (d : Dataset) (record : DatasetRecord) : Except DatasetError Dataset := do
  let record ← DatasetRecord.new record.id record.input record.expectedOutput record.metadata
    record.tags
  if d.records.has record.id then throw (.duplicateId record.id)
  return { d with records := d.records.set record.id record }

/-- `fromExisting`: a dataset of the backend, with its records. -/
def fromExisting (id : Str) (records : List DatasetRecord) : Except DatasetError Dataset :=
  records.foldlM addExistingRecord { id := some id }

/-- An update that has lost its tag operations goes when it has no fields. -/
def dropTagOperations (updates : OrderedMap Str RecordUpdate) (recordId : Str) :
    OrderedMap Str RecordUpdate :=
  match updates.get? recordId with
  | none => updates
  | some update =>
    if update.fields = {} then updates.delete recordId
    else updates.set recordId { update with tagOperations := none }

/-- `#queueTagOperation` -/
def queueTagOperation (d : Dataset) (recordId : Str) (operation : TagOperation)
    (tags : List Str) : Dataset :=
  if operation ≠ .replace ∧ tags = [] then d
  else
    let operations :=
      mergeTagOperations ((d.pendingTagOperations.get? recordId).getD {}) operation tags
    if tagOperationsAreEmpty operations then
      { d with
        pendingTagOperations := d.pendingTagOperations.delete recordId
        updatedRecordsById := dropTagOperations d.updatedRecordsById recordId }
    else
      { d with
        pendingTagOperations := d.pendingTagOperations.set recordId operations
        updatedRecordsById :=
          if recordId ∈ d.newRecordsById then d.updatedRecordsById
          else d.updatedRecordsById.set recordId
            { (d.updatedRecordsById.get? recordId).getD {} with tagOperations := some operations } }

/-- The loop of `addTags`: the tags there are, and those that were added. -/
def addNext (s : List Str × List Str) (tag : Str) : List Str × List Str :=
  if tag ∈ s.1 then s else (s.1 ++ [tag], s.2 ++ [tag])

/-- The loop of `removeTags`: the tags there are, and those that were removed. -/
def removeNext (s : List Str × List Str) (tag : Str) : List Str × List Str :=
  if tag ∈ s.1 then (deleteKey s.1 tag, s.2 ++ [tag]) else s

def addTags (d : Dataset) (index : ℕ) (tags : List Str) : Except DatasetError Dataset := do
  let validated ← validateTagsList tags
  let record ← d.recordAt index
  let (next, added) := validated.foldl addNext (newSet record.tags, [])
  return (d.setRecord { record with tags := sortTags next }).queueTagOperation record.id .add added

def removeTags (d : Dataset) (index : ℕ) (tags : List Str) : Except DatasetError Dataset := do
  let validated ← validateTagsList tags
  let record ← d.recordAt index
  let (next, removed) := validated.foldl removeNext (newSet record.tags, [])
  return (d.setRecord { record with tags := sortTags next }).queueTagOperation
    record.id .remove removed

def replaceTags (d : Dataset) (index : ℕ) (tags : List Str) : Except DatasetError Dataset := do
  let validated ← validateTagsList tags
  let record ← d.recordAt index
  return (d.setRecord { record with tags := validated }).queueTagOperation
    record.id .replace validated

def update (d : Dataset) (index : ℕ) (fields : Fields) : Except DatasetError Dataset := do
  let record ← d.recordAt index
  if fields = {} then throw .emptyUpdate
  let record := record.withFields fields
  let d := d.setRecord record
  if record.id ∈ d.newRecordsById then return d
  let update := (d.updatedRecordsById.get? record.id).getD {}
  let update := { update with fields := update.fields.provide fields record }
  let update :=
    match d.pendingTagOperations.get? record.id with
    | some operations => { update with tagOperations := some operations }
    | none => update
  return { d with updatedRecordsById := d.updatedRecordsById.set record.id update }

def delete (d : Dataset) (index : ℕ) : Except DatasetError Dataset := do
  let record ← d.recordAt index
  let d := { d with records := d.records.delete record.id }
  if record.id ∈ d.newRecordsById then
    return { d with
      newRecordsById := deleteKey d.newRecordsById record.id
      pendingTagOperations := d.pendingTagOperations.delete record.id }
  return { d with
    updatedRecordsById := d.updatedRecordsById.delete record.id
    pendingTagOperations := d.pendingTagOperations.delete record.id
    deletedRecordIds := OrderedMap.addKey d.deletedRecordIds record.id }

/-! ## A push -/

/-- `update.tagOperations = tagOperations` before the update is sent. -/
def carryTagOperations (d : Dataset) : Dataset :=
  { d with
    updatedRecordsById := d.updatedRecordsById.mapEntries fun recordId update =>
      { update with tagOperations := d.pendingTagOperations.get? recordId } }

/-- `#pendingBatch` -/
def pendingBatch (d : Dataset) : PendingBatch where
  insertPayloads := .build d.newRecordsById fun recordId =>
    (d.records.get? recordId).map serializedRecord
  updatePayloads := d.carryTagOperations.updatedRecordsById.mapValues serializedRecordUpdate
  deleteRecordIds := d.deletedRecordIds

/-- One record whose insert is sent. -/
def detachInsert (s : Dataset × PendingBatch) (e : Str × RecordPayload) : Dataset × PendingBatch :=
  match s.1.pendingTagOperations.get? e.1 with
  | none => s
  | some operations =>
    ({ s.1 with pendingTagOperations := s.1.pendingTagOperations.delete e.1 },
      { s.2 with inFlightTagOperations := s.2.inFlightTagOperations.set e.1 operations })

/-- One record whose update is sent. -/
def detachUpdate (s : Dataset × PendingBatch) (e : Str × UpdatePayload) : Dataset × PendingBatch :=
  match s.1.pendingTagOperations.get? e.1 with
  | none => s
  | some operations =>
    if e.2.tagOperations = none then s
    else
      ({ s.1 with
          pendingTagOperations := s.1.pendingTagOperations.delete e.1
          updatedRecordsById :=
            match s.1.updatedRecordsById.get? e.1 with
            | none => s.1.updatedRecordsById
            | some update => s.1.updatedRecordsById.set e.1 { update with tagOperations := none } },
        { s.2 with inFlightTagOperations := s.2.inFlightTagOperations.set e.1 operations })

/-- `#detachCommittedTagOperations` -/
def detachCommittedTagOperations (d : Dataset) (pending : PendingBatch) : Dataset × PendingBatch :=
  pending.updatePayloads.entries.foldl detachUpdate
    (pending.insertPayloads.entries.foldl detachInsert (d, pending))

/-- One record whose tag operations were sent by a request that has failed. -/
def restoreTagOperations (d : Dataset) (e : Str × TagOperations) : Dataset :=
  match d.records.get? e.1 with
  | none => d
  | some record =>
    if e.1 ∈ d.newRecordsById ∨ e.1 ∈ d.deletedRecordIds then d
    else
      let restored :=
        match d.pendingTagOperations.get? e.1 with
        | some _ => { replace := some record.tags }
        | none => e.2
      { d with
        pendingTagOperations := d.pendingTagOperations.set e.1 restored
        updatedRecordsById := d.updatedRecordsById.set e.1
          { (d.updatedRecordsById.get? e.1).getD {} with tagOperations := some restored } }

/-- `#restoreFailedTagOperations` -/
def restoreFailedTagOperations (d : Dataset) (pending : PendingBatch) : Dataset :=
  pending.inFlightTagOperations.entries.foldl restoreTagOperations d

/-- One insert of a request that has succeeded. -/
def clearInsert (d : Dataset) (e : Str × RecordPayload) : Dataset :=
  match d.newRecord? e.1 with
  | none => { d with deletedRecordIds := OrderedMap.addKey d.deletedRecordIds e.1 }
  | some current =>
    if serializedRecord current = e.2 then
      { d with
        newRecordsById := deleteKey d.newRecordsById e.1
        pendingTagOperations := d.pendingTagOperations.delete e.1 }
    else
      let update :=
        (d.updatedRecordsById.get? e.1).getD (updateFromInsertedRecord current e.2)
      let update :=
        match d.pendingTagOperations.get? e.1 with
        | some queued => { update with tagOperations := some queued }
        | none => update
      { d with
        newRecordsById := deleteKey d.newRecordsById e.1
        updatedRecordsById := d.updatedRecordsById.set e.1 update }

/-- One update of a request that has succeeded. -/
def clearUpdate (inFlight : OrderedMap Str TagOperations) (d : Dataset)
    (e : Str × UpdatePayload) : Dataset :=
  match d.updatedRecordsById.get? e.1, d.pendingTagOperations.get? e.1 with
  | some current, none =>
    let comparison :=
      match inFlight.get? e.1 with
      | some committed => { current with tagOperations := some committed }
      | none => current
    if serializedRecordUpdate comparison = e.2 then
      { d with
        updatedRecordsById := d.updatedRecordsById.delete e.1
        pendingTagOperations := d.pendingTagOperations.delete e.1 }
    else d
  | _, _ => d

/-- One delete of a request that has succeeded. -/
def clearDelete (d : Dataset) (recordId : Str) : Dataset :=
  if d.records.has recordId then d
  else { d with deletedRecordIds := deleteKey d.deletedRecordIds recordId }

/-- `#clearCommittedChanges` -/
def clearCommittedChanges (d : Dataset) (pending : PendingBatch) : Dataset :=
  let d := pending.insertPayloads.entries.foldl clearInsert d
  let d := pending.updatePayloads.entries.foldl (clearUpdate pending.inFlightTagOperations) d
  pending.deleteRecordIds.foldl clearDelete d

end Dataset

/-! ## The copy of the backend -/

/-- A record as the backend has it. -/
@[ext] structure Content where
  input : Str
  expectedOutput : Str
  metadata : Str
  tags : Finset Str
  deriving DecidableEq

/-- The records of the backend, by id. -/
abbrev Remote := Str → Option Content

/-- What a record looks like on the other side. -/
def DatasetRecord.content (record : DatasetRecord) : Content where
  input := record.input
  expectedOutput := record.expectedOutput
  metadata := orEmpty record.metadata
  tags := record.tags.toFinset

/-- The local records, as the backend should have them. -/
def Dataset.contents (d : Dataset) : Remote := fun id => (d.records.get? id).map (·.content)

def RecordPayload.content (payload : RecordPayload) : Content where
  input := payload.input
  expectedOutput := payload.expectedOutput
  metadata := payload.metadata
  tags := (payload.tags.getD []).toFinset

/-- Tag operations applied to the tags of a record. -/
def SerializedTagOperations.apply (operations : SerializedTagOperations) (tags : Finset Str) :
    Finset Str :=
  match operations.set with
  | some tags => tags.toFinset
  | none => (tags \ (operations.remove.getD []).toFinset) ∪ (operations.add.getD []).toFinset

def UpdatePayload.apply (payload : UpdatePayload) (c : Content) : Content where
  input := payload.fields.input.getD c.input
  expectedOutput := payload.fields.expectedOutput.getD c.expectedOutput
  metadata := payload.fields.metadata.getD c.metadata
  tags := (payload.tagOperations.map fun operations => operations.apply c.tags).getD c.tags

/-- A batch that succeeds: its inserts create or overwrite, then its updates and tag operations, then
its deletes. -/
def PendingBatch.apply (b : PendingBatch) (remote : Remote) : Remote := fun id =>
  if id ∈ b.deleteRecordIds then none
  else
    (((b.insertPayloads.get? id).map (·.content)).or (remote id)).map fun c =>
      ((b.updatePayloads.get? id).map (·.apply c)).getD c

/-! ## Edits and pushes -/

/-- What happens to a dataset: an edit, the start of a push with the id that the backend gives the
dataset if it is asked for one, and the end of the request under way. -/
inductive DatasetEvent where
  | addRecord (id input expectedOutput metadata : Str) (tags : List Str)
  | addTags (index : ℕ) (tags : List Str)
  | removeTags (index : ℕ) (tags : List Str)
  | replaceTags (index : ℕ) (tags : List Str)
  | update (index : ℕ) (fields : Fields)
  | delete (index : ℕ)
  | push (created : Option Str)
  | complete (succeeds : Bool)

/-- A dataset, the copy of the backend and the request under way. -/
structure State where
  dataset : Dataset
  remote : Remote
  inFlight : Option PendingBatch := none

namespace State

/-- A local edit; one that throws changes nothing. -/
def edit (s : State) : Except DatasetError Dataset → State
  | .ok dataset => { s with dataset := dataset }
  | .error _ => s

/-- The batch of a push that starts, if there is anything to send. -/
def send (s : State) : State :=
  let pending := s.dataset.pendingBatch
  if pending.insertPayloads.entries = [] ∧ pending.updatePayloads.entries = [] ∧
      pending.deleteRecordIds = [] then
    { s with dataset := s.dataset.carryTagOperations }
  else
    let (dataset, batch) := s.dataset.carryTagOperations.detachCommittedTagOperations pending
    { s with dataset := dataset, inFlight := some batch }

/-- One event.  A push waits for the request under way, and only that one can end. -/
def step (s : State) : DatasetEvent → Option State
  | .addRecord id input expectedOutput metadata tags =>
    some (s.edit (do s.dataset.addRecord (← DatasetRecord.new id input expectedOutput metadata tags)))
  | .addTags index tags => some (s.edit (s.dataset.addTags index tags))
  | .removeTags index tags => some (s.edit (s.dataset.removeTags index tags))
  | .replaceTags index tags => some (s.edit (s.dataset.replaceTags index tags))
  | .update index fields => some (s.edit (s.dataset.update index fields))
  | .delete index => some (s.edit (s.dataset.delete index))
  | .push created =>
    if s.inFlight.isSome then none
    else
      match s.dataset.id, created with
      | some _, _ => some s.send
      | none, some id => some ({ s with dataset := { s.dataset with id := some id } }).send
      | none, none => some s
  | .complete succeeds =>
    match s.inFlight with
    | none => none
    | some pending =>
      if succeeds then
        some
          { dataset := s.dataset.clearCommittedChanges pending
            remote := pending.apply s.remote }
      else some { s with dataset := s.dataset.restoreFailedTagOperations pending, inFlight := none }

end State
end DdTrace.Llmobs
