import DdTrace.Llmobs.DatasetEntry

/-!
# The record of a dataset and that of the backend

`Cell` says what the tables can have of an id, beside what was sent of it and the record that the
backend has.  There are four cases: the id is nowhere; its record was deleted here; its record is
new, so an insert will be sent; or the backend has its record, and the fields and the tag operations
that are pending lead from there to the local record.  While a request is under way, pending tag
operations are relative to what it will have committed.

* `cell_add`, `cell_remove`, `cell_setFields`, `cell_queue`: the edits.
* `cell_send`, `cell_succeed`, `cell_fail`: the start of a request and its two ends.
* `Cell.synced`: between two requests, what is pending makes the local record of the backend's.
-/

namespace DdTrace.Llmobs

open Library Option

/-! ## The tables and one id -/

/-- A record as the constructor makes it, under its id. -/
structure Valid (id : Str) (r : DatasetRecord) : Prop where
  id : r.id = id
  metadata : orEmpty r.metadata = r.metadata

/-- A pending field that leads from what the backend has to the local value; if a value was sent,
one is pending. -/
structure FieldLeads (pending sent : Option Str) (base value : Str) : Prop where
  value : value = pending.getD base
  sent : pending = none → sent = none

/-- Pending fields that lead from a record of the backend to the local one. -/
structure Fields.Lead (pending sent : Fields) (c : Content) (r : DatasetRecord) : Prop where
  input : FieldLeads pending.input sent.input c.input r.input
  expectedOutput : FieldLeads pending.expectedOutput sent.expectedOutput c.expectedOutput
    r.expectedOutput
  metadata : FieldLeads pending.metadata sent.metadata c.metadata r.metadata

/-- The fields of a payload that there need not be. -/
def sentFields (u : Option UpdatePayload) : Fields := (u.map (·.fields)).getD {}

/-- What a batch that was sent has of one id, beside the record that the backend has. -/
structure Sent.Shape (f : Sent) (c : Option Content) : Prop where
  insert : ∀ p, f.insert = some p → f.update = none ∧ f.delete = false
  update : ∀ u, f.update = some u → f.delete = false ∧ c.isSome = true ∧
    u.tagOperations = f.tagOperations.map serializedTagOperations
  quiet : f.insert = none → f.update = none → f.tagOperations = none

/-- What the tables have of one id, beside what was sent and what the backend has. -/
inductive Cell (id : Str) (f : Sent) (c : Option Content) : Entry → Prop
  /-- The id is nowhere. -/
  | absent (hc : c = none) : Cell id f c ⟨none, false, none, false, none⟩
  /-- A record of the backend that was deleted here. -/
  | deleted (hc : c.isSome = true) (hf : f.insert = none) :
      Cell id f c ⟨none, false, none, true, none⟩
  /-- A new record.  Once its insert was sent, tag operations are relative to that. -/
  | new (r : DatasetRecord) (o : Option TagOperations) (hr : Valid id r)
      (ho : ∀ p, f.insert = some p → Tagged p.content.tags o r.tags.toFinset) :
      Cell id f c ⟨some r, true, none, false, o⟩
  /-- A record of the backend.  The operations that were sent lead to the tags `mid`, and from there
  those that are pending lead to the local ones. -/
  | kept (r : DatasetRecord) (u : Option RecordUpdate) (o : Option TagOperations) (c' : Content)
      (mid : Finset Str) (hr : Valid id r) (hc : c = some c') (hinsert : f.insert = none)
      (hdelete : f.delete = false) (hfields : (fieldsOf u).Lead (sentFields f.update) c' r)
      (hsent : Tagged c'.tags f.tagOperations mid) (htags : Tagged mid o r.tags.toFinset)
      (hcarried : o.isSome = true → u.isSome = true) :
      Cell id f c ⟨some r, false, u, false, o⟩

/-! ## An edit keeps the cell -/

variable {id : Str} {f : Sent} {c : Option Content} {e : Entry} {r : DatasetRecord}

theorem orEmpty_orEmpty (metadata : Str) : orEmpty (orEmpty metadata) = orEmpty metadata := by
  unfold orEmpty
  by_cases h : metadata = lit "null"
  · rw [if_pos h, if_neg (by decide)]
  · rw [if_neg h, if_neg h]

theorem Valid.withFields (h : Valid id r) (fields : Fields) : Valid id (r.withFields fields) := by
  refine ⟨h.id, ?_⟩
  show orEmpty ((fields.metadata.map orEmpty).getD r.metadata) = _
  cases hm : fields.metadata with
  | none =>
    rw [map_none, getD_none, h.metadata]
    show r.metadata = (fields.metadata.map orEmpty).getD r.metadata
    rw [hm, map_none, getD_none]
  | some m =>
    rw [map_some, getD_some, orEmpty_orEmpty]
    show orEmpty m = (fields.metadata.map orEmpty).getD r.metadata
    rw [hm, map_some, getD_some]

variable {pending sent : Option Str} {base value : Str}

theorem FieldLeads.provide (h : FieldLeads pending sent base value) (given : Option Str) :
    FieldLeads (if given.isSome then some (given.getD value) else pending) sent base
      (given.getD value) := by
  cases given with
  | none => exact h
  | some v => exact ⟨rfl, fun h => by cases h⟩

theorem Fields.Lead.provide {pending sent : Fields} {c : Content} (h : pending.Lead sent c r)
    (fields : Fields) :
    (pending.provide fields (r.withFields fields)).Lead sent c (r.withFields fields) := by
  refine ⟨h.input.provide fields.input, h.expectedOutput.provide fields.expectedOutput, ?_⟩
  have hmetadata := h.metadata.provide (fields.metadata.map orEmpty)
  rw [isSome_map] at hmetadata
  exact hmetadata

theorem cell_setFields (h : Cell id f c e) (hrecord : e.record = some r) (fields : Fields) :
    Cell id f c (e.setFields (r.withFields fields) fields) := by
  cases h with
  | absent hc | deleted hc hf => cases hrecord
  | new r' o hr ho =>
    cases hrecord
    exact .new _ o (hr.withFields fields) ho
  | kept r' u o c' mid hr hc hinsert hdelete hfields hsent htags hcarried =>
    cases hrecord
    exact .kept _ (some _) o c' mid (hr.withFields fields) hc hinsert hdelete
      (hfields.provide fields) hsent htags fun _ => rfl

theorem cell_add (h : Cell id f c e) (hnone : e.record = none) (hr : Valid id r)
    (htags : ∀ p, f.insert = some p → p.content.tags = r.tags.toFinset) :
    Cell id f c (e.add r) := by
  have hnew : ∀ p, f.insert = some p → Tagged p.content.tags none r.tags.toFinset := fun p hp =>
    tagged_none.mpr (htags p hp).symm
  cases h with
  | absent hc | deleted hc hf => exact .new r none hr hnew
  | new r' o | kept r' u o c' mid => cases hnone

theorem cell_remove (h : Cell id f c e) (hrecord : e.record = some r)
    (hquiet : e.isNew = true → c = none) : Cell id f c e.remove := by
  cases h with
  | absent hc | deleted hc hf => cases hrecord
  | new r' o hr ho => exact .absent (hquiet rfl)
  | kept r' u o c' mid hr hc hinsert => exact .deleted (by rw [hc]; rfl) hinsert

/-- Operations of which nothing is left. -/
theorem TagOperations.Leads.empty {o : TagOperations} {base tags : Finset Str}
    (h : o.Leads base tags) (hempty : tagOperationsAreEmpty o = true) : Tagged base none tags := by
  obtain ⟨add, remove, replace⟩ := o
  unfold tagOperationsAreEmpty at hempty
  simp only [Bool.and_eq_true, isNone_iff_eq_none] at hempty
  obtain ⟨⟨rfl, rfl⟩, rfl⟩ := hempty
  exact h

theorem cell_queue (h : Cell id f c e) (hrecord : e.record = some r) {operation : TagOperation}
    {l tags : List Str}
    (hskip : operation ≠ .replace ∧ l = [] → tags.toFinset = r.tags.toFinset)
    (hmerge : ∀ (o : TagOperations) (base : Finset Str), o.Leads base r.tags.toFinset →
      (mergeTagOperations o operation l).Leads base tags.toFinset) :
    Cell id f c ({ e with record := some { r with tags := tags } }.queue operation l) := by
  cases h with
  | absent hc | deleted hc hf => cases hrecord
  | new r' o hr ho =>
    cases hrecord
    have hr' : Valid id { r with tags := tags } := ⟨hr.id, hr.metadata⟩
    unfold Entry.queue
    dsimp only
    split
    · next hnothing => exact .new _ o hr' fun p hp => (hskip hnothing).symm ▸ ho p hp
    · split
      · next hempty => exact .new _ none hr' fun p hp => (hmerge _ _ (ho p hp)).empty hempty
      · exact .new _ (some _) hr' fun p hp => hmerge _ _ (ho p hp)
  | kept r' u o c' mid hr hc hinsert hdelete hfields hsent htags hcarried =>
    cases hrecord
    have hr' : Valid id { r with tags := tags } := ⟨hr.id, hr.metadata⟩
    have hfields' : (fieldsOf u).Lead (sentFields f.update) c' { r with tags := tags } :=
      ⟨hfields.input, hfields.expectedOutput, hfields.metadata⟩
    unfold Entry.queue
    dsimp only
    split
    · next hnothing =>
      exact .kept _ u o c' mid hr' hc hinsert hdelete hfields' hsent
        ((hskip hnothing).symm ▸ htags) hcarried
    · split
      · next hempty =>
        refine .kept _ _ none c' mid hr' hc hinsert hdelete ?_ hsent
          ((hmerge _ _ htags).empty hempty) fun h => by cases h
        have hsame : fieldsOf (u.bind fun u => if u.fields = {} then none
            else some { u with tagOperations := none }) = fieldsOf u := by
          cases u with
          | none => rfl
          | some u =>
            show fieldsOf (if u.fields = {} then none else _) = _
            split
            · next h => exact h.symm
            · rfl
        rw [hsame]
        exact hfields'
      · refine .kept _ _ (some _) c' mid hr' hc hinsert hdelete ?_ hsent (hmerge _ _ htags)
          fun _ => rfl
        cases u with
        | none | some u => exact hfields'

/-! ## A request -/

theorem content_serializedRecord (r : DatasetRecord) :
    (serializedRecord r).content = r.content := by
  unfold serializedRecord RecordPayload.content DatasetRecord.content
  ext1
  · rfl
  · rfl
  · rfl
  · by_cases hlen : 0 < r.tags.length
    · rw [if_pos hlen, getD_some]
    · rw [if_neg hlen, getD_none, List.length_eq_zero_iff.mp (Nat.eq_zero_of_not_pos hlen)]

/-- The backend makes the local record of what is pending. -/
theorem Fields.Lead.apply {pending sent : Fields} {c : Content} {o : Option TagOperations}
    (h : pending.Lead sent c r) (hr : Valid id r) (htags : Tagged c.tags o r.tags.toFinset) :
    UpdatePayload.apply ⟨pending, o.map serializedTagOperations⟩ c = r.content := by
  ext1
  · exact h.input.value.symm
  · exact h.expectedOutput.value.symm
  · exact h.metadata.value.symm.trans hr.metadata.symm
  · exact htags.apply

/-- **Between two requests**, the pending changes of an id lead to the local record. -/
theorem Cell.synced (h : Cell id {} c e) : e.pending.apply c = e.record.map (·.content) := by
  cases h with
  | absent hc => rw [hc]; rfl
  | deleted hc hf => rfl
  | new r o hr ho => exact congrArg some (content_serializedRecord r)
  | kept r u o c' mid hr hc hinsert hdelete hfields hsent htags hcarried =>
    subst hc
    rw [tagged_none.mp hsent] at htags
    have happly := hfields.apply hr htags
    refine congrArg some ?_
    cases u with
    | some u => exact happly
    | none =>
      cases o with
      | some o => exact absurd (hcarried rfl) Bool.false_ne_true
      | none => exact happly

theorem Cell.carried (h : Cell id f c e) : Cell id f c e.carried := by
  cases h with
  | absent hc => exact .absent hc
  | deleted hc hf => exact .deleted hc hf
  | new r o hr ho => exact .new r o hr ho
  | kept r u o c' mid hr hc hinsert hdelete hfields hsent htags hcarried =>
    refine .kept r _ o c' mid hr hc hinsert hdelete ?_ hsent htags fun h => ?_
    · cases u with
      | none | some u => exact hfields
    · rw [isSome_map]
      exact hcarried h

/-- **A push starts.** -/
theorem cell_send (h : Cell id {} c e) :
    Cell id e.send.2 c e.send.1 ∧ e.send.2.Shape c := by
  cases h with
  | absent hc =>
    exact ⟨.absent hc, fun p hp => (by cases hp), fun u hu => (by cases hu), fun _ _ => rfl⟩
  | deleted hc hf =>
    exact ⟨.deleted hc rfl, fun p hp => (by cases hp), fun u hu => (by cases hu), fun _ _ => rfl⟩
  | new r o hr ho =>
    have htags : Tagged (serializedRecord r).content.tags none r.tags.toFinset := by
      rw [content_serializedRecord]
      exact tagged_none.mpr rfl
    cases o with
    | none | some o =>
      exact ⟨.new r none hr fun p hp => (by cases hp; exact htags), fun p hp => ⟨rfl, rfl⟩,
        fun u hu => (by cases hu), fun hi => (by cases hi)⟩
  | kept r u o c' mid hr hc hinsert hdelete hfields hsent htags hcarried =>
    rw [tagged_none.mp hsent] at htags
    cases u with
    | none =>
      cases o with
      | some o => exact absurd (hcarried rfl) Bool.false_ne_true
      | none =>
        exact ⟨.kept r none none c' c'.tags hr hc rfl rfl hfields (tagged_none.mpr rfl) htags
          fun h => (by cases h), fun p hp => (by cases hp), fun u hu => (by cases hu), fun _ _ => rfl⟩
    | some u =>
      have hlead : u.fields.Lead u.fields c' r :=
        ⟨⟨hfields.input.value, fun h => h⟩, ⟨hfields.expectedOutput.value, fun h => h⟩,
          ⟨hfields.metadata.value, fun h => h⟩⟩
      cases o with
      | none =>
        refine ⟨.kept r (some _) none c' c'.tags hr hc rfl rfl hlead (tagged_none.mpr rfl) htags
          fun h => (by cases h), fun p hp => (by cases hp), fun u' hu => ?_, fun _ hu => (by cases hu)⟩
        cases hu
        exact ⟨rfl, by rw [hc]; rfl, rfl⟩
      | some o =>
        refine ⟨.kept r (some _) none c' _ hr hc rfl rfl hlead htags (tagged_none.mpr rfl)
          fun h => (by cases h), fun p hp => (by cases hp), fun u' hu => ?_, fun _ hu => (by cases hu)⟩
        cases hu
        exact ⟨rfl, by rw [hc]; rfl, rfl⟩

/-- The fields after those that were sent are committed. -/
theorem FieldLeads.commit (h : FieldLeads pending sent base value) :
    FieldLeads pending none (sent.getD base) value := by
  refine ⟨?_, fun _ => rfl⟩
  cases hp : pending with
  | none =>
    rw [h.sent hp]
    have hvalue := h.value
    rw [hp] at hvalue
    exact hvalue
  | some v =>
    have hvalue := h.value
    rw [hp] at hvalue
    exact hvalue

/-- Nothing is pending when what was sent is what is pending. -/
theorem FieldLeads.settle (h : FieldLeads pending none base value) (hsame : pending = sent)
    (hbase : base = sent.getD base) :
    FieldLeads none none base value := by
  refine ⟨?_, fun _ => rfl⟩
  have hvalue := h.value
  rw [hsame] at hvalue
  rw [hvalue, ← hbase]
  rfl

theorem updateFromInsertedRecord_leads (r : DatasetRecord) (p : RecordPayload) :
    (updateFromInsertedRecord r p).fields.Lead {} p.content r := by
  have hfield : ∀ value base : Str,
      FieldLeads (if value = base then none else some value) none base value := by
    intro value base
    by_cases h : value = base
    · rw [if_pos h]
      exact ⟨h, fun _ => rfl⟩
    · rw [if_neg h]
      exact ⟨rfl, fun _ => rfl⟩
  exact ⟨hfield _ _, hfield _ _, hfield _ _⟩

/-- **A request has succeeded.** -/
theorem cell_succeed (h : Cell id f c e) (hf : f.Shape c) :
    Cell id {} (f.apply c) (e.succeed f) := by
  obtain ⟨insert, update, delete, operations⟩ := f
  cases h with
  | absent hc =>
    subst hc
    cases insert with
    | some p =>
      obtain ⟨hupdate, hdelete⟩ := hf.insert p rfl
      subst hupdate hdelete
      exact .deleted rfl rfl
    | none =>
      cases update with
      | some u => exact absurd (hf.update u rfl).2.1 Bool.false_ne_true
      | none =>
        cases delete with
        | true | false => exact .absent rfl
  | deleted hc hinsert =>
    subst hinsert
    obtain ⟨c, rfl⟩ := isSome_iff_exists.mp hc
    cases update with
    | some u =>
      have hdelete := (hf.update u rfl).1
      subst hdelete
      exact .deleted rfl rfl
    | none =>
      cases delete with
      | true => exact .absent rfl
      | false => exact .deleted rfl rfl
  | new r o hr ho =>
    cases insert with
    | some p =>
      obtain ⟨hupdate, hdelete⟩ := hf.insert p rfl
      subst hupdate hdelete
      have htags := ho p rfl
      unfold Entry.succeed Entry.clearInsert
      simp only [map_some, getD_some, map_none, getD_none, if_true, Bool.false_eq_true, if_false]
      by_cases hsame : serializedRecord r = p
      · rw [if_pos hsame]
        subst hsame
        refine .kept r none none (serializedRecord r).content (serializedRecord r).content.tags hr
          rfl rfl rfl ⟨⟨rfl, fun _ => rfl⟩, ⟨rfl, fun _ => rfl⟩, ⟨hr.metadata.symm, fun _ => rfl⟩⟩
          (tagged_none.mpr rfl) ?_ fun h => (by cases h)
        rw [tagged_none, content_serializedRecord]
        rfl
      · rw [if_neg hsame]
        refine .kept r _ o p.content p.content.tags hr rfl rfl rfl ?_ (tagged_none.mpr rfl) htags
          fun _ => rfl
        cases o with
        | none | some o => exact updateFromInsertedRecord_leads r p
    | none =>
      have hsame : Entry.succeed ⟨none, update, delete, operations⟩
          ⟨some r, true, none, false, o⟩ = ⟨some r, true, none, false, o⟩ := by
        cases update with
        | none | some u => cases delete with
          | true => rfl
          | false => rfl
      rw [hsame]
      exact .new r o hr fun p hp => by cases hp
  | kept r u o c' mid hr hc hinsert hdelete hfields hsent htags hcarried =>
    subst hinsert hdelete hc
    cases update with
    | none =>
      have hquiet := hf.quiet rfl rfl
      subst hquiet
      exact .kept r u o c' mid hr rfl rfl rfl hfields hsent htags hcarried
    | some p =>
      have hops := (hf.update p rfl).2.2
      dsimp only at hops
      -- What the backend has afterwards.
      have htagsAfter : (p.apply c').tags = mid := by
        show ((p.tagOperations.map fun o => o.apply c'.tags).getD c'.tags) = mid
        rw [hops]
        exact hsent.apply
      have hlead : (fieldsOf u).Lead {} (p.apply c') r :=
        ⟨hfields.input.commit, hfields.expectedOutput.commit, hfields.metadata.commit⟩
      have hafter : Cell id {} (some (p.apply c')) ⟨some r, false, u, false, o⟩ :=
        .kept r u o (p.apply c') mid hr rfl rfl rfl hlead (tagged_none.mpr htagsAfter.symm) htags
          hcarried
      cases u with
      | none => exact hafter
      | some u =>
        cases o with
        | some o => exact hafter
        | none =>
          have hpayload : ∀ q : RecordUpdate, q.fields = u.fields →
              Cell id {} (some (p.apply c')) (if serializedRecordUpdate q = p
                then ⟨some r, false, none, false, none⟩
                else ⟨some r, false, some u, false, none⟩) := by
            intro q hq
            by_cases hsame : serializedRecordUpdate q = p
            · rw [if_pos hsame]
              have hfields' : u.fields = p.fields := by
                rw [← hsame, ← hq]
                rfl
              have hsettled : (fieldsOf none).Lead {} (p.apply c') r := by
                refine ⟨hlead.input.settle (congrArg Fields.input hfields') ?_,
                  hlead.expectedOutput.settle (congrArg Fields.expectedOutput hfields') ?_,
                  hlead.metadata.settle (congrArg Fields.metadata hfields') ?_⟩
                · show p.fields.input.getD _ = p.fields.input.getD (p.fields.input.getD _)
                  cases p.fields.input with
                  | none => rfl
                  | some v => rfl
                · show p.fields.expectedOutput.getD _ =
                    p.fields.expectedOutput.getD (p.fields.expectedOutput.getD _)
                  cases p.fields.expectedOutput with
                  | none => rfl
                  | some v => rfl
                · show p.fields.metadata.getD _ = p.fields.metadata.getD (p.fields.metadata.getD _)
                  cases p.fields.metadata with
                  | none => rfl
                  | some v => rfl
              exact .kept r none none (p.apply c') mid hr rfl rfl rfl hsettled
                (tagged_none.mpr htagsAfter.symm) htags fun h => (by cases h)
            · rw [if_neg hsame]
              exact hafter
          cases operations with
          | none => exact hpayload u rfl
          | some committed => exact hpayload { u with tagOperations := some committed } rfl

/-- **A request has failed.** -/
theorem cell_fail (h : Cell id f c e) (hf : f.Shape c) : Cell id {} c (e.fail f) := by
  obtain ⟨insert, update, delete, operations⟩ := f
  cases h with
  | absent hc =>
    cases operations with
    | none | some o => exact .absent hc
  | deleted hc hinsert =>
    cases operations with
    | none | some o => exact .deleted hc rfl
  | new r o hr ho =>
    cases operations with
    | none | some committed => exact .new r o hr fun p hp => by cases hp
  | kept r u o c' mid hr hc hinsert hdelete hfields hsent htags hcarried =>
    have hlead : (fieldsOf u).Lead {} c' r :=
      ⟨⟨hfields.input.value, fun _ => rfl⟩, ⟨hfields.expectedOutput.value, fun _ => rfl⟩,
        ⟨hfields.metadata.value, fun _ => rfl⟩⟩
    cases operations with
    | none =>
      rw [tagged_none.mp hsent] at htags
      exact .kept r u o c' c'.tags hr hc rfl rfl hlead (tagged_none.mpr rfl) htags hcarried
    | some committed =>
      have hfields' : ∀ o' : Option TagOperations, (fieldsOf
          (some { u.getD {} with tagOperations := o' })).Lead {} c' r := by
        intro o'
        cases u with
        | none | some u => exact hlead
      cases o with
      | none =>
        refine .kept r (some _) (some committed) c' c'.tags hr hc rfl rfl (hfields' _)
          (tagged_none.mpr rfl) ?_ fun _ => rfl
        rw [tagged_none.mp htags]
        exact hsent
      | some o =>
        exact .kept r (some _) (some { replace := some r.tags }) c' c'.tags hr hc rfl rfl
          (hfields' _) (tagged_none.mpr rfl) rfl fun _ => rfl

end DdTrace.Llmobs
