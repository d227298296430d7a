import DdTrace.Llmobs.Dataset

/-!
# The pending tag operations of a record

Pending tag operations lead from the tags that a record will have on the other side to its local
tags.  Either they replace all tags, or they are a change of a set that fits it
(`SetDelta.Fits`).  An edit keeps this: `addTags` queues only tags that the record does not have, and
`removeTags` only tags that it has, so that an edit that takes back a pending one cancels it and
nothing else.

* `TagOperations.Leads`: what pending operations do.
* `Leads.add`, `Leads.remove`: one more operation is merged into them.
* `adds_foldl`, `removes_foldl`: the loops of `addTags` and `removeTags`.
* `Tagged.apply`: the backend makes the local tags of them.
-/

namespace DdTrace.Llmobs

open Library List

/-! ## Lists and sets -/

theorem mem_addKey {l : List Str} {k j : Str} : j ∈ OrderedMap.addKey l k ↔ j = k ∨ j ∈ l := by
  unfold OrderedMap.addKey
  by_cases h : k ∈ l
  · rw [if_pos h]
    constructor
    · exact Or.inr
    · rintro (rfl | hj)
      · exact h
      · exact hj
  · rw [if_neg h, mem_append, mem_singleton, or_comm]

theorem mem_deleteKey {l : List Str} {k j : Str} : j ∈ deleteKey l k ↔ j ∈ l ∧ j ≠ k := by
  rw [deleteKey, mem_filter, decide_eq_true_iff]

@[simp] theorem includes_addKey (l : List Str) (k j : Str) :
    includes (OrderedMap.addKey l k) j = (decide (j = k) || includes l j) := by
  rw [Bool.eq_iff_iff, includes_eq_true_iff, mem_addKey, Bool.or_eq_true, decide_eq_true_iff,
    includes_eq_true_iff]

@[simp] theorem includes_deleteKey (l : List Str) (k j : Str) :
    includes (deleteKey l k) j = (includes l j && decide (j ≠ k)) := by
  rw [Bool.eq_iff_iff, includes_eq_true_iff, mem_deleteKey, Bool.and_eq_true, decide_eq_true_iff,
    includes_eq_true_iff]

@[simp] theorem toFinset_addKey (l : List Str) (k : Str) :
    (OrderedMap.addKey l k).toFinset = insert k l.toFinset := by
  ext j
  rw [mem_toFinset, mem_addKey, Finset.mem_insert, mem_toFinset]

@[simp] theorem toFinset_deleteKey (l : List Str) (k : Str) :
    (deleteKey l k).toFinset = l.toFinset.erase k := by
  ext j
  rw [mem_toFinset, mem_deleteKey, Finset.mem_erase, mem_toFinset, and_comm]

@[simp] theorem toFinset_sortTags (l : List Str) : (sortTags l).toFinset = l.toFinset :=
  toFinset_eq_of_perm _ _ (perm_insertionSort _ _)

theorem toFinset_listed (l : List Str) : ((listed l).getD []).toFinset = l.toFinset := by
  unfold listed
  split
  · next h => rw [h, Option.getD_none]
  · rw [Option.getD_some, toFinset_sortTags]

/-- The tag operations without a replacement, as a change of a set. -/
def TagOperations.delta (o : TagOperations) : SetDelta Str where
  added := (o.add.getD []).toFinset
  removed := (o.remove.getD []).toFinset

/-- Pending tag operations that lead from some tags to others. -/
def TagOperations.Leads (o : TagOperations) (base tags : Finset Str) : Prop :=
  match o.replace with
  | some replaced => replaced.toFinset = tags
  | none => o.delta.Fits base ∧ o.delta.apply base = tags

/-- The same of operations that there need not be. -/
def Tagged (base : Finset Str) (operations : Option TagOperations) (tags : Finset Str) : Prop :=
  (operations.getD {}).Leads base tags

theorem leads_empty {base tags : Finset Str} :
    ({} : TagOperations).Leads base tags ↔ tags = base := by
  have happly : ({} : TagOperations).delta.apply base = base := by
    ext a
    rw [SetDelta.mem_apply]
    simp [TagOperations.delta]
  constructor
  · rintro ⟨-, h⟩
    exact h.symm.trans happly
  · rintro rfl
    exact ⟨⟨fun a ha => absurd ha (by simp [TagOperations.delta]),
      fun a ha => absurd ha (by simp [TagOperations.delta])⟩, happly⟩

theorem tagged_none {base tags : Finset Str} : Tagged base none tags ↔ tags = base := leads_empty

/-- What the backend makes of the operations. -/
theorem Tagged.apply {base tags : Finset Str} {operations : Option TagOperations}
    (h : Tagged base operations tags) :
    ((operations.map serializedTagOperations).map fun o => o.apply base).getD base = tags := by
  cases operations with
  | none => exact (tagged_none.mp h).symm
  | some o =>
    show (serializedTagOperations o).apply base = tags
    unfold Tagged TagOperations.Leads at h
    rw [Option.getD_some] at h
    unfold SerializedTagOperations.apply serializedTagOperations
    cases hreplace : o.replace with
    | some replaced =>
      rw [hreplace] at h
      exact h
    | none =>
      rw [hreplace] at h
      exact h.2

/-- The two sets of a merge under way are a change of a set. -/
def deltaOf (s : List Str × List Str) : SetDelta Str := ⟨s.1.toFinset, s.2.toFinset⟩

theorem deltaOf_mergeTag (s : List Str × List Str) (tag : Str) :
    deltaOf (mergeTag .add s tag) = (deltaOf s).insert tag ∧
      deltaOf (mergeTag .remove s tag) = (deltaOf s).erase tag := by
  have hadded : tag ∈ (deltaOf s).added ↔ tag ∈ s.1 := mem_toFinset
  have hremoved : tag ∈ (deltaOf s).removed ↔ tag ∈ s.2 := mem_toFinset
  constructor
  · unfold mergeTag SetDelta.insert
    by_cases h : tag ∈ s.2
    · rw [if_pos h, if_pos (hremoved.mpr h)]
      ext b <;> simp [deltaOf]
    · rw [if_neg h, if_neg fun hin => h (hremoved.mp hin)]
      ext b <;> simp [deltaOf]
  · unfold mergeTag SetDelta.erase
    by_cases h : tag ∈ s.1
    · rw [if_pos h, if_pos (hadded.mpr h)]
      ext b <;> simp [deltaOf]
    · rw [if_neg h, if_neg fun hin => h (hadded.mp hin)]
      ext b <;> simp [deltaOf]

theorem deltaOf_foldl_add (l : List Str) (s : List Str × List Str) :
    deltaOf (l.foldl (mergeTag .add) s) = l.foldl SetDelta.insert (deltaOf s) := by
  induction l generalizing s with
  | nil => rfl
  | cons a l ih => rw [foldl_cons, foldl_cons, ih, (deltaOf_mergeTag s a).1]

theorem deltaOf_foldl_remove (l : List Str) (s : List Str × List Str) :
    deltaOf (l.foldl (mergeTag .remove) s) = l.foldl SetDelta.erase (deltaOf s) := by
  induction l generalizing s with
  | nil => rfl
  | cons a l ih => rw [foldl_cons, foldl_cons, ih, (deltaOf_mergeTag s a).2]

theorem toFinset_foldl_addKey (l s : List Str) :
    (l.foldl OrderedMap.addKey s).toFinset = s.toFinset ∪ l.toFinset := by
  induction l generalizing s with
  | nil => exact (Finset.union_empty _).symm
  | cons a l ih =>
    rw [foldl_cons, ih, toFinset_addKey, toFinset_cons, Finset.insert_union, Finset.union_insert]

theorem toFinset_foldl_deleteKey (l s : List Str) :
    (l.foldl deleteKey s).toFinset = s.toFinset \ l.toFinset := by
  induction l generalizing s with
  | nil => exact Finset.sdiff_empty.symm
  | cons a l ih =>
    rw [foldl_cons, ih, toFinset_deleteKey, toFinset_cons]
    ext b
    simp only [Finset.mem_sdiff, Finset.mem_erase, Finset.mem_insert]
    tauto

@[simp] theorem toFinset_newSet (l : List Str) : (newSet l).toFinset = l.toFinset :=
  (toFinset_foldl_addKey l []).trans (Finset.empty_union _)

theorem delta_listed (s : List Str × List Str) :
    ({ add := listed s.1, remove := listed s.2 } : TagOperations).delta = deltaOf s := by
  unfold TagOperations.delta deltaOf
  rw [toFinset_listed, toFinset_listed]

theorem deltaOf_newSet (o : TagOperations) :
    deltaOf (newSet (o.add.getD []), newSet (o.remove.getD [])) = o.delta := by
  unfold deltaOf TagOperations.delta
  rw [toFinset_newSet, toFinset_newSet]

variable {o : TagOperations} {base tags : Finset Str} {l : List Str}

/-- Tags that are not there are added. -/
theorem TagOperations.Leads.add (h : o.Leads base tags) (hl : l.Nodup) (hout : ∀ a ∈ l, a ∉ tags) :
    (mergeTagOperations o .add l).Leads base (tags ∪ l.toFinset) := by
  unfold mergeTagOperations
  rw [if_neg (by decide)]
  unfold TagOperations.Leads at h ⊢
  cases hreplace : o.replace with
  | some replaced =>
    rw [hreplace] at h
    show (sortTags (l.foldl OrderedMap.addKey (newSet replaced))).toFinset = _
    rw [toFinset_sortTags, toFinset_foldl_addKey, toFinset_newSet, ← h]
  | none =>
    rw [hreplace] at h
    obtain ⟨hfits, rfl⟩ := h
    rw [delta_listed, deltaOf_foldl_add, deltaOf_newSet]
    exact SetDelta.fits_foldl_insert hl hfits hout

/-- Tags that are there are removed. -/
theorem TagOperations.Leads.remove (h : o.Leads base tags) (hl : l.Nodup)
    (hin : ∀ a ∈ l, a ∈ tags) :
    (mergeTagOperations o .remove l).Leads base (tags \ l.toFinset) := by
  unfold mergeTagOperations
  rw [if_neg (by decide)]
  unfold TagOperations.Leads at h ⊢
  cases hreplace : o.replace with
  | some replaced =>
    rw [hreplace] at h
    show (sortTags (l.foldl deleteKey (newSet replaced))).toFinset = _
    rw [toFinset_sortTags, toFinset_foldl_deleteKey, toFinset_newSet, ← h]
  | none =>
    rw [hreplace] at h
    obtain ⟨hfits, rfl⟩ := h
    rw [delta_listed, deltaOf_foldl_remove, deltaOf_newSet]
    exact SetDelta.fits_foldl_erase hl hfits hin

/-- The loop of `addTags`: what it adds was not there. -/
structure Adds (tags : Finset Str) (s : List Str × List Str) : Prop where
  next : s.1.toFinset = tags ∪ s.2.toFinset
  nodup : s.2.Nodup
  out : ∀ a ∈ s.2, a ∉ tags

/-- The loop of `removeTags`: what it removes was there. -/
structure Removes (tags : Finset Str) (s : List Str × List Str) : Prop where
  next : s.1.toFinset = tags \ s.2.toFinset
  nodup : s.2.Nodup
  into : ∀ a ∈ s.2, a ∈ tags

theorem nodup_concat {a : Str} (hl : l.Nodup) (ha : a ∉ l) : (l ++ [a]).Nodup :=
  nodup_append.mpr ⟨hl, nodup_singleton a, fun b hb c hc hbc =>
    ha (mem_singleton.mp hc ▸ hbc ▸ hb)⟩

theorem Adds.step {s : List Str × List Str} (h : Adds tags s) (tag : Str) :
    Adds tags (Dataset.addNext s tag) := by
  unfold Dataset.addNext
  by_cases htag : tag ∈ s.1
  · rw [if_pos htag]
    exact h
  · rw [if_neg htag]
    have hnew : tag ∉ tags ∪ s.2.toFinset := by
      rw [← h.next, mem_toFinset]
      exact htag
    rw [Finset.mem_union, not_or, mem_toFinset (l := s.2)] at hnew
    refine ⟨?_, nodup_concat h.nodup hnew.2, fun a ha => ?_⟩
    · rw [toFinset_append, toFinset_append, h.next, Finset.union_assoc]
    · rcases mem_append.mp ha with ha | ha
      · exact h.out a ha
      · rw [mem_singleton] at ha
        exact ha ▸ hnew.1

theorem Removes.step {s : List Str × List Str} (h : Removes tags s) (tag : Str) :
    Removes tags (Dataset.removeNext s tag) := by
  unfold Dataset.removeNext
  by_cases htag : tag ∈ s.1
  · rw [if_pos htag]
    have hold : tag ∈ tags \ s.2.toFinset := by
      rw [← h.next, mem_toFinset]
      exact htag
    rw [Finset.mem_sdiff, mem_toFinset (l := s.2)] at hold
    refine ⟨?_, nodup_concat h.nodup hold.2, fun a ha => ?_⟩
    · rw [toFinset_deleteKey, toFinset_append, h.next]
      ext b
      simp only [Finset.mem_sdiff, Finset.mem_erase, Finset.mem_union, toFinset_cons,
        toFinset_nil, insert_empty_eq, Finset.mem_singleton]
      tauto
    · rcases mem_append.mp ha with ha | ha
      · exact h.into a ha
      · rw [mem_singleton] at ha
        exact ha ▸ hold.1
  · rw [if_neg htag]
    exact h

theorem adds_foldl (l record : List Str) :
    Adds record.toFinset (l.foldl Dataset.addNext (newSet record, [])) := by
  have hstart : Adds record.toFinset (newSet record, []) := by
    refine ⟨?_, nodup_nil, fun a ha => absurd ha not_mem_nil⟩
    rw [toFinset_newSet, toFinset_nil, Finset.union_empty]
  revert hstart
  generalize (newSet record, ([] : List Str)) = s
  intro hstart
  induction l generalizing s with
  | nil => exact hstart
  | cons tag l ih => exact ih _ (hstart.step tag)

theorem removes_foldl (l record : List Str) :
    Removes record.toFinset (l.foldl Dataset.removeNext (newSet record, [])) := by
  have hstart : Removes record.toFinset (newSet record, []) := by
    refine ⟨?_, nodup_nil, fun a ha => absurd ha not_mem_nil⟩
    rw [toFinset_newSet, toFinset_nil, Finset.sdiff_empty]
  revert hstart
  generalize (newSet record, ([] : List Str)) = s
  intro hstart
  induction l generalizing s with
  | nil => exact hstart
  | cons tag l ih => exact ih _ (hstart.step tag)

end DdTrace.Llmobs
