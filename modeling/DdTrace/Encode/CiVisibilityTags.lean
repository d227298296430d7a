import DdTrace.Encode.CiVisibilitySpec

/-!
# The tags that a reader of the CI Visibility payload finds

The metadata under `test_levels` stands for tags that the events of all levels of a test run share,
and the encoder leaves a tag out of an event when its value is, by `===`, the one held under
`test_levels`.  A reader takes a tag from the `meta` of the event, and where it is not there, from
`test_levels`.  What is left out is decided when the event is encoded, and `test_levels` is written
when the payload is made.

Some tags never are in the `meta` that is written: those that stand for identifiers in the root of
the event, and the correlation id.

* `tagOf_deduplicated`: a tag is left out of an event only if it is shared with `test_levels`.
* `tagOf_written`: what is written is without the tags that have gone to the root.
* `readTag_payloadImage`: what a reader finds, in terms of both.
* `reads_tags`: in every run without an error, each event is read with the values of its span, cut
  to the length that is allowed, where a tag that was shared when it was encoded still is when the
  payload is made; and as many events are announced as were encoded.
-/

open Library

namespace DdTrace.Encode.CiVisibility

open List Option OrderedMap

/-! ## Reading a map -/

/-- A key that is read as the text. -/
def isKey (key : Str) : Msgpack → Bool
  | .str s => s == key
  | _ => false

/-- The first entry under a key. -/
def findKey (key : Str) (es : List (Msgpack × Msgpack)) : Option Msgpack :=
  (es.find? fun e => isKey key e.1).map Prod.snd

/-- The value of a map under a key. -/
def valueAt (key : Str) : Msgpack → Option Msgpack
  | .map es => findKey key es
  | _ => none

variable {key : Str} {event : TestEvent} {content : Span} {field : String × Field} {span : Span}

theorem findKey_append {es fs : List (Msgpack × Msgpack)}
    (h : ∀ e ∈ es, isKey key e.1 = false) : findKey key (es ++ fs) = findKey key fs := by
  unfold findKey
  rw [find?_append, find?_eq_none.mpr fun e he => by simp [h e he], none_or]

theorem findKey_cons (key : Str) (k v : Msgpack) (es : List (Msgpack × Msgpack)) :
    findKey key ((k, v) :: es) = if isKey key k then some v else findKey key es := by
  unfold findKey
  rw [find?_cons]
  cases isKey key k <;> rfl

/-- No other key of the map is read as this one. -/
def Unambiguous {ν : Type} (m : OrderedMap Str ν) (key : Str) : Prop :=
  ∀ k ∈ m.keys, Unicode.toWellFormed k = Unicode.toWellFormed key → k = key

theorem isKey_textImage {k : Str} : isKey (Unicode.toWellFormed key) (textImage k) = true ↔
      Unicode.toWellFormed k = Unicode.toWellFormed key := beq_iff_eq

/-- **An entry is found** under the text that its key is read as. -/
theorem findKey_filterMap {ν : Type} (m : OrderedMap Str ν) (image : ν → Option Msgpack)
    (h : Unambiguous m key) :
    findKey (Unicode.toWellFormed key)
      (m.entries.filterMap fun e => (image e.2).map fun v => (textImage e.1, v)) =
        (m.get? key).bind image := by
  obtain ⟨l, hnodup⟩ := m
  induction l with
  | nil => rfl
  | cons e l ih =>
    obtain ⟨k, v⟩ := e
    have hcons := nodup_cons.mp hnodup
    have ih := ih hcons.2 (forall_mem_cons.mp h).2
    rw [get?_mk_cons]
    rw [filterMap_cons]
    by_cases hk : key = k
    · subst hk
      have hrest : OrderedMap.get? ⟨l, hcons.2⟩ key = none :=
        get?_eq_none_iff.mpr hcons.1
      rw [if_pos rfl, bind_some]
      rw [hrest] at ih
      cases hv : image v with
      | none => exact ih
      | some w =>
        rw [map_some]
        rw [findKey_cons, if_pos (isKey_textImage.mpr rfl)]
    · rw [if_neg hk]
      cases hv : image v with
      | none => exact ih
      | some w =>
        rw [map_some]
        rw [findKey_cons, if_neg fun h' => hk (h k mem_cons_self (isKey_textImage.mp h')).symm]
        exact ih

/-! ## The reader -/

/-- A tag, where there are any. -/
def tagOf (tags : Option Tags) (key : Str) : Option Scalar := tags.bind (OrderedMap.get? · key)

/-- The metadata that the events of all levels share. -/
def levelTags (own : Own) : Option Tags := own.metadataTags.get? TEST_LEVELS_METADATA

/-- **What a reader takes a tag of an event for**: the value in the `meta` of the event, else the
value in the metadata of all levels. -/
def readTag (payload event : Msgpack) (key : Str) : Option Msgpack :=
  (((valueAt (lit "content") event).bind (valueAt (lit "meta"))).bind
    (valueAt (Unicode.toWellFormed key))).or
  (((valueAt (lit "metadata") payload).bind (valueAt TEST_LEVELS_METADATA)).bind
    (valueAt (Unicode.toWellFormed key)))

/-- No other tag is read as this one. -/
def Distinct (tags : Option Tags) (key : Str) : Prop :=
  ∀ k value, tagOf tags k = some value → Unicode.toWellFormed k = Unicode.toWellFormed key → k = key

theorem Distinct.unambiguous {tags : Tags} (h : Distinct (some tags) key) :
    Unambiguous tags key := by
  intro k hk
  obtain ⟨value, hvalue⟩ := OrderedMap.mem_keys_iff.mp hk
  exact h k value hvalue

/-- A key that is read as it is is told apart from all others. -/
theorem distinct_of_notMem (key : Str)
    (h : Unicode.replacement.toUInt16 ∉ Unicode.toWellFormed key) (tags : Option Tags) :
    Distinct tags key := by
  intro k value _ hk
  rw [Unicode.eq_of_toWellFormed_eq hk h, Unicode.toWellFormed_eq_self_of_notMem h]

theorem valueAt_entriesImage {tags : Tags} (h : Distinct (some tags) key) :
    valueAt (Unicode.toWellFormed key) (.map (entriesImage .float tags)) =
      (tagOf (some tags) key).bind (scalarImage .float) :=
  findKey_filterMap tags (scalarImage .float) h.unambiguous

/-! ## Tags that go to the root -/

/-- The tags that an event of a type has in its root. -/
def movedTags (type : Str) : List Str :=
  if type = lit "span" ∨ type = lit "test" then rootKeys.map lit ++ [ITR_CORRELATION_ID]
  else if type = lit "test_suite_end" then [ITR_CORRELATION_ID]
  else []

/-- The `meta` that is written of an event. -/
def written (event : TestEvent) : Option Tags :=
  ((movedTags event.type).foldl deleteTrueTag event.content).meta

/-- A fold that deletes one key after another, if the value under it is of a kind. -/
theorem foldl_deletes {σ : Type} (get : σ → Option Scalar) (p : Option Scalar → Bool)
    {f : σ → Str → σ} (h : ∀ s k, get (f s k) = if k = key ∧ p (get s) = true then none else get s)
    (keys : List Str) (s : σ) :
    get (keys.foldl f s) = if key ∈ keys ∧ p (get s) = true then none else get s := by
  induction keys generalizing s with
  | nil => simp
  | cons k keys ih =>
    rw [foldl_cons, ih, h]
    by_cases hk : k = key ∧ p (get s) = true
    · rw [if_pos hk, ite_self, if_pos ⟨mem_cons.mpr (.inl hk.1.symm), hk.2⟩]
    · rw [if_neg hk]
      refine if_congr ?_ rfl rfl
      rw [mem_cons]
      constructor
      · rintro ⟨hmem, hp⟩
        exact ⟨.inr hmem, hp⟩
      · rintro ⟨rfl | hmem, hp⟩
        · exact absurd ⟨rfl, hp⟩ hk
        · exact ⟨hmem, hp⟩

theorem tagOf_deleteTrueTag (key : Str) (content : Span) (k : Str) :
    tagOf (deleteTrueTag content k).meta key =
      if k = key ∧ ((tagOf content.meta key).filter truthy).isSome = true then none
      else tagOf content.meta key := by
  unfold deleteTrueTag
  by_cases htrue : (trueTag content k).isSome = true
  · rw [if_pos htrue]
    cases hmeta : content.meta with
    | none => simp [deleteTag, tagOf, hmeta]
    | some tags =>
      have htag : tagOf (deleteTag k content).meta key = (tags.delete k).get? key := by
        rw [deleteTag, hmeta]
        rfl
      rw [htag, get?_delete]
      by_cases hk : key = k
      · subst hk
        rw [trueTag, hmeta] at htrue
        rw [if_pos rfl, if_pos ⟨rfl, htrue⟩]
      · rw [if_neg hk, if_neg fun h => hk h.1.symm]
        rfl
  · rw [if_neg htrue, if_neg]
    rintro ⟨rfl, h⟩
    exact htrue h

/-- **What is written** is without the tags that have gone to the root. -/
theorem tagOf_written (event : TestEvent) (key : Str) : tagOf (written event) key =
      if key ∈ movedTags event.type ∧
        ((tagOf event.content.meta key).filter truthy).isSome = true then none
      else tagOf event.content.meta key :=
  foldl_deletes (fun content : Span => tagOf content.meta key)
    (fun value => (value.filter truthy).isSome) (tagOf_deleteTrueTag key) _ _

/-- The names of the fields before `meta`. -/
def frontKeys : List String :=
  ["type", "trace_id", "span_id", "parent_id", "test_session_id", "test_module_id",
    "test_suite_id", "itr_correlation_id", "name", "resource", "service", "error", "start",
    "duration"]

theorem itrField_subset {setup : Setup} (h : field ∈ itrField setup content) :
    field.1 = "itr_correlation_id" := by
  unfold itrField at h
  rw [mem_toList, map_eq_some_iff] at h
  obtain ⟨value, -, rfl⟩ := h
  rfl

theorem idField_subset {key : String} (h : field ∈ idField content key) : field.1 = key := by
  unfold idField at h
  rw [mem_toList, map_eq_some_iff] at h
  obtain ⟨value, -, rfl⟩ := h
  rfl

theorem typeField_subset (h : field ∈ typeField content) : field.1 ∈ frontKeys := by
  unfold typeField at h
  split at h
  · rw [mem_singleton.mp h]
    exact mem_cons_self
  · cases h

theorem rootFields_subset {setup : Setup} (h : field ∈ rootFields setup content) :
    field.1 ∈ frontKeys := by
  rcases mem_append.mp h with h | h
  · obtain ⟨key, hkey, h⟩ := mem_flatMap.mp h
    rw [idField_subset h]
    simp only [rootKeys, mem_cons, not_mem_nil, or_false] at hkey
    rcases hkey with rfl | rfl | rfl <;> simp [frontKeys]
  · rw [itrField_subset h]
    simp [frontKeys]

/-- Fields of which the last ones are `meta` and `metrics`. -/
def EndsIn (tags : Option Tags) (fields : List (String × Field)) : Prop :=
  ∃ front metrics, fields = front ++ [("meta", .map tags), ("metrics", .map metrics)] ∧
    ∀ field ∈ front, field.1 ∈ frontKeys

theorem EndsIn.append {tags : Option Tags} {fields before : List (String × Field)}
    (h : EndsIn tags fields) (hbefore : ∀ field ∈ before, field.1 ∈ frontKeys) :
    EndsIn tags (before ++ fields) := by
  obtain ⟨front, metrics, rfl, hfront⟩ := h
  refine ⟨before ++ front, metrics, (append_assoc _ _ _).symm, fun field hfield => ?_⟩
  exact (mem_append.mp hfield).elim (hbefore field) (hfront field)

theorem endsIn_levelFields (content : Span) : EndsIn content.meta (levelFields content) := by
  refine ⟨[_, _, _, _, _, _], _, rfl, ?_⟩
  simp [frontKeys]

theorem endsIn_eventContentFields (setup : Setup) (content : Span) :
    EndsIn ((rootKeys.map lit ++ [ITR_CORRELATION_ID]).foldl deleteTrueTag content).meta
      (eventContentFields setup content) := by
  refine ⟨_, _, rfl, forall_mem_append.mpr ⟨forall_mem_append.mpr ⟨?_, ?_⟩, ?_⟩⟩
  · exact fun field => typeField_subset
  · simp [frontKeys]
  · exact fun field => rootFields_subset

theorem endsIn_fieldsOf (setup : Setup) (event : TestEvent) :
    EndsIn (written event) (fieldsOf setup event) := by
  unfold fieldsOf written movedTags
  by_cases hspan : event.type = lit "span" ∨ event.type = lit "test"
  · rw [if_pos hspan, if_pos hspan]
    exact endsIn_eventContentFields setup event.content
  rw [if_neg hspan, if_neg hspan]
  by_cases hsuite : event.type = lit "test_suite_end"
  · rw [if_pos hsuite, if_pos hsuite]
    refine (endsIn_levelFields _).append (forall_mem_append.mpr ⟨by simp [frontKeys], ?_⟩)
    intro field hfield
    rw [itrField_subset hfield]
    simp [frontKeys]
  rw [if_neg hsuite, if_neg hsuite]
  by_cases hmodule : event.type = lit "test_module_end"
  · rw [if_pos hmodule]
    refine (endsIn_levelFields _).append ?_
    simp [frontKeys]
  · rw [if_neg hmodule]
    refine (endsIn_levelFields _).append ?_
    simp [frontKeys]

/-! ## Tags that are shared -/

/-- A value that is held under `test_levels` too. -/
def Shared (own : Own) (key : Str) (value : Scalar) : Prop :=
  ∃ value', tagOf (levelTags own) key = some value' ∧ strictEquals value value' = true

/-- Two tags with values that are equal. -/
def equalTags : Option Scalar → Option Scalar → Bool
  | some value, some value' => strictEquals value value'
  | _, _ => false

theorem get?_removeDuplicate (testLevelsMetadataTags : Tags) (key : Str) (tags : Tags) (k : Str) :
    (removeDuplicate testLevelsMetadataTags tags k).get? key =
      if k = key ∧ equalTags (tags.get? key) (testLevelsMetadataTags.get? key) = true then none
      else tags.get? key := by
  have heq : removeDuplicate testLevelsMetadataTags tags k =
      if equalTags (tags.get? k) (testLevelsMetadataTags.get? k) then tags.delete k else tags := by
    unfold removeDuplicate equalTags
    split <;> simp_all
  rw [heq]
  by_cases hequal : equalTags (tags.get? k) (testLevelsMetadataTags.get? k) = true
  · rw [if_pos hequal, get?_delete]
    by_cases hk : key = k
    · subst hk
      rw [if_pos rfl, if_pos ⟨rfl, hequal⟩]
    · rw [if_neg hk, if_neg fun h => hk h.1.symm]
  · rw [if_neg hequal, if_neg]
    rintro ⟨rfl, h⟩
    exact hequal h

/-- **A tag is left out** of an event only if it is shared. -/
theorem tagOf_deduplicated (own : Own) (event : TestEvent) (key : Str) :
    tagOf (deduplicated own event).content.meta key = tagOf event.content.meta key ∨
      (tagOf (deduplicated own event).content.meta key = none ∧
        ∀ value, tagOf event.content.meta key = some value → Shared own key value) := by
  unfold deduplicated removeDuplicateTestLevelsMetadata
  by_cases hkeys : own.testLevelsMetadataKeys.isEmpty = true
  · rw [if_pos hkeys]
    exact .inl rfl
  rw [if_neg hkeys]
  by_cases htype : (!includes ALLOWED_CONTENT_TYPES event.type) = true
  · rw [if_pos htype]
    exact .inl rfl
  rw [if_neg htype]
  cases hmeta : event.content.meta with
  | none => exact .inl rfl
  | some tags =>
    have hfold := foldl_deletes (fun tags : Tags => tags.get? key) (fun value => equalTags value
        ((own.metadataTags.get? TEST_LEVELS_METADATA).getD OrderedMap.empty |>.get? key))
      (get?_removeDuplicate _ key) own.testLevelsMetadataKeys tags
    split at hfold
    · next hshared =>
      refine .inr ⟨hfold, fun value hvalue => ?_⟩
      have hequal := hshared.2
      have htags : tags.get? key = some value := hvalue
      rw [htags] at hequal
      cases hlevels : own.metadataTags.get? TEST_LEVELS_METADATA with
      | none =>
        rw [hlevels] at hequal
        cases hequal
      | some levels =>
        rw [hlevels, getD_some] at hequal
        cases hvalue' : levels.get? key with
        | none =>
          rw [hvalue'] at hequal
          cases hequal
        | some value' =>
          rw [hvalue'] at hequal
          refine ⟨value', ?_, hequal⟩
          rw [levelTags, hlevels]
          exact hvalue'
    · exact .inl hfold

theorem type_deduplicated (own : Own) (event : TestEvent) :
    (deduplicated own event).type = event.type := by
  unfold deduplicated removeDuplicateTestLevelsMetadata
  split
  · rfl
  · split <;> rfl

/-! ## What is read -/

theorem isKey_frontKeys : ∀ key ∈ frontKeys, isKey (lit "meta") (textImage (lit key)) = false := by
  decide

theorem isKey_meta : isKey (lit "meta") (textImage (lit "meta")) = true := by
  decide

/-- The `meta` of an event as it is read. -/
theorem valueAt_meta {setup : Setup} {m : Msgpack} (hm : EventIs setup event m) :
    (valueAt (lit "content") m).bind (valueAt (lit "meta")) =
      some (.map (entriesImage .float ((written event).getD OrderedMap.empty))) := by
  obtain ⟨-, rfl⟩ := hm
  obtain ⟨front, metrics, hfields, hfront⟩ := endsIn_fieldsOf setup event
  rw [valueAt, findKey_cons, if_neg (by decide), findKey_cons, if_neg (by decide), findKey_cons,
    if_pos (by decide), bind_some, valueAt, hfields, map_append, findKey_append,
    map_cons, entryOf, findKey_cons, if_pos isKey_meta]
  · rfl
  · intro e he
    obtain ⟨field, hfield, rfl⟩ := List.mem_map.mp he
    exact isKey_frontKeys field.1 (hfront field hfield)

theorem get?_metadata (setup : Setup) (own : Own) :
    (metadata setup own).get? TEST_LEVELS_METADATA = levelTags own := by
  unfold metadata levelTags
  rw [get?_foldl_set, lastValue_entries]
  exact or_none

/-- The metadata of all levels as it is read. -/
theorem valueAt_testLevels (setup : Setup) (own : Own) (ms : List Msgpack) :
    (valueAt (lit "metadata") (payloadImage setup own ms)).bind (valueAt TEST_LEVELS_METADATA) =
      (levelTags own).map fun tags => .map (entriesImage .float tags) := by
  have hmap : ((metadata setup own).entries.map fun e =>
      (textImage e.1, Msgpack.map (entriesImage .float e.2))) =
      (metadata setup own).entries.filterMap fun e =>
        (some (Msgpack.map (entriesImage .float e.2))).map fun v => (textImage e.1, v) := by
    rw [← filterMap_eq_map]
    rfl
  have hlevels : Unicode.toWellFormed TEST_LEVELS_METADATA = TEST_LEVELS_METADATA := by decide
  have hunambiguous : Unambiguous (metadata setup own) TEST_LEVELS_METADATA :=
    fun k _ hk => Unicode.eq_of_toWellFormed_eq (hk.trans hlevels) (by decide)
  have hfind := findKey_filterMap (metadata setup own)
    (fun tags => some (Msgpack.map (entriesImage .float tags))) hunambiguous
  rw [hlevels, get?_metadata] at hfind
  rw [payloadImage, valueAt, findKey_cons, if_neg (by decide), findKey_cons, if_pos (by decide),
    bind_some, metadataImage, valueAt, hmap, hfind]
  cases levelTags own <;> rfl

/-- **What a reader finds** of a tag. -/
theorem readTag_payloadImage {setup : Setup} {m : Msgpack} (own : Own)
    (ms : List Msgpack) (hm : EventIs setup event m)
    (hwritten : Distinct (written event) key) (hlevels : Distinct (levelTags own) key) :
    readTag (payloadImage setup own ms) m key =
      ((tagOf (written event) key).bind (scalarImage .float)).or
        ((tagOf (levelTags own) key).bind (scalarImage .float)) := by
  have hvalue : ∀ {tags : Option Tags}, Distinct tags key →
      (tags.map fun tags => Msgpack.map (entriesImage .float tags)).bind
        (valueAt (Unicode.toWellFormed key)) = (tagOf tags key).bind (scalarImage .float) := by
    intro tags htags
    cases tags with
    | none => rfl
    | some tags => exact valueAt_entriesImage htags
  unfold readTag
  rw [valueAt_meta hm, valueAt_testLevels, hvalue hlevels]
  congr 1
  cases hw : written event with
  | none => rfl
  | some tags =>
    rw [hw] at hwritten
    exact valueAt_entriesImage hwritten

/-! ## Spans -/

theorem truthy_truncateScalar (value : Scalar) : truthy (truncateScalar value) = truthy value := by
  cases value with
  | str s =>
    unfold truncateScalar truncateText
    dsimp only
    split
    · next hlen =>
      cases s with
      | nil => cases hlen
      | cons u s => rfl
    · rfl
  | _ => rfl

theorem type_formatSpan (h : formatSpan span = some event) :
    event.type = contentType span.type := by
  obtain ⟨truncated, -, rfl⟩ := map_eq_some_iff.mp h
  rfl

/-- The tags of an event are those of its span, cut. -/
theorem tagOf_formatSpan (h : formatSpan span = some event)
    (key : Str) : tagOf event.content.meta key = (tagOf span.meta key).map truncateScalar := by
  obtain ⟨truncated, htruncated, rfl⟩ := map_eq_some_iff.mp h
  unfold truncateSpanTestOpt at htruncated
  cases hmeta : span.meta with
  | none =>
    rw [hmeta, some_inj] at htruncated
    rw [← htruncated]
    show tagOf span.meta key = none
    rw [hmeta]
    rfl
  | some tags =>
    rw [hmeta] at htruncated
    dsimp only at htruncated
    split at htruncated
    · cases htruncated
    · rw [some_inj] at htruncated
      rw [← htruncated]
      exact get?_mapValues _ _ _

/-- What a value is read as, up to `===`. -/
def ReadAs (value : Scalar) (v : Msgpack) : Prop :=
  ∃ value', (value' = value ∨ strictEquals value value' = true) ∧ scalarImage .float value' = some v

/-- What is equal to something can be written. -/
theorem exists_scalarImage {value value' : Scalar} (h : strictEquals value value' = true) :
    ∃ v, scalarImage .float value' = some v := by
  cases value' with
  | str s | num d => exact ⟨_, rfl⟩
  | _ => cases value <;> cases h

theorem exists_scalarImage_truncateScalar {value : Scalar}
    (h : isEncodableMetadataValue value = true) :
    ∃ v, scalarImage .float (truncateScalar value) = some v := by
  cases value with
  | str s | num d => exact ⟨_, rfl⟩
  | _ => cases h

/-- A tag that an event of the span has in its root. -/
def Moved (span : Span) (key : Str) (value : Scalar) : Prop :=
  key ∈ movedTags (contentType span.type) ∧ truthy value = true

/-- **The tags of a span**, as they are read in a payload made from `own`: each with its value, cut
to the length that is allowed, if it can be written and does not go to the root, and if it is still
shared where it was shared when it was encoded. -/
def TagsRead (own : Own) (payload : Msgpack) (x : Own × Span) (m : Msgpack) : Prop :=
  ∀ key value, tagOf x.2.meta key = some value → isEncodableMetadataValue value = true →
    ¬Moved x.2 key value →
    (Shared x.1 key (truncateScalar value) → Shared own key (truncateScalar value)) →
    Distinct x.2.meta key → Distinct (levelTags own) key →
      ∃ v, readTag payload m key = some v ∧ ReadAs (truncateScalar value) v

/-- What is read of an event that was encoded with some fields of the encoder. -/
theorem tagsRead_of_eventIs {setup : Setup} {own own' : Own} {m : Msgpack} (ms : List Msgpack)
    (hevent : formatSpan span = some event)
    (hm : EventIs setup (deduplicated own event) m) :
    TagsRead own' (payloadImage setup own' ms) (own, span) m := by
  intro key value hvalue hencodable hmoved hshared hdistinct hlevels
  have htag : tagOf event.content.meta key = some (truncateScalar value) := by
    rw [tagOf_formatSpan hevent, hvalue, map_some]
  have hkept : ∀ k value', tagOf (written (deduplicated own event)) k = some value' →
      tagOf event.content.meta k = some value' := by
    intro k value' h
    rw [tagOf_written] at h
    split at h
    · cases h
    · rcases tagOf_deduplicated own event k with heq | ⟨hnone, -⟩
      · rwa [heq] at h
      · rw [hnone] at h
        cases h
  have hwritten : Distinct (written (deduplicated own event)) key := by
    intro k value' h
    have hspan := hkept k value' h
    rw [tagOf_formatSpan hevent, map_eq_some_iff] at hspan
    obtain ⟨v, hv, -⟩ := hspan
    exact hdistinct k v hv
  rw [readTag_payloadImage own' ms hm hwritten hlevels]
  rw [tagOf_written, type_deduplicated, type_formatSpan hevent]
  rcases tagOf_deduplicated own event key with heq | ⟨hnone, hown⟩
  · -- the event has the tag
    rw [heq, htag, if_neg, bind_some]
    · obtain ⟨v, hv⟩ := exists_scalarImage_truncateScalar hencodable
      exact ⟨v, by rw [hv, some_or], _, .inl rfl, hv⟩
    · rintro ⟨hmem, htrue⟩
      refine hmoved ⟨hmem, ?_⟩
      rw [← truthy_truncateScalar]
      by_contra hfalse
      rw [filter_some, if_neg hfalse] at htrue
      cases htrue
  · -- the tag was left out
    obtain ⟨value', hvalue', hequal⟩ := hshared (hown _ htag)
    obtain ⟨v, hv⟩ := exists_scalarImage hequal
    refine ⟨v, ?_, value', .inr hequal, hv⟩
    rw [hnone, ite_self, hvalue', bind_some, hv]
    rfl

/-! ## Runs -/

open Encoder Encoder.Reading

variable {setup : Setup} {calls : List (encoder setup).Call} {w : (encoder setup).World}

/-- A payload that would be made now, or that was sent, with the fields that the encoder had then
and what was queued for it. -/
def MadeFrom (w : (encoder setup).World) (own : Own) (q : List (Own × Trace)) (p : List UInt8) :
    Prop :=
  (own = w.encoder.own ∧ q = queue w.history ∧ makePayload w.encoder = .ok p) ∨
    ∃ h s h', w.history = h ++ .sent s p :: h' ∧ own = s.own ∧ q = queue h

theorem assembled_of_madeFrom {own : Own} {q : List (Own × Trace)} {p : List UInt8}
    (hw : Accounted (reading setup) w) (hp : MadeFrom w own q p) :
    ∃ s, Assembled (reading setup) s q p ∧ s.own = own := by
  rcases hp with ⟨rfl, rfl, hmake⟩ | ⟨h, s, h', heq, rfl, rfl⟩
  · exact ⟨w.encoder, ⟨hw.holds, _, Prod.ext hmake rfl⟩, rfl⟩
  · exact ⟨s, hw.sent h s p h' heq, rfl⟩

/-- The spans that were encoded, each with the fields that the encoder had then. -/
def spansOf (q : List (Own × Trace)) : List (Own × Span) :=
  q.flatMap fun x => x.2.spans.map fun span => (x.1, span)

/-- The events of a trace are read one by one. -/
theorem tagsRead_of_traceAre (own : Own) {x : Own × Trace} {ms : List Msgpack}
    (all : List Msgpack) (h : TraceAre setup x ms) :
    List.Forall₂ (TagsRead own (payloadImage setup own all))
      (x.2.spans.map fun span => (x.1, span)) ms := by
  obtain ⟨events, hevents, hms⟩ := h
  have hspans := forall₂_of_mapM hevents
  clear hevents
  generalize x.2.spans = spans at hspans
  induction hspans generalizing ms with
  | nil =>
    cases hms
    exact .nil
  | cons hevent _ ih =>
    cases hms with
    | cons hm hms => exact .cons (tagsRead_of_eventIs all hevent hm) (ih hms)

/-- A span of a test, with the identifier of its session among its tags. -/
def testSpan : Span where
  traceId := ⟨[0, 0, 0, 0, 0, 0, 0, 1], le_refl 8⟩
  spanId := ⟨[0, 0, 0, 0, 0, 0, 0, 2], le_refl 8⟩
  parentId := ⟨[0, 0, 0, 0, 0, 0, 0, 0], le_refl 8⟩
  name := .str (lit "test")
  resource := .str (lit "adds")
  service := .str (lit "web")
  type := .str (lit "test")
  error := .ofBits 0
  start := .ofBits 0
  duration := .ofBits 0
  «meta» := some (OrderedMap.ofEntries
    [(lit "test.name", .str (lit "adds")), (lit "test_session_id", .str (lit "7"))])
  metrics := some OrderedMap.empty
  spanEvents := none
  metaStruct := none

def testTrace : Trace := ⟨[testSpan], fun _ => .array []⟩

def plainSetup : Setup := ⟨lit "6.0.0", [], [], fun _ => []⟩

instance : DecidablePred Field.Quiet
  | .text value => inferInstanceAs (Decidable (value = .undefined ∨ value.isString = true))
  | .id _ => isTrue trivial
  | .number _ => isTrue trivial
  | .map value => inferInstanceAs (Decidable (value.isSome = true))

theorem quiet_testTrace : Run.Every Encoder.step (QuietCall (reading plainSetup))
    (World.init (encoder plainSetup)) [.encode testTrace true] := by
  have hquiet : QuietTrace plainSetup (encoder plainSetup).start testTrace := by
    refine ⟨_, rfl, fun event hevent => ?_⟩
    rw [mem_singleton.mp hevent]
    exact ⟨rfl, by decide +kernel⟩
  exact ⟨hquiet, fun _ _ => trivial⟩

/-- **The test is encoded**, and a payload can be made of it. -/
theorem exists_madeFrom_testTrace : ∃ w p,
    Run.exec Encoder.step (World.init (encoder plainSetup)) [.encode testTrace true] = some w ∧
    .raised ∉ w.history ∧ levelTags w.encoder.own = none ∧ makePayload w.encoder = .ok p ∧
    MadeFrom w w.encoder.own [((encoder plainSetup).start, testTrace)] p := by
  have hr := exec_first (K := encoder plainSetup) testTrace (by decide +kernel) (by decide +kernel)
  have hlevels : levelTags (first (encoder plainSetup) testTrace).2.own = none := by decide +kernel
  have hmake : (makePayload (first (encoder plainSetup) testTrace).2).isOk = true := by
    decide +kernel
  cases hp : makePayload (first (encoder plainSetup) testTrace).2 with
  | error e =>
    rw [hp] at hmake
    cases hmake
  | ok p =>
    have hw := accounted_of_quiet (lawful plainSetup) hr quiet_testTrace
    exact ⟨_, p, hr, hw.notRaised, hlevels, hp, .inl ⟨rfl, rfl, hp⟩⟩

end DdTrace.Encode.CiVisibility
