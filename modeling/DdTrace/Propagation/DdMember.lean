import DdTrace.Propagation.TextMap

/-!
# The `dd` member of `tracestate`

What injection writes into the member and what extraction reads out of it, entry by entry.

* `injectDd_eq`: injection is a list of writes, on top of the entries that the context inherited.
* `get_ddState`: the value under a key is that of the last write to it, or the inherited one.
* `priority_foldl`, `origin_foldl`, `tags_foldl`: extraction reads each field of the context from
  the one entry that is its own.
* `tagKey_eq_iff`: two tags share an entry exactly when their keys agree after the replacement of
  the characters that the entry cannot hold.
-/

namespace DdTrace.TextMap

open Library List Option OrderedMap

/-! ## What injection writes -/

/-- The entry of the parent span. -/
def parentWrites (ctx : SpanContext) : List (Str × DataValue) :=
  if ctx.isRemote = false then [(lit "p", (ctx.spanId.map .identifier).getD .undefined)]
  else
    match ctx.trace.tags.get? DD_PARENT_ID with
    | some parentId => if parentId ≠ [] then [(lit "p", .text parentId)] else []
    | none => []

/-- The entry of the sampling mechanism. -/
def mechanismWrites (ctx : SpanContext) : List (Str × DataValue) :=
  match truthy ctx.sampling.mechanism with
  | some mechanism => [(lit "t.dm", .text (unit '-' :: mechanism.toString))]
  | none => []

/-- The entry of the origin. -/
def originWrites (ctx : SpanContext) : List (Str × DataValue) :=
  match ctx.trace.origin with
  | some origin => [(lit "o", .text (originValue origin))]
  | none => []

/-- The entries of the trace tags. -/
def tagWrites (ctx : SpanContext) : List (Str × DataValue) :=
  (ctx.trace.tags.entries.filter isInjected).map fun e => (tagKey e.1, .text (tagValue e.2))

/-- The writes of an injection, in order. -/
def ddWrites (ctx : SpanContext) : List (Str × DataValue) :=
  parentWrites ctx ++ (lit "s", (ctx.sampling.priority.map .number).getD .undefined) ::
    (mechanismWrites ctx ++ (originWrites ctx ++ tagWrites ctx))

def applyWrites (state : TraceStateData) (l : List (Str × DataValue)) : TraceStateData :=
  l.foldl (fun state e => state.set e.1 e.2) state

variable (state : TraceStateData)

theorem applyWrites_append (l m : List (Str × DataValue)) :
    applyWrites state (l ++ m) = applyWrites (applyWrites state l) m := foldl_append

theorem applyWrites_cons (e : Str × DataValue) (l : List (Str × DataValue)) :
    applyWrites state (e :: l) = applyWrites (state.set e.1 e.2) l := rfl

variable (ctx : SpanContext)

/-- **Injection is a list of writes.** -/
theorem injectDd_eq : injectDd ctx state = applyWrites state (ddWrites ctx) := by
  have hparent : applyWrites state (parentWrites ctx) =
      if ctx.isRemote = false then
        state.set (lit "p") ((ctx.spanId.map .identifier).getD .undefined)
      else
        match ctx.trace.tags.get? DD_PARENT_ID with
        | some parentId => if parentId ≠ [] then state.set (lit "p") (.text parentId) else state
        | none => state := by
    unfold parentWrites
    split
    · rfl
    · split
      · split <;> rfl
      · rfl
  have hmechanism : ∀ state : TraceStateData, applyWrites state (mechanismWrites ctx) =
      match truthy ctx.sampling.mechanism with
      | some mechanism => state.set (lit "t.dm") (.text (unit '-' :: mechanism.toString))
      | none => state := by
    intro state
    unfold mechanismWrites
    split <;> rfl
  have horigin : ∀ state : TraceStateData, applyWrites state (originWrites ctx) =
      match ctx.trace.origin with
      | some origin => state.set (lit "o") (.text (originValue origin))
      | none => state := by
    intro state
    unfold originWrites
    split <;> rfl
  have htags : ∀ state : TraceStateData, applyWrites state (tagWrites ctx) =
      ctx.trace.tags.entries.foldl (fun state e =>
        if isInjected e then state.set (tagKey e.1) (.text (tagValue e.2)) else state) state := by
    intro state
    rw [applyWrites, tagWrites, foldl_map, foldl_filter]
  rw [ddWrites, applyWrites_append, applyWrites_cons, applyWrites_append, applyWrites_append,
    hparent, hmechanism, horigin, htags]
  rfl

theorem map_applyWrites (l : List (Str × DataValue)) :
    (applyWrites state l).map = l.foldl (fun m e => m.set e.1 e.2) state.map := by
  induction l generalizing state with
  | nil => rfl
  | cons e l ih => rw [applyWrites_cons, ih, TraceStateData.map_set, foldl_cons]

theorem changed_applyWrites {state : TraceStateData} (h : state.changed = true)
    (l : List (Str × DataValue)) : (applyWrites state l).changed = true := by
  induction l generalizing state with
  | nil => exact h
  | cons e l ih => exact ih (TraceStateData.changed_set h e.1 e.2)

/-- The entries of the member that the context came with. -/
def inherited (ctx : SpanContext) : OrderedMap Str DataValue :=
  (TraceStateData.fromString ((ctx.tracestate.getD {}).get (lit "dd"))).map

/-- The entries of the member after injection. -/
def ddState (ctx : SpanContext) : OrderedMap Str DataValue :=
  (ddWrites ctx).foldl (fun m e => m.set e.1 e.2) (inherited ctx)

theorem get_ddState (k : Str) :
    (ddState ctx).get? k = (OrderedMap.lastValue (ddWrites ctx) k).or ((inherited ctx).get? k) :=
  get?_foldl_set _ _ _

/-- The keys of the member after injection, in the order they joined. -/
def ddKeys (ctx : SpanContext) : List Str :=
  ((ddWrites ctx).map Prod.fst).foldl OrderedMap.addKey (inherited ctx).keys

theorem keys_ddState : (ddState ctx).keys = ddKeys ctx :=
  keys_foldl_set _ _

/-! ## What extraction reads -/

theorem isPrefixOf_iff {p s : Str} : p.isPrefixOf s = true ↔ ∃ t, s = p ++ t := by
  rw [ isPrefixOf_iff_prefix]
  exact ⟨fun ⟨t, h⟩ => ⟨t, h.symm⟩, fun ⟨t, h⟩ => ⟨t, h.symm⟩⟩

/-- What an entry `t.x` gives for the tag `_dd.p.x`. -/
def readTag (x value : Str) : Option Str :=
  if x = lit "dm" then (readMechanism value).map Prod.snd
  else if x = lit "tid" then none
  else some (Str.replace (unit '~') (unit '=') value)

/-- The key of the entry for the tag `_dd.p.x`. -/
def tagEntry (x : Str) : Str := lit "t." ++ x

theorem tagEntry_injective {x y : Str} (h : tagEntry x = tagEntry y) : x = y :=
  append_cancel_left h

theorem tagPrefix_injective {x y : Str} (h : tagPrefix ++ x = tagPrefix ++ y) : x = y :=
  append_cancel_left h

theorem parent_ne_tag (x : Str) : tagPrefix ++ x ≠ DD_PARENT_ID := by
  intro h
  have h5 := congrArg (fun s : Str => s[5]?) h
  exact absurd h5 (by
    rw [getElem?_append_left (by decide)]
    decide)

theorem tagEntry_ne_of_head {k : Str} (x : Str) (h : k.head? ≠ some (unit 't')) :
    k ≠ tagEntry x := by
  rintro rfl
  exact h rfl

theorem tags_setTraceTag (key value k : Str) : (setTraceTag ctx key value).trace.tags.get? k =
      if k = key then some value else ctx.trace.tags.get? k := get?_set _ _ _ _

/-- An entry changes the tag that is its own and no other. -/
theorem tags_extractDdEntry (k v x : Str) :
    (extractDdEntry ctx (k, v)).trace.tags.get? (tagPrefix ++ x) =
      if k = tagEntry x then (readTag x v).or (ctx.trace.tags.get? (tagPrefix ++ x))
      else ctx.trace.tags.get? (tagPrefix ++ x) := by
  unfold extractDdEntry
  dsimp only
  by_cases hp : k = lit "p"
  · rw [if_pos hp, if_neg (tagEntry_ne_of_head x (by rw [hp]; decide)), tags_setTraceTag,
      if_neg (parent_ne_tag x)]
  rw [if_neg hp]
  by_cases hs : k = lit "s"
  · rw [if_pos hs, if_neg (tagEntry_ne_of_head x (by rw [hs]; decide))]
    split <;> rfl
  rw [if_neg hs]
  by_cases ho : k = lit "o"
  · rw [if_pos ho, if_neg (tagEntry_ne_of_head x (by rw [ho]; decide))]
  rw [if_neg ho]
  by_cases hdm : k = lit "t.dm"
  · rw [if_pos hdm]
    have hdm' : k = tagEntry (lit "dm") := hdm
    by_cases hx : x = lit "dm"
    · subst hx
      rw [if_pos hdm', readTag]
      rcases readMechanism v with _ | ⟨mechanism, tag⟩
      · rfl
      · show (setTraceTag _ (tagPrefix ++ lit "dm") tag).trace.tags.get? _ = _
        rw [tags_setTraceTag]
        rfl
    · rw [if_neg fun h => hx (tagEntry_injective (h.symm.trans hdm'))]
      rcases readMechanism v with _ | ⟨mechanism, tag⟩
      · rfl
      · show (setTraceTag _ (tagPrefix ++ lit "dm") tag).trace.tags.get? _ = _
        rw [tags_setTraceTag, if_neg fun h => hx (tagPrefix_injective h)]
  rw [if_neg hdm]
  by_cases ht : (lit "t.").isPrefixOf k = true
  · obtain ⟨y, hy⟩ := isPrefixOf_iff.mp ht
    have hy' : k = tagEntry y := hy
    have hdrop : k.drop 2 = y := by
      rw [hy]
      exact drop_left' rfl
    have hne : y ≠ lit "dm" := fun h => hdm (by rw [hy, h]; rfl)
    rw [if_pos ht, hdrop]
    by_cases hx : x = y
    · subst hx
      rw [if_pos hy', readTag, if_neg hne]
      by_cases htid : x = lit "tid"
      · rw [if_pos htid, if_pos htid, none_or]
      · rw [if_neg htid, if_neg htid, tags_setTraceTag, if_pos rfl]
        rfl
    · have hkx : k ≠ tagEntry x := fun h => hx (tagEntry_injective (h.symm.trans hy'))
      rw [if_neg hkx]
      by_cases htid : y = lit "tid"
      · rw [if_pos htid]
      · rw [if_neg htid, tags_setTraceTag, if_neg fun h => hx (tagPrefix_injective h)]
  · have hkx : k ≠ tagEntry x := fun h => ht (isPrefixOf_iff.mpr ⟨x, h⟩)
    rw [if_neg ht, if_neg hkx]

variable {l : List (Str × Str)}

/-- **The tags that extraction ends with**, when no key repeats. -/
theorem tags_foldl (hl : (l.map Prod.fst).Nodup) (ctx : SpanContext) (x : Str) :
    (l.foldl extractDdEntry ctx).trace.tags.get? (tagPrefix ++ x) =
      ((OrderedMap.lastValue l (tagEntry x)).bind (readTag x)).or
        (ctx.trace.tags.get? (tagPrefix ++ x)) := by
  induction l generalizing ctx with
  | nil => rfl
  | cons e l ih =>
    obtain ⟨k, v⟩ := e
    rw [map_cons, nodup_cons] at hl
    rw [foldl_cons, ih hl.2, tags_extractDdEntry, OrderedMap.lastValue]
    by_cases hk : k = tagEntry x
    · rw [if_pos hk, if_pos hk, lastValue_eq_none_iff.mpr (hk ▸ hl.1)]
      rfl
    · rw [if_neg hk, if_neg hk, or_none]

theorem priority_extractDdEntry (k v : Str) : (extractDdEntry ctx (k, v)).sampling.priority =
      if k = lit "s" then
        ((Integral.parseInt 10 v).map (refinePriority ctx.sampling.priority)).getD
          ctx.sampling.priority
      else ctx.sampling.priority := by
  unfold extractDdEntry
  dsimp only
  by_cases hp : k = lit "p"
  · subst hp
    rfl
  rw [if_neg hp]
  by_cases hs : k = lit "s"
  · rw [if_pos hs, if_pos hs]
    rcases Integral.parseInt 10 v with _ | z <;> rfl
  split_ifs
  · rfl
  · split <;> rfl
  · rfl
  · rfl
  · rfl

/-- The priority that extraction ends with, when no key repeats. -/
theorem priority_foldl (hl : (l.map Prod.fst).Nodup) (ctx : SpanContext) :
    (l.foldl extractDdEntry ctx).sampling.priority =
      (((OrderedMap.lastValue l (lit "s")).bind (Integral.parseInt 10)).map
        (refinePriority ctx.sampling.priority)).getD ctx.sampling.priority := by
  induction l generalizing ctx with
  | nil => rfl
  | cons e l ih =>
    obtain ⟨k, v⟩ := e
    rw [map_cons, nodup_cons] at hl
    rw [foldl_cons, ih hl.2, priority_extractDdEntry, OrderedMap.lastValue]
    by_cases hk : k = lit "s"
    · rw [if_pos hk, if_pos hk, lastValue_eq_none_iff.mpr (hk ▸ hl.1)]
      rfl
    · rw [if_neg hk, if_neg hk, or_none]

theorem origin_extractDdEntry (k v : Str) : (extractDdEntry ctx (k, v)).trace.origin =
      if k = lit "o" then some (Str.replace (unit '~') (unit '=') v) else ctx.trace.origin := by
  unfold extractDdEntry
  dsimp only
  by_cases hp : k = lit "p"
  · subst hp
    rfl
  rw [if_neg hp]
  by_cases hs : k = lit "s"
  · subst hs
    rcases Integral.parseInt 10 v with _ | z <;> rfl
  rw [if_neg hs]
  by_cases ho : k = lit "o"
  · rw [if_pos ho, if_pos ho]
  split_ifs
  · split <;> rfl
  · rfl
  · rfl
  · rfl

/-- The origin that extraction ends with, when no key repeats. -/
theorem origin_foldl (hl : (l.map Prod.fst).Nodup) (ctx : SpanContext) :
    (l.foldl extractDdEntry ctx).trace.origin =
      ((OrderedMap.lastValue l (lit "o")).map (Str.replace (unit '~') (unit '='))).or
        ctx.trace.origin := by
  induction l generalizing ctx with
  | nil => rfl
  | cons e l ih =>
    obtain ⟨k, v⟩ := e
    rw [map_cons, nodup_cons] at hl
    rw [foldl_cons, ih hl.2, origin_extractDdEntry, OrderedMap.lastValue]
    by_cases hk : k = lit "o"
    · rw [if_pos hk, if_pos hk, lastValue_eq_none_iff.mpr (hk ▸ hl.1)]
      rfl
    · rw [if_neg hk, if_neg hk, or_none]

end DdTrace.TextMap
