import DdTrace.RemoteConfig.Plan

/-!
# The handlers and the tables after them

What `perform` leaves behind when nothing throws.  The handlers decide how each item was received,
its `apply_state` and `apply_error`; they decide nothing else.  `pristine` takes these two fields
out of an item, and up to them the applied configurations are the commit of the transaction
(`perform_eq`).

The calls come in two groups: one for each batch handler whose products are concerned, then one
for each item that no batch handler reported, to the handler of its product.
-/

namespace DdTrace.RemoteConfig

open Library List OrderedMap

variable {F : Type} {h : Handlers} {b : Behaviour F}

/-- An item as it was made, before anybody received it. -/
def pristine (item : RcConfigState F) : RcConfigState F :=
  { item with applyState := .unacknowledged, applyError := [] }

variable {item : RcConfigState F} {handled : List Str} {action : RcAction}

theorem path_of_pristine {item' : RcConfigState F} (h : pristine item' = pristine item) :
    item'.path = item.path := by
  have hpath := congrArg RcConfigState.path h
  exact hpath

theorem product_of_pristine {item' : RcConfigState F} (h : pristine item' = pristine item) :
    item'.product = item.product := by
  have hproduct := congrArg RcConfigState.product h
  exact hproduct

/-! ## One item -/

theorem pristine_ackItem (item : RcConfigState F) (err : Option Str) :
    pristine (ackItem item err) = pristine item := by
  unfold ackItem
  cases err with
  | some text => rfl
  | none =>
    dsimp only
    split <;> rfl

theorem pristine_foldl_ackItem (acks : List (Option Str)) (item : RcConfigState F) :
    pristine (acks.foldl ackItem item) = pristine item := by
  induction acks generalizing item with
  | nil => rfl
  | cons err acks ih => rw [foldl_cons, ih, pristine_ackItem]

theorem pristine_settleItem (item : RcConfigState F) (how : Settlement) :
    pristine (settleItem item how) = pristine item := by
  cases how with
  | ack err => exact pristine_ackItem item err
  | resolved => rfl
  | rejected err => rfl

theorem pristine_applyOutcome (p : Plan F) (outcomes : OrderedMap Str (Option Str))
    (item : RcConfigState F) : pristine (applyOutcome p outcomes item) = pristine item := by
  unfold applyOutcome
  split
  · rcases outcomes.get? item.path with _ | _ | text
    · rfl
    · rfl
    · rfl
  · rfl

/-- A handler changes how the item was received, and nothing else. -/
theorem pristine_callHandlerFor (action : RcAction) (item : RcConfigState F) :
    pristine (callHandlerFor h b action item).1 = pristine item := by
  have hacked : ∀ supportsAck : Bool, pristine (if supportsAck = true then
      (b.single action item).acks.foldl ackItem item else item) = pristine item := by
    intro supportsAck
    cases supportsAck with
    | true => exact pristine_foldl_ackItem _ item
    | false => rfl
  unfold callHandlerFor
  split
  · rfl
  · cases h.single.get? item.product with
    | none => rfl
    | some supportsAck =>
      dsimp only
      rcases (b.single action item).result with _ | _ | _ | text
      · cases supportsAck with
        | true => exact hacked true
        | false => rfl
      all_goals exact hacked supportsAck

/-- The call that an item leads to when no batch handler reported its path. -/
def callsFor (h : Handlers) (action : RcAction) (item : RcConfigState F) : List (Call F) :=
  if item.applyState ≠ .unacknowledged ∧ action ≠ .unapply then []
  else if h.single.has item.product then [.single action item] else []

theorem calls_callHandlerFor (action : RcAction) (item : RcConfigState F) :
    (callHandlerFor h b action item).2.1 = callsFor h action item := by
  unfold callHandlerFor callsFor
  split
  · rfl
  · rw [OrderedMap.has]
    cases h.single.get? item.product with
    | none => rfl
    | some supportsAck =>
      dsimp only
      rcases (b.single action item).result with _ | _ | _ | text <;> rfl

/-! ## `dispatch` -/

/-- The call that `dispatch` makes for an item. -/
def dispatchCalls (h : Handlers) (handled : List Str) (action : RcAction)
    (item : RcConfigState F) : List (Call F) :=
  if includes handled item.path then [] else callsFor h action item

/-- An action on the table, up to how items were received. -/
def act (action : RcAction) (m : AppliedConfigs F) (item : RcConfigState F) : AppliedConfigs F :=
  if action = .unapply then m.delete item.path else m.set item.path (pristine item)

/-- A stage without an error, and what came of it. -/
structure StageEq (st : Stage F) (applied : AppliedConfigs F) (calls : List (Call F)) : Prop where
  thrown : st.thrown = none
  applied : st.applied.mapValues pristine = applied
  calls : st.calls = calls

/-- After an error nothing more is dispatched. -/
theorem dispatchItem_of_thrown {st : Stage F}
    (hst : st.thrown.isSome = true) (item : RcConfigState F) :
    dispatchItem h b handled action st item = st := by
  rw [dispatchItem, if_pos hst]

/-- One item, when nothing is thrown. -/
theorem dispatchItem_eq {st : Stage F}
    (hok : (dispatchItem h b handled action st item).thrown = none) : st.thrown = none ∧
      StageEq (dispatchItem h b handled action st item)
        (act action (st.applied.mapValues pristine) item)
        (st.calls ++ dispatchCalls h handled action item) := by
  have hst : st.thrown = none := by
    cases hs : st.thrown with
    | none => rfl
    | some e =>
      rw [dispatchItem_of_thrown (by rw [hs]; rfl), hs] at hok
      cases hok
  refine ⟨hst, hok, ?_, ?_⟩
  · revert hok
    rw [dispatchItem, hst, if_neg (by simp), act]
    have hp := pristine_callHandlerFor (h := h) (b := b) action item
    by_cases hhandled : includes handled item.path = true
    · simp only [if_pos hhandled]
      intro _
      by_cases ha : action = .unapply
      · rw [if_pos ha, if_pos ha, mapValues_delete]
      · rw [if_neg ha, if_neg ha, mapValues_set]
    · simp only [if_neg hhandled]
      rcases hcall : callHandlerFor h b action item with ⟨item', calls, thrown⟩
      rw [hcall] at hp
      cases thrown with
      | some e => exact nofun
      | none =>
        intro _
        by_cases ha : action = .unapply
        · simp only [ha, if_true, mapValues_delete]
        · simp only [ha, if_false, mapValues_set, hp]
  · rw [dispatchItem, hst, if_neg (by simp), dispatchCalls]
    by_cases hhandled : includes handled item.path = true
    · simp only [if_pos hhandled]
    · simp only [if_neg hhandled]
      rw [← calls_callHandlerFor (h := h) (b := b)]
      rcases callHandlerFor h b action item with ⟨item', calls, thrown⟩
      cases thrown with
      | some e => rfl
      | none => rfl

/-- A whole list, when nothing is thrown. -/
theorem dispatch_eq {list : List (RcConfigState F)}
    {st : Stage F} (hok : (dispatch h b handled list action st).thrown = none) :
    st.thrown = none ∧ StageEq (dispatch h b handled list action st)
      (list.foldl (act action) (st.applied.mapValues pristine))
      (st.calls ++ list.flatMap (dispatchCalls h handled action)) := by
  induction list generalizing st with
  | nil => exact ⟨hok, hok, rfl, (append_nil _).symm⟩
  | cons item list ih =>
    obtain ⟨hitem, heq⟩ := ih hok
    obtain ⟨hst, hfirst⟩ := dispatchItem_eq hitem
    refine ⟨hst, heq.thrown, ?_, ?_⟩
    · rw [foldl_cons, ← hfirst.applied]
      exact heq.applied
    · rw [flatMap_cons, ← append_assoc, ← hfirst.calls]
      exact heq.calls

/-! ## The batch handlers -/

/-- The call of a batch handler whose products are concerned. -/
def batchCall (tx : Transaction F) (e : List Str × ℕ) : Option (Call F) :=
  if (tx.filterByProducts e.1).isEmpty then none else some (.batch e.2 (tx.filterByProducts e.1))

/-- When none throws, every batch handler whose products are concerned is called once. -/
theorem runBatch_calls {tx : Transaction F} {index : ℕ} {l : List (List Str)}
    (hok : (runBatch b tx index l).2.2 = none) :
    (runBatch b tx index l).2.1 = (l.zipIdx index).filterMap (batchCall tx) := by
  induction l generalizing index with
  | nil => rfl
  | cons products l ih =>
    rw [zipIdx_cons]
    rw [runBatch] at hok ⊢
    dsimp only at hok ⊢
    by_cases hempty : (tx.filterByProducts products).isEmpty = true
    · rw [if_pos hempty] at hok ⊢
      rw [filterMap_cons_none (by rw [batchCall, if_pos hempty])]
      exact ih hok
    · rw [if_neg hempty] at hok ⊢
      rw [filterMap_cons_some (by rw [batchCall, if_neg hempty])]
      cases hthrows : (b.batch index (tx.filterByProducts products)).throws with
      | some value =>
        rw [hthrows] at hok
        cases hok
      | none =>
        rw [hthrows] at hok
        rw [← ih hok]

/-- A report comes from a batch handler that was called. -/
theorem exists_of_report {tx : Transaction F} {index : ℕ} {l : List (List Str)} {report : Report}
    (hmem : report ∈ (runBatch b tx index l).1) : ∃ i products, (products, i) ∈ l.zipIdx index ∧
      report ∈ (b.batch i (tx.filterByProducts products)).reports := by
  induction l generalizing index with
  | nil => cases hmem
  | cons products l ih =>
    rw [runBatch] at hmem
    dsimp only at hmem
    have hrest : report ∈ (runBatch b tx (index + 1) l).1 → ∃ i products',
        (products', i) ∈ (products, index) :: l.zipIdx (index + 1) ∧
          report ∈ (b.batch i (tx.filterByProducts products')).reports := fun hr => by
      obtain ⟨i, products', hi, hreport⟩ := ih hr
      exact ⟨i, products', mem_cons_of_mem _ hi, hreport⟩
    have hfirst : report ∈ (b.batch index (tx.filterByProducts products)).reports →
        ∃ i products', (products', i) ∈ (products, index) :: l.zipIdx (index + 1) ∧
          report ∈ (b.batch i (tx.filterByProducts products')).reports := fun hr =>
      ⟨index, products, mem_cons_self, hr⟩
    by_cases hempty : (tx.filterByProducts products).isEmpty = true
    · rw [if_pos hempty] at hmem
      exact hrest hmem
    · rw [if_neg hempty] at hmem
      cases hthrows : (b.batch index (tx.filterByProducts products)).throws with
      | some value =>
        rw [hthrows] at hmem
        exact hfirst hmem
      | none =>
        rw [hthrows] at hmem
        exact (mem_append.mp hmem).elim hfirst hrest

theorem keys_outcomesOf (reports : List Report) (path : Str) :
    path ∈ (outcomesOf reports).keys ↔ ∃ report ∈ reports, report.path = path := by
  rw [OrderedMap.mem_keys_iff]
  constructor
  · rintro ⟨err, hget⟩
    rw [outcomesOf, get?_ofEntries] at hget
    obtain ⟨report, hreport, he⟩ := mem_map.mp (mem_of_lastValue hget)
    cases he
    exact ⟨report, hreport, rfl⟩
  · rintro ⟨report, hreport, rfl⟩
    rw [outcomesOf, get?_ofEntries]
    refine Option.ne_none_iff_exists'.mp fun hnone => ?_
    refine lastValue_eq_none_iff.mp hnone ?_
    rw [map_map]
    exact mem_map.mpr ⟨report, hreport, rfl⟩

/-! ## The whole -/

/-- The reports of the batch handlers. -/
def reportsOf (h : Handlers) (b : Behaviour F) (p : Plan F) : List Report :=
  (runBatch b p.transaction 0 h.batch).1

/-- An item after the outcomes of its path. -/
def received (h : Handlers) (b : Behaviour F) (p : Plan F) (item : RcConfigState F) :
    RcConfigState F :=
  applyOutcome p (outcomesOf (reportsOf h b p)) item

theorem pristine_received (p : Plan F) (item : RcConfigState F) :
    pristine (received h b p item) = pristine item :=
  pristine_applyOutcome p _ item

theorem path_received (p : Plan F) (item : RcConfigState F) :
    (received h b p item).path = item.path :=
  path_of_pristine (pristine_received p item)

/-- The paths that batch handlers reported. -/
def handledPaths (h : Handlers) (b : Behaviour F) (p : Plan F) : List Str :=
  (outcomesOf (reportsOf h b p)).keys

/-- The calls to the handlers of products. -/
def singleCalls (h : Handlers) (b : Behaviour F) (p : Plan F) : List (Call F) :=
  (p.toUnapply.map (received h b p)).flatMap (dispatchCalls h (handledPaths h b p) .unapply) ++
    (p.toApply.map (received h b p)).flatMap (dispatchCalls h (handledPaths h b p) .apply) ++
    (p.toModify.map (received h b p)).flatMap (dispatchCalls h (handledPaths h b p) .modify)

/-- The whole of `dispatch` on the three lists. -/
def dispatched (h : Handlers) (b : Behaviour F) (s : RcClient F) (p : Plan F) : Stage F :=
  let toUnapply := p.toUnapply.map (received h b p)
  let applied := toUnapply.foldl (fun m item => m.set item.path item) s.appliedConfigs
  dispatch h b (handledPaths h b p) (p.toModify.map (received h b p)) .modify
    (dispatch h b (handledPaths h b p) (p.toApply.map (received h b p)) .apply
      (dispatch h b (handledPaths h b p) toUnapply .unapply
        ⟨applied, (runBatch b p.transaction 0 h.batch).2.1, none⟩))

/-- `perform`, by where it throws. -/
theorem perform_def (s : RcClient F) (p : Plan F) : perform h b s p =
    match (runBatch b p.transaction 0 h.batch).2.2 with
    | some e => ⟨s, (runBatch b p.transaction 0 h.batch).2.1, some e⟩
    | none =>
      let st := dispatched h b s p
      let s' := { s with appliedConfigs := st.applied, objects := p.objects }
      match st.thrown with
      | some e => ⟨s', st.calls, some e⟩
      | none =>
        ⟨{ s' with cachedTargetFiles := (cacheFiles st.applied.values).1 }, st.calls,
          (cacheFiles st.applied.values).2⟩ := rfl

theorem foldl_act_map (action : RcAction) (f : RcConfigState F → RcConfigState F)
    (hf : ∀ item, pristine (f item) = pristine item) (l : List (RcConfigState F))
    (m : AppliedConfigs F) : (l.map f).foldl (act action) m = l.foldl (act action) m := by
  rw [foldl_map]
  have hact : (fun m item => act action m (f item)) = act action := by
    funext m item
    rw [act, act, path_of_pristine (hf item), hf]
  rw [hact]

/-- Changing how the entries of the table were received does not change it otherwise. -/
theorem mapValues_foldl_set {f : RcConfigState F → RcConfigState F}
    (hf : ∀ item, pristine (f item) = pristine item) {l : List (RcConfigState F)}
    {m : AppliedConfigs F}
    (hl : ∀ item ∈ l, (m.mapValues pristine).get? item.path = some (pristine item)) :
    ((l.map f).foldl (fun m item => m.set item.path item) m).mapValues pristine =
      m.mapValues pristine := by
  induction l generalizing m with
  | nil => rfl
  | cons item l ih =>
    have hset : (m.set (f item).path (f item)).mapValues pristine = m.mapValues pristine := by
      rw [mapValues_set, hf, path_of_pristine (hf item)]
      exact set_eq_self (hl item mem_cons_self)
    rw [map_cons, foldl_cons, ih, hset]
    intro i hi
    rw [hset]
    exact hl i (mem_cons_of_mem _ hi)

theorem mapValues_commit (tx : Transaction F) (m : AppliedConfigs F) :
    (tx.commit m).mapValues pristine = tx.toModify.foldl (act .modify)
      (tx.toApply.foldl (act .apply) (tx.toUnapply.foldl (act .unapply) (m.mapValues pristine))) := by
  have hdelete : ∀ (l : List (RcConfigState F)) (m : AppliedConfigs F),
      ((l.map RcConfigState.path).foldl (fun m path => m.delete path) m).mapValues pristine =
        l.foldl (act .unapply) (m.mapValues pristine) := by
    intro l
    induction l with
    | nil => exact fun m => rfl
    | cons item l ih =>
      intro m
      rw [map_cons, foldl_cons, ih, mapValues_delete]
      rfl
  have hset : ∀ (action : RcAction), action ≠ .unapply → ∀ (l : List (RcConfigState F))
      (m : AppliedConfigs F), ((l.map fun item => (item.path, item)).foldl
        (fun m e => m.set e.1 e.2) m).mapValues pristine =
          l.foldl (act action) (m.mapValues pristine) := by
    intro action ha l
    induction l with
    | nil => exact fun m => rfl
    | cons item l ih =>
      intro m
      rw [map_cons, foldl_cons, ih, mapValues_set, foldl_cons, act, if_neg ha]
  rw [Transaction.commit, Transaction.delivered, map_append, foldl_append,
    hset .modify (by decide), hset .apply (by decide), hdelete]

/-- **What `perform` leaves when nothing throws**: the commit of the transaction, up to how each
item was received, the files cached from it, and the calls. -/
theorem perform_eq {s : RcClient F} {p : Plan F}
    (hun : ∀ item ∈ p.toUnapply, s.appliedConfigs.get? item.path = some item)
    (hok : (perform h b s p).thrown = none) :
    (perform h b s p).client.appliedConfigs.mapValues pristine =
        (p.transaction.commit s.appliedConfigs).mapValues pristine ∧
      cacheFiles (perform h b s p).client.appliedConfigs.values =
        ((perform h b s p).client.cachedTargetFiles, none) ∧
      (perform h b s p).calls =
        (h.batch.zipIdx 0).filterMap (batchCall p.transaction) ++ singleCalls h b p := by
  rw [perform_def] at hok ⊢
  cases hbatch : (runBatch b p.transaction 0 h.batch).2.2 with
  | some e =>
    rw [hbatch] at hok
    cases hok
  | none =>
    rw [hbatch] at hok
    dsimp only at hok ⊢
    cases hst : (dispatched h b s p).thrown with
    | some e =>
      rw [hst] at hok
      cases hok
    | none =>
      rw [hst] at hok
      obtain ⟨happly, hmodified⟩ := dispatch_eq hst
      obtain ⟨hunapply, happlied⟩ := dispatch_eq happly
      obtain ⟨-, hunapplied⟩ := dispatch_eq hunapply
      refine ⟨?_, Prod.ext rfl hok, ?_⟩
      · rw [show (dispatched h b s p).applied.mapValues pristine = _ from hmodified.applied,
          happlied.applied, hunapplied.applied, mapValues_commit,
          foldl_act_map _ _ (pristine_received p), foldl_act_map _ _ (pristine_received p),
          foldl_act_map _ _ (pristine_received p),
          mapValues_foldl_set (pristine_received p) fun item hitem => ?_]
        · rfl
        · rw [get?_mapValues, hun item hitem]
          rfl
      · rw [show (dispatched h b s p).calls = _ from hmodified.calls, happlied.calls,
          hunapplied.calls, runBatch_calls hbatch, singleCalls, append_assoc,
          append_assoc, append_assoc]

end DdTrace.RemoteConfig
