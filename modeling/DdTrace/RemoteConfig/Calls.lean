import DdTrace.RemoteConfig.Perform

/-!
# What the handlers are told

A transaction concerns each path at most once, with one action.  The calls of a response tell
that action to the receivers: to every batch handler that has the product of the path, and to
the handler of the product when no batch handler has reported the path.

* `Transaction.changes`: the items of a transaction with their actions.
* `told`: the actions for a path that a `Receiver` is told by a list of calls.
* `told_batch`, `told_product`, `told_anyone`: a receiver that listens to the product of the path
  is told what the transaction does to the path, and one that does not is told nothing.

Batch handlers report the paths of the view that they are called with; `Behaviour.OwnPaths` says
so.
-/

namespace DdTrace.RemoteConfig

open Library List

variable {F : Type} {h : Handlers} {b : Behaviour F}

/-! ## Changes -/

/-- The items of a transaction with their actions, in the order of `dispatch`. -/
def Transaction.changes (tx : Transaction F) : List (RcAction × RcConfigState F) :=
  tx.toUnapply.map (fun item => (.unapply, item)) ++
    (tx.toApply.map (fun item => (.apply, item)) ++ tx.toModify.map fun item => (.modify, item))

/-- The changes of one path. -/
def Transaction.changesOf (tx : Transaction F) (path : Str) : List (RcAction × RcConfigState F) :=
  tx.changes.filter fun e => e.2.path = path

/-- What a transaction does to a path. -/
def Transaction.actionsFor (tx : Transaction F) (path : Str) : List RcAction :=
  (tx.changesOf path).map Prod.fst

theorem changes_filterByProducts (tx : Transaction F) (products : List Str) :
    (tx.filterByProducts products).changes =
      tx.changes.filter fun e => includes products e.2.product := by
  simp only [Transaction.changes, Transaction.filterByProducts, filter_append,
    filter_map, Function.comp_def]

theorem map_path_changes (tx : Transaction F) : tx.changes.map (fun e => e.2.path) =
      (tx.toUnapply ++ tx.delivered).map RcConfigState.path := by
  simp [Transaction.changes, Transaction.delivered, Function.comp_def]

/-- At most one element has the key, when the keys are distinct. -/
theorem filter_eq_of_nodup {α κ : Type} [DecidableEq κ] {f : α → κ} {l : List α}
    (hl : (l.map f).Nodup) (k : κ) :
    (l.filter (fun x => f x = k) = [] ∧ ∀ x ∈ l, f x ≠ k) ∨
      ∃ x ∈ l, f x = k ∧ l.filter (fun x => f x = k) = [x] := by
  induction l with
  | nil => exact Or.inl ⟨rfl, nofun⟩
  | cons x l ih =>
    rw [map_cons, nodup_cons] at hl
    by_cases hx : f x = k
    · have hno : l.filter (fun x => f x = k) = [] := by
        rw [filter_eq_nil_iff]
        intro y hy he
        exact hl.1 (mem_map.mpr ⟨y, hy, by rw [hx]; exact of_decide_eq_true he⟩)
      refine Or.inr ⟨x, mem_cons_self, hx, ?_⟩
      rw [filter_cons_of_pos (by simpa using hx), hno]
    · rw [filter_cons_of_neg (by simpa using hx)]
      rcases ih hl.2 with ⟨hnil, hno⟩ | ⟨y, hy, hyk, hone⟩
      · refine Or.inl ⟨hnil, fun y hy => ?_⟩
        rcases mem_cons.mp hy with rfl | hy
        · exact hx
        · exact hno y hy
      · exact Or.inr ⟨y, mem_cons_of_mem _ hy, hyk, hone⟩

variable {tx : Transaction F} {applied : AppliedConfigs F}

/-- A path has no change, or one. -/
theorem changesOf_cases (hfits : tx.Fits applied) (path : Str) :
    (tx.changesOf path = [] ∧ ∀ e ∈ tx.changes, e.2.path ≠ path) ∨
      ∃ e ∈ tx.changes, e.2.path = path ∧ tx.changesOf path = [e] :=
  filter_eq_of_nodup (f := fun e : RcAction × RcConfigState F => e.2.path) (by rw [map_path_changes]; exact hfits.nodup) path

variable {e : RcAction × RcConfigState F} {p : Plan F}

/-- The path of a change names its product. -/
theorem product_of_change (hkeyed : Transaction.Keyed applied) (hfits : tx.Fits applied)
    (he : e ∈ tx.changes) :
    parseConfigPath e.2.path = some (e.2.product, e.2.id) := by
  rcases mem_append.mp he with he | he
  · obtain ⟨item, hitem, rfl⟩ := mem_map.mp he
    exact (hkeyed _ _ (hfits.unapplied item hitem)).2
  · refine hfits.path e.2 ?_
    rcases mem_append.mp he with he | he
    · obtain ⟨item, hitem, rfl⟩ := mem_map.mp he
      exact mem_append_left _ hitem
    · obtain ⟨item, hitem, rfl⟩ := mem_map.mp he
      exact mem_append_right _ hitem

/-! ## Receivers -/

/-- The actions for a path that a call tells. -/
def Call.actionsFor (path : Str) : Call F → List RcAction
  | .batch _ view => view.actionsFor path
  | .single action item => if item.path = path then [action] else []

/-- Who is told: one batch handler, the handler of a product, or all of them together, who are
told one action however many of them hear it. -/
inductive Receiver where
  | batch (index : ℕ)
  | product
  | anyone

def Call.isBatch (index : ℕ) : Call F → Bool
  | .batch i _ => i = index
  | .single _ _ => false

def Call.isSingle : Call F → Bool
  | .batch _ _ => false
  | .single _ _ => true

/-- The actions for a path that a receiver is told by the calls of one response. -/
def told (path : Str) (calls : List (Call F)) : Receiver → List RcAction
  | .batch index => (calls.filter (Call.isBatch index)).flatMap (Call.actionsFor path)
  | .product => (calls.filter Call.isSingle).flatMap (Call.actionsFor path)
  | .anyone => (calls.flatMap (Call.actionsFor path)).head?.toList

/-- A batch handler reports only paths of its view. -/
def Behaviour.OwnPaths (b : Behaviour F) : Prop :=
  ∀ index view, ∀ report ∈ (b.batch index view).reports, ∃ e ∈ view.changes, e.2.path = report.path

/-- The calls of a response that goes through. -/
def callsOf (h : Handlers) (b : Behaviour F) (p : Plan F) : List (Call F) :=
  (h.batch.zipIdx 0).filterMap (batchCall p.transaction) ++ singleCalls h b p

/-! ### Batch handlers -/

theorem isEmpty_of_changes (h : tx.isEmpty = true) : tx.changes = [] := by
  simp only [Transaction.isEmpty, Bool.and_eq_true, List.isEmpty_iff] at h
  rw [Transaction.changes, h.1.1, h.1.2, h.2]
  rfl

/-- A batch handler is told the changes of its products. -/
theorem actionsFor_batchCall (path : Str) (e : List Str × ℕ) :
    (batchCall tx e).toList.flatMap (Call.actionsFor path) =
      ((tx.changesOf path).filter fun c => includes e.1 c.2.product).map Prod.fst := by
  have hview : (tx.filterByProducts e.1).actionsFor path =
      ((tx.changesOf path).filter fun c => includes e.1 c.2.product).map Prod.fst := by
    rw [Transaction.actionsFor, Transaction.changesOf, changes_filterByProducts,
      Transaction.changesOf, filter_filter, filter_filter]
    simp only [Bool.and_comm]
  rw [batchCall]
  by_cases hempty : (tx.filterByProducts e.1).isEmpty = true
  · rw [if_pos hempty, ← hview, Transaction.actionsFor, Transaction.changesOf,
      isEmpty_of_changes hempty]
    rfl
  · rw [if_neg hempty, ← hview]
    exact append_nil _

theorem flatMap_filterMap_batchCall (path : Str) (l : List (List Str × ℕ)) :
    (l.filterMap (batchCall tx)).flatMap (Call.actionsFor path) =
      l.flatMap fun e => ((tx.changesOf path).filter fun c => includes e.1 c.2.product).map Prod.fst := by
  induction l with
  | nil => rfl
  | cons e l ih =>
    rw [flatMap_cons, ← ih, ← actionsFor_batchCall]
    cases hcall : batchCall tx e with
    | none => rw [filterMap_cons_none hcall]; rfl
    | some call =>
      rw [filterMap_cons_some hcall]
      simp

theorem isBatch_of_batchCall {e : List Str × ℕ} {call : Call F} (h : batchCall tx e = some call)
    (index : ℕ) : call.isBatch index = decide (e.2 = index) ∧ call.isSingle = false := by
  rw [batchCall] at h
  split at h
  · cases h
  · cases h
    exact ⟨rfl, rfl⟩

theorem isSingle_singleCalls {call : Call F} (hcall : call ∈ singleCalls h b p) :
    call.isSingle = true ∧ ∀ index, call.isBatch index = false := by
  have hall : ∀ (handled : List Str) (action : RcAction) (item : RcConfigState F),
      call ∈ dispatchCalls h handled action item →
        call.isSingle = true ∧ ∀ index, call.isBatch index = false := by
    intro handled action item hmem
    unfold dispatchCalls callsFor at hmem
    split at hmem
    · cases hmem
    · split at hmem
      · cases hmem
      · split at hmem
        · rw [mem_singleton.mp hmem]
          exact ⟨rfl, fun _ => rfl⟩
        · cases hmem
  rcases mem_append.mp hcall with hcall | hcall
  · rcases mem_append.mp hcall with hcall | hcall
    all_goals
      obtain ⟨item, -, hmem⟩ := mem_flatMap.mp hcall
      exact hall _ _ item hmem
  · obtain ⟨item, -, hmem⟩ := mem_flatMap.mp hcall
    exact hall _ _ item hmem

/-! ### Handlers of products -/

theorem singleCalls_eq (p : Plan F) : singleCalls h b p = p.transaction.changes.flatMap fun e =>
      dispatchCalls h (handledPaths h b p) e.1 (received h b p e.2) := by
  simp only [singleCalls, Transaction.changes, Plan.transaction, flatMap_append,
    flatMap_map, append_assoc]

theorem flatMap_of_filter {α β : Type} {q : α → Bool} {f : α → List β} {l : List α}
    (hl : ∀ x ∈ l, q x = false → f x = []) : l.flatMap f = (l.filter q).flatMap f := by
  induction l with
  | nil => rfl
  | cons x l ih =>
    have hrest := ih (forall_mem_cons.mp hl).2
    cases hx : q x with
    | true => rw [filter_cons_of_pos hx, flatMap_cons, flatMap_cons, hrest]
    | false =>
      rw [filter_cons_of_neg (by simp [hx]), flatMap_cons,
        hl x mem_cons_self hx, hrest, List.nil_append]

theorem actionsFor_dispatchCalls (handled : List Str) (action : RcAction)
    (item : RcConfigState F) {path : Str} (hpath : item.path ≠ path) :
    (dispatchCalls h handled action item).flatMap (Call.actionsFor path) = [] := by
  unfold dispatchCalls callsFor
  split
  · rfl
  · split
    · rfl
    · split
      · simp [Call.actionsFor, hpath]
      · rfl

/-- The handlers of products are told of a path what its one change leads to. -/
theorem actionsFor_singleCalls (p : Plan F) (path : Str) :
    (singleCalls h b p).flatMap (Call.actionsFor path) =
      (p.transaction.changesOf path).flatMap fun e =>
        (dispatchCalls h (handledPaths h b p) e.1 (received h b p e.2)).flatMap
          (Call.actionsFor path) := by
  rw [singleCalls_eq, flatMap_assoc]
  refine flatMap_of_filter fun e _ he => actionsFor_dispatchCalls _ _ _ ?_
  rw [path_received]
  exact of_decide_eq_false he

/-- The items that the transaction brings have not been received by anybody. -/
def Unreceived (tx : Transaction F) : Prop :=
  ∀ item ∈ tx.delivered, item.applyState = .unacknowledged

theorem mem_changes_iff : e ∈ tx.changes ↔
    (e.1 = .unapply ∧ e.2 ∈ tx.toUnapply) ∨ (e.1 = .apply ∧ e.2 ∈ tx.toApply) ∨
      (e.1 = .modify ∧ e.2 ∈ tx.toModify) := by
  obtain ⟨action, item⟩ := e
  simp only [Transaction.changes, mem_append, mem_map, Prod.mk.injEq]
  constructor
  · rintro (⟨i, hi, rfl, rfl⟩ | ⟨i, hi, rfl, rfl⟩ | ⟨i, hi, rfl, rfl⟩)
    · exact Or.inl ⟨rfl, hi⟩
    · exact Or.inr (Or.inl ⟨rfl, hi⟩)
    · exact Or.inr (Or.inr ⟨rfl, hi⟩)
  · rintro (⟨rfl, hi⟩ | ⟨rfl, hi⟩ | ⟨rfl, hi⟩)
    · exact Or.inl ⟨item, hi, rfl, rfl⟩
    · exact Or.inr (Or.inl ⟨item, hi, rfl, rfl⟩)
    · exact Or.inr (Or.inr ⟨item, hi, rfl, rfl⟩)

/-- What becomes of the change of a path that no batch handler reported. -/
theorem dispatchCalls_of_not_handled (hnew : Unreceived p.transaction)
    (he : e ∈ p.transaction.changes)
    (hhandled : e.2.path ∉ handledPaths h b p) :
    dispatchCalls h (handledPaths h b p) e.1 (received h b p e.2) =
      if h.single.has e.2.product then [.single e.1 e.2] else [] := by
  have hsame : received h b p e.2 = e.2 := by
    have hnone := OrderedMap.get?_eq_none_iff.mpr hhandled
    rw [received, applyOutcome, hnone, ite_self]
  rw [hsame, dispatchCalls, if_neg (by rwa [includes_eq_true_iff]), callsFor, if_neg]
  rintro ⟨hstate, haction⟩
  rcases mem_changes_iff.mp he with ⟨ha, -⟩ | ⟨-, hitem⟩ | ⟨-, hitem⟩
  · exact haction ha
  · exact hstate (hnew e.2 (mem_append_left _ hitem))
  · exact hstate (hnew e.2 (mem_append_right _ hitem))

/-- The path of a change that is handled has a product of a batch handler. -/
theorem exists_products_of_handled (hown : b.OwnPaths) (hfits : p.transaction.Fits applied)
    (he : e ∈ p.transaction.changes) (hhandled : e.2.path ∈ handledPaths h b p) :
    ∃ products ∈ h.batch, e.2.product ∈ products := by
  obtain ⟨report, hreport, hpath⟩ := (keys_outcomesOf _ _).mp hhandled
  obtain ⟨i, products, hi, hreport⟩ := exists_of_report hreport
  obtain ⟨e', he', hpath'⟩ := hown _ _ report hreport
  rw [changes_filterByProducts, mem_filter, includes_eq_true_iff] at he'
  refine ⟨products, fst_mem_of_mem_zipIdx hi, ?_⟩
  have hnodup : (p.transaction.changes.map fun e => e.2.path).Nodup := by
    rw [map_path_changes]
    exact hfits.nodup
  have hsame : e' = e := inj_on_of_nodup_map hnodup he'.1 he (hpath'.trans hpath)
  exact hsame ▸ he'.2

/-! ## What a receiver is told -/

/-- The receiver takes the product. -/
def Receiver.Listens (h : Handlers) (product : Str) : Receiver → Prop
  | .batch index => ∃ products, h.batch[index]? = some products ∧ product ∈ products
  | .product => h.single.has product = true
  | .anyone => (∃ products ∈ h.batch, product ∈ products) ∨ h.single.has product = true

/-- The receiver takes the product that the path names. -/
def Receiver.Hears (h : Handlers) (path : Str) (rcv : Receiver) : Prop :=
  ∃ product id, parseConfigPath path = some (product, id) ∧ rcv.Listens h product

/-- No batch handler takes the product that the path names. -/
def NoBatch (h : Handlers) (path : Str) : Prop :=
  ∀ product id, parseConfigPath path = some (product, id) → ∀ products ∈ h.batch, product ∉ products

/-- The batch handler with an index, if there is one. -/
theorem filter_zipIdx {α : Type} (l : List α) (index : ℕ) :
    (l.zipIdx 0).filter (fun e => e.2 = index) = l[index]?.toList.map fun x => (x, index) := by
  have hnodup : ((l.zipIdx 0).map Prod.snd).Nodup := by
    rw [zipIdx_map_snd]
    exact nodup_range'
  rcases filter_eq_of_nodup hnodup index with ⟨hnil, hno⟩ | ⟨⟨x, i⟩, hx, rfl, hone⟩
  · rw [hnil]
    cases hget : l[index]? with
    | none => rfl
    | some x => exact absurd rfl (hno (x, index) (mem_zipIdx_iff_getElem?.mpr hget))
  · rw [hone, mem_zipIdx_iff_getElem?.mp hx]
    rfl

theorem told_batch_eq (p : Plan F) (path : Str) (index : ℕ) :
    told path (callsOf h b p) (.batch index) = (h.batch[index]?.toList).flatMap fun products =>
      ((p.transaction.changesOf path).filter fun c => includes products c.2.product).map Prod.fst := by
  have hsingle : (singleCalls h b p).filter (Call.isBatch index) = [] :=
    filter_eq_nil_iff.mpr fun call hcall => by
      rw [(isSingle_singleCalls hcall).2 index]
      exact nofun
  have hfilter : ∀ l : List (List Str × ℕ),
      (l.filterMap (batchCall p.transaction)).filter (Call.isBatch index) =
        (l.filter fun e => e.2 = index).filterMap (batchCall p.transaction) := by
    intro l
    rw [filter_filterMap, filterMap_filter]
    refine filterMap_congr fun e _ => ?_
    cases hcall : batchCall p.transaction e with
    | none => simp
    | some call =>
      rw [Option.filter_some, (isBatch_of_batchCall hcall index).1]
  rw [told, callsOf, filter_append, hsingle, append_nil, hfilter,
    flatMap_filterMap_batchCall, filter_zipIdx, flatMap_map]

theorem told_product_eq (p : Plan F) (path : Str) : told path (callsOf h b p) .product =
      (p.transaction.changesOf path).flatMap fun e =>
        (dispatchCalls h (handledPaths h b p) e.1 (received h b p e.2)).flatMap
          (Call.actionsFor path) := by
  have hbatch : ((h.batch.zipIdx 0).filterMap (batchCall p.transaction)).filter
      Call.isSingle = [] := filter_eq_nil_iff.mpr fun call hcall => by
    obtain ⟨e, -, he⟩ := mem_filterMap.mp hcall
    rw [(isBatch_of_batchCall he 0).2]
    exact nofun
  have hsingle : (singleCalls h b p).filter Call.isSingle = singleCalls h b p :=
    filter_eq_self.mpr fun call hcall => (isSingle_singleCalls hcall).1
  rw [told, callsOf, filter_append, hbatch, hsingle, List.nil_append, actionsFor_singleCalls]

theorem told_anyone_eq (p : Plan F) (path : Str) : (callsOf h b p).flatMap (Call.actionsFor path) =
      (h.batch.zipIdx 0).flatMap (fun e =>
        ((p.transaction.changesOf path).filter fun c => includes e.1 c.2.product).map Prod.fst) ++
      (p.transaction.changesOf path).flatMap fun e =>
        (dispatchCalls h (handledPaths h b p) e.1 (received h b p e.2)).flatMap
          (Call.actionsFor path) := by
  rw [callsOf, flatMap_append, flatMap_filterMap_batchCall, actionsFor_singleCalls]

/-- The calls of one response tell a path's one action, whoever is told. -/
theorem mem_actionsFor_of_told (hfits : p.transaction.Fits applied) {path : Str}
    {action : RcAction} (hmem : action ∈ (callsOf h b p).flatMap (Call.actionsFor path)) :
    p.transaction.actionsFor path = [action] := by
  rw [told_anyone_eq, mem_append, mem_flatMap, mem_flatMap] at hmem
  rcases changesOf_cases hfits path with ⟨hnil, -⟩ | ⟨e, he, -, hone⟩
  · rw [hnil] at hmem
    rcases hmem with ⟨_, -, h⟩ | ⟨_, h, -⟩
    · cases h
    · cases h
  · rw [Transaction.actionsFor, hone]
    rw [hone] at hmem
    rcases hmem with ⟨products, -, hmem⟩ | ⟨e', he', hmem⟩
    · obtain ⟨c, hc, rfl⟩ := mem_map.mp hmem
      rw [mem_singleton.mp (mem_filter.mp hc).1]
      rfl
    · rw [mem_singleton.mp he', mem_flatMap] at hmem
      obtain ⟨call, hcall, hmem⟩ := hmem
      unfold dispatchCalls callsFor at hcall
      split at hcall
      · cases hcall
      · split at hcall
        · cases hcall
        · split at hcall
          · rw [mem_singleton.mp hcall, Call.actionsFor] at hmem
            split at hmem
            · rw [mem_singleton.mp hmem]
              rfl
            · cases hmem
          · cases hcall

section Step

variable {p : Plan F} {path : Str} {e : RcAction × RcConfigState F}

theorem told_batch (hone : p.transaction.changesOf path = [e]) (index : ℕ) :
    (Receiver.Listens h e.2.product (.batch index) →
        told path (callsOf h b p) (.batch index) = [e.1]) ∧
      (¬ Receiver.Listens h e.2.product (.batch index) →
        told path (callsOf h b p) (.batch index) = []) := by
  rw [told_batch_eq, hone, Receiver.Listens]
  cases h.batch[index]? with
  | none => exact ⟨fun ⟨_, hp, _⟩ => (nomatch hp), fun _ => rfl⟩
  | some products =>
    constructor
    · rintro ⟨products', hp, hmem⟩
      cases hp
      simp [hmem]
    · intro hno
      have hmem : e.2.product ∉ products := fun hmem => hno ⟨products, rfl, hmem⟩
      simp [hmem]

theorem told_product (hnew : Unreceived p.transaction) (he : e ∈ p.transaction.changes)
    (hpath : e.2.path = path) (hone : p.transaction.changesOf path = [e])
    (hhandled : path ∉ handledPaths h b p) :
    told path (callsOf h b p) .product = if h.single.has e.2.product then [e.1] else [] := by
  rw [told_product_eq, hone, flatMap_singleton,
    dispatchCalls_of_not_handled hnew he (by rwa [hpath])]
  split
  · simp [Call.actionsFor, hpath]
  · rfl

/-- **What a receiver is told of a path**: what the transaction does to it if it takes the product
of the path, and else nothing.  The handler of a product is told by the client only where no batch
handler takes the product. -/
theorem told_eq (hkeyed : Transaction.Keyed applied) (hfits : p.transaction.Fits applied)
    (hnew : Unreceived p.transaction) (hown : b.OwnPaths) (rcv : Receiver)
    (hrcv : rcv = .product → NoBatch h path) :
    (rcv.Hears h path → told path (callsOf h b p) rcv = p.transaction.actionsFor path) ∧
      (¬ rcv.Hears h path → told path (callsOf h b p) rcv = []) := by
  rcases changesOf_cases hfits path with ⟨hnil, -⟩ | ⟨e, he, rfl, hone⟩
  · have hnone : told path (callsOf h b p) rcv = [] := by
      cases rcv with
      | batch index => rw [told_batch_eq, hnil]; simp
      | product => rw [told_product_eq, hnil]; rfl
      | anyone => rw [told, told_anyone_eq, hnil]; simp
    rw [Transaction.actionsFor, hnil]
    exact ⟨fun _ => hnone, fun _ => hnone⟩
  · have hparse := product_of_change hkeyed hfits he
    have hhears : rcv.Hears h e.2.path ↔ rcv.Listens h e.2.product := by
      constructor
      · rintro ⟨product, id, hp, hl⟩
        rw [hparse, Option.some_inj, Prod.mk.injEq] at hp
        exact hp.1 ▸ hl
      · exact fun hl => ⟨_, _, hparse, hl⟩
    rw [hhears, Transaction.actionsFor, hone]
    cases rcv with
    | batch index => exact told_batch hone index
    | product =>
      have hno : e.2.path ∉ handledPaths h b p := fun hhandled => by
        obtain ⟨products, hp, hmem⟩ := exists_products_of_handled hown hfits he hhandled
        exact hrcv rfl _ _ hparse products hp hmem
      rw [told_product hnew he rfl hone hno, Receiver.Listens]
      exact ⟨fun hl => by rw [if_pos hl]; rfl, fun hl => if_neg hl⟩
    | anyone =>
      have hall : ∀ action ∈ (callsOf h b p).flatMap (Call.actionsFor e.2.path),
          action = e.1 := fun action hmem => by
        have hone' := mem_actionsFor_of_told hfits hmem
        rw [Transaction.actionsFor, hone] at hone'
        exact (singleton_injective hone').symm
      have hsome : (callsOf h b p).flatMap (Call.actionsFor e.2.path) ≠ [] ↔
          Receiver.Listens h e.2.product .anyone := by
        rw [told_anyone_eq, hone, Ne, append_eq_nil_iff, not_and_or, Receiver.Listens,
          flatMap_singleton]
        have hbatch : ¬ (h.batch.zipIdx 0).flatMap (fun c =>
            ([e].filter fun c' => includes c.1 c'.2.product).map Prod.fst) = [] ↔
              ∃ products ∈ h.batch, e.2.product ∈ products := by
          rw [flatMap_eq_nil_iff]
          push Not
          constructor
          · rintro ⟨⟨products, i⟩, hi, hne⟩
            refine ⟨products, fst_mem_of_mem_zipIdx hi, ?_⟩
            by_contra hmem
            exact hne (by simp [hmem])
          · rintro ⟨products, hp, hmem⟩
            obtain ⟨i, hi⟩ := getElem?_of_mem hp
            exact ⟨(products, i), mem_zipIdx_iff_getElem?.mpr hi, by simp [hmem]⟩
        rw [hbatch]
        by_cases hhandled : e.2.path ∈ handledPaths h b p
        · have hproducts := exists_products_of_handled hown hfits he hhandled
          simp [hproducts]
        · rw [dispatchCalls_of_not_handled hnew he hhandled]
          cases h.single.has e.2.product with
          | true => simp [Call.actionsFor]
          | false => simp
      rw [told]
      constructor
      · intro hl
        obtain ⟨action, l, hl'⟩ := exists_cons_of_ne_nil (hsome.mpr hl)
        rw [hl'] at hall ⊢
        rw [hall action mem_cons_self]
        rfl
      · intro hl
        rw [not_not.mp fun hne => hl (hsome.mp hne)]
        rfl

end Step

end DdTrace.RemoteConfig
