import DdTrace.Library.OrderedMap
import DdTrace.Library.Text

/-!
# Update transactions of remote config

The configurations that `remote_config/index.js` keeps, and the transaction that one update turns
into: the applied configurations to unapply, the new ones to apply and the ones to modify.

* `parseConfigPath`: the product and the id that a path names.
* `Transaction.filterByProducts`: the view of a transaction that a batch handler gets.
* `Transaction.commit`: what `dispatch` makes of the applied configurations.
  `get?_commit_eq_some` reads it by path.
* `Transaction.Fits`: a transaction as `parseConfig` builds it over the applied configurations:
  it unapplies some of them, applies paths that are not there and modifies paths that are.
  `keyed_commit` says that every configuration stays under its own path.

The content of a file is a type variable: the client never looks into it.
-/

namespace DdTrace.RemoteConfig

open Library

/-- `UNACKNOWLEDGED`, `ACKNOWLEDGED` and `ERROR`. -/
inductive ApplyState where
  | unacknowledged
  | acknowledged
  | error
  deriving DecidableEq

/-- The digests of a target, by algorithm. -/
abbrev Hashes := OrderedMap Str Str

/-- The digest that versions of a file are told apart by. -/
def sha256 (hashes : Hashes) : Option Str := hashes.get? (lit "sha256")

/-- A configuration as the client tracks it.  The objects of the source are shared and mutated:
`object` is the identity that an acknowledgement which arrives later finds the entry by. -/
structure RcConfigState (F : Type*) where
  object : ℕ
  path : Str
  product : Str
  id : Str
  version : Option ℕ
  applyState : ApplyState
  applyError : Str
  length : Option ℕ
  hashes : Option Hashes
  file : Option F
  deriving DecidableEq

/-! ## Paths -/

/-- `\d` -/
def isDigit (u : UInt16) : Bool := unit '0' ≤ u && u ≤ unit '9'

/-- `parseConfigPath`: the product and the id of a path that matches
`^(?:datadog\/\d+|employee)\/([^/]+)\/([^/]+)\/[^/]+$`. -/
def parseConfigPath (configPath : Str) : Option (Str × Str) :=
  match Str.split (unit '/') configPath with
  | [source, org, product, id, name] =>
    if source = lit "datadog" ∧ org ≠ [] ∧ org.all isDigit ∧ product ≠ [] ∧ id ≠ [] ∧ name ≠ [] then
      some (product, id)
    else none
  | [source, product, id, name] =>
    if source = lit "employee" ∧ product ≠ [] ∧ id ≠ [] ∧ name ≠ [] then some (product, id)
    else none
  | _ => none

example : parseConfigPath (lit "datadog/42/APM_TRACING/abc/lib_config") =
    some (lit "APM_TRACING", lit "abc") := by decide +kernel

/-! ## Transactions -/

/-- The applied configurations, by path. -/
abbrev AppliedConfigs (F : Type*) := OrderedMap Str (RcConfigState F)

/-- The changes of one update. -/
structure Transaction (F : Type*) where
  toUnapply : List (RcConfigState F)
  toApply : List (RcConfigState F)
  toModify : List (RcConfigState F)

namespace Transaction

variable {F : Type*}

/-- No change at all. -/
def isEmpty (tx : Transaction F) : Bool :=
  tx.toUnapply.isEmpty && tx.toApply.isEmpty && tx.toModify.isEmpty

/-- The configurations that the transaction brings. -/
def delivered (tx : Transaction F) : List (RcConfigState F) := tx.toApply ++ tx.toModify

/-- `filterTransactionByProducts` -/
def filterByProducts (tx : Transaction F) (products : List Str) : Transaction F where
  toUnapply := tx.toUnapply.filter fun item => includes products item.product
  toApply := tx.toApply.filter fun item => includes products item.product
  toModify := tx.toModify.filter fun item => includes products item.product

/-- The applied configurations after `dispatch` has gone through the three lists. -/
def commit (tx : Transaction F) (applied : AppliedConfigs F) : AppliedConfigs F :=
  (tx.delivered.map fun item => (item.path, item)).foldl (fun m e => m.set e.1 e.2)
    ((tx.toUnapply.map RcConfigState.path).foldl (fun m path => m.delete path) applied)

/-- A transaction as `parseConfig` builds it over the applied configurations, from a response that
lists no path twice. -/
structure Fits (tx : Transaction F) (applied : AppliedConfigs F) : Prop where
  unapplied : ∀ item ∈ tx.toUnapply, applied.get? item.path = some item
  fresh : ∀ item ∈ tx.toApply, applied.get? item.path = none
  modified : ∀ item ∈ tx.toModify, ∃ current, applied.get? item.path = some current
  path : ∀ item ∈ tx.delivered, parseConfigPath item.path = some (item.product, item.id)
  nodup : ((tx.toUnapply ++ tx.delivered).map RcConfigState.path).Nodup

/-- Every configuration is under its own path, which names its product and id. -/
def Keyed (applied : AppliedConfigs F) : Prop :=
  ∀ path item, applied.get? path = some item →
    item.path = path ∧ parseConfigPath path = some (item.product, item.id)

theorem keyed_empty : Keyed (OrderedMap.empty : AppliedConfigs F) := fun _ _ h => by cases h

variable {tx : Transaction F} {applied : AppliedConfigs F}

variable {path : Str}

/-- The items delivered under different paths are the last ones of their paths. -/
theorem lastValue_delivered (h : (tx.delivered.map RcConfigState.path).Nodup)
    {item : RcConfigState F} :
    OrderedMap.lastValue (tx.delivered.map fun item => (item.path, item)) path = some item ↔
      item ∈ tx.delivered ∧ item.path = path := by
  rw [OrderedMap.lastValue_eq_some_iff (by rwa [List.map_map]), List.mem_map]
  constructor
  · rintro ⟨i, hi, he⟩
    cases he
    exact ⟨hi, rfl⟩
  · rintro ⟨hi, rfl⟩
    exact ⟨item, hi, rfl⟩

theorem lastValue_delivered_eq_none :
    OrderedMap.lastValue (tx.delivered.map fun item => (item.path, item)) path = none ↔
      ∀ item ∈ tx.delivered, item.path ≠ path := by
  rw [OrderedMap.lastValue_eq_none_iff, List.map_map, List.mem_map]
  constructor
  · rintro h item hitem rfl
    exact h ⟨item, hitem, rfl⟩
  · rintro h ⟨item, hitem, he⟩
    exact h item hitem he

/-- **A path after the commit** of a transaction that lists each path once. -/
theorem get?_commit_eq_some (h : (tx.delivered.map RcConfigState.path).Nodup)
    {item : RcConfigState F} :
    (tx.commit applied).get? path = some item ↔ (item ∈ tx.delivered ∧ item.path = path) ∨
        ((∀ i ∈ tx.delivered, i.path ≠ path) ∧ path ∉ tx.toUnapply.map RcConfigState.path ∧
          applied.get? path = some item) := by
  rw [commit, OrderedMap.get?_foldl_set, Option.or_eq_some_iff, lastValue_delivered h,
    lastValue_delivered_eq_none, OrderedMap.get?_foldl_delete_eq_some]

theorem Fits.nodup_delivered (h : tx.Fits applied) :
    (tx.delivered.map RcConfigState.path).Nodup := by
  have hnodup := h.nodup
  rw [List.map_append] at hnodup
  exact hnodup.of_append_right

/-- The commit keeps every configuration under its own path. -/
theorem keyed_commit (h : tx.Fits applied) (hkeyed : Keyed applied) :
    Keyed (tx.commit applied) := by
  intro path item hget
  rcases (get?_commit_eq_some h.nodup_delivered).mp hget with ⟨hmem, rfl⟩ | ⟨-, -, hold⟩
  · exact ⟨rfl, h.path item hmem⟩
  · exact hkeyed path item hold

end Transaction
end DdTrace.RemoteConfig
