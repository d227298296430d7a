import DdTrace.RemoteConfig.Transaction

/-!
# One response of remote config

`parseConfig` of `remote_config/index.js`: what a response of the agent does to the tables that
the client keeps, the calls it makes into the handlers of the products, and where it throws.

A response is taken after `JSON.parse` and `fromBase64JSON`: an encoded part is `Decoded`, the
value it holds, `null`, or the text of the error that decoding it throws.  Parts that the code
reads without asking whether they are there are options.

The work falls into two halves.

* `plan` is everything up to the first write.  It looks up each path of the response and builds
  the transaction; every throw in it leaves the client as it was.
* `perform` runs after the versions have been written: the batch handlers, the outcomes they
  reported, `dispatch` to the handlers of single products, and the table of cached files.

What a handler does is not the client's business: a `Behaviour` says how each call ends.  An
acknowledgement that comes after the response is an event of its own (`RcClient.settle`), which
finds its entry by the identity of the object.

`parseConfig` keeps the state on a throw, since the writes before it are not undone.
-/

namespace DdTrace.RemoteConfig

open Library

variable {F : Type}

/-! ## Responses -/

/-- What `fromBase64JSON` makes of a string. -/
inductive Decoded (α : Type) where
  | null
  | value (a : α)
  | throws (message : Str)

/-- A signed target: `custom.v`, `length` and `hashes`. -/
structure TargetMeta where
  custom : Option (Option ℕ)
  length : Option ℕ
  hashes : Option Hashes

/-- `targets.signed`, with `custom.opaque_backend_state`. -/
structure SignedTargets where
  targets : Option (OrderedMap Str TargetMeta)
  version : Option ℕ
  custom : Option (Option Str)

/-- The signed index. -/
structure Targets where
  signed : Option SignedTargets

/-- A target file. -/
structure TargetFile (F : Type) where
  path : Str
  raw : Decoded F

/-- A response of the agent. -/
structure Response (F : Type) where
  clientConfigs : List Str := []
  targets : Decoded Targets := .null
  targetFiles : List (TargetFile F) := []

/-! ## Errors -/

/-- A thrown value, by its `toString()`; `null` and `undefined` have none. -/
abbrev Thrown := Option Str

/-- What `parseConfig` throws. -/
inductive RcError where
  /-- of `JSON.parse` -/
  | syntaxError (message : Str)
  /-- of reading a property of `undefined` -/
  | typeError (property : Str)
  /-- of `Object.entries(undefined)` -/
  | noObject
  | noTarget (path : Str)
  | noFile (path : Str)
  | badPath (path : Str)
  /-- of a batch handler -/
  | thrown (value : Thrown)
  deriving DecidableEq

/-- `err.toString()` -/
def RcError.toString : RcError → Option Str
  | .syntaxError message => some (lit "SyntaxError: " ++ message)
  | .typeError property => some
      (lit "TypeError: Cannot read properties of undefined (reading '" ++ property ++ lit "')")
  | .noObject => some (lit "TypeError: Cannot convert undefined or null to object")
  | .noTarget path => some (lit "Error: Unable to find target for path " ++ path)
  | .noFile path => some (lit "Error: Unable to find file for path " ++ path)
  | .badPath path => some (lit "Error: Unable to parse path " ++ path)
  | .thrown value => value

/-- The value, or the error when there is none. -/
def orThrow {α : Type} (o : Option α) (e : RcError) : Except RcError α :=
  match o with
  | some a => .ok a
  | none => .error e

/-- `fromBase64JSON` -/
def fromBase64JSON {α : Type} : Decoded α → Except RcError (Option α)
  | .null => .ok none
  | .value a => .ok (some a)
  | .throws message => .error (.syntaxError message)

/-! ## The tables of the client -/

/-- An entry of `cached_target_files`. -/
structure RcCachedTargetFile where
  path : Str
  length : Option ℕ
  hashes : List (Str × Str)
  deriving DecidableEq

/-- An entry of `config_states`. -/
structure ConfigState where
  id : Str
  version : Option ℕ
  product : Str
  applyState : ApplyState
  applyError : Str
  deriving DecidableEq

/-- The client: the part of its state that responses change, the applied configurations, and how
many of their objects there have been. -/
structure RcClient (F : Type) where
  targetsVersion : Option ℕ := some 0
  backendClientState : Option Str := some []
  hasError : Bool := false
  error : Str := []
  cachedTargetFiles : List RcCachedTargetFile := []
  appliedConfigs : AppliedConfigs F := .empty
  objects : ℕ := 0

/-- The getter `config_states`. -/
def RcClient.configStates (s : RcClient F) : List ConfigState :=
  s.appliedConfigs.values.map fun conf =>
    ⟨conf.id, conf.version, conf.product, conf.applyState, conf.applyError⟩

/-! ## Up to the first write -/

/-- The three lists as they grow, with `transactionByPath`. -/
structure Plan (F : Type) where
  toUnapply : List (RcConfigState F)
  toApply : List (RcConfigState F)
  toModify : List (RcConfigState F)
  byPath : OrderedMap Str ℕ
  objects : ℕ

def Plan.transaction (p : Plan F) : Transaction F := ⟨p.toUnapply, p.toApply, p.toModify⟩

/-- A path that is not applied yet. -/
def Plan.pushApply (p : Plan F) (conf : RcConfigState F) : Plan F :=
  { p with
    toApply := p.toApply ++ [conf]
    byPath := p.byPath.set conf.path conf.object
    objects := p.objects + 1 }

/-- A path whose file has changed. -/
def Plan.pushModify (p : Plan F) (conf : RcConfigState F) : Plan F :=
  { p with
    toModify := p.toModify ++ [conf]
    byPath := p.byPath.set conf.path conf.object
    objects := p.objects + 1 }

/-- The new object of a path. -/
def newConf (r : Response F) (target : TargetMeta) (object : ℕ) (path : Str) :
    Except RcError (RcConfigState F) := do
  let file ← orThrow (r.targetFiles.find? fun file => file.path = path) (.noFile path)
  let (product, id) ← orThrow (parseConfigPath path) (.badPath path)
  let version ← orThrow target.custom (.typeError (lit "v"))
  let content ← fromBase64JSON file.raw
  return {
    object := object
    path := path
    product := product
    id := id
    version := version
    applyState := .unacknowledged
    applyError := []
    length := target.length
    hashes := target.hashes
    file := content }

/-- The signed target of a path. -/
def targetOf (targets : Targets) (path : Str) : Except RcError TargetMeta := do
  let signed ← orThrow targets.signed (.typeError (lit "targets"))
  let index ← orThrow signed.targets (.typeError path)
  orThrow (index.get? path) (.noTarget path)

/-- One path of `client_configs`. -/
def planPath (applied : AppliedConfigs F) (r : Response F) (targets : Targets) (p : Plan F)
    (path : Str) : Except RcError (Plan F) := do
  let target ← targetOf targets path
  match applied.get? path with
  | some current =>
    let hashes ← orThrow current.hashes (.typeError (lit "sha256"))
    let hashes' ← orThrow target.hashes (.typeError (lit "sha256"))
    if sha256 hashes = sha256 hashes' then
      return p
    else
      return p.pushModify (← newConf r target p.objects path)
  | none => return p.pushApply (← newConf r target p.objects path)

/-- The configurations that the response does not list any more. -/
def planUnapply (s : RcClient F) (r : Response F) : Plan F :=
  let toUnapply := s.appliedConfigs.values.filter fun conf => !includes r.clientConfigs conf.path
  { toUnapply := toUnapply
    toApply := []
    toModify := []
    byPath := .ofEntries (toUnapply.map fun conf => (conf.path, conf.object))
    objects := s.objects }

/-- Everything before the first write: the changes, and the decoded index. -/
def plan (s : RcClient F) (r : Response F) : Except RcError (Plan F × Option SignedTargets) := do
  let targets ← fromBase64JSON r.targets
  match targets with
  | none => return (planUnapply s r, none)
  | some targets =>
    let p ← r.clientConfigs.foldlM (planPath s.appliedConfigs r targets) (planUnapply s r)
    let signed ← orThrow targets.signed (.typeError (lit "version"))
    return (p, some signed)

/-! ## The handlers -/

/-- An action of `dispatch`. -/
inductive RcAction where
  | unapply
  | apply
  | modify
  deriving DecidableEq

/-- The registered handlers: the products of each batch handler, in order, and for each product
with a handler of its own whether that accepts an `ack` callback. -/
structure Handlers where
  batch : List (List Str)
  single : OrderedMap Str Bool

/-- What a batch handler reports of a path: `ack(path)`, or `error(path, err)` with the text. -/
structure Report where
  path : Str
  error : Option Str

/-- A call of a batch handler: what it reports, and what it throws after that. -/
structure BatchCall where
  reports : List Report
  throws : Option Thrown

/-- How a call of a product's handler ends. -/
inductive HandlerResult where
  | returned
  | promise
  | threw (value : Thrown)

/-- A call of a product's handler: the calls of `ack` before it ends, each with the text of the
error it is given, and how it ends. -/
structure HandlerCall where
  acks : List (Option Str)
  result : HandlerResult

/-- How the handlers behave during one response. -/
structure Behaviour (F : Type) where
  batch : ℕ → Transaction F → BatchCall
  single : RcAction → RcConfigState F → HandlerCall

/-- A call that the client makes. -/
inductive Call (F : Type) where
  | batch (index : ℕ) (view : Transaction F)
  | single (action : RcAction) (item : RcConfigState F)

/-- The `ack` callback. -/
def ackItem (item : RcConfigState F) (err : Option Str) : RcConfigState F :=
  match err with
  | some text => { item with applyState := .error, applyError := text }
  | none => if item.applyState = .error then item else { item with applyState := .acknowledged }

/-- `#callHandlerFor`: the item after it, the call, and what escapes from the `catch` block, where
`err.toString()` throws for a nullish `err`. -/
def callHandlerFor (h : Handlers) (b : Behaviour F) (action : RcAction) (item : RcConfigState F) :
    RcConfigState F × List (Call F) × Option RcError :=
  if item.applyState ≠ .unacknowledged ∧ action ≠ .unapply then (item, [], none)
  else
    match h.single.get? item.product with
    | none => (item, [], none)
    | some supportsAck =>
      let call := b.single action item
      let acked := if supportsAck then call.acks.foldl ackItem item else item
      match call.result with
      | .threw (some text) =>
        ({ acked with applyState := .error, applyError := text }, [.single action item], none)
      | .threw none =>
        ({ acked with applyState := .error }, [.single action item],
          some (.typeError (lit "toString")))
      | .promise => (acked, [.single action item], none)
      | .returned =>
        (if supportsAck then acked else { acked with applyState := .acknowledged },
          [.single action item], none)

/-! ## After the versions have been written -/

/-- The applied configurations, the calls made and the error thrown, as the work goes on. -/
structure Stage (F : Type) where
  applied : AppliedConfigs F
  calls : List (Call F)
  thrown : Option RcError

/-- The batch handlers from an index on: the reports and calls up to the first throw. -/
def runBatch (b : Behaviour F) (tx : Transaction F) :
    ℕ → List (List Str) → List Report × List (Call F) × Option RcError
  | _, [] => ([], [], none)
  | index, products :: rest =>
    let view := tx.filterByProducts products
    if view.isEmpty then runBatch b tx (index + 1) rest
    else
      let call := b.batch index view
      match call.throws with
      | some value => (call.reports, [.batch index view], some (.thrown value))
      | none =>
        let (reports, calls, thrown) := runBatch b tx (index + 1) rest
        (call.reports ++ reports, .batch index view :: calls, thrown)

/-- `transactionOutcomes`: the last report of each path. -/
def outcomesOf (reports : List Report) : OrderedMap Str (Option Str) :=
  .ofEntries (reports.map fun report => (report.path, report.error))

/-- `applyOutcomes`, for one item. -/
def applyOutcome (p : Plan F) (outcomes : OrderedMap Str (Option Str)) (item : RcConfigState F) :
    RcConfigState F :=
  if p.byPath.get? item.path = some item.object then
    match outcomes.get? item.path with
    | some (some text) => { item with applyState := .error, applyError := text }
    | some none => { item with applyState := .acknowledged, applyError := [] }
    | none => item
  else item

/-- One item of `dispatch`.  The object of an unapplied configuration is the one in the table, so
that a change of it shows there when the handler's error gets out. -/
def dispatchItem (h : Handlers) (b : Behaviour F) (handled : List Str) (action : RcAction)
    (st : Stage F) (item : RcConfigState F) : Stage F :=
  if st.thrown.isSome then st
  else
    let (item', calls, thrown) :=
      if includes handled item.path then (item, [], none) else callHandlerFor h b action item
    match thrown with
    | some e =>
      { applied := if action = .unapply then st.applied.set item.path item' else st.applied
        calls := st.calls ++ calls
        thrown := some e }
    | none =>
      { applied :=
          if action = .unapply then st.applied.delete item.path
          else st.applied.set item.path item'
        calls := st.calls ++ calls
        thrown := none }

/-- `dispatch` -/
def dispatch (h : Handlers) (b : Behaviour F) (handled : List Str) (list : List (RcConfigState F))
    (action : RcAction) (st : Stage F) : Stage F :=
  list.foldl (dispatchItem h b handled action) st

/-- `cached_target_files` of the applied configurations, up to the first without hashes. -/
def cacheFiles : List (RcConfigState F) → List RcCachedTargetFile × Option RcError
  | [] => ([], none)
  | conf :: rest =>
    match conf.hashes with
    | none => ([], some .noObject)
    | some hashes =>
      let (files, thrown) := cacheFiles rest
      (⟨conf.path, conf.length, hashes.entries⟩ :: files, thrown)

/-- A response taken in: the client after it, the calls made, the error thrown. -/
structure Taken (F : Type) where
  client : RcClient F
  calls : List (Call F)
  thrown : Option RcError

/-- The handlers and the tables after them. -/
def perform (h : Handlers) (b : Behaviour F) (s : RcClient F) (p : Plan F) : Taken F :=
  let (reports, calls, thrown) := runBatch b p.transaction 0 h.batch
  match thrown with
  | some e => ⟨s, calls, some e⟩
  | none =>
    let outcomes := outcomesOf reports
    let handled := outcomes.keys
    let toUnapply := p.toUnapply.map (applyOutcome p outcomes)
    let applied := toUnapply.foldl (fun m item => m.set item.path item) s.appliedConfigs
    let st := dispatch h b handled toUnapply .unapply ⟨applied, calls, none⟩
    let st := dispatch h b handled (p.toApply.map (applyOutcome p outcomes)) .apply st
    let st := dispatch h b handled (p.toModify.map (applyOutcome p outcomes)) .modify st
    let s := { s with appliedConfigs := st.applied, objects := p.objects }
    match st.thrown with
    | some e => ⟨s, st.calls, some e⟩
    | none =>
      let (files, thrown) := cacheFiles st.applied.values
      ⟨{ s with cachedTargetFiles := files }, st.calls, thrown⟩

/-- The two versions, written one after the other. -/
def writeVersions (s : RcClient F) (signed : SignedTargets) : RcClient F × Option RcError :=
  let s := { s with targetsVersion := signed.version }
  match signed.custom with
  | none => (s, some (.typeError (lit "opaque_backend_state")))
  | some state => ({ s with backendClientState := state }, none)

/-- `parseConfig` -/
def parseConfig (h : Handlers) (b : Behaviour F) (s : RcClient F) (r : Response F) : Taken F :=
  match plan s r with
  | .error e => ⟨s, [], some e⟩
  | .ok (p, signed) =>
    let (s, thrown) := (signed.map (writeVersions s)).getD (s, none)
    match thrown with
    | some e => ⟨s, [], some e⟩
    | none => if p.transaction.isEmpty then ⟨s, [], none⟩ else perform h b s p

/-! ## Polls and late acknowledgements -/

/-- An acknowledgement that comes when `parseConfig` has returned: a call of `ack`, or the end of
a promise. -/
inductive Settlement where
  | ack (err : Option Str)
  | resolved
  | rejected (err : Str)

def settleItem (item : RcConfigState F) : Settlement → RcConfigState F
  | .ack err => ackItem item err
  | .resolved => { item with applyState := .acknowledged }
  | .rejected err => { item with applyState := .error, applyError := err }

/-- The object is changed wherever it is kept. -/
def RcClient.settle (s : RcClient F) (object : ℕ) (how : Settlement) : RcClient F :=
  { s with
    appliedConfigs := s.appliedConfigs.mapValues fun item =>
      if item.object = object then settleItem item how else item }

/-- How the request of a poll ends: with status 404 or an error, with no news, with a body that
is not JSON, or with a response. -/
inductive PollResult (F : Type) where
  | failed
  | upToDate
  | malformed (message : Str)
  | response (r : Response F)

/-- An error that was just sent is reset. -/
def RcClient.clearError (s : RcClient F) : RcClient F :=
  if s.hasError then { s with hasError := false, error := [] } else s

/-- `catch (err)` of `poll`. -/
def RcClient.report (s : RcClient F) (e : RcError) : RcClient F :=
  { s with hasError := true, error := e.toString.getD s.error }

/-- The callback of `poll`. -/
def poll (h : Handlers) (b : Behaviour F) (s : RcClient F) : PollResult F → RcClient F
  | .failed => s
  | .upToDate => s.clearError
  | .malformed message => s.clearError.report (.syntaxError message)
  | .response r =>
    let taken := parseConfig h b s.clearError r
    match taken.thrown with
    | some e => taken.client.report e
    | none => taken.client

end DdTrace.RemoteConfig
