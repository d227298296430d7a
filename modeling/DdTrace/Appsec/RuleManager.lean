import DdTrace.RemoteConfig.Transaction

/-!
# The WAF under remote config

`updateWafFromRC` of `appsec/rule_manager.js` brings a transaction of remote config to the WAF, item
by item, and tracks the blocking actions of the `ASM` files on the way.  This module is that code
with the parts of `waf/index.js`, `waf/waf_manager.js` and `blocking/index.js` that it goes through.

* `Native`: what the WAF library answers to the calls of one transaction.  Every call may fail, a
  failed update may leave the version that was loaded or drop it, and a call that does not fail
  does what it says.
* `SpyMap`: the tracked actions of one transaction, with the flag that `set` and `delete` raise.
* `Pass`: the state inside a transaction, and `unapply` and `deliver` its two loop bodies.  Each
  item ends in exactly one report, `ack` or `error`.
* `updateWafFromRC`: the whole transaction.

The WAF is there in every state: `loadRules` has created it, and nothing here destroys it.
-/

namespace DdTrace.Appsec

open Library RemoteConfig

/-- A blocking action.  What its parameters are is not looked at. -/
structure Action (P : Type*) where
  id : Str
  parameters : Option P
  deriving DecidableEq

/-- `AsmConfigFile`: a file, by the actions it declares. -/
structure AsmConfigFile (P : Type*) where
  actions : Option (List (Action P))
  deriving DecidableEq

/-- A remote file. -/
abbrev Item (P : Type*) := RcConfigState (AsmConfigFile P)

/-- `ASM_WAF_PRODUCTS` -/
def asmWafProducts : List Str := [lit "ASM", lit "ASM_DD", lit "ASM_DATA"]

/-- `ASM_WAF_PRODUCTS_SET.has(item.product)` -/
def isWafProduct (product : Str) : Bool := includes asmWafProducts product

/-- `asmFile?.actions`, where none and an empty list are the same to what reads it. -/
def actionsOf {P : Type*} (item : Item P) : List (Action P) :=
  (item.file.bind AsmConfigFile.actions).getD []

/-- `setDefaultBlockingActionParameters`: the parameters that it keeps. -/
def defaultBlockingActionParameters {P : Type*} (actions : List (Action P)) : Option P :=
  (actions.find? fun action => decide (action.id = lit "block")).bind Action.parameters

/-! ## The WAF -/

/-- What is loaded under a path: the default ruleset, or a remote file of a product. -/
inductive Ruleset where
  | default
  | remote (product : Str)
  deriving DecidableEq

/-- The loaded configurations of the WAF; its `configPaths` are the keys. -/
abbrev Ddwaf := OrderedMap Str Ruleset

/-- How an update ends: it is loaded, or it fails, by a result or by a throw, and the version that
was loaded under the path stays or is dropped. -/
inductive UpdateAnswer where
  | loaded
  | failed (unloads : Bool)
  deriving DecidableEq

/-- The answers of the WAF library in one transaction, by the path of the item that is handled:
whether the removal of its path goes through, whether the removal of the default ruleset before an
update does, how the update ends, and how the default ruleset is loaded again. -/
structure Native where
  removes : Str → Bool
  dropsDefault : Str → Bool
  updates : Str → UpdateAnswer
  fallback : UpdateAnswer

/-- `WAFManager.defaultWafConfigPath` -/
def defaultWafConfigPath : Str := lit "datadog/00/ASM_DD/default/config"

/-- `s.includes(t)` -/
def hasText (s t : Str) : Bool := s.tails.any fun u => t.isPrefixOf u

namespace Ddwaf

/-- `createOrUpdateConfig` -/
def createOrUpdateConfig (waf : Ddwaf) (path : Str) (ruleset : Ruleset) :
    UpdateAnswer → Ddwaf × Bool
  | .loaded => (waf.set path ruleset, true)
  | .failed true => (waf.delete path, false)
  | .failed false => (waf, false)

/-- `waf.removeConfig`: none where it throws. -/
def removeConfig (waf : Ddwaf) (path : Str) (goesThrough : Bool) : Option Ddwaf :=
  if goesThrough then some (waf.delete path) else none

/-- `waf.updateConfig`: the loaded configurations and whether it went through.  A ruleset from
remote config takes the place of the default one, which goes first. -/
def updateConfig (waf : Ddwaf) (native : Native) (product path : Str) : Ddwaf × Bool :=
  if product = lit "ASM_DD" then
    match waf.removeConfig defaultWafConfigPath (native.dropsDefault path) with
    | none => (waf, false)
    | some waf => waf.createOrUpdateConfig path (.remote product) (native.updates path)
  else waf.createOrUpdateConfig path (.remote product) (native.updates path)

/-- `checkAsmDdFallback`: a failure is logged. -/
def checkAsmDdFallback (waf : Ddwaf) (native : Native) : Ddwaf :=
  if waf.keys.any fun path => hasText path (lit "ASM_DD") then waf
  else (waf.createOrUpdateConfig defaultWafConfigPath .default native.fallback).1

end Ddwaf

/-! ## The tracked actions -/

/-- `SpyMap` -/
structure SpyMap (P : Type*) where
  map : OrderedMap Str (List (Action P))
  modified : Bool := false

namespace SpyMap

variable {P : Type*}

def set (m : SpyMap P) (id : Str) (actions : List (Action P)) : SpyMap P where
  map := m.map.set id actions
  modified := true

def delete (m : SpyMap P) (id : Str) : SpyMap P where
  map := m.map.delete id
  modified := m.modified || m.map.has id

end SpyMap

/-- `concatArrays` -/
def concatArrays {P : Type*} (files : OrderedMap Str (List (Action P))) : List (Action P) :=
  files.values.flatten

/-! ## One transaction -/

/-- What a transaction is told about an item: `ack` after its removal or its update, or `error`. -/
inductive Report (P : Type*) where
  | removed (item : Item P)
  | updated (item : Item P)
  | error (path : Str)

/-- The state inside `updateWafFromRC`. -/
structure Pass (P : Type*) where
  waf : Ddwaf
  newActions : SpyMap P
  reports : List (Report P) := []

namespace Pass

variable {P : Type*}

/-- The body of the loop over `toUnapply`. -/
def unapply (native : Native) (p : Pass P) (item : Item P) : Pass P :=
  if isWafProduct item.product then
    match p.waf.removeConfig item.path (native.removes item.path) with
    | none => { p with reports := p.reports ++ [.error item.path] }
    | some waf =>
      { waf := waf
        newActions :=
          if item.product = lit "ASM" then p.newActions.delete item.id else p.newActions
        reports := p.reports ++ [.removed item] }
  else p

/-- The body of the loop over `toApply` and `toModify`. -/
def deliver (native : Native) (p : Pass P) (item : Item P) : Pass P :=
  if isWafProduct item.product then
    match p.waf.updateConfig native item.product item.path with
    | (waf, false) => { p with waf := waf, reports := p.reports ++ [.error item.path] }
    | (waf, true) =>
      { waf := waf
        newActions :=
          if item.product = lit "ASM" then
            -- A file without actions leaves the map as it is.
            if actionsOf item ≠ [] then p.newActions.set item.id (actionsOf item)
            else p.newActions
          else p.newActions
        reports := p.reports ++ [.updated item] }
  else p

end Pass

/-- The state between transactions: what the WAF has loaded, `appliedActions` of the rule manager
and the default parameters of `blocking`. -/
structure RuleManager (P : Type*) where
  waf : Ddwaf
  appliedActions : OrderedMap Str (List (Action P))
  defaultParameters : Option P

namespace RuleManager

variable {P : Type*}

/-- `loadRules`: the default ruleset, with the actions that it declares. -/
def loadRules (defaultActions : List (Action P)) : RuleManager P where
  waf := OrderedMap.empty.set defaultWafConfigPath .default
  appliedActions := .empty
  defaultParameters := defaultBlockingActionParameters defaultActions

/-- The state at the start of a transaction. -/
def start (s : RuleManager P) : Pass P where
  waf := s.waf
  newActions := ⟨s.appliedActions, false⟩

/-- The two loops of a transaction. -/
def pass (s : RuleManager P) (native : Native) (tx : RemoteConfig.Transaction (AsmConfigFile P)) :
    Pass P :=
  tx.delivered.foldl (Pass.deliver native) (tx.toUnapply.foldl (Pass.unapply native) s.start)

/-- What comes after the loops: the fallback, and the actions when they were modified. -/
def finish (s : RuleManager P) (native : Native) (p : Pass P) : RuleManager P where
  waf := p.waf.checkAsmDdFallback native
  appliedActions := if p.newActions.modified then p.newActions.map else s.appliedActions
  defaultParameters :=
    if p.newActions.modified then defaultBlockingActionParameters (concatArrays p.newActions.map)
    else s.defaultParameters

/-- `updateWafFromRC` -/
def updateWafFromRC (s : RuleManager P) (native : Native)
    (tx : RemoteConfig.Transaction (AsmConfigFile P)) : RuleManager P :=
  s.finish native (s.pass native tx)

end RuleManager
end DdTrace.Appsec
