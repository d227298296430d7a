import DdTrace.Library.LruCache
import DdTrace.Library.OrderedMap
import DdTrace.Library.Text

/-!
# The overhead controller of IAST

`appsec/iast/overhead-controller.js` decides which vulnerabilities of a request are reported.  A
request has a budget, and every vulnerability that is reported costs a token of it.  So that the
first ones do not use up the budget of every request, the controller counts vulnerabilities by route
and type, and skips as many as the requests before have got through; the counts outlive the requests
in a cache of at most 4096 routes.

* `hasQuota`: one vulnerability; `load` copies the counters of a route at its first vulnerability.
* `getContext`: the route that a vulnerability is counted under.  It is computed again when the list
  of paths of the request is another object, and only then.
* `consolidate`: the counters at the end of a request.
* `request`: the events of one request, with the route changes of `plugins/util/web.js`.
-/

namespace DdTrace.Appsec

open Library

/-- `vulnerabilities.js` -/
inductive VulnerabilityType where
  | commandInjection | codeInjection | hardcodedPassword | hardcodedSecret | hstsHeaderMissing
  | insecureCookie | ldapInjection | noHttponlyCookie | noSamesiteCookie | nosqlMongodbInjection
  | pathTraversal | sqlInjection | ssrf | templateInjection | unvalidatedRedirect
  | untrustedDeserialization | weakCipher | weakHash | weakRandomness | xcontenttypeHeaderMissing
  deriving DecidableEq

/-- The counters of a route, by type. -/
abbrev Counters := VulnerabilityType → ℕ

/-- `newCountersArray` -/
def newCounters : Counters := fun _ => 0

/-- `counters[vulnerabilityIndex]++` -/
def increment (counters : Counters) (type : VulnerabilityType) : Counters := fun t =>
  if t = type then counters t + 1 else counters t

/-- `globalRouteMap` -/
abbrev GlobalRouteMap := LruCache Str Counters

/-- The route map of a process that starts. -/
def emptyRouteMap : GlobalRouteMap := .empty 4096

/-! ## The paths of a request -/

/-- `paths` of the web context: the list, and which object it is. -/
structure PathList where
  object : ℕ
  segments : List Str
  deriving DecidableEq

/-- The web context, by its paths and the number of lists there have been. -/
structure WebContext where
  paths : PathList := ⟨0, []⟩
  created : ℕ := 0
  deriving DecidableEq

namespace WebContext

/-- `enterRoute`: the segment is pushed onto the list that is there. -/
def enterRoute (web : WebContext) (path : Str) : WebContext :=
  { web with paths := { web.paths with segments := web.paths.segments ++ [path] } }

/-- `exitRoute`: the last segment is popped. -/
def exitRoute (web : WebContext) : WebContext :=
  { web with paths := { web.paths with segments := web.paths.segments.dropLast } }

/-- `setRoute`: a new list. -/
def setRoute (web : WebContext) (path : Str) : WebContext where
  paths := ⟨web.created + 1, [path]⟩
  created := web.created + 1

/-- The key of the current route. -/
def route (web : WebContext) (method : Str) : Str :=
  lit "#" ++ method ++ lit "#" ++ web.paths.segments.flatten

end WebContext

/-! ## The controller context of a request -/

/-- The controller context: the tokens, the route and the list that it was computed from, the route
whose maps are at hand, and the maps of all loaded routes. -/
structure OceContext where
  tokens : ℕ
  paths : Option ℕ := none
  route : Option Str := none
  loadedRoute : Option Str := none
  copyMaps : OrderedMap Str Counters := .empty
  localMaps : OrderedMap Str Counters := .empty

namespace OceContext

/-- `_getNewContext` -/
def new (maxContextOperations : ℕ) : OceContext := { tokens := maxContextOperations }

/-- `_getContext` -/
def getContext (web : WebContext) (method : Str) (context : OceContext) : OceContext :=
  if some web.paths.object ≠ context.paths ∨ context.route = none then
    { context with paths := some web.paths.object, route := some (web.route method) }
  else context

/-- The maps of a route, loaded when it is not the one at hand. -/
def load (cache : GlobalRouteMap) (context : OceContext) (route : Str) :
    GlobalRouteMap × OceContext :=
  if context.loadedRoute ≠ some route then
    let copied := !context.copyMaps.has route
    (if copied then cache.touch route else cache,
      { context with
        copyMaps :=
          if copied then context.copyMaps.set route (cache.read newCounters route)
          else context.copyMaps
        localMaps :=
          if context.localMaps.has route then context.localMaps
          else context.localMaps.set route newCounters
        loadedRoute := some route })
  else (cache, context)

/-- `OPERATIONS.REPORT_VULNERABILITY.hasQuota` -/
def hasQuota (cache : GlobalRouteMap) (context : OceContext) (type : VulnerabilityType) :
    Bool × GlobalRouteMap × OceContext :=
  if context.tokens = 0 then (false, cache, context)
  else
    match context.route with
    | none => (true, cache, { context with tokens := context.tokens - 1 })
    | some route =>
      let (cache, context) := load cache context route
      let localMap := (context.localMaps.get? route).getD newCounters
      let copyMap := (context.copyMaps.get? route).getD newCounters
      let context :=
        { context with localMaps := context.localMaps.set route (increment localMap type) }
      if localMap type < copyMap type then (false, cache, context)
      else (true, cache, { context with tokens := context.tokens - 1 })

/-- One loaded route at the end of a request that has used up its budget. -/
def mergeRoute (cache : GlobalRouteMap) (e : Str × Counters) : GlobalRouteMap :=
  match cache.peek e.1 with
  | none => cache.set e.1 e.2
  | some globalMap => cache.set e.1 fun t => max (e.2 t) (globalMap t)

/-- `consolidateVulnerabilities` -/
def consolidate (cache : GlobalRouteMap) (context : OceContext) : GlobalRouteMap :=
  if 0 < context.tokens then
    context.localMaps.keys.foldl (fun cache route => cache.set route newCounters) cache
  else context.localMaps.entries.foldl mergeRoute cache

end OceContext

/-! ## One request -/

/-- What happens in a request. -/
inductive Event where
  | enterRoute (path : Str)
  | exitRoute
  | setRoute (path : Str)
  | vulnerability (type : VulnerabilityType)
  deriving DecidableEq

/-- The type of a vulnerability. -/
def Event.type? : Event → Option VulnerabilityType
  | .vulnerability type => some type
  | _ => none

/-- An endpoint: its method, and what happens in every one of its requests. -/
structure Endpoint where
  method : Str
  events : List Event

/-- A vulnerability as it was handled: its type, the route that was current, the route that it was
counted under, and whether it was reported. -/
structure Handled where
  type : VulnerabilityType
  current : Str
  charged : Str
  reported : Bool
  deriving DecidableEq

/-- A request under way. -/
structure Request where
  web : WebContext := {}
  context : OceContext
  cache : GlobalRouteMap
  log : List Handled := []

namespace Request

/-- One event of a request. -/
def step (method : Str) (r : Request) : Event → Request
  | .enterRoute path => { r with web := r.web.enterRoute path }
  | .exitRoute => { r with web := r.web.exitRoute }
  | .setRoute path => { r with web := r.web.setRoute path }
  | .vulnerability type =>
    let context := r.context.getContext r.web method
    let (reported, cache, context') := context.hasQuota r.cache type
    { r with
      context := context'
      cache := cache
      log := r.log ++
        [⟨type, r.web.route method, context.route.getD [], reported⟩] }

/-- The request of an endpoint, up to its end. -/
def run (e : Endpoint) (maxContextOperations : ℕ) (cache : GlobalRouteMap) : Request :=
  e.events.foldl (step e.method) { context := .new maxContextOperations, cache := cache }

end Request

namespace Endpoint

/-- The vulnerabilities of a request, in their order. -/
def vulnerabilities (e : Endpoint) : List VulnerabilityType := e.events.filterMap Event.type?

/-- What the request of an endpoint handles. -/
def handled (e : Endpoint) (maxContextOperations : ℕ) (cache : GlobalRouteMap) : List Handled :=
  (Request.run e maxContextOperations cache).log

/-- The route map after a request of the endpoint. -/
def after (e : Endpoint) (maxContextOperations : ℕ) (cache : GlobalRouteMap) : GlobalRouteMap :=
  let r := Request.run e maxContextOperations cache
  OceContext.consolidate r.cache (r.context.getContext r.web e.method)

/-- The route map after `m` requests, one after the other. -/
def afterRequests (e : Endpoint) (maxContextOperations : ℕ) (cache : GlobalRouteMap) :
    ℕ → GlobalRouteMap
  | 0 => cache
  | m + 1 => e.after maxContextOperations (e.afterRequests maxContextOperations cache m)

end Endpoint
end DdTrace.Appsec
