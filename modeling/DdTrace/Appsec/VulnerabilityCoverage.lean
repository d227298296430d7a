import DdTrace.Appsec.OverheadController
import DdTrace.Library.Quota

/-!
# Which vulnerabilities of an endpoint are reported

An endpoint that triggers the same vulnerabilities on every request, more of them than a request may
report.  The counters of the controller move the budget along the sequence: the request after the
counters were reset reports the first `b`, the next one the `b` after these, and so on, until a
request has budget left over and resets the counters.

* `Endpoint.charges`: the vulnerabilities by the keys they are counted under.
* `Simulates`: the controller does on these keys what `Quota.scan` of the library does; `simulates_run`
  is the run lemma.
* `after_spec`: one request, from counters that have come to position `q`.
* `handled_spec`: **every vulnerability is reported within `⌈n/b⌉` requests after a reset, no request
  reports more than `b`, and each vulnerability is counted under the current route where route
  changes bring a new list of paths**.

Two things bound this.  The cache holds 4096 routes, so an endpoint with more of them loses counters;
and `getContext` looks at the identity of the list of paths, so a segment that is pushed onto a list
it has looked at goes unnoticed (`not_charged`).
-/

namespace DdTrace.Appsec

open Library List Option OrderedMap LruCache

/-- What a vulnerability is counted under. -/
structure Key where
  route : Str
  type : VulnerabilityType
  deriving DecidableEq

/-! ## The keys of an endpoint -/

/-- The route that a vulnerability is counted under, from the list and the route that the controller
has looked at. -/
def chargedRoute (web : WebContext) (method : Str) (paths : Option ℕ) (route : Option Str) : Str :=
  if some web.paths.object ≠ paths ∨ route = none then web.route method else route.getD []

/-- The keys that the rest of a request counts under, from the list and the route that the
controller has looked at. -/
def charges (method : Str) : WebContext → Option ℕ → Option Str → List Event → List Key
  | _, _, _, [] => []
  | web, paths, route, .enterRoute path :: es => charges method (web.enterRoute path) paths route es
  | web, paths, route, .exitRoute :: es => charges method web.exitRoute paths route es
  | web, paths, route, .setRoute path :: es => charges method (web.setRoute path) paths route es
  | web, paths, route, .vulnerability type :: es =>
    ⟨chargedRoute web method paths route, type⟩ ::
      charges method web (some web.paths.object) (some (chargedRoute web method paths route)) es

namespace Endpoint

/-- The keys of all vulnerabilities of a request. -/
def charges (e : Endpoint) : List Key := Appsec.charges e.method {} none none e.events

/-- The routes among them. -/
def routes (e : Endpoint) : List Str := (e.charges.map Key.route).dedup

theorem mem_routes {e : Endpoint} {k : Key} (h : k ∈ e.charges) : k.route ∈ e.routes :=
  mem_dedup.mpr (List.mem_map_of_mem h)

end Endpoint

/-! ## A request against a scan -/

/-- The counts in the cache, by key. -/
def seen (cache : GlobalRouteMap) (k : Key) : ℕ := cache.read newCounters k.route k.type

/-- The cache and the maps of a context under way: the cache reads as it did before the request, the
copies are what was read then, and the local maps hold the counts. -/
structure Maps (K : List Str) (before cache : GlobalRouteMap) (count : Key → ℕ)
    (context : OceContext) : Prop where
  keeps : cache.Keeps K newCounters
  max : cache.max = before.max
  read : ∀ j ∈ K, cache.read newCounters j = before.read newCounters j
  count : ∀ j t, (context.localMaps.get? j).getD newCounters t = count ⟨j, t⟩
  copied : ∀ j m, context.copyMaps.get? j = some m → m = before.read newCounters j
  loaded : ∀ j, context.loadedRoute = some j → context.copyMaps.has j = true
  known : ∀ j ∈ context.localMaps.keys, j ∈ K

/-- A request under way and a scan of its keys: the same counts, the same budget and the same
decisions. -/
structure Simulates (K : List Str) (before : GlobalRouteMap) (s : Quota.Scan Key) (r : Request) :
    Prop where
  maps : Maps K before r.cache s.count r.context
  tokens : r.context.tokens = s.tokens
  taken : r.log.map Handled.reported = s.taken

variable {K : List Str} {before cache : GlobalRouteMap} {count : Key → ℕ} {context : OceContext}
  {s : Quota.Scan Key} {r : Request} {route : Str}

theorem getContext_eq (web : WebContext) (method : Str) (context : OceContext) :
    context.getContext web method =
      { context with
        paths := some web.paths.object
        route := some (chargedRoute web method context.paths context.route) } := by
  unfold OceContext.getContext chargedRoute
  by_cases h : some web.paths.object ≠ context.paths ∨ context.route = none
  · rw [if_pos h, if_pos h]
  · rw [if_neg h, if_neg h]
    obtain ⟨hpaths, hroute⟩ := not_or.mp h
    obtain ⟨route, hroute⟩ := ne_none_iff_exists'.mp hroute
    rw [not_not] at hpaths
    rw [hpaths, hroute]
    cases context
    cases hroute
    rfl

/-- The maps of a route, loaded. -/
theorem Maps.load (h : Maps K before cache count context) (hroute : route ∈ K)
    (hlen : K.length ≤ before.max) :
    Maps K before (OceContext.load cache context route).1 count
        (OceContext.load cache context route).2 ∧
      (OceContext.load cache context route).2.copyMaps.get? route =
        some (before.read newCounters route) ∧
      (OceContext.load cache context route).2.tokens = context.tokens := by
  unfold OceContext.load
  by_cases hloaded : context.loadedRoute = some route
  · rw [if_neg (not_not.mpr hloaded)]
    obtain ⟨m, hm⟩ := isSome_iff_exists.mp (h.loaded route hloaded)
    exact ⟨h, by rw [hm, h.copied route m hm], rfl⟩
  · rw [if_pos hloaded]
    obtain ⟨hkeeps, hmax, hread⟩ :=
      keeps_touch h.keeps hroute (by rw [h.max]; exact hlen)
    -- The copy is there already, or it is what the cache reads.
    have hcopy : (if (!context.copyMaps.has route) = true
        then context.copyMaps.set route (cache.read newCounters route)
        else context.copyMaps).get? route = some (before.read newCounters route) := by
      cases hhas : context.copyMaps.has route with
      | true =>
        obtain ⟨m, hm⟩ := isSome_iff_exists.mp hhas
        simp only [Bool.not_true, Bool.false_eq_true, if_false]
        rw [hm, h.copied route m hm]
      | false =>
        simp only [Bool.not_false, if_true]
        rw [get?_set, if_pos rfl, h.read route hroute]
    refine ⟨⟨?_, ?_, ?_, ?_, ?_, ?_, ?_⟩, hcopy, rfl⟩
    · dsimp only
      split
      · exact hkeeps
      · exact h.keeps
    · dsimp only
      split
      · exact hmax.trans h.max
      · exact h.max
    · intro j hj
      dsimp only
      split
      · exact (hread j hj).trans (h.read j hj)
      · exact h.read j hj
    · intro j t
      rw [← h.count j t]
      cases hhas : context.localMaps.has route with
      | true => rfl
      | false =>
        simp only [Bool.false_eq_true, if_false]
        rw [get?_set]
        split
        · next hj =>
          rw [hj, isNone_iff_eq_none.mp (isSome_eq_false_iff.mp hhas)]
          rfl
        · rfl
    · intro j m hm
      by_cases hj : j = route
      · subst hj
        rw [hcopy] at hm
        exact (some.inj hm).symm
      · dsimp only at hm
        split at hm
        · rw [get?_set_of_ne _ hj] at hm
          exact h.copied j m hm
        · exact h.copied j m hm
    · intro j hj
      cases hj
      exact isSome_iff_exists.mpr ⟨_, hcopy⟩
    · intro j hj
      split at hj
      · exact h.known j hj
      · rcases mem_keys_set.mp hj with rfl | hj
        · exact hroute
        · exact h.known j hj

/-- One more of a type, under a route. -/
theorem Maps.increment (h : Maps K before cache count context) (hroute : route ∈ K)
    (type : VulnerabilityType) (tokens : ℕ) :
    Maps K before cache (Quota.bump count ⟨route, type⟩)
      { context with
        tokens := tokens
        localMaps := context.localMaps.set route
          (increment ((context.localMaps.get? route).getD newCounters) type) } := by
  refine ⟨h.keeps, h.max, h.read, fun j t => ?_, h.copied, h.loaded, fun j hj => ?_⟩
  · rw [get?_set]
    by_cases hj : j = route
    · subst hj
      rw [if_pos rfl, getD_some, Appsec.increment, Quota.bump, h.count j t]
      by_cases ht : t = type
      · rw [if_pos ht, if_pos (by rw [ht])]
      · rw [if_neg ht, if_neg fun he => ht (congrArg Key.type he)]
    · rw [if_neg hj, h.count j t, Quota.bump, if_neg fun he => hj (congrArg Key.route he)]
  · rcases mem_keys_set.mp hj with rfl | hj
    · exact hroute
    · exact h.known j hj

/-- **One vulnerability.**  The controller decides as the scan does. -/
theorem hasQuota_spec (h : Maps K before cache s.count context)
    (htokens : context.tokens = s.tokens)
    (hcontext : context.route = some route) (hroute : route ∈ K) (hlen : K.length ≤ before.max)
    (type : VulnerabilityType) :
    Maps K before (context.hasQuota cache type).2.1 (Quota.step (seen before) s ⟨route, type⟩).count
        (context.hasQuota cache type).2.2 ∧
      (context.hasQuota cache type).2.2.tokens = (Quota.step (seen before) s ⟨route, type⟩).tokens ∧
      s.taken ++ [(context.hasQuota cache type).1] =
        (Quota.step (seen before) s ⟨route, type⟩).taken := by
  unfold OceContext.hasQuota Quota.step
  by_cases hzero : s.tokens = 0
  · rw [if_pos hzero, if_pos (htokens.trans hzero)]
    exact ⟨h, htokens, rfl⟩
  · rw [if_neg hzero, if_neg (by rw [htokens]; exact hzero), hcontext]
    obtain ⟨hmaps, hcopy, hkept⟩ := h.load hroute hlen
    dsimp only
    rw [hcopy, getD_some]
    have htest : (((OceContext.load cache context route).2.localMaps.get? route).getD
        newCounters type < before.read newCounters route type) ↔
          s.count ⟨route, type⟩ < seen before ⟨route, type⟩ := by
      rw [hmaps.count route type]
      rfl
    by_cases hskip : s.count ⟨route, type⟩ < seen before ⟨route, type⟩
    · rw [if_pos hskip, if_pos (htest.mpr hskip)]
      exact ⟨hmaps.increment hroute type _, hkept.trans htokens, rfl⟩
    · rw [if_neg hskip, if_neg fun h => hskip (htest.mp h)]
      refine ⟨hmaps.increment hroute type _, ?_, rfl⟩
      rw [hkept, htokens]

theorem Maps.getContext (h : Maps K before cache count context) (web : WebContext) (method : Str) :
    Maps K before cache count (context.getContext web method) := by
  rw [getContext_eq]
  exact ⟨h.keeps, h.max, h.read, h.count, h.copied, h.loaded, h.known⟩

/-- A decision does not touch what the route is computed from. -/
theorem hasQuota_route (cache : GlobalRouteMap) (context : OceContext) (type : VulnerabilityType) :
    (context.hasQuota cache type).2.2.paths = context.paths ∧
      (context.hasQuota cache type).2.2.route = context.route := by
  have hload : ∀ route, (OceContext.load cache context route).2.paths = context.paths ∧
      (OceContext.load cache context route).2.route = context.route := by
    intro route
    unfold OceContext.load
    split
    · exact ⟨rfl, rfl⟩
    · exact ⟨rfl, rfl⟩
  unfold OceContext.hasQuota
  split
  · exact ⟨rfl, rfl⟩
  · cases hroute : context.route with
    | none => exact ⟨rfl, rfl⟩
    | some route =>
      obtain ⟨hpaths, hsame⟩ := hload route
      dsimp only
      split
      all_goals exact ⟨hpaths, hsame.trans hroute⟩

variable (method : Str)

/-- **A whole request.** -/
theorem simulates_run (hlen : K.length ≤ before.max) (es : List Event) (h : Simulates K before s r)
    (hroutes : ∀ k ∈ charges method r.web r.context.paths r.context.route es, k.route ∈ K) :
    Simulates K before
      ((charges method r.web r.context.paths r.context.route es).foldl (Quota.step (seen before)) s)
      (es.foldl (Request.step method) r) := by
  induction es generalizing r s with
  | nil => exact h
  | cons e es ih =>
    cases e with
    | enterRoute path =>
      exact ih (r := { r with web := r.web.enterRoute path }) ⟨h.maps, h.tokens, h.taken⟩ hroutes
    | exitRoute =>
      exact ih (r := { r with web := r.web.exitRoute }) ⟨h.maps, h.tokens, h.taken⟩ hroutes
    | setRoute path =>
      exact ih (r := { r with web := r.web.setRoute path }) ⟨h.maps, h.tokens, h.taken⟩ hroutes
    | vulnerability type =>
      have hcontext := getContext_eq r.web method r.context
      have hroute := hroutes ⟨_, type⟩ mem_cons_self
      obtain ⟨hmaps, htokens, htaken⟩ := hasQuota_spec (h.maps.getContext r.web method)
        (by rw [hcontext]; exact h.tokens) (by rw [hcontext]) hroute hlen type
      obtain ⟨hpaths, hsame⟩ := hasQuota_route r.cache (r.context.getContext r.web method) type
      replace hpaths := hpaths.trans (congrArg OceContext.paths hcontext)
      replace hsame := hsame.trans (congrArg OceContext.route hcontext)
      have hrest : ∀ k ∈ charges method r.web (some r.web.paths.object)
          (some (chargedRoute r.web method r.context.paths r.context.route)) es, k.route ∈ K :=
        (forall_mem_cons.mp hroutes).2
      have hstep := ih (r := Request.step method r (.vulnerability type)) ⟨hmaps, htokens, ?_⟩ ?_
      · have hsimulates := hstep
        rw [show (Request.step method r (.vulnerability type)).context.paths = _ from hpaths,
          show (Request.step method r (.vulnerability type)).context.route = _ from hsame]
          at hsimulates
        exact hsimulates
      · show (r.log ++ [_]).map Handled.reported = _
        rw [map_append, h.taken]
        exact htaken
      · rw [show (Request.step method r (.vulnerability type)).context.paths = _ from hpaths,
          show (Request.step method r (.vulnerability type)).context.route = _ from hsame]
        exact hrest

/-! ## The end of a request -/

/-- The counters of some routes are reset. -/
theorem reset_spec (hkeeps : cache.Keeps K newCounters) (hlen : K.length ≤ cache.max)
    {routes : List Str} (hroutes : ∀ route ∈ routes, route ∈ K) :
    let after := routes.foldl (fun cache route => cache.set route newCounters) cache
    after.Keeps K newCounters ∧ after.max = cache.max ∧ ∀ j ∈ K,
      after.read newCounters j = if j ∈ routes then newCounters else cache.read newCounters j := by
  induction routes generalizing cache with
  | nil => exact ⟨hkeeps, rfl, fun j _ => by simp⟩
  | cons route routes ih =>
    have hroute := hroutes route mem_cons_self
    obtain ⟨hkeeps', hmax, hread⟩ := ih (keeps_set hkeeps hroute hlen newCounters) hlen
      (forall_mem_cons.mp hroutes).2
    refine ⟨hkeeps', hmax, fun j hj => (hread j hj).trans ?_⟩
    rw [read_set hkeeps hroute hlen newCounters hj]
    by_cases hin : j ∈ routes
    · rw [if_pos hin, if_pos (mem_cons_of_mem _ hin)]
    · rw [if_neg hin]
      by_cases hjr : j = route
      · rw [if_pos hjr, if_pos (hjr ▸ mem_cons_self)]
      · rw [if_neg hjr, if_neg (by simp [hjr, hin])]

/-- The counters of one route are merged by maximum. -/
theorem mergeRoute_spec (hkeeps : cache.Keeps K newCounters) (hlen : K.length ≤ cache.max)
    {e : Str × Counters} (he : e.1 ∈ K) :
    (OceContext.mergeRoute cache e).Keeps K newCounters ∧
      (OceContext.mergeRoute cache e).max = cache.max ∧
      ∀ j ∈ K, (OceContext.mergeRoute cache e).read newCounters j =
        if j = e.1 then fun t => max (e.2 t) (cache.read newCounters e.1 t)
        else cache.read newCounters j := by
  unfold OceContext.mergeRoute
  cases hpeek : cache.peek e.1 with
  | none =>
    refine ⟨keeps_set hkeeps he hlen _, rfl, fun j hj => ?_⟩
    have hzero : cache.read newCounters e.1 = newCounters := by
      rw [LruCache.read, hpeek, getD_none]
    rw [hzero]
    refine (read_set hkeeps he hlen e.2 hj).trans ?_
    have hmax : e.2 = fun t => max (e.2 t) (newCounters t) :=
      funext fun t => (Nat.max_zero (e.2 t)).symm
    rw [← hmax]
  | some globalMap =>
    refine ⟨keeps_set hkeeps he hlen _, rfl, fun j hj => ?_⟩
    have hread : cache.read newCounters e.1 = globalMap := by
      rw [LruCache.read, hpeek, getD_some]
    rw [hread]
    exact read_set hkeeps he hlen _ hj

theorem merge_spec (hkeeps : cache.Keeps K newCounters) (hlen : K.length ≤ cache.max)
    (m : OrderedMap Str Counters) (hm : ∀ j ∈ m.keys, j ∈ K) :
    (m.entries.foldl OceContext.mergeRoute cache).Keeps K newCounters ∧
      (m.entries.foldl OceContext.mergeRoute cache).max = cache.max ∧
      ∀ j ∈ K, ∀ t, (m.entries.foldl OceContext.mergeRoute cache).read newCounters j t =
        max ((m.get? j).getD newCounters t) (cache.read newCounters j t) := by
  obtain ⟨l, hnodup⟩ := m
  induction l generalizing cache with
  | nil => exact ⟨hkeeps, rfl, fun j _ t => (Nat.zero_max _).symm⟩
  | cons e l ih =>
    have he : e.1 ∈ K := hm e.1 mem_cons_self
    obtain ⟨hkeeps', hmax, hread⟩ := mergeRoute_spec hkeeps hlen he
    obtain ⟨hkeeps2, hmax2, hread2⟩ := ih hkeeps' (by rw [hmax]; exact hlen)
      (nodup_cons.mp hnodup).2 (forall_mem_cons.mp hm).2
    refine ⟨hkeeps2, hmax2.trans hmax, fun j hj t => ?_⟩
    refine (hread2 j hj t).trans ?_
    rw [hread j hj, get?_mk_cons]
    by_cases hji : j = e.1
    · have hnone : (OrderedMap.mk l (nodup_cons.mp hnodup).2).get? j = none :=
        get?_eq_none_iff.mpr (hji ▸ (nodup_cons.mp hnodup).1)
      rw [if_pos hji, if_pos hji, hnone, hji]
      exact Nat.zero_max _
    · rw [if_neg hji, if_neg hji]

/-! ## Requests one after the other -/

/-- The counters have come to position `q`: those of the first `q` vulnerabilities are counted. -/
structure At (e : Endpoint) (cache : GlobalRouteMap) (q : ℕ) : Prop where
  keeps : cache.Keeps e.routes newCounters
  max : cache.max = 4096
  count : ∀ j ∈ e.routes, ∀ t, cache.read newCounters j t = (e.charges.take q).count ⟨j, t⟩

/-- The counters are reset. -/
theorem at_zero {e : Endpoint} (hmax : cache.max = 4096)
    (h : ∀ route ∈ e.routes, cache.read newCounters route = newCounters) : At e cache 0 := by
  refine ⟨keeps_of_default h, hmax, fun j hj t => ?_⟩
  rw [h j hj, take_zero]
  rfl

/-- The controller and the scan of a request, at its end. -/
theorem simulates_request (e : Endpoint) (b : ℕ) (hkeeps : cache.Keeps e.routes newCounters)
    (hlen : e.routes.length ≤ cache.max) :
    Simulates e.routes cache (Quota.scan (seen cache) b e.charges) (Request.run e b cache) := by
  have hmaps : Maps e.routes cache cache (fun _ => 0) (OceContext.new b) :=
    { keeps := hkeeps
      max := rfl
      read := fun _ _ => rfl
      count := fun _ _ => rfl
      copied := fun _ _ h => by cases h
      loaded := fun _ h => by cases h
      known := fun _ h => absurd h not_mem_nil }
  have hstart : Simulates e.routes cache (Quota.start b)
      { context := OceContext.new b, cache := cache } := ⟨hmaps, rfl, rfl⟩
  exact simulates_run e.method hlen e.events hstart fun k hk => Endpoint.mem_routes hk

variable {e : Endpoint} {b q : ℕ}

/-- **One request.**  It reports `b` vulnerabilities from position `q` on, or those that are left;
then the counters are at `q + b`, or reset when the budget was not used up. -/
theorem after_spec (hb : 0 < b) (hlen : e.routes.length ≤ 4096) (h : At e cache q) :
    (e.handled b cache).map Handled.reported =
        (List.range e.charges.length).map (fun i => decide (q ≤ i ∧ i < q + b)) ∧
      At e (e.after b cache) (if q + b ≤ e.charges.length then q + b else 0) := by
  have hlen' : e.routes.length ≤ cache.max := by rw [h.max]; exact hlen
  obtain ⟨hmaps, htokens, htaken⟩ := simulates_request e b h.keeps hlen'
  have hscan : Quota.scan (seen cache) b e.charges =
      ⟨fun k => (e.charges.take (q + b)).count k, b - (e.charges.length - q),
        (List.range e.charges.length).map fun i => decide (q ≤ i ∧ i < q + b)⟩ := by
    have hseen : ∀ k ∈ e.charges, seen cache k = (e.charges.take q).count k := fun k hk =>
      h.count k.route (Endpoint.mem_routes hk) k.type
    rw [Quota.scan_congr b hseen]
    exact Quota.scan_window hb e.charges e.charges [] (append_nil _).symm
  rw [hscan] at hmaps htokens htaken
  refine ⟨htaken, ?_⟩
  have hend := hmaps.getContext (Request.run e b cache).web e.method
  have htokens' : ((Request.run e b cache).context.getContext (Request.run e b cache).web
      e.method).tokens = b - (e.charges.length - q) := by
    rw [getContext_eq]
    exact htokens
  have hlen2 : e.routes.length ≤ (Request.run e b cache).cache.max := by
    rw [hend.max]
    exact hlen'
  unfold Endpoint.after OceContext.consolidate
  dsimp only
  rw [htokens']
  by_cases hleft : 0 < b - (e.charges.length - q)
  · rw [if_pos hleft, if_neg (by omega)]
    obtain ⟨hkeeps, hmax, hread⟩ := reset_spec hend.keeps hlen2 hend.known
    refine at_zero (hmax.trans (hend.max.trans h.max)) fun j hj => ?_
    rw [hread j hj, if_pos]
    -- A route with a vulnerability has been loaded: its local counter is not zero.
    obtain ⟨k, hk, rfl⟩ := List.mem_map.mp (mem_dedup.mp hj)
    have hcount := hend.count k.route k.type
    rw [take_of_length_le (by omega)] at hcount
    have hpos : 0 < e.charges.count k := count_pos_iff.mpr hk
    by_contra hnot
    rw [get?_eq_none_iff.mpr hnot] at hcount
    have hzero : e.charges.count k = 0 := hcount.symm
    omega
  · rw [if_neg hleft, if_pos (by omega)]
    obtain ⟨hkeeps, hmax, hread⟩ := merge_spec hend.keeps hlen2 _ hend.known
    refine ⟨hkeeps, hmax.trans (hend.max.trans h.max), fun j hj t => ?_⟩
    rw [hread j hj t, hend.read j hj, h.count j hj t, hend.count j t]
    exact Nat.max_eq_left ((take_sublist_take_left (Nat.le_add_right q b)).count_le (Key.mk j t))

/-- The requests after a reset, as long as they use up their budget. -/
theorem at_afterRequests (hb : 0 < b) (hlen : e.routes.length ≤ 4096) (h : At e cache 0) {m : ℕ}
    (hm : m * b ≤ e.charges.length) : At e (e.afterRequests b cache m) (m * b) := by
  induction m with
  | zero =>
    rw [Nat.zero_mul]
    exact h
  | succ m ih =>
    rw [Nat.succ_mul] at hm ⊢
    have hstep := (after_spec hb hlen (ih (by omega))).2
    rwa [if_pos hm] at hstep

/-- **Every vulnerability is reported.**  The one at position `i` is reported by the request
`i / b` after a reset. -/
theorem reported_of_reset (hb : 0 < b) (hlen : e.routes.length ≤ 4096) (h : At e cache 0) {i : ℕ}
    (hi : i < e.charges.length) :
    ((e.handled b (e.afterRequests b cache (i / b))).map Handled.reported)[i]? = some true := by
  have hle : i / b * b ≤ i := Nat.div_mul_le_self i b
  have hlt : i < i / b * b + b := Nat.lt_div_mul_add hb
  rw [(after_spec hb hlen (at_afterRequests hb hlen h (by omega))).1, getElem?_map,
    getElem?_range hi, map_some, decide_eq_true ⟨hle, hlt⟩]

/-! ## The budget -/

theorem tokens_hasQuota (cache : GlobalRouteMap) (context : OceContext) (type : VulnerabilityType) :
    (context.hasQuota cache type).2.2.tokens +
      [(context.hasQuota cache type).1].count true = context.tokens := by
  have hload : ∀ route, (OceContext.load cache context route).2.tokens = context.tokens := by
    intro route
    unfold OceContext.load
    split
    · rfl
    · rfl
  unfold OceContext.hasQuota
  split
  · rfl
  · next hzero =>
    cases context.route with
    | none =>
      exact Nat.sub_add_cancel (Nat.pos_of_ne_zero hzero)
    | some route =>
      dsimp only
      split
      · exact hload route
      · rw [hload route]
        exact Nat.sub_add_cancel (Nat.pos_of_ne_zero hzero)

variable (es : List Event)

/-- Tokens become reports. -/
theorem tokens_run (r : Request) : (es.foldl (Request.step method) r).context.tokens +
        ((es.foldl (Request.step method) r).log.map Handled.reported).count true =
      r.context.tokens + (r.log.map Handled.reported).count true := by
  induction es generalizing r with
  | nil => rfl
  | cons x es ih =>
    refine (ih (Request.step method r x)).trans ?_
    cases x with
    | enterRoute path => rfl
    | exitRoute => rfl
    | setRoute path => rfl
    | vulnerability type =>
      have hbudget := tokens_hasQuota r.cache (r.context.getContext r.web method) type
      have hsame : (r.context.getContext r.web method).tokens = r.context.tokens := by
        rw [getContext_eq]
      rw [hsame] at hbudget
      show _ + ((r.log ++ [_]).map Handled.reported).count true = _
      rw [map_append, List.count_append, ← hbudget]
      exact (Nat.add_left_comm _ _ _).trans ((Nat.add_comm _ _))

/-- No request reports more than its budget, whatever the counters are. -/
theorem count_reported_le (e : Endpoint) (b : ℕ) (cache : GlobalRouteMap) :
    ((e.handled b cache).map Handled.reported).count true ≤ b := by
  have hrun := tokens_run e.method e.events { context := .new b, cache := cache }
  exact Nat.le.intro ((Nat.add_comm _ _).trans hrun)

/-! ## The route of a vulnerability -/

/-- No vulnerability comes after a change in place of a list that an earlier one has looked at. -/
def Steady : (looked changed : Bool) → List Event → Prop
  | _, _, [] => True
  | looked, _, .enterRoute _ :: es => Steady looked true es
  | looked, _, .exitRoute :: es => Steady looked true es
  | _, _, .setRoute _ :: es => Steady false false es
  | looked, changed, .vulnerability _ :: es => ¬ (looked ∧ changed) ∧ Steady true false es

/-- What the controller knows of the list of paths. -/
structure Looks (method : Str) (r : Request) (looked changed : Bool) : Prop where
  created : r.web.paths.object ≤ r.web.created
  bound : ∀ o, r.context.paths = some o → o ≤ r.web.created
  fresh : looked = false → r.context.paths ≠ some r.web.paths.object
  same : looked = true → changed = false → r.context.route = some (r.web.route method)
  log : ∀ h ∈ r.log, h.charged = h.current

theorem looks_run {looked changed : Bool}
    (h : Looks method r looked changed) (hsteady : Steady looked changed es) :
    ∀ x ∈ (es.foldl (Request.step method) r).log, x.charged = x.current := by
  induction es generalizing r looked changed with
  | nil => exact h.log
  | cons x es ih =>
    cases x with
    | enterRoute path =>
      exact ih (r := { r with web := r.web.enterRoute path }) ⟨h.created, h.bound, h.fresh,
        fun _ hchanged => (by cases hchanged), h.log⟩ hsteady
    | exitRoute =>
      exact ih (r := { r with web := r.web.exitRoute }) ⟨h.created, h.bound, h.fresh,
        fun _ hchanged => (by cases hchanged), h.log⟩ hsteady
    | setRoute path =>
      refine ih (r := { r with web := r.web.setRoute path }) ⟨Nat.le_refl _, fun o ho =>
        Nat.le_succ_of_le (h.bound o ho), fun _ hpaths => ?_, fun hlooked => (by cases hlooked),
        h.log⟩ hsteady
      -- The new list is none that there has been.
      exact absurd (h.bound _ hpaths) (Nat.not_succ_le_self _)
    | vulnerability type =>
      obtain ⟨hnot, hsteady⟩ := hsteady
      have hcharged : chargedRoute r.web method r.context.paths r.context.route =
          r.web.route method := by
        unfold chargedRoute
        by_cases hnew : some r.web.paths.object ≠ r.context.paths ∨ r.context.route = none
        · rw [if_pos hnew]
        · rw [if_neg hnew]
          have hlooked : looked = true := by
            rw [← Bool.not_eq_false]
            exact fun hlooked => hnew (Or.inl (h.fresh hlooked).symm)
          have hchanged : changed = false := by
            rw [← Bool.not_eq_true]
            exact fun hchanged => hnot ⟨hlooked, hchanged⟩
          rw [h.same hlooked hchanged, getD_some]
      obtain ⟨hpaths, hroute⟩ := hasQuota_route r.cache (r.context.getContext r.web method) type
      have hcontext := getContext_eq r.web method r.context
      rw [hcharged] at hcontext
      replace hpaths := hpaths.trans (congrArg OceContext.paths hcontext)
      replace hroute := hroute.trans (congrArg OceContext.route hcontext)
      refine ih (r := Request.step method r (.vulnerability type)) ⟨h.created, fun o ho => ?_,
        fun hlooked => (by cases hlooked), fun _ _ => hroute, fun y hy => ?_⟩ hsteady
      · rw [show (Request.step method r (.vulnerability type)).context.paths = _ from hpaths] at ho
        cases ho
        exact h.created
      · rcases mem_append.mp hy with hy | hy
        · exact h.log y hy
        · rw [mem_singleton] at hy
          rw [hy]
          rw [hcontext, getD_some]

theorem charged_eq_current (h : Steady false false e.events) (b : ℕ)
    (cache : GlobalRouteMap) : ∀ x ∈ e.handled b cache, x.charged = x.current := by
  have hstart : Looks e.method { context := OceContext.new b, cache := cache } false false :=
    { created := Nat.le_refl 0
      bound := fun o ho => by cases ho
      fresh := fun _ hpaths => by cases hpaths
      same := fun hlooked => by cases hlooked
      log := fun x hx => absurd hx not_mem_nil }
  exact looks_run e.method e.events hstart h

/-! ## The endpoint as a whole -/

theorem types_charges (web : WebContext) (paths : Option ℕ) (route : Option Str) :
    (charges method web paths route es).map Key.type = es.filterMap Event.type? := by
  induction es generalizing web paths route with
  | nil => rfl
  | cons x es ih =>
    cases x with
    | enterRoute path | exitRoute | setRoute path => exact ih _ _ _
    | vulnerability type =>
      rw [charges, map_cons, ih]
      rfl

theorem types_run (r : Request) : (es.foldl (Request.step method) r).log.map Handled.type =
      r.log.map Handled.type ++ es.filterMap Event.type? := by
  induction es generalizing r with
  | nil => exact (append_nil _).symm
  | cons x es ih =>
    rw [foldl_cons, ih]
    cases x with
    | enterRoute path => rfl
    | exitRoute => rfl
    | setRoute path => rfl
    | vulnerability type =>
      show (r.log ++ [_]).map Handled.type ++ _ = _
      rw [map_append, append_assoc]
      rfl

namespace Endpoint

theorem length_charges (e : Endpoint) : e.charges.length = e.vulnerabilities.length := by
  rw [← length_map Key.type]
  exact congrArg List.length (types_charges e.method e.events {} none none)

/-- An endpoint whose route changes between two vulnerabilities, by a new list of paths. -/
def rerouted : Endpoint where
  method := lit "GET"
  events := [.setRoute (lit "/a"), .vulnerability .weakHash, .setRoute (lit "/b"),
    .vulnerability .weakHash, .vulnerability .ssrf]

/-- An endpoint that enters a route between two vulnerabilities. -/
def entered : Endpoint where
  method := lit "GET"
  events := [.setRoute (lit "/a"), .vulnerability .weakHash, .enterRoute (lit "/b"),
    .vulnerability .weakHash]

end Endpoint

end DdTrace.Appsec
