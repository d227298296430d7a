import DdTrace.Appsec.NormalizedRoute.Presence
import DdTrace.Appsec.NormalizedRoute.Rendering

/-!
# The cache of normalized routes

The compiled routes are kept by their text, and each of them keeps its renderings by the mask of the
groups that were present.

* `mem_iff_of_presenceBitmask`: sets of optional groups with one mask are one set, since a route
  with more than `MAX_OPTIONAL_GROUPS` groups has no variants.
* `Sound`: every entry is what its route compiles to, and its variants are what a fresh rendering
  gives.  `normalizeRouteExpress_spec` is the step and `Reachable.sound` the run.
* `normalized`: the route of a request, in every cache that requests leave behind.
* `not_shown_static`: a group without a parameter is not shown, also when the match used it.
-/

namespace DdTrace.Appsec

open Library List Option
open Library.PercentEncoding

namespace NormalizedRoute

variable {V : Type}

/-! ## The cache -/

theorem getLsbD_shifted (mask : BitVec 32) {k : ℕ} (hk : k < 32) (held : Bool) (i : ℕ) :
    (if held then mask ||| 1#32 <<< (k % 32) else mask).getLsbD i =
      (mask.getLsbD i || (held && i == k)) := by
  cases held with
  | false => simp
  | true =>
    rw [if_pos rfl, BitVec.getLsbD_or, BitVec.getLsbD_shiftLeft, BitVec.getLsbD_one, Bool.true_and]
    congr 1
    rw [Bool.eq_iff_iff]
    simp only [Bool.and_eq_true, decide_eq_true_eq, Bool.not_eq_true', decide_eq_false_iff_not,
      beq_iff_eq]
    omega

/-- The bits of the mask, for groups from an index on. -/
theorem getLsbD_foldl_mask (present groups : List ℕ) (k : ℕ) (mask : BitVec 32)
    (hlength : k + groups.length ≤ 32) (i : ℕ) :
    ((groups.zipIdx k).foldl (fun mask g =>
      if includes present g.1 then mask ||| 1#32 <<< (g.2 % 32) else mask) mask).getLsbD i =
      (mask.getLsbD i || (decide (k ≤ i) && (groups[i - k]?).any (includes present))) := by
  induction groups generalizing k mask with
  | nil => simp
  | cons g groups ih =>
    rw [length_cons] at hlength
    rw [zipIdx_cons, foldl_cons, ih (k + 1) _ (by omega), getLsbD_shifted mask (by omega)]
    rcases Nat.lt_trichotomy i k with hlt | rfl | hlt
    · rw [beq_false_of_ne hlt.ne, decide_eq_false (by omega), decide_eq_false (by omega)]
      simp
    · simp
    · obtain ⟨d, rfl⟩ := Nat.exists_eq_add_of_lt hlt
      rw [beq_false_of_ne hlt.ne', decide_eq_true (by omega), decide_eq_true (by omega),
        show k + d + 1 - k = d + 1 by omega]
      simp

/-- **The mask tells the groups apart**: sets of optional groups with one mask are one set. -/
theorem mem_iff_of_presenceBitmask {groups present present' : List ℕ}
    (hlength : groups.length ≤ MAX_OPTIONAL_GROUPS) (hpresent : present ⊆ groups)
    (hpresent' : present' ⊆ groups)
    (h : presenceBitmask groups present = presenceBitmask groups present') (g : ℕ) :
    g ∈ present ↔ g ∈ present' := by
  have hlength : 0 + groups.length ≤ 32 := by
    rw [MAX_OPTIONAL_GROUPS] at hlength
    omega
  have hbit {i : ℕ} {g : ℕ} (hget : groups[i]? = some g) :
      includes present g = includes present' g := by
    have hbit := congrArg (fun mask : BitVec 32 => mask.getLsbD i) h
    rw [presenceBitmask, presenceBitmask, getLsbD_foldl_mask present groups 0 _ hlength,
      getLsbD_foldl_mask present' groups 0 _ hlength, Nat.sub_zero, hget] at hbit
    simpa using hbit
  have hiff (hg : g ∈ groups) : g ∈ present ↔ g ∈ present' := by
    obtain ⟨i, hi, rfl⟩ := getElem_of_mem hg
    rw [← includes_eq_true_iff, ← includes_eq_true_iff (l := present'),
      hbit (getElem?_eq_getElem hi)]
  constructor
  · exact fun hg => (hiff (hpresent hg)).mp hg
  · exact fun hg => (hiff (hpresent' hg)).mpr hg

/-- A rendering only asks which groups are present. -/
theorem renderRoute_congr (compiled : Template) {present present' : List ℕ}
    (h : ∀ g, g ∈ present ↔ g ∈ present') :
    renderRoute compiled present = renderRoute compiled present' := by
  have hincludes : includes present = includes present' := by
    funext g
    rw [Bool.eq_iff_iff, includes_eq_true_iff, includes_eq_true_iff, h g]
  have hactive : (fun g groupParent => groupActive g groupParent present) =
      fun g groupParent => groupActive g groupParent present' := by
    funext g groupParent
    rw [groupActive, groupActive, hincludes]
  have hdynamic : presentDynamic compiled present = presentDynamic compiled present' := by
    exact filter_congr fun t _ => congrArg _ (congrFun (congrFun hactive _) _)
  have hsegment : Output.segment compiled.groupParent present =
      Output.segment compiled.groupParent present' := by
    funext s seg
    have htoken : Output.token compiled.groupParent present =
        Output.token compiled.groupParent present' := by
      funext s t
      rw [Output.token, Output.token, congrFun (congrFun hactive t.group) compiled.groupParent]
    rw [Output.segment, Output.segment, htoken,
      congrFun (congrFun hactive seg.group) compiled.groupParent]
  rw [renderRoute, renderRoute, hdynamic, hsegment]

section Cache

variable {parse : Str → Option (List PathToRegexpToken)}
  {makeMatcher : Str → Option (Matcher V)} {route : Str} {compiled : CompiledRoute V}

/-- An entry is the compiled route, with variants that a fresh rendering would give. -/
structure Fits (compiled entry : CompiledRoute V) : Prop where
  toTemplate_eq : entry.toTemplate = compiled.toTemplate
  precomputed_eq : entry.precomputed = compiled.precomputed
  matcher_eq : entry.matcher = compiled.matcher
  variant_eq : ∀ present ⊆ compiled.optionalGroups, ∀ text,
    entry.variants.get? (presenceBitmask compiled.optionalGroups present) = some text →
      text = renderRoute compiled.toTemplate present

/-- Every entry of a cache is what its route compiles to. -/
def Sound (parse : Str → Option (List PathToRegexpToken))
    (makeMatcher : Str → Option (Matcher V)) (routeCache : RouteCache V) : Prop :=
  ∀ route entry, routeCache.get? route = some entry →
    Option.Rel Fits (compileRoute route parse makeMatcher) entry

theorem Fits.refl (h : compileRoute route parse makeMatcher = some compiled) :
    Fits compiled compiled := by
  obtain ⟨tokens, -, hcompiles⟩ := exists_compiles h
  refine ⟨rfl, rfl, rfl, fun present _ text hget => ?_⟩
  rw [hcompiles.variants_eq] at hget
  cases hget

theorem resolvePresence_subset_optionalGroups
    (h : compileRoute route parse makeMatcher = some compiled) (params : Option (Params V)) :
    resolvePresence compiled.toTemplate params ⊆ compiled.optionalGroups := by
  obtain ⟨tokens, -, hcompiles⟩ := exists_compiles h
  intro g hg
  obtain ⟨hrepresented, hholds⟩ :=
    resolvePresence_subset hcompiles.segments_eq hcompiles.groupParent_eq g hg
  exact (hcompiles.mem_optionalGroups_iff g).mpr
    ⟨hrepresented, hcompiles.resolvable g hrepresented hholds⟩

variable {routeCache : RouteCache V}

theorem Sound.set (h : Sound parse makeMatcher routeCache) {entry : Option (CompiledRoute V)}
    (hentry : Option.Rel Fits (compileRoute route parse makeMatcher) entry) :
    Sound parse makeMatcher (routeCache.set route entry) := by
  intro route' entry' hget
  rw [OrderedMap.get?_set] at hget
  split at hget
  · next heq =>
    rw [some_inj] at hget
    rw [heq, ← hget]
    exact hentry
  · exact h route' entry' hget

/-- The groups of a request. -/
def presenceOf (compiled : CompiledRoute V) (params : Option (Params V)) (urlPath : Option Str) :
    List ℕ :=
  resolvePresence compiled.toTemplate (matchedParams compiled urlPath <|> params)

/-- A variant that is cached is what is rendered afresh. -/
theorem renderVariant_spec (hsound : Sound parse makeMatcher routeCache)
    (h : compileRoute route parse makeMatcher = some compiled) {entry : CompiledRoute V}
    (hfits : Fits compiled entry) (params : Option (Params V)) (urlPath : Option Str) :
    (renderVariant routeCache route entry params urlPath).1 =
        renderRoute compiled.toTemplate (presenceOf compiled params urlPath) ∧
      Sound parse makeMatcher (renderVariant routeCache route entry params urlPath).2 := by
  have hsubset := resolvePresence_subset_optionalGroups h
    (matchedParams compiled urlPath <|> params)
  have hmatched : matchedParams entry urlPath = matchedParams compiled urlPath := by
    cases urlPath with
    | none => rfl
    | some url => rw [matchedParams, matchedParams, hfits.matcher_eq]
  rw [renderVariant, hfits.toTemplate_eq, hmatched, presenceOf]
  generalize resolvePresence compiled.toTemplate (matchedParams compiled urlPath <|> params) =
    present at hsubset ⊢
  rcases hget : entry.variants.get? (presenceBitmask compiled.optionalGroups present)
    with _ | cached
  · refine ⟨rfl, hsound.set ?_⟩
    rw [h]
    refine .some ⟨rfl, hfits.precomputed_eq, hfits.matcher_eq, ?_⟩
    intro present' hsubset' text htext
    rw [OrderedMap.get?_set] at htext
    split at htext
    · next hmask =>
      obtain ⟨tokens, -, hcompiles⟩ := exists_compiles h
      rw [some_inj] at htext
      rw [← htext]
      exact renderRoute_congr _
        (mem_iff_of_presenceBitmask hcompiles.length_le hsubset hsubset' hmask.symm)
    · exact hfits.variant_eq present' hsubset' text htext
  · exact ⟨hfits.variant_eq present hsubset cached hget, hsound⟩

/-- **The step of the cache**: a request is answered by a fresh rendering, whatever is cached. -/
theorem normalizeRouteExpress_spec (hsound : Sound parse makeMatcher routeCache) (route : Str)
    (params : Option (Params V))
    (urlPath : Option Str) :
    (normalizeRouteExpress routeCache (some route) params urlPath (some parse)
        (some makeMatcher)).1 = (if route.isEmpty then none
          else (compileRoute route parse makeMatcher).map fun compiled =>
            renderRoute compiled.toTemplate (presenceOf compiled params urlPath)) ∧
      Sound parse makeMatcher (normalizeRouteExpress routeCache (some route) params urlPath
        (some parse) (some makeMatcher)).2 := by
  rw [normalizeRouteExpress]
  dsimp only
  by_cases hroute : route.isEmpty = true
  · rw [if_pos hroute, if_pos hroute]
    exact ⟨rfl, hsound⟩
  rw [if_neg hroute, if_neg hroute]
  have hentry : Option.Rel Fits (compileRoute route parse makeMatcher)
      ((routeCache.get? route).getD (compileRoute route parse makeMatcher)) := by
    rcases hget : routeCache.get? route with _ | entry
    · rcases hcompile : compileRoute route parse makeMatcher with _ | compiled
      · exact .none
      · exact .some (Fits.refl hcompile)
    · exact hsound route entry hget
  have hsound' : Sound parse makeMatcher (if routeCache.has route then routeCache
      else routeCache.set route
        ((routeCache.get? route).getD (compileRoute route parse makeMatcher))) := by
    split
    · exact hsound
    · exact hsound.set hentry
  generalize (if routeCache.has route then routeCache else routeCache.set route
    ((routeCache.get? route).getD (compileRoute route parse makeMatcher))) = routeCache'
    at hsound' ⊢
  generalize (routeCache.get? route).getD (compileRoute route parse makeMatcher) = entry at hentry ⊢
  rcases hcompile : compileRoute route parse makeMatcher with _ | compiled
  · rw [hcompile] at hentry
    cases hentry
    exact ⟨rfl, hsound'⟩
  · rw [hcompile] at hentry
    obtain ⟨tokens, -, hcompiles⟩ := exists_compiles hcompile
    cases hentry with
    | some hfits =>
      dsimp only
      rw [hfits.precomputed_eq, hcompiles.precomputed_eq]
      by_cases hoptional : compiled.optionalGroups.isEmpty = true
      · rw [if_pos hoptional]
        have hsubset := resolvePresence_subset_optionalGroups hcompile
          (matchedParams compiled urlPath <|> params)
        rw [List.isEmpty_iff] at hoptional
        rw [hoptional, subset_nil] at hsubset
        refine ⟨?_, hsound'⟩
        rw [map_some, presenceOf, hsubset]
      · rw [if_neg hoptional]
        obtain ⟨htext, hcache⟩ := renderVariant_spec hsound' hcompile hfits params urlPath
        exact ⟨congrArg some htext, hcache⟩

/-- **Every cache that requests leave behind** holds what its routes compile to. -/
theorem Reachable.sound (h : Reachable parse makeMatcher routeCache) :
    Sound parse makeMatcher routeCache := by
  induction h with
  | start => exact fun route entry hget => by cases hget
  | request h route params urlPath ih =>
    cases route with
    | none => exact ih
    | some route => exact (normalizeRouteExpress_spec ih route params urlPath).2

end Cache

/-! ## The normalized route of a request -/

section Normalized

variable {parse : Str → Option (List PathToRegexpToken)} {makeMatcher : Str → Option (Matcher V)}

/-- **The normalized route** of a request whose URL the route matches: it is a fresh rendering of
the groups that are present, its names are distinct, its elements are not empty and a catch-all is
the last of them.  Where the parameters tell the groups apart, it shows what is in the groups that
the match used and that hold a parameter, and nothing else. -/
theorem normalized {routeCache : RouteCache V} (hreach : Reachable parse makeMatcher routeCache)
    {route url : Str} {tokens : List PathToRegexpToken} {matcher : Matcher V}
    {captured : Params V} {used : ℕ → Bool} (hparse : parse route = some tokens)
    (hmatcher : makeMatcher route = some matcher) (hurl : url ≠ [])
    (hmatch : matcher (pathOf url) = some captured) (hcaptures : Captures tokens used captured)
    (params : Option (Params V)) {text : Str}
    (htext : (normalizeRouteExpress routeCache (some route) params (some url) (some parse)
      (some makeMatcher)).1 = some text) :
    (∃ compiled, compileRoute route parse makeMatcher = some compiled ∧
      text = renderRoute compiled.toTemplate
        (resolvePresence compiled.toTemplate (some captured))) ∧
    ∃ contents, (∃ r : Rendered contents, r.text = text) ∧
      (Tells tokens used → contents = shownContents used tokens) := by
  rw [(normalizeRouteExpress_spec hreach.sound route params (some url)).1,
    ite_none_left_eq_some] at htext
  obtain ⟨-, htext⟩ := htext
  obtain ⟨compiled, hcompile, rfl⟩ := map_eq_some_iff.mp htext
  obtain ⟨tokens', hparse', hcompiles⟩ := exists_compiles hcompile
  obtain rfl : tokens = tokens' := some_injective _ (hparse.symm.trans hparse')
  have hpresence : presenceOf compiled params (some url) =
      resolvePresence compiled.toTemplate (some captured) := by
    rw [presenceOf]
    by_cases hoptional : compiled.optionalGroups = []
    · have hnil (params : Option (Params V)) : resolvePresence compiled.toTemplate params = [] := by
        have hsubset := resolvePresence_subset_optionalGroups hcompile params
        rwa [hoptional, subset_nil] at hsubset
      rw [hnil, hnil]
    · have hmatched : matchedParams compiled (some url) = some captured := by
        rw [matchedParams, if_neg (by simpa using hurl), hcompiles.matcher_eq hoptional, hmatcher,
          bind_some, hmatch]
      rw [hmatched]
      rfl
  rw [hpresence]
  refine ⟨⟨compiled, hcompile, rfl⟩, activeContents compiled.toTemplate
    (resolvePresence compiled.toTemplate (some captured)), ?_, fun htells => ?_⟩
  · refine exists_rendered compiled.toTemplate _ ?_ ?_
    · rw [hcompiles.segments_eq]
      exact fun t ht => isProper_of_mem_cleanedOf ht
    · rw [hcompiles.segments_eq]
      refine isWildcard_of_not_inner hcompiles.notInner fun seg hseg => ?_
      have hne := (mem_filter.mp hseg).2
      simpa using hne
  · exact activeContents_eq hcompiles.segments_eq hcompiles.groupParent_eq hcompiles.resolvable
      hcaptures htells

end Normalized

/-- `/items{/:id}` -/
def itemsTokens : List PathToRegexpToken :=
  [.text (lit "/items"), .group [.text (lit "/"), .param (lit "id")]]

theorem captures_items : Captures itemsTokens (fun _ => true)
    (OrderedMap.empty.set (lit "id") (some ()) : Params Unit) := by
  intro name
  have hplaced : placed itemsTokens = [⟨.slash, []⟩, ⟨.static (lit "items"), []⟩, ⟨.slash, [1]⟩,
      ⟨.param (lit "id"), [1]⟩] := by rfl
  rw [OrderedMap.get?_set, hplaced]
  by_cases hname : name = lit "id"
  · rw [hname]
    simp [Content.name?, Placed.isUsed]
  · rw [if_neg hname]
    simp [Content.name?, Ne.symm hname]

theorem normalized_items :
    (∃ compiled, compileRoute (lit "/items\x7b/:id\x7d") (fun _ => some itemsTokens)
        (fun _ => some fun _ => some (OrderedMap.empty.set (lit "id") (some ()))) =
          some compiled ∧ lit "/items/\x7bid\x7d" = renderRoute compiled.toTemplate
            (resolvePresence compiled.toTemplate
              (some (OrderedMap.empty.set (lit "id") (some ()))))) ∧
    ∃ contents, (∃ r : Rendered contents, r.text = lit "/items/\x7bid\x7d") ∧
      (Tells itemsTokens (fun _ => true) → contents = shownContents (fun _ => true) itemsTokens) :=
  normalized .start rfl rfl (show lit "/items/42?q" ≠ [] by decide) rfl captures_items none
    (by decide)

/-- `/posts{/draft}` -/
def postsTokens : List PathToRegexpToken :=
  [.text (lit "/posts"), .group [.text (lit "/draft")]]

theorem elements_of_pair {α : Type*} {elements : List (List α)} {p q : α}
    (h : elements.flatten = [p, q]) (hne : ∀ parts ∈ elements, parts ≠ []) :
    elements = [[p, q]] ∨ elements = [[p], [q]] := by
  have hnil {elements : List (List α)} (h : elements.flatten = [])
      (hne : ∀ parts ∈ elements, parts ≠ []) : elements = [] := by
    rw [flatten_eq_nil_iff] at h
    exact eq_nil_iff_forall_not_mem.mpr fun parts hparts => hne parts hparts (h parts hparts)
  rcases elements with _ | ⟨_ | ⟨a, parts⟩, elements⟩
  · cases h
  · exact (hne [] (mem_cons_self ..) rfl).elim
  · have hothers := (forall_mem_cons.mp hne).2
    rw [flatten_cons, cons_append, List.cons.injEq] at h
    obtain ⟨rfl, htail⟩ := h
    rcases append_eq_singleton_iff.mp htail with ⟨rfl, hq⟩ | ⟨rfl, hq⟩
    · rcases elements with _ | ⟨_ | ⟨b, others⟩, elements⟩
      · cases hq
      · exact (hothers [] (mem_cons_self ..) rfl).elim
      · rw [flatten_cons, cons_append, List.cons.injEq, append_eq_nil_iff] at hq
        obtain ⟨rfl, rfl, hq⟩ := hq
        rw [hnil hq (forall_mem_cons.mp hothers).2]
        exact .inr rfl
    · rw [hnil hq hothers]
      exact .inl rfl

/-- A group without a parameter is not shown when the match used it. -/
theorem not_shown_static : (normalizeRouteExpress .empty (some (lit "/posts\x7b/draft\x7d")) none
      (some (lit "/posts/draft")) (some fun _ => some postsTokens)
      (some fun _ => some fun _ => some (.empty : Params Unit))).1 = some (lit "/posts") ∧
    Captures postsTokens (fun _ => true) (.empty : Params Unit) ∧
    ¬ ∃ r : Rendered (usedContents (fun _ => true) postsTokens), r.text = lit "/posts" := by
  refine ⟨by decide, fun name => ?_, ?_⟩
  · have hplaced : placed postsTokens = [⟨.slash, []⟩, ⟨.static (lit "posts"), []⟩, ⟨.slash, [1]⟩,
        ⟨.static (lit "draft"), [1]⟩] := by rfl
    rw [hplaced]
    simp [Content.name?]
  · rintro ⟨r, htext⟩
    have hne : ∀ parts ∈ r.elements, parts ≠ [] := by
      rintro parts hparts rfl
      exact r.text_ne_nil [] hparts (by rfl)
    have hused : usedContents (fun _ => true) postsTokens =
        [.static (lit "posts"), .static (lit "draft")] := by rfl
    obtain ⟨p, rest, hflatten, hp, hrest⟩ := map_eq_cons_iff.mp (r.map_content.trans hused)
    obtain ⟨q, rfl, hq⟩ := map_eq_singleton_iff.mp hrest
    obtain ⟨p, x⟩ := p
    obtain ⟨q, y⟩ := q
    subst hp hq
    rw [Rendered.text] at htext
    rcases elements_of_pair hflatten hne with helements | helements
    · rw [helements] at htext
      generalize r.trailingSlash = trailingSlash at htext
      have hclosed : ∀ b : Bool, unit '/' :: (lit "postsdraft" ++ if b && !false then [unit '/']
        else []) ≠ lit "/posts" := by decide
      exact hclosed trailingSlash htext
    · rw [helements] at htext
      generalize r.trailingSlash = trailingSlash at htext
      have hclosed : ∀ b : Bool, unit '/' :: (lit "posts/draft" ++ if b && !false then [unit '/']
        else []) ≠ lit "/posts" := by decide
      exact hclosed trailingSlash htext

end NormalizedRoute
end DdTrace.Appsec
