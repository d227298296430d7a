import DdTrace.Appsec.NormalizedRoute.Route

/-!
# The groups of a normalized route that are present

`tokensToSegments` flattens a route, and `compileRoute` leaves out the groups that carry no segment
and no token.  `activeContents_eq` says that what is active for the parameters of a match is what
`shownContents` shows for the groups that it used.

* `walked_walk`: the walk over the tokens pushes them in their order, and the chain of a token's
  group is the list of the groups around the token.
* `groupChain_parents`: in the compiled route a chain is the old one without the groups that are
  collapsed.
* `mem_resolvePresence_iff`: a group is present when a captured parameter is in it.
* `groupActive_iff`: when the parameters tell the groups apart, a token is active if the groups
  around it are used and hold a parameter.  A group that is used and holds a parameter has one of
  its own, or else the route had not been compiled.
-/

namespace DdTrace.Appsec

open Library List
open Library.PercentEncoding

namespace NormalizedRoute

open OrderedMap

variable {V : Type}

/-! ## The flat tokens and their groups -/

open ParentChain

/-- The groups up to now have an entry, and each comes after the one around it. -/
structure Walk.Valid (s : Walk) : Prop where
  mem_keys_iff : ∀ g, g ∈ s.groupParent.keys ↔ 0 < g ∧ g ≤ s.nextGroupId
  lt : ∀ g p, s.groupParent.get? g = some p → p < g

theorem parentOf_lt {groupParent : OrderedMap ℕ ℕ}
    (h : ∀ g p, groupParent.get? g = some p → p < g) (g : ℕ) (hg : g ≠ 0) :
    parentOf groupParent g < g := by
  rw [parentOf]
  rcases hget : groupParent.get? g with _ | p
  · exact Nat.pos_of_ne_zero hg
  · exact h g p hget

/-- A placed token as the walk pushes it. -/
def Placed.toRoute (p : Placed) : RouteToken := ⟨p.content, p.around.headD 0⟩

/-- What the walk over a part of a route does, of which these are the placed tokens. -/
structure Walked (s s' : Walk) (r : List Placed × ℕ) : Prop where
  valid : s'.Valid
  next_eq : s'.nextGroupId = r.2
  next_le : s.nextGroupId ≤ s'.nextGroupId
  parentOf_eq : ∀ g ≤ s.nextGroupId, parentOf s'.groupParent g = parentOf s.groupParent g
  flat_eq : s'.flat = s.flat ++ r.1.map Placed.toRoute
  around_eq : ∀ p ∈ r.1, groupChain s'.groupParent p.toRoute.group = p.around
  group_le : ∀ p ∈ r.1, p.toRoute.group ≤ s'.nextGroupId

namespace Walked

variable {s s' s'' : Walk} {r r' : List Placed × ℕ}

theorem groupChain_eq (h : Walked s s' r) (hs : s.Valid) {g : ℕ} (hg : g ≤ s.nextGroupId) :
    groupChain s'.groupParent g = groupChain s.groupParent g :=
  chain_congr (parentOf_lt hs.lt) (parentOf_lt h.valid.lt) fun k hk =>
    h.parentOf_eq k (hk.trans hg)

theorem trans (h : Walked s s' r) (h' : Walked s' s'' r') : Walked s s'' (r.1 ++ r'.1, r'.2) where
  valid := h'.valid
  next_eq := h'.next_eq
  next_le := h.next_le.trans h'.next_le
  parentOf_eq := fun g hg => (h'.parentOf_eq g (hg.trans h.next_le)).trans (h.parentOf_eq g hg)
  flat_eq := by rw [h'.flat_eq, h.flat_eq, map_append, append_assoc]
  around_eq := by
    intro p hp
    rcases mem_append.mp hp with hp | hp
    · rw [h'.groupChain_eq h.valid (h.group_le p hp), h.around_eq p hp]
    · exact h'.around_eq p hp
  group_le := by
    intro p hp
    rcases mem_append.mp hp with hp | hp
    · exact (h.group_le p hp).trans h'.next_le
    · exact h'.group_le p hp

/-- Tokens of one group. -/
theorem leaf (hs : s.Valid) {group : ℕ} (hle : group ≤ s.nextGroupId) (contents : List Content) :
    Walked s { s with flat := s.flat ++ contents.map fun content => ⟨content, group⟩ }
      (contents.map fun content => ⟨content, groupChain s.groupParent group⟩, s.nextGroupId) := by
  have hhead : (groupChain s.groupParent group).headD 0 = group := headD_chain (parentOf_lt hs.lt)
  refine ⟨⟨hs.mem_keys_iff, hs.lt⟩, rfl, le_rfl, fun _ _ => rfl, ?_, ?_, ?_⟩
  · rw [map_map]
    refine congrArg _ (map_congr_left fun content _ => ?_)
    rw [Function.comp_apply, Placed.toRoute, hhead]
  · intro p hp
    obtain ⟨content, -, rfl⟩ := mem_map.mp hp
    rw [Placed.toRoute, hhead]
  · intro p hp
    obtain ⟨content, -, rfl⟩ := mem_map.mp hp
    rw [Placed.toRoute, hhead]
    exact hle

end Walked

/-- A new group. -/
theorem Walk.Valid.enter {s : Walk} (hs : s.Valid) {group : ℕ} (hle : group ≤ s.nextGroupId) :
    Walk.Valid ⟨s.nextGroupId + 1, s.groupParent.set (s.nextGroupId + 1) group, s.flat⟩ where
  mem_keys_iff := by
    intro g
    rw [mem_keys_set, hs.mem_keys_iff]
    dsimp only
    omega
  lt := by
    intro g p hget
    rw [get?_set] at hget
    split at hget
    · cases hget
      omega
    · exact hs.lt g p hget

mutual

theorem walked_walkToken (token : PathToRegexpToken) {s : Walk} (hs : s.Valid) {group : ℕ}
    (hle : group ≤ s.nextGroupId) : Walked s (walkToken group token s)
      (placeToken (groupChain s.groupParent group) token s.nextGroupId) := by
  cases token with
  | text value => exact Walked.leaf hs hle (textContents value)
  | param name => exact Walked.leaf hs hle [.param name]
  | wildcard name => exact Walked.leaf hs hle [.wildcard name]
  | group tokens =>
    have hvalid := hs.enter hle
    have hparent (g : ℕ) (hg : g ≤ s.nextGroupId) :
        parentOf (s.groupParent.set (s.nextGroupId + 1) group) g = parentOf s.groupParent g := by
      rw [parentOf, parentOf, get?_set_of_ne _ (by omega)]
    have hchain : groupChain (s.groupParent.set (s.nextGroupId + 1) group) (s.nextGroupId + 1) =
        (s.nextGroupId + 1) :: groupChain s.groupParent group := by
      rw [groupChain, chain_of_ne_zero (parentOf_lt hvalid.lt) (by omega), parentOf,
        get?_set_self, groupChain]
      exact congrArg _ (chain_congr (parentOf_lt hs.lt) (parentOf_lt hvalid.lt) fun k hk =>
        hparent k (hk.trans hle))
    have h := walked_walk tokens hvalid (Nat.le_refl (s.nextGroupId + 1))
    rw [hchain] at h
    exact ⟨h.valid, h.next_eq, (Nat.le_succ _).trans h.next_le,
      fun g hg => (h.parentOf_eq g (hg.trans (Nat.le_succ _))).trans (hparent g hg), h.flat_eq,
      h.around_eq, h.group_le⟩

theorem walked_walk (tokens : List PathToRegexpToken) {s : Walk} (hs : s.Valid) {group : ℕ}
    (hle : group ≤ s.nextGroupId) : Walked s (walk group tokens s)
      (place (groupChain s.groupParent group) tokens s.nextGroupId) := by
  cases tokens with
  | nil =>
    exact ⟨hs, rfl, le_rfl, fun _ _ => rfl, (append_nil _).symm,
      fun p hp => (not_mem_nil hp).elim, fun p hp => (not_mem_nil hp).elim⟩
  | cons token tokens =>
    have hfirst := walked_walkToken token hs hle
    have hothers := walked_walk tokens hfirst.valid (hle.trans hfirst.next_le)
    rw [hfirst.groupChain_eq hs hle, hfirst.next_eq] at hothers
    exact hfirst.trans hothers

end

/-- The walk over a whole route. -/
def walkOf (tokens : List PathToRegexpToken) : Walk := walk 0 tokens ⟨0, .empty, []⟩

theorem walked_walkOf (tokens : List PathToRegexpToken) :
    Walked ⟨0, .empty, []⟩ (walkOf tokens) (place [] tokens 0) := by
  have hvalid : Walk.Valid ⟨0, .empty, []⟩ := by
    refine ⟨fun g => ?_, fun g p hget => ?_⟩
    · simp
      omega
    · cases hget
  exact walked_walk tokens hvalid le_rfl

theorem flat_walkOf (tokens : List PathToRegexpToken) :
    (walkOf tokens).flat = (placed tokens).map Placed.toRoute := (walked_walkOf tokens).flat_eq

/-! ## The segments -/

def allSegments (s : List RouteSegment × Option RouteSegment) : List RouteSegment :=
  s.1 ++ s.2.toList

theorem flatMap_segmentStep (s : List RouteSegment × Option RouteSegment) (t : RouteToken) :
    (allSegments (segmentStep s t)).flatMap (·.tokens) =
      (allSegments s).flatMap (·.tokens) ++ [t].filter fun t => t.content != .slash := by
  obtain ⟨segments, cur⟩ := s
  rw [segmentStep]
  by_cases hslash : t.content = .slash
  · rw [filter_singleton, hslash, bne_self_eq_false, cond_false,
      append_nil, allSegments, flatMap_append]
    exact append_nil _
  · rw [if_neg hslash, filter_singleton, bne_iff_ne.mpr hslash]
    cases cur with
    | none | some cur => simp [allSegments]

theorem flatMap_segmentsOf (flat : List RouteToken) :
    (segmentsOf flat).flatMap (·.tokens) = flat.filter fun t => t.content != .slash := by
  have hrun (s : List RouteSegment × Option RouteSegment) :
      (allSegments (flat.foldl segmentStep s)).flatMap (·.tokens) =
        (allSegments s).flatMap (·.tokens) ++ flat.filter fun t => t.content != .slash := by
    induction flat generalizing s with
    | nil => exact (append_nil _).symm
    | cons t flat ih =>
      rw [foldl_cons, ih, flatMap_segmentStep, append_assoc, ← filter_append]
      rfl
  exact hrun ([], none)

/-- The group of a segment is that of its slash. -/
theorem group_of_mem_segmentsOf {flat : List RouteToken} {seg : RouteSegment}
    (h : seg ∈ segmentsOf flat) : seg.group = 0 ∨ ∃ t ∈ flat, t.group = seg.group := by
  have hrun (s : List RouteSegment × Option RouteSegment)
      (hs : ∀ seg ∈ allSegments s, seg.group = 0 ∨ ∃ t ∈ flat, t.group = seg.group)
      (tokens : List RouteToken) (htokens : tokens ⊆ flat) :
      ∀ seg ∈ allSegments (tokens.foldl segmentStep s),
        seg.group = 0 ∨ ∃ t ∈ flat, t.group = seg.group := by
    induction tokens generalizing s with
    | nil => exact hs
    | cons t tokens ih =>
      obtain ⟨ht, htokens⟩ := cons_subset.mp htokens
      refine ih _ ?_ htokens
      obtain ⟨segments, cur⟩ := s
      rw [segmentStep]
      split
      · intro seg hseg
        rcases mem_append.mp hseg with hseg | hseg
        · exact hs seg hseg
        · rw [Option.toList_some, mem_singleton] at hseg
          exact .inr ⟨t, ht, by rw [hseg]⟩
      · intro seg hseg
        rcases mem_append.mp hseg with hseg | hseg
        · exact hs seg (mem_append_left _ hseg)
        · rw [Option.toList_some, mem_singleton] at hseg
          rcases cur with _ | cur
          · exact .inl (by rw [hseg]; rfl)
          · rw [hseg]
            exact hs cur (mem_append_right _ (mem_singleton_self _))
  exact hrun ([], none) (fun seg hseg => (not_mem_nil hseg).elim) flat (List.Subset.refl _) seg h

/-- The segments that carry an element. -/
def cleanedOf (tokens : List PathToRegexpToken) : List RouteSegment :=
  (tokensToSegments tokens).segments.filter fun s => !s.tokens.isEmpty

theorem flatMap_filter_tokens (segments : List RouteSegment) :
    (segments.filter fun s => !s.tokens.isEmpty).flatMap (·.tokens) =
      segments.flatMap (·.tokens) := by
  induction segments with
  | nil => rfl
  | cons seg segments ih =>
    rw [filter_cons, flatMap_cons]
    rcases htokens : seg.tokens with _ | ⟨t, tokens⟩
    · exact ih
    · rw [if_pos (by rfl), flatMap_cons, ih, htokens]

theorem flatMap_tokensToSegments (tokens : List PathToRegexpToken) :
    (tokensToSegments tokens).segments.flatMap (·.tokens) =
      (segmentsOf (walkOf tokens).flat).flatMap (·.tokens) := by
  show (if declaresTrailingSlash (segmentsOf (walkOf tokens).flat) then _ else _ :
    List RouteSegment).flatMap _ = _
  split
  · next htrailing =>
    rw [declaresTrailingSlash, Option.any_eq_true] at htrailing
    obtain ⟨last, hlast, hempty⟩ := htrailing
    rw [Bool.and_eq_true, List.isEmpty_iff] at hempty
    conv_rhs => rw [← dropLast_append_getLast? last hlast, flatMap_append,
      flatMap_singleton, hempty.1, append_nil]
    rfl
  · rfl

variable {tokens : List PathToRegexpToken} {parse : Str → Option (List PathToRegexpToken)}
  {makeMatcher : Str → Option (Matcher V)}

theorem mem_segmentsOf_of_mem_cleanedOf {seg : RouteSegment}
    (h : seg ∈ cleanedOf tokens) : seg ∈ segmentsOf (walkOf tokens).flat := by
  have hmem := (mem_filter.mp h).1
  replace hmem : seg ∈ (if declaresTrailingSlash (segmentsOf (walkOf tokens).flat) then
    (segmentsOf (walkOf tokens).flat).dropLast else segmentsOf (walkOf tokens).flat) := hmem
  split at hmem
  · exact dropLast_subset _ hmem
  · exact hmem

/-- **The tokens of the segments** are those of the route without the slashes. -/
theorem flatMap_cleanedOf (tokens : List PathToRegexpToken) :
    (cleanedOf tokens).flatMap (·.tokens) =
      ((placed tokens).filter fun p => p.content != .slash).map Placed.toRoute := by
  rw [cleanedOf, flatMap_filter_tokens, flatMap_tokensToSegments, flatMap_segmentsOf,
    flat_walkOf, filter_map]
  rfl

mutual

theorem ne_static_nil_of_mem_placeToken {around : List ℕ} {token : PathToRegexpToken} {n : ℕ}
    {p : Placed} (h : p ∈ (placeToken around token n).1) : p.content ≠ .static [] := by
  cases token with
  | text value =>
    obtain ⟨content, hcontent, rfl⟩ := mem_map.mp h
    obtain ⟨⟨part, i⟩, -, hpart⟩ := mem_flatMap.mp hcontent
    rcases mem_append.mp hpart with hpart | hpart
    · split at hpart
      · rw [mem_singleton.mp hpart]
        exact Content.noConfusion
      · cases hpart
    · split at hpart
      · cases hpart
      · next hne =>
        rw [mem_singleton.mp hpart]
        intro hnil
        exact hne (by rw [Content.static.inj hnil]; rfl)
  | param name | wildcard name =>
    rw [mem_singleton.mp h]
    exact Content.noConfusion
  | group tokens =>
    have hplace : p ∈ (place ((n + 1) :: around) tokens (n + 1)).1 := h
    exact ne_static_nil_of_mem_place hplace

theorem ne_static_nil_of_mem_place {around : List ℕ} {tokens : List PathToRegexpToken} {n : ℕ}
    {p : Placed} (h : p ∈ (place around tokens n).1) : p.content ≠ .static [] := by
  cases tokens with
  | nil => cases h
  | cons token tokens =>
    rcases mem_append.mp h with h | h
    · exact ne_static_nil_of_mem_placeToken h
    · exact ne_static_nil_of_mem_place h

end

theorem isProper_of_mem_cleanedOf {t : RouteToken}
    (h : t ∈ (cleanedOf tokens).flatMap (·.tokens)) : t.content.IsProper := by
  rw [flatMap_cleanedOf] at h
  obtain ⟨p, hp, rfl⟩ := mem_map.mp h
  obtain ⟨hp, hslash⟩ := mem_filter.mp hp
  exact ⟨bne_iff_ne.mp hslash, ne_static_nil_of_mem_place hp⟩

/-! ## The compiled route -/

/-- The loop over the tokens finds a catch-all before the last token. -/
theorem isWildcard_of_not_inner {cleaned : List RouteSegment}
    (h : hasInnerWildcard cleaned = false) (hne : ∀ seg ∈ cleaned, seg.tokens ≠ []) :
    ∀ t ∈ (cleaned.flatMap (·.tokens)).dropLast, t.content.isWildcard = false := by
  intro t ht
  by_contra hwildcard
  rw [Bool.not_eq_false] at hwildcard
  have hat (s k : ℕ) (seg : RouteSegment) (hs : cleaned[s]? = some seg)
      (hk : seg.tokens[k]? = some t) : s = cleaned.length - 1 ∧ k = seg.tokens.length - 1 := by
    rw [hasInnerWildcard, any_eq_false] at h
    have hseg := h (seg, s) (mem_zipIdx_iff_getElem?.mpr hs)
    rw [Bool.not_eq_true, any_eq_false] at hseg
    have htoken := hseg (t, k) (mem_zipIdx_iff_getElem?.mpr hk)
    rw [hwildcard, Bool.true_and, Bool.or_eq_true, bne_iff_ne, bne_iff_ne, not_or, not_not,
      not_not] at htoken
    exact htoken
  rcases eq_nil_or_concat cleaned with rfl | ⟨init, last, rfl⟩
  · cases ht
  · rw [concat_eq_append] at hat hne ht
    rw [flatMap_append, flatMap_singleton, dropLast_append_of_ne_nil (hne last (by simp))] at ht
    rcases mem_append.mp ht with ht | ht
    · obtain ⟨seg, hseg, ht⟩ := mem_flatMap.mp ht
      obtain ⟨s, hs, hsget⟩ := getElem_of_mem hseg
      obtain ⟨k, hk, hkget⟩ := getElem_of_mem ht
      have hlast := (hat s k seg (by rw [getElem?_append_left hs, getElem?_eq_getElem hs, hsget])
        (by rw [getElem?_eq_getElem hk, hkget])).1
      rw [length_append, length_singleton] at hlast
      omega
    · obtain ⟨k, hk, hkget⟩ := getElem_of_mem ht
      rw [length_dropLast] at hk
      rw [getElem_dropLast] at hkget
      have hlast := (hat init.length k last
        (by rw [getElem?_append_right le_rfl, Nat.sub_self]; rfl)
        (by rw [getElem?_eq_getElem (by omega), hkget])).2
      omega

/-- The groups that a segment or a token of these belongs to. -/
theorem mem_represented_iff {cleaned : List RouteSegment} {g : ℕ} :
    g ∈ represented cleaned ↔ g ≠ 0 ∧
      ∃ seg ∈ cleaned, seg.group = g ∨ ∃ t ∈ seg.tokens, t.group = g := by
  rw [represented, mem_dedup, mem_filter, bne_iff_ne, mem_flatMap, and_comm]
  refine and_congr_right fun _ => exists_congr fun seg => and_congr_right fun _ => ?_
  rw [mem_cons, mem_map]
  exact or_congr_left eq_comm

theorem get?_effectiveParent (groupParent : OrderedMap ℕ ℕ) (represented : List ℕ) (g : ℕ) :
    (effectiveParent groupParent represented).get? g = if g ∈ represented then
      some (nearest (parentOf groupParent) (includes represented) g (parentOf groupParent g))
    else none := by
  have hrun (f : ℕ → ℕ) (groups : List ℕ) (m : OrderedMap ℕ ℕ) :
      (groups.foldl (fun m g => m.set g (f g)) m).get? g =
        if g ∈ groups then some (f g) else m.get? g := by
    induction groups generalizing m with
    | nil => rfl
    | cons g' groups ih =>
      rw [foldl_cons, ih, get?_set]
      by_cases hmem : g ∈ groups
      · rw [if_pos hmem, if_pos (mem_cons_of_mem _ hmem)]
      · rw [if_neg hmem]
        by_cases heq : g = g'
        · rw [if_pos heq, if_pos (heq ▸ mem_cons_self ..), heq]
        · rw [if_neg heq, if_neg (by simp [heq, hmem])]
  exact hrun (fun g => nearest (parentOf groupParent) (includes represented) g
    (parentOf groupParent g)) represented .empty

section Compiled

variable {tokens : List PathToRegexpToken}

theorem group_mem_keys {g : ℕ} (h : g ∈ represented (cleanedOf tokens)) :
    g ∈ (walkOf tokens).groupParent.keys := by
  have hwalked := walked_walkOf tokens
  have hflat {t : RouteToken} (ht : t ∈ (walkOf tokens).flat) (hg : t.group ≠ 0) :
      t.group ∈ (walkOf tokens).groupParent.keys := by
    rw [flat_walkOf] at ht
    obtain ⟨p, hp, rfl⟩ := mem_map.mp ht
    exact (hwalked.valid.mem_keys_iff _).mpr ⟨Nat.pos_of_ne_zero hg, hwalked.group_le p hp⟩
  obtain ⟨hg, seg, hseg, hgroup⟩ := mem_represented_iff.mp h
  have hsegment := mem_segmentsOf_of_mem_cleanedOf hseg
  rcases hgroup with rfl | ⟨t, ht, rfl⟩
  · rcases group_of_mem_segmentsOf hsegment with hzero | ⟨t, ht, heq⟩
    · exact (hg hzero).elim
    · rw [← heq]
      exact hflat ht (heq ▸ hg)
  · have hmem : t ∈ (segmentsOf (walkOf tokens).flat).flatMap (·.tokens) :=
      mem_flatMap.mpr ⟨seg, hsegment, ht⟩
    rw [flatMap_segmentsOf] at hmem
    exact hflat (mem_filter.mp hmem).1 hg

/-- The groups around each other, as the compiled route has them. -/
def parents (tokens : List PathToRegexpToken) : OrderedMap ℕ ℕ :=
  effectiveParent (walkOf tokens).groupParent (represented (cleanedOf tokens))

theorem parentOf_walkOf_lt (tokens : List PathToRegexpToken) :
    ∀ g, g ≠ 0 → parentOf (walkOf tokens).groupParent g < g :=
  parentOf_lt (walked_walkOf tokens).valid.lt

theorem parentOf_parents (tokens : List PathToRegexpToken) {g : ℕ}
    (h : g ∈ represented (cleanedOf tokens)) : parentOf (parents tokens) g =
      nearest (parentOf (walkOf tokens).groupParent) (includes (represented (cleanedOf tokens))) g
        (parentOf (walkOf tokens).groupParent g) := by
  rw [parentOf, parents, get?_effectiveParent, if_pos h, Option.getD_some]

theorem parentOf_parents_lt (tokens : List PathToRegexpToken) :
    ∀ g, g ≠ 0 → parentOf (parents tokens) g < g := by
  intro g hg
  have hparent := parentOf_walkOf_lt tokens
  by_cases hmem : g ∈ represented (cleanedOf tokens)
  · rw [parentOf_parents tokens hmem]
    have hlt := hparent g hg
    exact (filter_chain_nearest _ hparent g hlt.le).2.2.trans_lt hlt
  · rw [parentOf, parents, get?_effectiveParent, if_neg hmem]
    exact Nat.pos_of_ne_zero hg

/-- **Collapsed groups** are left out of the chains. -/
theorem groupChain_parents {g : ℕ} (h : g ≠ 0 → g ∈ represented (cleanedOf tokens)) :
    groupChain (parents tokens) g = (groupChain (walkOf tokens).groupParent g).filter
      (includes (represented (cleanedOf tokens))) :=
  chain_nearest (parentOf_walkOf_lt tokens) (parentOf_parents_lt tokens)
    (fun _ _ hkeep => parentOf_parents tokens (includes_eq_true_iff.mp hkeep))
    fun hg => includes_eq_true_iff.mpr (h hg)

end Compiled

/-! ## Presence -/

section Presence

variable {tokens : List PathToRegexpToken} {p : Placed}

theorem around_eq (h : p ∈ placed tokens) :
    groupChain (walkOf tokens).groupParent p.toRoute.group = p.around :=
  (walked_walkOf tokens).around_eq p h

theorem toRoute_mem_cleanedOf (h : p ∈ placed tokens) (hslash : p.content ≠ .slash) :
    p.toRoute ∈ (cleanedOf tokens).flatMap (·.tokens) := by
  rw [flatMap_cleanedOf]
  exact mem_map_of_mem (mem_filter.mpr ⟨h, bne_iff_ne.mpr hslash⟩)

theorem exists_placed {t : RouteToken} (h : t ∈ (cleanedOf tokens).flatMap (·.tokens)) :
    ∃ p ∈ placed tokens, p.content ≠ .slash ∧ p.toRoute = t := by
  rw [flatMap_cleanedOf] at h
  obtain ⟨p, hp, rfl⟩ := mem_map.mp h
  obtain ⟨hp, hslash⟩ := mem_filter.mp hp
  exact ⟨p, hp, bne_iff_ne.mp hslash, rfl⟩

theorem ne_slash_of_isDynamic (h : p.isDynamic = true) : p.content ≠ .slash := by
  intro hslash
  rw [Placed.isDynamic, hslash] at h
  cases h

theorem mem_represented (h : p ∈ placed tokens) (hslash : p.content ≠ .slash)
    (hgroup : p.toRoute.group ≠ 0) : p.toRoute.group ∈ represented (cleanedOf tokens) := by
  obtain ⟨seg, hseg, ht⟩ := mem_flatMap.mp (toRoute_mem_cleanedOf h hslash)
  exact mem_represented_iff.mpr ⟨hgroup, seg, hseg, .inr ⟨_, ht, rfl⟩⟩

/-- The chain of a token in the compiled route. -/
theorem groupChain_toRoute (h : p ∈ placed tokens) (hslash : p.content ≠ .slash) :
    groupChain (parents tokens) p.toRoute.group =
      p.around.filter (includes (represented (cleanedOf tokens))) := by
  rw [groupChain_parents (mem_represented h hslash), around_eq h]

variable {g : ℕ}

/-- The groups around a group are around all that it is around. -/
theorem chain_subset_around (h : p ∈ placed tokens) (hg : g ∈ p.around) :
    ∀ k ∈ groupChain (walkOf tokens).groupParent g, k ∈ p.around := by
  intro k hk
  rw [← around_eq h] at hg ⊢
  exact chain_trans (parentOf_walkOf_lt tokens) hg hk

theorem group_mem_around (h : p ∈ placed tokens) (hgroup : p.toRoute.group ≠ 0) :
    p.toRoute.group ∈ p.around := by
  have hmem := mem_chain_self (parentOf_walkOf_lt tokens) hgroup
  have haround := around_eq h
  rw [groupChain] at haround
  rwa [haround] at hmem

theorem mem_dynamicTokens_iff {t : RouteToken} : t ∈ dynamicTokens (cleanedOf tokens) ↔
    ∃ p ∈ placed tokens, p.isDynamic = true ∧ p.toRoute = t := by
  rw [dynamicTokens, mem_filter]
  constructor
  · rintro ⟨ht, hdynamic⟩
    obtain ⟨p, hp, -, rfl⟩ := exists_placed ht
    exact ⟨p, hp, hdynamic, rfl⟩
  · rintro ⟨p, hp, hdynamic, rfl⟩
    exact ⟨toRoute_mem_cleanedOf hp (ne_slash_of_isDynamic hdynamic), hdynamic⟩

theorem mem_paramGroups_iff : g ∈ paramGroups (walkOf tokens).groupParent (cleanedOf tokens) ↔
      holdsParam tokens g = true := by
  rw [paramGroups, mem_flatMap, holdsParam, any_eq_true]
  constructor
  · rintro ⟨t, ht, hg⟩
    obtain ⟨p, hp, hdynamic, rfl⟩ := mem_dynamicTokens_iff.mp ht
    rw [around_eq hp] at hg
    exact ⟨p, hp, by rw [hdynamic, includes_eq_true_iff.mpr hg]; rfl⟩
  · rintro ⟨p, hp, hg⟩
    rw [Bool.and_eq_true, includes_eq_true_iff] at hg
    refine ⟨p.toRoute, mem_dynamicTokens_iff.mpr ⟨p, hp, hg.1, rfl⟩, ?_⟩
    rw [around_eq hp]
    exact hg.2

/-- A detectable group holds a parameter directly. -/
theorem exists_of_mem_detectable (h : g ∈ detectable (cleanedOf tokens)) :
    g ≠ 0 ∧ ∃ p ∈ placed tokens, p.isDynamic = true ∧ p.toRoute.group = g := by
  obtain ⟨t, ht, rfl⟩ := mem_map.mp h
  obtain ⟨ht, hgroup⟩ := mem_filter.mp ht
  rw [Bool.and_eq_true, bne_iff_ne] at hgroup
  obtain ⟨p, hp, hdynamic, rfl⟩ := mem_dynamicTokens_iff.mp ht
  exact ⟨hgroup.1, p, hp, hdynamic, rfl⟩

/-- The parameters that are captured mark the chains of their groups. -/
theorem mem_resolvePresence_iff (compiled : Template) (params : Params V)
    (hparent : ∀ g, g ≠ 0 → parentOf compiled.groupParent g < g) :
    g ∈ resolvePresence compiled (some params) ↔
      ∃ t ∈ compiled.segments.flatMap (·.tokens), (t.group ≠ 0 ∧ isDynamic t = true) ∧
        (∃ value, params.get? t.name = some (some value)) ∧
          g ∈ groupChain compiled.groupParent t.group := by
  rw [resolvePresence]
  have hrun (l : List RouteToken) (present : List ℕ)
      (hclosed : Closed (parentOf compiled.groupParent) present) :
      g ∈ l.foldl (presenceStep compiled.groupParent params) present ↔ g ∈ present ∨
        ∃ t ∈ l, (t.group ≠ 0 ∧ isDynamic t = true) ∧
          (∃ value, params.get? t.name = some (some value)) ∧
            g ∈ groupChain compiled.groupParent t.group := by
    induction l generalizing present with
    | nil => simp
    | cons t l ih =>
      rw [foldl_cons, presenceStep]
      by_cases hskip : (t.group == 0 || !isDynamic t) = true
      · have hnot : ¬(t.group ≠ 0 ∧ isDynamic t = true) := by
          rintro ⟨hgroup, hdynamic⟩
          rw [hdynamic, Bool.not_true, Bool.or_false, beq_iff_eq] at hskip
          exact hgroup hskip
        rw [if_pos hskip, ih present hclosed]
        simp only [mem_cons, exists_eq_or_imp, hnot, false_and, false_or]
      · have hheld : t.group ≠ 0 ∧ isDynamic t = true := by
          rw [Bool.or_eq_true, not_or, beq_iff_eq, Bool.not_eq_true', Bool.not_eq_false] at hskip
          exact hskip
        rw [if_neg hskip]
        rcases hget : params.get? t.name with _ | _ | value
        · rw [ih present hclosed]
          simp [hget]
        · rw [ih present hclosed]
          simp [hget]
        · rw [ih _ (closed_mark hparent hclosed), mem_mark_iff hparent hclosed, or_assoc]
          simp [hget, hheld, groupChain]
  rw [hrun _ [] fun g hg => (not_mem_nil hg).elim]
  simp

/-- A group is resolvable if it holds a parameter. -/
def Resolvable (tokens : List PathToRegexpToken) : Prop :=
  ∀ g ∈ represented (cleanedOf tokens), holdsParam tokens g = true →
    g ∈ detectable (cleanedOf tokens)

variable {compiled : Template} {params : Params V} {used : ℕ → Bool}

/-- Only groups with a parameter are ever marked. -/
theorem resolvePresence_subset (hsegments : compiled.segments = cleanedOf tokens)
    (hparents : compiled.groupParent = parents tokens) {params : Option (Params V)} :
    ∀ g ∈ resolvePresence compiled params,
      g ∈ represented (cleanedOf tokens) ∧ holdsParam tokens g = true := by
  intro g hg
  rcases params with _ | params
  · cases hg
  · rw [mem_resolvePresence_iff _ _ (hparents ▸ parentOf_parents_lt tokens), hsegments,
      hparents] at hg
    obtain ⟨t, ht, ⟨-, hdynamic⟩, -, hg⟩ := hg
    obtain ⟨p, hp, hslash, rfl⟩ := exists_placed ht
    rw [groupChain_toRoute hp hslash, mem_filter, includes_eq_true_iff] at hg
    refine ⟨hg.2, mem_paramGroups_iff.mp (mem_flatMap.mpr ⟨_, mem_dynamicTokens_iff.mpr
      ⟨p, hp, hdynamic, rfl⟩, ?_⟩)⟩
    rw [around_eq hp]
    exact hg.1

/-- **Presence is read off the parameters**: a token is active when the groups around it are used
and hold a parameter. -/
theorem groupActive_iff (hsegments : compiled.segments = cleanedOf tokens)
    (hparents : compiled.groupParent = parents tokens) (hresolvable : Resolvable tokens)
    (hcaptures : Captures tokens used params) (htells : Tells tokens used)
    (h : p ∈ placed tokens) (hslash : p.content ≠ .slash) :
    groupActive p.toRoute.group compiled.groupParent (resolvePresence compiled (some params)) =
      true ↔ p.isUsed (fun g => used g && holdsParam tokens g) = true := by
  have hpresent (g : ℕ) := mem_resolvePresence_iff compiled params (g := g)
    (hparents ▸ parentOf_parents_lt tokens)
  rw [hsegments, hparents] at hpresent
  rw [groupActive, hparents, groupChain_toRoute h hslash, all_eq_true, Placed.isUsed, all_eq_true]
  simp only [mem_filter, includes_eq_true_iff, Bool.and_eq_true]
  constructor
  · intro hall g hg
    have hgroup : p.toRoute.group ≠ 0 := by
      intro hzero
      have haround := around_eq h
      rw [hzero, groupChain] at haround
      rw [← haround] at hg
      cases hg
    obtain ⟨t, ht, ⟨-, hdynamic⟩, hcaptured, hchain⟩ := (hpresent _).mp
      (hall _ ⟨group_mem_around h hgroup, mem_represented h hslash hgroup⟩)
    obtain ⟨q, hq, hqslash, rfl⟩ := exists_placed ht
    rw [groupChain_toRoute hq hqslash, mem_filter] at hchain
    obtain ⟨name, hname⟩ := Option.isSome_iff_exists.mp hdynamic
    have hqname : q.toRoute.name = name := by rw [RouteToken.name, hname]; rfl
    rw [hqname] at hcaptured
    obtain ⟨q', hq', hname', hused'⟩ := (hcaptures name).mp hcaptured
    have hused := htells q' hq' q hq (by rw [Placed.isDynamic, hname']; rfl)
      (hname'.trans hname.symm) hused'
    have hmem : g ∈ q.around := by
      refine chain_subset_around hq hchain.1 g ?_
      rw [around_eq h]
      exact hg
    refine ⟨all_eq_true.mp hused g hmem, any_eq_true.mpr ⟨q, hq, ?_⟩⟩
    rw [show q.isDynamic = true from hdynamic, includes_eq_true_iff.mpr hmem]
    rfl
  · rintro hall g ⟨hg, hrepresented⟩
    obtain ⟨hgroup, q, hq, hdynamic, hqgroup⟩ :=
      exists_of_mem_detectable (hresolvable g hrepresented (hall g hg).2)
    have hused : q.isUsed used = true := by
      refine all_eq_true.mpr fun k hk => (hall k ?_).1
      rw [← around_eq hq, hqgroup] at hk
      exact chain_subset_around h hg k hk
    obtain ⟨name, hname⟩ := Option.isSome_iff_exists.mp hdynamic
    have hqname : q.toRoute.name = name := by rw [RouteToken.name, Placed.toRoute, hname]; rfl
    have hqslash := ne_slash_of_isDynamic hdynamic
    refine (hpresent g).mpr ⟨q.toRoute, toRoute_mem_cleanedOf hq hqslash,
      ⟨hqgroup ▸ hgroup, hdynamic⟩, ?_, ?_⟩
    · rw [hqname]
      exact (hcaptures name).mpr ⟨q, hq, hname, hused⟩
    · rw [groupChain_toRoute hq hqslash, mem_filter, includes_eq_true_iff]
      exact ⟨hqgroup ▸ group_mem_around hq (hqgroup ▸ hgroup), hrepresented⟩

theorem activeContents_eq (hsegments : compiled.segments = cleanedOf tokens)
    (hparents : compiled.groupParent = parents tokens) (hresolvable : Resolvable tokens)
    (hcaptures : Captures tokens used params) (htells : Tells tokens used) :
    activeContents compiled (resolvePresence compiled (some params)) =
      shownContents used tokens := by
  rw [activeContents, hsegments, flatMap_cleanedOf, shownContents, filter_map,
    filter_filter, map_map]
  have hfilter : (placed tokens).filter (fun p => ((fun t => groupActive t.group
      compiled.groupParent (resolvePresence compiled (some params))) ∘ Placed.toRoute) p &&
        (p.content != .slash)) = (placed tokens).filter fun p => p.content != .slash &&
          p.isUsed fun g => used g && holdsParam tokens g := by
    refine filter_congr fun p hp => ?_
    rw [Bool.and_comm]
    by_cases hslash : p.content = .slash
    · rw [hslash, bne_self_eq_false, Bool.false_and, Bool.false_and]
    · rw [bne_iff_ne.mpr hslash, Bool.eq_iff_iff]
      exact groupActive_iff hsegments hparents hresolvable hcaptures htells hp hslash
  rw [hfilter]
  rfl

end Presence

/-- What `compileRoute` makes of the tokens of a route. -/
structure Compiles (route : Str) (makeMatcher : Str → Option (Matcher V))
    (tokens : List PathToRegexpToken) (compiled : CompiledRoute V) : Prop where
  segments_eq : compiled.segments = cleanedOf tokens
  groupParent_eq : compiled.groupParent = parents tokens
  mem_optionalGroups_iff : ∀ g, g ∈ compiled.optionalGroups ↔
    g ∈ represented (cleanedOf tokens) ∧ g ∈ detectable (cleanedOf tokens)
  notInner : hasInnerWildcard (cleanedOf tokens) = false
  resolvable : Resolvable tokens
  precomputed_eq : compiled.precomputed = if compiled.optionalGroups.isEmpty then
    some (renderRoute compiled.toTemplate []) else none
  matcher_eq : compiled.optionalGroups ≠ [] → compiled.matcher = makeMatcher route
  length_le : compiled.optionalGroups.length ≤ MAX_OPTIONAL_GROUPS
  variants_eq : compiled.variants = .empty

def optionalOf (tokens : List PathToRegexpToken) : List ℕ :=
  ((represented (cleanedOf tokens)).filter
    (includes (detectable (cleanedOf tokens)))).insertionSort (· ≤ ·)

theorem mem_optionalOf_iff {g : ℕ} : g ∈ optionalOf tokens ↔
    g ∈ represented (cleanedOf tokens) ∧ g ∈ detectable (cleanedOf tokens) := by
  rw [optionalOf, mem_insertionSort, mem_filter, includes_eq_true_iff]

theorem length_optionalOf_le (tokens : List PathToRegexpToken) :
    (optionalOf tokens).length ≤ (walkOf tokens).groupParent.entries.length := by
  have hnodup : (optionalOf tokens).Nodup :=
    (perm_insertionSort _ _).nodup_iff.mpr ((nodup_dedup _).filter _)
  have hsubset : optionalOf tokens ⊆ (walkOf tokens).groupParent.keys := fun g hg =>
    group_mem_keys (mem_optionalOf_iff.mp hg).1
  have hle := (hnodup.subperm hsubset).length_le
  rwa [OrderedMap.keys, length_map] at hle

def templateOf (tokens : List PathToRegexpToken) : Template :=
  ⟨cleanedOf tokens, parents tokens, optionalOf tokens, (tokensToSegments tokens).trailingSlash⟩

theorem compileRoute_eq {route : Str} (hparse : parse route = some tokens) :
    compileRoute route parse makeMatcher =
      if (cleanedOf tokens).isEmpty then
        some ⟨⟨[], .empty, [], false⟩, some (lit "/"), none, .empty⟩
      else if hasInnerWildcard (cleanedOf tokens) then none
      else if (represented (cleanedOf tokens)).any (fun g =>
          includes (paramGroups (walkOf tokens).groupParent (cleanedOf tokens)) g &&
            !includes (detectable (cleanedOf tokens)) g) then none
      else if (optionalOf tokens).isEmpty then
        some ⟨templateOf tokens, some (renderRoute (templateOf tokens) []), none, .empty⟩
      else if (walkOf tokens).groupParent.entries.length > MAX_OPTIONAL_GROUPS then none
      else (makeMatcher route).map fun matcher =>
        ⟨templateOf tokens, none, some matcher, .empty⟩ := by
  rw [compileRoute, hparse]
  cases makeMatcher route <;> rfl

theorem exists_compiles {route : Str} {compiled : CompiledRoute V}
    (h : compileRoute route parse makeMatcher = some compiled) :
    ∃ tokens, parse route = some tokens ∧ Compiles route makeMatcher tokens compiled := by
  rcases hparse : parse route with _ | tokens
  · rw [compileRoute, hparse] at h
    cases h
  refine ⟨tokens, rfl, ?_⟩
  rw [compileRoute_eq hparse] at h
  by_cases hempty : (cleanedOf tokens).isEmpty = true
  · rw [if_pos hempty] at h
    rw [List.isEmpty_iff] at hempty
    cases h
    refine ⟨hempty.symm, ?_, ?_, ?_, ?_, rfl, fun h => (h rfl).elim, Nat.zero_le _, rfl⟩
    · rw [parents, hempty]
      rfl
    · rw [hempty]
      exact fun g => iff_of_false not_mem_nil fun h => not_mem_nil h.1
    · rw [hempty]
      rfl
    · rw [Resolvable, hempty]
      exact fun g hg => (not_mem_nil hg).elim
  rw [if_neg hempty, Option.ite_none_left_eq_some] at h
  obtain ⟨hinner, h⟩ := h
  rw [Option.ite_none_left_eq_some] at h
  obtain ⟨hany, h⟩ := h
  rw [Bool.not_eq_true] at hinner
  have hresolvable : Resolvable tokens := by
    intro g hg hholds
    rw [Bool.not_eq_true, any_eq_false] at hany
    have hg := hany g hg
    rw [includes_eq_true_iff.mpr (mem_paramGroups_iff.mpr hholds), Bool.true_and,
      Bool.not_eq_true', Bool.not_eq_false, includes_eq_true_iff] at hg
    exact hg
  by_cases hoptional : (optionalOf tokens).isEmpty = true
  · rw [if_pos hoptional] at h
    cases h
    refine ⟨rfl, rfl, fun g => mem_optionalOf_iff, hinner, hresolvable, (if_pos hoptional).symm,
      fun hne => (hne (List.isEmpty_iff.mp hoptional)).elim, ?_, rfl⟩
    rw [List.isEmpty_iff] at hoptional
    show (optionalOf tokens).length ≤ _
    rw [hoptional]
    exact Nat.zero_le _
  · rw [if_neg hoptional, Option.ite_none_left_eq_some] at h
    obtain ⟨hcap, h⟩ := h
    obtain ⟨matcher, hmatcher, rfl⟩ := Option.map_eq_some_iff.mp h
    exact ⟨rfl, rfl, fun g => mem_optionalOf_iff, hinner, hresolvable, (if_neg hoptional).symm,
      fun _ => hmatcher.symm, (length_optionalOf_le tokens).trans (Nat.le_of_not_lt hcap), rfl⟩

end NormalizedRoute
end DdTrace.Appsec
