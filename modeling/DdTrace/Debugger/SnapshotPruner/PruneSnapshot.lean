import DdTrace.Debugger.SnapshotPruner.RebuildJson

/-!
# What the snapshot pruner does to a text

A snapshot whose text is too long is shortened by replacing objects that lie deep in it, the
deepest and largest first, with `{"pruned":true}`.  The text is scanned, objects are
selected and cut out, and this is done over when the text has not become short enough.

* `Invariant.sparse`: none of the objects that are selected lies in another one.
* `exists_pass`: one pass replaces them and nothing else, and the bytes that were counted in the
  selection are the bytes that the text has lost.
* `exists_attempt`: a pass that does not suffice leaves nothing to prune, so that the passes end
  with a text within the limit or with the one in which everything is pruned that may be.
* `pruneSnapshot_cases`: of a JSON text within the limit nothing is changed.  Of any other the
  outcome is `undefined`, or the text with disjoint objects replaced, which has fewer bytes.
* `fits_or_spent`: the outcome is within the limit wherever pruning everything is.  Where it is
  not, the limit may be missed: the pruner returns what it has when that is shorter at all.
-/

namespace DdTrace.Debugger.SnapshotPruner

open Library List Option
open Library.JsonSyntax

/-- The loop of `pruneSnapshot`, for so many attempts: the text and its size at the end. -/
def attempt (maxSize : ℤ) : ℕ → Str → ℤ → Option (Str × ℤ)
  | 0, json, prunedSize => some (json, prunedSize)
  | attempts + 1, json, prunedSize =>
    if maxSize < prunedSize then
      (parseJsonToTree json).bind fun tree =>
        tree.root.elim (some (json, prunedSize)) fun root =>
          (selectNodesToPrune json tree.nodes root (prunedSize - maxSize)).bind fun s =>
            if s.prunedNodes.isEmpty then some (json, prunedSize)
            else attempt maxSize attempts (rebuildJson json s.nodes s.prunedNodes)
              (Unicode.byteLength (rebuildJson json s.nodes s.prunedNodes))
    else some (json, prunedSize)

/-- The outer option is for an error that is thrown, the inner one for `undefined`. -/
def pruneSnapshot (json : Str) (originalSize maxSize : ℤ) : Option (Option Str) :=
  if originalSize - maxSize ≤ 0 then some (some json)
  else
    (attempt maxSize 6 json originalSize).map fun result =>
      if originalSize ≤ result.2 then none else some result.1

/-! ## What a selection marks -/

variable {json : Str} {table : List TreeNode} {leaves popped : List ℕ} {s : Selection}
  {pos level n : ℕ} {parent : Option ℕ} {f : Forest}

variable {i root : ℕ} {inside : Forest}

/-- A node with children comes into the queue by promotion only. -/
theorem Invariant.promoted_of_seen (h : Invariant json table leaves popped s)
    (hleaves : AreLeaves table leaves) {node : TreeNode} (hi : i ∈ popped ++ s.queue)
    (hnode : table[i]? = some node) (hne : node.children ≠ []) : i ∈ s.promotedParents := by
  rcases h.seen i hi with hleaf | hpromoted
  · obtain ⟨leaf, hleaf', hnil, -⟩ := hleaves.leaf i hleaf
    rw [hnode] at hleaf'
    exact absurd (some.inj hleaf' ▸ hnil) hne
  · exact hpromoted

theorem Invariant.level_of_seen (h : Invariant json table leaves popped s)
    (hleaves : AreLeaves table leaves) {node : TreeNode} (hi : i ∈ popped ++ s.queue)
    (hnode : table[i]? = some node) : MIN_PRUNE_LEVEL ≤ node.level := by
  rcases h.seen i hi with hleaf | hpromoted
  · obtain ⟨leaf, hleaf', -, hlevel⟩ := hleaves.leaf i hleaf
    rw [hnode] at hleaf'
    exact some.inj hleaf' ▸ hlevel
  · obtain ⟨node', hnode', hlevel, -⟩ := h.promoted i hpromoted
    rw [hnode] at hnode'
    exact some.inj hnode' ▸ hlevel

/-- Below a promoted parent all nodes have come out of the queue, and none is marked. -/
theorem Invariant.unmarked_below (h : Invariant json table leaves popped s)
    (hleaves : AreLeaves table leaves) (hlinked : WellLinked table) {q : ℕ}
    (hlaid : Laid table pos level n (some q) f) (hq : q ∈ s.promotedParents) (hn : n ≤ i) (hi : i < n + f.count) : includes s.prunedNodes i = false := by
  induction f generalizing pos level n q with
  | nil => exact absurd hi (by rw [Forest.count]; omega)
  | unit c f ih | text s f ih => exact ih hlaid hq hn hi
  | braces j f ihj ih =>
    rw [Forest.count] at hi
    rcases Nat.lt_or_ge i (n + 1 + j.count) with hlt | hge
    · rcases Nat.eq_or_lt_of_le hn with rfl | hgt
      · refine includes_eq_false_iff.mpr fun hmem => ((h.pruned n).mp hmem).2 q hq ?_
        rw [hlaid.1]
        rfl
      · obtain ⟨above, habove, hchild⟩ := hlinked.parent hlaid.1 rfl
        obtain ⟨node, hnode, -, -, hpopped⟩ := h.promoted q hq
        rw [habove] at hnode
        have hn' : n ∈ popped := hpopped n (some.inj hnode ▸ hchild)
        have hne : roots (n + 1) j ≠ [] := fun hnil => by
          have hzero := roots_eq_nil_iff.mp hnil
          omega
        exact ihj hlaid.2.1 (h.promoted_of_seen hleaves (mem_append_left _ hn') hlaid.1 hne) hgt hlt
    · exact ih hlaid.2.2 hq hge (by omega)

/-- **No marked object lies in another one.** -/
theorem Invariant.sparse (h : Invariant json table leaves popped s)
    (hleaves : AreLeaves table leaves) (hlinked : WellLinked table)
    (hlaid : Laid table pos level n parent f) : Sparse (includes s.prunedNodes) n f := by
  induction f generalizing pos level n parent with
  | nil => trivial
  | unit c f ih | text s f ih => exact ih hlaid
  | braces j f ihj ih =>
    refine ⟨fun hmarked i hn hi => ?_, ihj hlaid.2.1, ih hlaid.2.2⟩
    have hpopped := ((h.pruned n).mp (includes_eq_true_iff.mp hmarked)).1
    have hne : roots (n + 1) j ≠ [] := fun hnil => by
      have hzero := roots_eq_nil_iff.mp hnil
      omega
    exact h.unmarked_below hleaves hlinked hlaid.2.1
      (h.promoted_of_seen hleaves (mem_append_left _ hpopped) hlaid.1 hne) hn hi

/-- Where no leaf is, nothing comes into the queue. -/
theorem Invariant.unseen (h : Invariant json table leaves popped s)
    (hlaid : Laid table pos level n parent f)
    (hno : ∀ i ∈ leaves, i < n ∨ n + f.count ≤ i) (hn : n ≤ i) (hi : i < n + f.count) :
    i ∉ popped ++ s.queue := by
  induction f generalizing pos level n parent i with
  | nil => exact absurd hi (by rw [Forest.count]; omega)
  | unit c f ih | text s f ih => exact ih hlaid hno hn hi
  | braces j f ihj ih =>
    rw [Forest.count] at hi hno
    have hinside : ∀ {i}, n + 1 ≤ i → i < n + 1 + j.count → i ∉ popped ++ s.queue :=
      ihj hlaid.2.1 fun k hk => by have hk' := hno k hk; omega
    rcases Nat.lt_trichotomy i n with hlt | rfl | hgt
    · omega
    · intro hmem
      rcases h.seen i hmem with hleaf | hpromoted
      · have hrange := hno i hleaf
        omega
      · obtain ⟨node, hnode, -, hne, hpopped⟩ := h.promoted i hpromoted
        rw [hlaid.1] at hnode
        obtain rfl := some.inj hnode
        obtain ⟨c, hc⟩ := exists_mem_of_ne_nil _ hne
        have hrange := lt_of_mem_roots hc
        exact hinside hrange.1 hrange.2 (mem_append_left _ (hpopped c hc))
    · rcases Nat.lt_or_ge i (n + 1 + j.count) with hlt | hge
      · exact hinside hgt hlt
      · exact ih hlaid.2.2 (fun k hk => by have hk' := hno k hk; omega) hge (by omega)

/-- With the queue empty, all nodes that lie deep enough have come out of it. -/
theorem Invariant.popped_of_level (h : Invariant json table leaves popped s)
    (hcomplete : Complete table popped s none) (hqueue : s.queue = [])
    (hlaid : Laid table pos level n parent f) (hleaf : ∀ i ∈ leafIds level n f, i ∈ leaves)
    (hlevel : MIN_PRUNE_LEVEL ≤ level) (hn : n ≤ i) (hi : i < n + f.count) :
    i ∈ popped := by
  have hseen : ∀ {i}, i ∈ popped ++ s.queue → i ∈ popped := fun hmem => by
    rwa [hqueue, append_nil] at hmem
  induction f generalizing pos level n parent i with
  | nil => exact absurd hi (by rw [Forest.count]; omega)
  | unit c f ih | text s f ih => exact ih hlaid hleaf hlevel hn hi
  | braces j f ihj ih =>
    rw [Forest.count] at hi
    rw [leafIds] at hleaf
    have hinside : ∀ {i}, n + 1 ≤ i → i < n + 1 + j.count → i ∈ popped :=
      ihj hlaid.2.1 (fun k hk => hleaf k (mem_append_left _ (mem_append_right _ hk)))
        (Nat.le_succ_of_le hlevel)
    rcases Nat.lt_trichotomy i n with hlt | rfl | hgt
    · omega
    · by_cases hcount : j.count = 0
      · refine hseen (h.leaves_seen i (hleaf i ?_))
        rw [if_pos ⟨hcount, hlevel⟩]
        exact mem_append_left _ (mem_append_left _ (mem_singleton_self i))
      · have hne : roots (i + 1) j ≠ [] := fun hnil => hcount (roots_eq_nil_iff.mp hnil)
        rcases hcomplete i _ hlaid.1 hlevel hne fun c hc =>
            hinside (lt_of_mem_roots hc).1 (lt_of_mem_roots hc).2 with hpromoted | hnone
        · exact hseen (h.promoted_seen i hpromoted)
        · exact absurd hnone (some_ne_none i)
    · rcases Nat.lt_or_ge i (n + 1 + j.count) with hlt | hge
      · exact hinside hgt hlt
      · exact ih hlaid.2.2 (forall_mem_append.mp hleaf).2 hlevel hge (by omega)

/-! ## Pruning everything -/

/-- All objects that lie in so many others are replaced. -/
def pruneBelow (level : ℕ) : Forest → Forest
  | .nil => .nil
  | .unit c rest => .unit c (pruneBelow level rest)
  | .text s rest => .text s (pruneBelow level rest)
  | .braces inside rest =>
    .braces
      (if MIN_PRUNE_LEVEL ≤ level then prunedMembers.forest else pruneBelow (level + 1) inside)
      (pruneBelow level rest)

/-- All objects of the lowest level in the last of the outermost objects are replaced. -/
def pruneAll : Forest → Forest
  | .nil => .nil
  | .unit c rest => .unit c (pruneAll rest)
  | .text s rest => .text s (pruneAll rest)
  | .braces inside rest =>
    if rest.count = 0 then .braces (pruneBelow 1 inside) rest
    else .braces inside (pruneAll rest)

theorem pruneBelow_pruneBelow (level : ℕ) (f : Forest) :
    pruneBelow level (pruneBelow level f) = pruneBelow level f := by
  induction f generalizing level with
  | nil => rfl
  | unit c f ih | text s f ih => rw [pruneBelow, pruneBelow, ih]
  | braces i f ihi ih =>
    rw [pruneBelow, pruneBelow, ih]
    by_cases hlevel : MIN_PRUNE_LEVEL ≤ level
    · rw [if_pos hlevel, if_pos hlevel]
    · rw [if_neg hlevel, if_neg hlevel, ihi]

theorem pruneAll_append {post : Forest} (hpost : post.count = 0) (pre : Forest) :
    pruneAll (pre ++ .braces inside post) = pre ++ .braces (pruneBelow 1 inside) post := by
  induction pre with
  | nil => exact if_pos hpost
  | unit c f ih => rw [Forest.unit_append, pruneAll, ih]; rfl
  | text s f ih => rw [Forest.text_append, pruneAll, ih]; rfl
  | braces i f _ ih =>
    have hcount : (f ++ .braces inside post).count ≠ 0 := by
      rw [Forest.count_append, Forest.count]
      omega
    rw [Forest.braces_append, pruneAll, if_neg hcount, ih]
    rfl

theorem pruneAll_of_count (h : f.count = 0) : pruneAll f = f := by
  induction f with
  | nil => rfl
  | unit c f ih | text s f ih => rw [pruneAll, ih h]
  | braces i f _ _ =>
    rw [Forest.count] at h
    omega

/-- The last of the outermost objects, and what stands around it. -/
theorem exists_lastRoot (h : lastRoot n f = some root) :
    ∃ pre inside post, f = pre ++ .braces inside post ∧ post.count = 0 ∧
      root = n + pre.count := by
  induction f generalizing n with
  | nil => exact absurd h.symm (some_ne_none root)
  | unit c f ih =>
    obtain ⟨pre, inside, post, rfl, hpost, hroot⟩ := ih h
    exact ⟨.unit c pre, inside, post, rfl, hpost, hroot⟩
  | text s f ih =>
    obtain ⟨pre, inside, post, rfl, hpost, hroot⟩ := ih h
    exact ⟨.text s pre, inside, post, rfl, hpost, hroot⟩
  | braces i f _ ih =>
    by_cases hcount : f.count = 0
    · rw [lastRoot, roots, roots_eq_nil_iff.mpr hcount] at h
      exact ⟨.nil, i, f, rfl, hcount, (some.inj h).symm⟩
    · have hne : roots (n + 1 + i.count) f ≠ [] := fun hnil => hcount (roots_eq_nil_iff.mp hnil)
      have hlast : lastRoot (n + 1 + i.count) f = some root := by
        rw [lastRoot, roots, getLast?_cons, getLast?_eq_some_getLast hne] at h
        rw [lastRoot, getLast?_eq_some_getLast hne]
        exact h
      obtain ⟨pre, inside, post, rfl, hpost, rfl⟩ := ih hlast
      refine ⟨.braces i pre, inside, post, rfl, hpost, ?_⟩
      rw [Forest.count]
      omega

theorem pruneAll_pruneAll (f : Forest) : pruneAll (pruneAll f) = pruneAll f := by
  rcases hroot : lastRoot 0 f with _ | root
  · have hnil : roots 0 f = [] := getLast?_eq_none_iff.mp hroot
    rw [pruneAll_of_count (roots_eq_nil_iff.mp hnil), pruneAll_of_count (roots_eq_nil_iff.mp hnil)]
  · obtain ⟨pre, inside, post, rfl, hpost, -⟩ := exists_lastRoot hroot
    rw [pruneAll_append hpost, pruneAll_append hpost, pruneBelow_pruneBelow]

/-- **With the queue empty, everything is pruned** that may be. -/
theorem Invariant.replaceMarked_eq (h : Invariant json table leaves popped s)
    (hleaves : AreLeaves table leaves) (hcomplete : Complete table popped s none)
    (hqueue : s.queue = []) (hlaid : Laid table pos level n parent f)
    (hleaf : ∀ i ∈ leafIds level n f, i ∈ leaves) (hlevel : level ≤ MIN_PRUNE_LEVEL)
    (hparent : ∀ p ∈ parent, p ∉ s.promotedParents) :
    replaceMarked (includes s.prunedNodes) n f = pruneBelow level f := by
  induction f generalizing pos level n parent with
  | nil => rfl
  | unit c f ih | text s f ih => rw [replaceMarked, pruneBelow, ih hlaid hleaf hlevel hparent]
  | braces j f ihj ih =>
    have hrest := ih hlaid.2.2 (fun k hk => hleaf k (by
      exact mem_append_right _ hk)) hlevel hparent
    rw [replaceMarked, pruneBelow, hrest]
    by_cases hmin : MIN_PRUNE_LEVEL ≤ level
    · have hpopped : n ∈ popped := h.popped_of_level hcomplete hqueue hlaid hleaf hmin
        (Nat.le_refl n) (by rw [Forest.count]; omega)
      have hmarked : includes s.prunedNodes n = true := by
        refine includes_eq_true_iff.mpr ((h.pruned n).mpr ⟨hpopped, fun p hp heq => ?_⟩)
        rw [hlaid.1] at heq
        exact hparent p heq hp
      rw [if_pos hmin, if_pos hmarked]
    · have hmarked : includes s.prunedNodes n = false := by
        refine includes_eq_false_iff.mpr fun hmem => hmin ?_
        exact h.level_of_seen hleaves (mem_append_left _ ((h.pruned n).mp hmem).1) hlaid.1
      rw [if_neg hmin, hmarked, if_neg Bool.false_ne_true]
      rw [ihj hlaid.2.1 (fun k hk => hleaf k (by
        exact mem_append_left _ (mem_append_right _ hk))) (by omega) ?_]
      intro p hp hpromoted
      obtain rfl : n = p := some.inj hp
      obtain ⟨node, hnode, hlevel', -⟩ := h.promoted n hpromoted
      rw [hlaid.1] at hnode
      obtain rfl := some.inj hnode
      exact hmin hlevel'

/-! ## One pass -/

/-- What a pass makes of a text: objects that lie deep enough are replaced, the bytes counted are
the bytes removed, and these are enough unless everything that may be pruned has been. -/
structure Pass (f : Forest) (bytesToRemove : ℤ) (s : Selection) (g : Forest) : Prop where
  text : rebuildJson f.render s.nodes s.prunedNodes = g.render
  replaced : Forest.Replaced prunedMembers.forest MIN_PRUNE_LEVEL 0 f g
  bytes : s.bytesRemoved = (Unicode.byteLength f.render : ℤ) - Unicode.byteLength g.render
  enough : bytesToRemove ≤ s.bytesRemoved ∨ g = pruneAll f
  nothing : s.prunedNodes = [] → g = f

/-- The leaves that are collected from a root. -/
theorem collectPrunableLeaves_eq {nodes : List TreeNode}
    (hnodes : nodes.map TreeNode.unflagged = table) (hlaid : Laid table pos 0 root none (.braces inside .nil))
    (hlength : 1 + inside.count ≤ table.length) :
    collectPrunableLeaves nodes root = leafIds 0 root (.braces inside .nil) := by
  have htraverse := flatMap_traverse hnodes hlaid nodes.length (by
    rw [← length_map (f := TreeNode.unflagged), hnodes, Forest.count]
    exact hlength)
  simpa [collectPrunableLeaves, roots] using htraverse

/-- The marked nodes are the objects that are replaced. -/
theorem Invariant.perm_replaced (h : Invariant json table leaves popped s)
    (hsparse : Sparse (includes s.prunedNodes) 0 f) (hlength : table.length = f.count) :
    s.prunedNodes.Perm (replaced (includes s.prunedNodes) 0 f) := by
  refine (perm_ext_iff_of_nodup h.pruned_nodup (nodup_replaced 0 f)).mpr fun i => ?_
  constructor
  · intro hi
    have hvalid := h.valid i (mem_append_left _ ((h.pruned i).mp hi).1)
    exact mem_replaced hsparse (Nat.zero_le i) (by omega) (includes_eq_true_iff.mpr hi)
  · exact fun hi => includes_eq_true_iff.mp (lt_of_mem_replaced hi).2.2

/-- With the queue empty, everything is pruned in the last of the outermost objects, and nothing
elsewhere. -/
theorem Invariant.replaceMarked_eq_pruneAll {pre post : Forest}
    (h : Invariant json table (leafIds 0 root (.braces inside .nil)) popped s)
    (hleaves : AreLeaves table (leafIds 0 root (.braces inside .nil)))
    (hcomplete : Complete table popped s none) (hqueue : s.queue = [])
    (hpost : post.count = 0) (hroot : root = pre.count)
    (hpre : Laid table 0 0 0 none pre) (hlaid : Laid table pos 0 root none (.braces inside post)) :
    replaceMarked (includes s.prunedNodes) 0 (pre ++ .braces inside post) =
      pruneAll (pre ++ .braces inside post) := by
  have houtermost : ¬ MIN_PRUNE_LEVEL ≤ 0 := by decide
  have hunseen : ∀ i, 0 ≤ i → i < 0 + pre.count → includes s.prunedNodes i = false := by
    intro i hi hi'
    refine includes_eq_false_iff.mpr fun hmem => ?_
    refine h.unseen hpre (fun k hk => Or.inr ?_) hi hi' (mem_append_left _ ((h.pruned i).mp hmem).1)
    have hk' := lt_of_mem_leafIds hk
    omega
  have hnot : includes s.prunedNodes root = false := by
    refine includes_eq_false_iff.mpr fun hmem => houtermost ?_
    exact h.level_of_seen hleaves (mem_append_left _ ((h.pruned root).mp hmem).1) hlaid.1
  have hinside : replaceMarked (includes s.prunedNodes) (root + 1) inside =
      pruneBelow 1 inside := by
    refine h.replaceMarked_eq hleaves hcomplete hqueue hlaid.2.1 (fun i hi => ?_) (by decide)
      fun p hp hpromoted => ?_
    · exact mem_append_left _ (mem_append_right _ hi)
    · obtain rfl : root = p := some.inj hp
      obtain ⟨node, hnode, hmin, -⟩ := h.promoted root hpromoted
      rw [hlaid.1] at hnode
      obtain rfl := some.inj hnode
      exact houtermost hmin
  have hpost' : replaceMarked (includes s.prunedNodes) (root + 1 + inside.count) post = post :=
    replaceMarked_eq_self fun i hi hi' => absurd hi' (by omega)
  rw [pruneAll_append hpost, replaceMarked_append, replaceMarked_eq_self hunseen, Nat.zero_add,
    ← hroot, replaceMarked, hnot, if_neg Bool.false_ne_true, hinside, hpost']

/-- **One pass** does what a pass should. -/
theorem exists_pass {nodes : List TreeNode}
    (hnodes : nodes.map TreeNode.unflagged = nodeTable 0 0 0 none f) (hroot : lastRoot 0 f = some root) (bytesToRemove : ℤ) :
    ∃ s g, selectNodesToPrune f.render nodes root bytesToRemove = some s ∧
      Pass f bytesToRemove s g := by
  have hlaid := laid_nodeTable f
  have hlinked := wellLinked_nodeTable f
  have hlength : (nodeTable 0 0 0 none f).length = f.count := length_nodeTable 0 0 0 none f
  generalize nodeTable 0 0 0 none f = table at hnodes hlaid hlinked hlength
  obtain ⟨pre, inside, post, rfl, hpost, hpre⟩ := exists_lastRoot hroot
  rw [Nat.zero_add] at hpre
  have hsplit := hlaid
  rw [laid_append_iff, Nat.zero_add, Nat.zero_add, ← hpre] at hsplit
  obtain ⟨hlaidPre, hlaidRoot⟩ := hsplit
  have htree : Laid table pre.render.length 0 root none (.braces inside .nil) :=
    ⟨hlaidRoot.1, hlaidRoot.2.1, trivial⟩
  have hcollect := collectPrunableLeaves_eq hnodes htree (by
    rw [hlength, Forest.count_append, Forest.count]
    omega)
  have hleaves : AreLeaves table (leafIds 0 root (.braces inside .nil)) :=
    ⟨nodup_leafIds _ _ _, fun i hi => htree.leaf hi⟩
  obtain ⟨popped, s, hselect, h, hcomplete, hend⟩ := exists_selectNodesToPrune
    (pre ++ .braces inside post).render hnodes hlinked (hcollect ▸ hleaves) bytesToRemove
  rw [hcollect] at h
  have hperm := h.perm_replaced (h.sparse hleaves hlinked hlaid) hlength
  refine ⟨s, replaceMarked (includes s.prunedNodes) 0 (pre ++ .braces inside post), hselect,
    rebuildJson_eq hlaid h.nodes hperm, ?_, ?_, ?_, ?_⟩
  · refine replaced_replaceMarked hlaid fun i node hi hnode => ?_
    exact h.level_of_seen hleaves
      (mem_append_left _ ((h.pruned i).mp (includes_eq_true_iff.mp hi)).1) hnode
  · have htotal := total_gain (includes s.prunedNodes) hlaid [] [] rfl
    rw [List.nil_append, append_nil] at htotal
    rw [h.bytes, total_perm _ hperm, htotal]
  · rcases hend with hqueue | henough
    · exact Or.inr (h.replaceMarked_eq_pruneAll hleaves hcomplete hqueue hpost hpre hlaidPre
        hlaidRoot)
    · exact Or.inl henough
  · intro hnil
    rw [hnil]
    exact replaceMarked_eq_self fun _ _ _ => rfl

/-! ## All attempts -/

theorem attempt_of_le {maxSize size : ℤ} (h : size ≤ maxSize) (attempts : ℕ) (json : Str) :
    attempt maxSize attempts json size = some (json, size) := by
  cases attempts with
  | zero => rfl
  | succ attempts => rw [attempt, if_neg (not_lt.mpr h)]

/-- **The attempts** end with a text that is short enough, or with everything pruned that may
be. -/
theorem exists_attempt (maxSize : ℤ) (attempts : ℕ) (v : Document)
    (hspent : attempts = 0 → pruneAll v.forest = v.forest) :
    ∃ w : Document, attempt maxSize attempts v.text (Unicode.byteLength v.text) =
        some (w.text, (Unicode.byteLength w.text : ℤ)) ∧
      Forest.Replaced prunedMembers.forest MIN_PRUNE_LEVEL 0 v.forest w.forest ∧
      ((Unicode.byteLength w.text : ℤ) ≤ maxSize ∨ w.forest = pruneAll v.forest) := by
  induction attempts generalizing v with
  | zero => exact ⟨v, rfl, .refl _ _ _ _, Or.inr (hspent rfl).symm⟩
  | succ attempts ih =>
    by_cases hsize : (Unicode.byteLength v.text : ℤ) ≤ maxSize
    · exact ⟨v, attempt_of_le hsize _ _, .refl _ _ _ _, Or.inl hsize⟩
    · obtain ⟨tree, hparse, hroot, hnodes⟩ := exists_parseJsonToTree_document v
      rw [attempt, if_pos (not_le.mp hsize), hparse, bind_some]
      rcases hlast : lastRoot 0 v.forest with _ | root
      · refine ⟨v, by rw [hroot, hlast]; rfl, .refl _ _ _ _, Or.inr ?_⟩
        exact (pruneAll_of_count (roots_eq_nil_iff.mp (getLast?_eq_none_iff.mp hlast))).symm
      · obtain ⟨s, g, hselect, hpass⟩ := exists_pass hnodes hlast
          ((Unicode.byteLength v.text : ℤ) - maxSize)
        obtain ⟨w, -, rfl⟩ := v.exists_replaced hpass.replaced
        have hbytes : s.bytesRemoved = (Unicode.byteLength v.text : ℤ) -
          Unicode.byteLength w.text := hpass.bytes
        have hselect' : selectNodesToPrune v.text tree.nodes root
          ((Unicode.byteLength v.text : ℤ) - maxSize) = some s := hselect
        have htext : rebuildJson v.text s.nodes s.prunedNodes = w.text := hpass.text
        rw [hroot, hlast, elim_some, hselect', bind_some, htext]
        by_cases hnil : s.prunedNodes.isEmpty = true
        · have hsame := hpass.nothing (List.isEmpty_iff.mp hnil)
          have htext' : w.text = v.text := congrArg Forest.render hsame
          rw [if_pos hnil]
          refine ⟨v, rfl, .refl _ _ _ _, ?_⟩
          rcases hpass.enough with henough | hall
          · rw [hbytes, htext'] at henough
            exact Or.inl (by omega)
          · exact Or.inr (hsame.symm.trans hall)
        · rw [if_neg hnil]
          rcases hpass.enough with henough | hall
          · have hfits : (Unicode.byteLength w.text : ℤ) ≤ maxSize := by omega
            exact ⟨w, attempt_of_le hfits _ _, hpass.replaced, Or.inl hfits⟩
          · have hidem : pruneAll w.forest = w.forest := by rw [hall, pruneAll_pruneAll]
            obtain ⟨u, hu, hreplaced, hend⟩ := ih w fun _ => hidem
            refine ⟨u, hu, hpass.replaced.trans rfl hreplaced, hend.imp_right fun h => ?_⟩
            rw [h, hidem, hall]

/-- What is returned of a text that is not within the limit. -/
theorem pruneSnapshot_of_lt {v : Document} {maxSize : ℤ} (h : maxSize < Unicode.byteLength v.text) :
    ∃ w : Document, pruneSnapshot v.text (Unicode.byteLength v.text) maxSize =
        some (if (Unicode.byteLength v.text : ℤ) ≤ Unicode.byteLength w.text then none
          else some w.text) ∧
      Forest.Replaced prunedMembers.forest MIN_PRUNE_LEVEL 0 v.forest w.forest ∧
      ((Unicode.byteLength w.text : ℤ) ≤ maxSize ∨ w.forest = pruneAll v.forest) := by
  obtain ⟨w, hw, hreplaced, hend⟩ := exists_attempt maxSize 6 v fun h => absurd h (by decide)
  refine ⟨w, ?_, hreplaced, hend⟩
  rw [pruneSnapshot, if_neg (by omega), hw, map_some]

/-! ## The results -/

/-- The outcome is a JSON text, the input with objects of the lowest levels replaced, and it has
fewer bytes. -/
def Shortens (v : Document) (maxSize : ℤ) : Prop :=
  ∃ w : Document, pruneSnapshot v.text (Unicode.byteLength v.text) maxSize = some (some w.text) ∧
    v.Replaced prunedMembers MIN_PRUNE_LEVEL w ∧
    Unicode.byteLength w.text < Unicode.byteLength v.text

/-- **What the pruner does to a text.**  A text within the limit is returned as it is.  Of any
other the outcome is `undefined`, or it is the text with disjoint objects of the lowest levels
replaced, and it has fewer bytes. -/
theorem pruneSnapshot_cases (v : Document) (maxSize : ℤ) :
    (Unicode.byteLength v.text : ℤ) ≤ maxSize ∧
        pruneSnapshot v.text (Unicode.byteLength v.text) maxSize = some (some v.text) ∨
      maxSize < Unicode.byteLength v.text ∧
        (pruneSnapshot v.text (Unicode.byteLength v.text) maxSize = some none ∨
          Shortens v maxSize) := by
  by_cases hsize : (Unicode.byteLength v.text : ℤ) ≤ maxSize
  · exact Or.inl ⟨hsize, if_pos (Int.sub_nonpos_of_le hsize)⟩
  · obtain ⟨w, hgo, hreplaced, -⟩ := pruneSnapshot_of_lt (not_le.mp hsize)
    refine Or.inr ⟨not_le.mp hsize, ?_⟩
    by_cases hlong : (Unicode.byteLength v.text : ℤ) ≤ Unicode.byteLength w.text
    · rw [if_pos hlong] at hgo
      exact Or.inl hgo
    · rw [if_neg hlong] at hgo
      obtain ⟨u, hu, huw⟩ := v.exists_replaced hreplaced
      have htext : u.text = w.text := congrArg Forest.render huw
      exact Or.inr ⟨u, by rw [htext]; exact hgo, hu, by rw [htext]; omega⟩

/-- A text `{}`. -/
def emptyDocument : Document := ⟨[], .emptyObject [], []⟩

/-- Two bytes are within a limit of two, and stay; with a limit of one there is nothing to prune. -/
theorem not_shortens_emptyDocument : ¬ Shortens emptyDocument 2 ∧ ¬ Shortens emptyDocument 1 := by
  constructor
  · rintro ⟨w, hw, -, hlt⟩
    have htext : emptyDocument.text = w.text := some.inj (some.inj hw)
    rw [htext] at hlt
    exact Nat.lt_irrefl _ hlt
  · rintro ⟨w, hw, -, -⟩
    exact absurd (some.inj hw).symm (some_ne_none _)

/-- The outcome is `undefined`, or a text within the limit. -/
def Fits (v : Document) (maxSize : ℤ) : Prop :=
  pruneSnapshot v.text (Unicode.byteLength v.text) maxSize = some none ∨
    ∃ r, pruneSnapshot v.text (Unicode.byteLength v.text) maxSize = some (some r) ∧
      (Unicode.byteLength r : ℤ) ≤ maxSize

/-- The bytes that a pass over the text counts as removed are the bytes that it removes. -/
def Accounted (v : Document) : Prop :=
  ∃ tree, parseJsonToTree v.text = some tree ∧ ∀ root, tree.root = some root →
    ∀ bytesToRemove, ∃ s, selectNodesToPrune v.text tree.nodes root bytesToRemove = some s ∧
      s.bytesRemoved = (Unicode.byteLength v.text : ℤ) -
        Unicode.byteLength (rebuildJson v.text s.nodes s.prunedNodes)

/-- The text with everything pruned that may be. -/
def spent (v : Document) : Str := (pruneAll v.forest).render

theorem accounted (v : Document) : Accounted v := by
  obtain ⟨tree, hparse, hroot, hnodes⟩ := exists_parseJsonToTree_document v
  refine ⟨tree, hparse, fun root hlast bytesToRemove => ?_⟩
  rw [hroot] at hlast
  obtain ⟨s, g, hselect, hpass⟩ := exists_pass hnodes hlast bytesToRemove
  refine ⟨s, hselect, ?_⟩
  have htext : rebuildJson v.text s.nodes s.prunedNodes = g.render := hpass.text
  rw [htext]
  exact hpass.bytes

/-- **How short the outcome is.**  It is within the limit, unless the text is not even with
everything pruned that may be.  Then it is that text when it has fewer bytes than the input, and
`undefined` when not.  In each pass the bytes counted as removed are those removed. -/
theorem fits_or_spent (v : Document) (maxSize : ℤ) : Accounted v ∧
      ((∃ r, pruneSnapshot v.text (Unicode.byteLength v.text) maxSize = some (some r) ∧
          (Unicode.byteLength r : ℤ) ≤ maxSize) ∨
        maxSize < Unicode.byteLength (spent v) ∧
          pruneSnapshot v.text (Unicode.byteLength v.text) maxSize =
            some (if Unicode.byteLength (spent v) < Unicode.byteLength v.text then some (spent v)
              else none)) := by
  refine ⟨accounted v, ?_⟩
  by_cases hsize : (Unicode.byteLength v.text : ℤ) ≤ maxSize
  · exact Or.inl ⟨v.text, if_pos (Int.sub_nonpos_of_le hsize), hsize⟩
  · obtain ⟨w, hgo, -, hend⟩ := pruneSnapshot_of_lt (not_le.mp hsize)
    by_cases hfits : (Unicode.byteLength w.text : ℤ) ≤ maxSize
    · rw [if_neg (by omega)] at hgo
      exact Or.inl ⟨w.text, hgo, hfits⟩
    · have hspent : w.text = spent v := congrArg Forest.render (hend.resolve_left hfits)
      rw [hspent] at hgo hfits
      refine Or.inr ⟨not_le.mp hfits, ?_⟩
      rw [hgo]
      by_cases hshort : Unicode.byteLength (spent v) < Unicode.byteLength v.text
      · rw [if_pos hshort, if_neg (by omega)]
      · rw [if_neg hshort, if_pos (by omega)]

/-- An object that holds one value, under the name `a`. -/
def holding (v : Phrase .value) : Phrase .value :=
  .object (.member [] [.plain (unit 'a') (by decide)] [] [] v [])

/-- A string of sixteen letters in seven objects, one in the other. -/
def deepDocument : Document :=
  ⟨[], holding (holding (holding (holding (holding (holding (holding
    (.string (List.replicate 16 (.plain (unit 'x') (by decide)))))))))), []⟩

/-- Pruning the innermost object makes this text shorter, but not as short as asked for. -/
theorem not_fits_deepDocument : ¬ Fits deepDocument 50 := by
  have hresult : pruneSnapshot deepDocument.text (Unicode.byteLength deepDocument.text) 50 =
      some (some (spent deepDocument)) := by decide +kernel
  rintro (hnone | ⟨r, hr, hle⟩)
  · exact absurd (some.inj hnone) (some_ne_none _)
  · rw [hresult] at hr
    have hlong : ¬ (Unicode.byteLength (spent deepDocument) : ℤ) ≤ 50 := by decide +kernel
    exact hlong (some.inj (some.inj hr) ▸ hle)

end DdTrace.Debugger.SnapshotPruner
