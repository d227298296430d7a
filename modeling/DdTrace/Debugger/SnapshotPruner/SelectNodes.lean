import DdTrace.Debugger.SnapshotPruner.ParseJson
import DdTrace.Debugger.SnapshotPruner.PriorityQueue

/-!
# Which objects of a snapshot are pruned

The objects that are pruned are leaves at first: objects of a low level that hold no others.  They
come out of a queue one by one, until enough bytes are gained.  When all children of an object have
come out, the object comes into the queue in their place, and the bytes that they gained are no
longer counted, as the object will gain them.

What makes this right is an invariant (`Invariant`).  A node comes into the queue once: as a leaf,
or when its last child has come out, which it does once itself.  The marked nodes are those that
have come out and whose parents have not been promoted, and the bytes counted are what these gain.

* `Invariant.exists_step`: one round keeps the invariant, and does not fail.
* `Invariant.exists_loop`: the loop ends, with the queue empty or with enough bytes gained.
* `exists_selectNodesToPrune`: so does the selection from the leaves of a root.
-/

namespace DdTrace.Debugger.SnapshotPruner

open Library List Option
open Library.JsonSyntax

def MIN_PRUNE_LEVEL : ℕ := 6

def PRUNED_JSON : Str := lit "\x7b\"pruned\":true\x7d"

def PRUNED_JSON_BYTES : ℕ := Unicode.byteLength PRUNED_JSON

/-- The size of the node's object in bytes; an object that is open has none. -/
def TreeNode.size (json : Str) (node : TreeNode) : Option ℕ :=
  node.close.map fun close => Unicode.byteLength (slice json node.start (close + 1))

def TreeNode.isLeaf (node : TreeNode) : Bool := node.children.isEmpty

def TreeNode.priorityKey (json : Str) (node : TreeNode) : Option (List ℤ) :=
  (node.size json).map fun size =>
    [if node.notCapturedDepth then 1 else 0, node.level, if node.notCaptured then 1 else 0, size]

/-- The first difference of two keys. -/
def difference : List ℤ → List ℤ → ℤ
  | a :: keyA, b :: keyB => if a ≠ b then a - b else difference keyA keyB
  | _, _ => 0

/-- `#compare` -/
def compare (json : Str) (nodes : List TreeNode) (a b : ℕ) : Option ℤ :=
  match nodes[a]?, nodes[b]? with
  | some nodeA, some nodeB =>
    match nodeA.priorityKey json, nodeB.priorityKey json with
    | some keyA, some keyB => some (difference keyA keyB)
    | _, _ => none
  | _, _ => none

/-- `traverse`, for so many generations. -/
def traverse (nodes : List TreeNode) : ℕ → ℕ → List ℕ
  | 0, _ => []
  | generations + 1, id =>
    match nodes[id]? with
    | none => []
    | some node =>
      (if node.isLeaf = true ∧ MIN_PRUNE_LEVEL ≤ node.level then [id] else []) ++
        node.children.flatMap (traverse nodes generations)

def collectPrunableLeaves (nodes : List TreeNode) (root : ℕ) : List ℕ :=
  traverse nodes nodes.length root

/-- The state of the selection. -/
structure Selection where
  nodes : List TreeNode
  queue : List ℕ
  prunedNodes : List ℕ := []
  promotedParents : List ℕ := []
  bytesRemoved : ℤ := 0

/-- What is gained when a node is pruned. -/
def saving (json : Str) (nodes : List TreeNode) (id : ℕ) : Option ℤ :=
  nodes[id]?.bind fun node => (node.size json).map fun size => (size : ℤ) - PRUNED_JSON_BYTES

/-- The flags of a parent that is pruned as if it were a leaf. -/
def TreeNode.promote (node : TreeNode) : TreeNode :=
  { node with notCaptured := true, notCapturedDepth := true }

theorem TreeNode.unflagged_promote (node : TreeNode) :
    node.promote.unflagged = id node.unflagged := rfl

namespace Selection

def push (json : Str) (s : Selection) (id : ℕ) : Option Selection :=
  (PriorityQueue.push (compare json s.nodes) s.queue id).map fun queue => { s with queue := queue }

/-- A child is represented by its parent from now on. -/
def unmark (json : Str) (s : Selection) (child : ℕ) : Option Selection :=
  (saving json s.nodes child).map fun gain =>
    { s with
      prunedNodes := s.prunedNodes.erase child
      bytesRemoved := s.bytesRemoved - gain }

def markPromoted (s : Selection) (parent : ℕ) : Selection :=
  { s with
    nodes := s.nodes.modify parent TreeNode.promote
    promotedParents := s.promotedParents ++ [parent] }

/-- The parent of a node that was pruned becomes a leaf when it has no other children. -/
def promote (json : Str) (s : Selection) (parent : ℕ) : Option Selection :=
  match s.nodes[parent]? with
  | none => some s
  | some node =>
    if MIN_PRUNE_LEVEL ≤ node.level ∧ includes s.promotedParents parent = false then
      if node.children.all (includes s.prunedNodes) then
        (node.children.foldlM (unmark json) s).bind fun s =>
          (s.markPromoted parent).push json parent
      else some s
    else some s

/-- `prunedNodes.add(node)`, and what is done about it. -/
def prune (json : Str) (s : Selection) (id : ℕ) : Option Selection :=
  match s.nodes[id]?, saving json s.nodes id with
  | some node, some gain =>
    let s := { s with
      prunedNodes := s.prunedNodes ++ [id]
      bytesRemoved := s.bytesRemoved + gain }
    node.parent.elim (some s) (s.promote json)
  | _, _ => none

/-- One round of the loop, with a queue that is not empty. -/
def step (json : Str) (s : Selection) : Option Selection :=
  match PriorityQueue.pop (compare json s.nodes) s.queue with
  | some (some id, queue) =>
    let s := { s with queue := queue }
    if includes s.prunedNodes id then some s else s.prune json id
  | _ => none

/-- The loop, for so many rounds. -/
def loop (json : Str) (bytesToRemove : ℤ) : ℕ → Selection → Option Selection
  | 0, s => some s
  | rounds + 1, s =>
    if 0 < s.queue.length ∧ s.bytesRemoved < bytesToRemove then
      (s.step json).bind (loop json bytesToRemove rounds)
    else some s

end Selection

/-- The state of the selection at its end. -/
def selectNodesToPrune (json : Str) (nodes : List TreeNode) (root : ℕ) (bytesToRemove : ℤ) :
    Option Selection :=
  ((collectPrunableLeaves nodes root).foldlM (Selection.push json)
      { nodes := nodes, queue := [] }).bind
    (Selection.loop json bytesToRemove nodes.length)

/-! ## Sizes, gains and comparisons -/

variable {nodes : List TreeNode} {i p : ℕ} {above : TreeNode} {queue : List ℕ} {node : TreeNode}
  {level : ℕ}

/-- A node of the table, with its flags. -/
theorem exists_node {table : List TreeNode} (h : nodes.map TreeNode.unflagged = table)
    (hi : table[i]? = some node) :
    ∃ node', nodes[i]? = some node' ∧ node'.unflagged = node := by
  rw [← h, List.getElem?_map] at hi
  exact map_eq_some_iff.mp hi

theorem getElem?_unflagged {table : List TreeNode}
    (h : nodes.map TreeNode.unflagged = table) (hi : nodes[i]? = some node) : table[i]? = some node.unflagged := by
  rw [← h, List.getElem?_map, hi, map_some]

theorem saving_unflagged {table : List TreeNode}
    (h : nodes.map TreeNode.unflagged = table) (json : Str) (i : ℕ) :
    saving json nodes i = saving json table i := by
  rw [saving, saving, ← h, List.getElem?_map]
  rcases nodes[i]? with _ | node <;> rfl

/-- The gain of a node that is closed. -/
def gain (json : Str) (table : List TreeNode) (i : ℕ) : ℤ := (saving json table i).getD 0

theorem saving_eq {json : Str} {table : List TreeNode} (hlinked : WellLinked table)
    (hi : table[i]? = some node) :
    saving json table i = some (gain json table i) := by
  obtain ⟨close, hclose⟩ := (hlinked.linked hi).closed
  rw [gain, saving, hi, bind_some, TreeNode.size, hclose]
  rfl

/-- The sum over a list. -/
def total (f : ℕ → ℤ) : List ℕ → ℤ
  | [] => 0
  | i :: l => f i + total f l

theorem total_append (f : ℕ → ℤ) (l m : List ℕ) : total f (l ++ m) = total f l + total f m := by
  induction l with
  | nil => exact (Int.zero_add _).symm
  | cons i l ih => rw [cons_append, total, total, ih, Int.add_assoc]

theorem total_perm (f : ℕ → ℤ) {l m : List ℕ} (h : l.Perm m) : total f l = total f m := by
  induction h with
  | nil => rfl
  | cons i _ ih => rw [total, total, ih]
  | swap i j l =>
    rw [total, total, total, total]
    omega
  | trans _ _ ih ih' => rw [ih, ih']

theorem total_erase (f : ℕ → ℤ) {l : List ℕ} (hi : i ∈ l) :
    total f (l.erase i) = total f l - f i := by
  rw [total_perm f (perm_cons_erase hi), total]
  omega

/-- No comparison fails when all nodes are closed. -/
theorem comparable_of_valid (json : Str) {table : List TreeNode}
    (h : nodes.map TreeNode.unflagged = table) (hlinked : WellLinked table) (queue : List ℕ)
    (hqueue : ∀ i ∈ queue, i < table.length) :
    PriorityQueue.Comparable (compare json nodes) queue := by
  have hkey : ∀ i ∈ queue, ∃ node key, nodes[i]? = some node ∧
      node.priorityKey json = some key := by
    intro i hi
    obtain ⟨node, hnode, hflags⟩ := exists_node h (List.getElem?_eq_getElem (hqueue i hi))
    obtain ⟨close, hclose⟩ := (hlinked.linked (getElem?_unflagged h hnode)).closed
    have hclose' : node.close = some close := hclose
    have hsome : (node.priorityKey json).isSome = true := by
      rw [TreeNode.priorityKey, TreeNode.size, hclose']
      rfl
    obtain ⟨key, hkey⟩ := isSome_iff_exists.mp hsome
    exact ⟨node, key, hnode, hkey⟩
  intro a ha b hb
  obtain ⟨nodeA, keyA, hnodeA, hkeyA⟩ := hkey a ha
  obtain ⟨nodeB, keyB, hnodeB, hkeyB⟩ := hkey b hb
  simp [compare, hnodeA, hnodeB, hkeyA, hkeyB]

/-! ## The invariant -/

/-- What is kept through the selection.  `popped` are the nodes that have come out of the queue.
A node is in the queue once, as a leaf or when its last child has come out, and what is marked
are the nodes that have come out while their parents have not been promoted. -/
structure Invariant (json : Str) (table : List TreeNode) (leaves popped : List ℕ)
    (s : Selection) : Prop where
  nodes : s.nodes.map TreeNode.unflagged = table
  nodup : (popped ++ s.queue).Nodup
  valid : ∀ i ∈ popped ++ s.queue, i < table.length
  seen : ∀ i ∈ popped ++ s.queue, i ∈ leaves ∨ i ∈ s.promotedParents
  leaves_seen : ∀ i ∈ leaves, i ∈ popped ++ s.queue
  promoted_seen : ∀ i ∈ s.promotedParents, i ∈ popped ++ s.queue
  promoted : ∀ i ∈ s.promotedParents, ∃ node, table[i]? = some node ∧
    MIN_PRUNE_LEVEL ≤ node.level ∧ node.children ≠ [] ∧ ∀ c ∈ node.children, c ∈ popped
  pruned : ∀ i, i ∈ s.prunedNodes ↔
    i ∈ popped ∧ ∀ p ∈ s.promotedParents, (table[i]?.bind TreeNode.parent) ≠ some p
  pruned_nodup : s.prunedNodes.Nodup
  bytes : s.bytesRemoved = total (gain json table) s.prunedNodes

/-- No parent is still to be promoted, but perhaps the one named. -/
def Complete (table : List TreeNode) (popped : List ℕ) (s : Selection) (but : Option ℕ) : Prop :=
  ∀ p node, table[p]? = some node → MIN_PRUNE_LEVEL ≤ node.level → node.children ≠ [] →
    (∀ c ∈ node.children, c ∈ popped) → p ∈ s.promotedParents ∨ some p = but

/-- What the leaves of a table are. -/
structure AreLeaves (table : List TreeNode) (leaves : List ℕ) : Prop where
  nodup : leaves.Nodup
  leaf : ∀ i ∈ leaves, ∃ node, table[i]? = some node ∧ node.children = [] ∧
    MIN_PRUNE_LEVEL ≤ node.level

variable {json : Str} {table : List TreeNode} {leaves popped : List ℕ} {s : Selection}

/-- The children of a node are the nodes that know it as their parent. -/
theorem WellLinked.mem_children (hlinked : WellLinked table) (habove : table[p]? = some above)
    (c : ℕ) :
    c ∈ above.children ↔ table[c]?.bind TreeNode.parent = some p := by
  constructor
  · intro hc
    obtain ⟨child, hchild, hparent, -⟩ := (hlinked.linked habove).child c hc
    rw [hchild, bind_some, hparent]
  · intro hc
    obtain ⟨child, hchild, hparent⟩ := bind_eq_some_iff.mp hc
    obtain ⟨above', habove', hmem⟩ := hlinked.parent hchild hparent
    rw [habove] at habove'
    exact some.inj habove' ▸ hmem

/-- A node that has come out of the queue counts at once. -/
theorem Invariant.add (h : Invariant json table leaves popped s) (hlinked : WellLinked table)
    {id : ℕ} (hqueue : (id :: queue).Perm s.queue) :
    Invariant json table leaves (popped ++ [id])
      { s with
        queue := queue
        prunedNodes := s.prunedNodes ++ [id]
        bytesRemoved := s.bytesRemoved + gain json table id } := by
  have hperm : ((popped ++ [id]) ++ queue).Perm (popped ++ s.queue) := by
    rw [append_assoc]
    exact hqueue.append_left popped
  have hid : id ∉ popped := by
    intro hmem
    exact (nodup_append.mp h.nodup).2.2 id hmem id (hqueue.subset mem_cons_self) rfl
  have hparent : ∀ p ∈ s.promotedParents, table[id]?.bind TreeNode.parent ≠ some p := by
    intro p hp heq
    obtain ⟨above, habove, -, -, hpopped⟩ := h.promoted p hp
    exact hid (hpopped id ((hlinked.mem_children habove id).mpr heq))
  constructor
  · exact h.nodes
  · exact hperm.nodup_iff.mpr h.nodup
  · exact fun i hi => h.valid i (hperm.subset hi)
  · exact fun i hi => h.seen i (hperm.subset hi)
  · exact fun i hi => hperm.symm.subset (h.leaves_seen i hi)
  · exact fun i hi => hperm.symm.subset (h.promoted_seen i hi)
  · intro i hi
    obtain ⟨node, hnode, hlevel, hne, hpopped⟩ := h.promoted i hi
    exact ⟨node, hnode, hlevel, hne, fun c hc => mem_append_left _ (hpopped c hc)⟩
  · intro i
    rw [mem_append, mem_append, mem_singleton, h.pruned]
    constructor
    · rintro (⟨hi, hp⟩ | rfl)
      · exact ⟨Or.inl hi, hp⟩
      · exact ⟨Or.inr rfl, hparent⟩
    · rintro ⟨hi | rfl, hp⟩
      · exact Or.inl ⟨hi, hp⟩
      · exact Or.inr rfl
  · refine nodup_append.mpr ⟨h.pruned_nodup, nodup_singleton id, ?_⟩
    rintro a ha b hb rfl
    rw [mem_singleton] at hb
    exact hid (hb ▸ ((h.pruned a).mp ha).1)
  · rw [total_append, h.bytes, total, total, Int.add_zero]

/-- The children of a promoted parent are no longer marked, and no longer counted. -/
theorem exists_unmark (hnodes : nodes.map TreeNode.unflagged = table)
    (hlinked : WellLinked table) {children : List ℕ} (hs : s.nodes = nodes)
    (hnodup : children.Nodup) (hpruned : s.prunedNodes.Nodup)
    (hmem : ∀ c ∈ children, c ∈ s.prunedNodes) (hvalid : ∀ c ∈ children, c < table.length)
    (hbytes : s.bytesRemoved = total (gain json table) s.prunedNodes) :
    ∃ pruned bytes, children.foldlM (Selection.unmark json) s =
        some { s with prunedNodes := pruned, bytesRemoved := bytes } ∧
      pruned.Nodup ∧ (∀ i, i ∈ pruned ↔ i ∈ s.prunedNodes ∧ i ∉ children) ∧
      bytes = total (gain json table) pruned := by
  induction children generalizing s with
  | nil =>
    exact ⟨s.prunedNodes, s.bytesRemoved, rfl, hpruned, fun i => by simp, hbytes⟩
  | cons c children ih =>
    obtain ⟨hc, hrest⟩ := nodup_cons.mp hnodup
    have hsaving : saving json s.nodes c = some (gain json table c) := by
      rw [hs, saving_unflagged hnodes,
        saving_eq hlinked (List.getElem?_eq_getElem (hvalid c mem_cons_self))]
    obtain ⟨pruned, bytes, heq, hnodup', hiff, hbytes'⟩ := ih (s := { s with
        prunedNodes := s.prunedNodes.erase c
        bytesRemoved := s.bytesRemoved - gain json table c }) hs hrest (hpruned.erase c)
      (fun d hd => (hpruned.mem_erase_iff).mpr
        ⟨fun h => hc (h ▸ hd), hmem d (mem_cons_of_mem c hd)⟩)
      (fun d hd => hvalid d (mem_cons_of_mem c hd))
      (by
        rw [total_erase _ (hmem c mem_cons_self), hbytes])
    refine ⟨pruned, bytes, ?_, hnodup', fun i => ?_, hbytes'⟩
    · rw [foldlM_cons, Selection.unmark, hsaving]
      exact heq
    · rw [hiff, hpruned.mem_erase_iff, mem_cons]
      tauto

/-- The invariant for a parent that comes into the queue in the place of its children. -/
theorem Invariant.promotion (h : Invariant json table leaves popped s)
    (hlinked : WellLinked table) (habove : table[p]? = some above)
    (hlevel : MIN_PRUNE_LEVEL ≤ above.level) (hne : above.children ≠ [])
    (hpopped : ∀ c ∈ above.children, c ∈ popped) (hnew : p ∉ popped ++ s.queue)
    (hnodes : nodes.map TreeNode.unflagged = table) (hqueue : queue.Perm (p :: s.queue)) {pruned : List ℕ} (hnodup : pruned.Nodup)
    (hiff : ∀ i, i ∈ pruned ↔ i ∈ s.prunedNodes ∧ i ∉ above.children) :
    Invariant json table leaves popped
      { nodes := nodes
        queue := queue
        prunedNodes := pruned
        promotedParents := s.promotedParents ++ [p]
        bytesRemoved := total (gain json table) pruned } := by
  have hperm : (popped ++ queue).Perm (p :: (popped ++ s.queue)) :=
    (hqueue.append_left popped).trans perm_middle
  constructor
  · exact hnodes
  · exact hperm.nodup_iff.mpr (nodup_cons.mpr ⟨hnew, h.nodup⟩)
  · intro i hi
    rcases mem_cons.mp (hperm.subset hi) with rfl | hi
    · exact (List.getElem?_eq_some_iff.mp habove).1
    · exact h.valid i hi
  · intro i hi
    rcases mem_cons.mp (hperm.subset hi) with rfl | hi
    · exact Or.inr (mem_append_right _ (mem_singleton_self i))
    · exact (h.seen i hi).imp_right (mem_append_left _)
  · exact fun i hi => hperm.symm.subset (mem_cons_of_mem p (h.leaves_seen i hi))
  · intro i hi
    rcases mem_append.mp hi with hi | hi
    · exact hperm.symm.subset (mem_cons_of_mem p (h.promoted_seen i hi))
    · exact hperm.symm.subset (mem_cons.mpr (Or.inl (mem_singleton.mp hi)))
  · intro i hi
    rcases mem_append.mp hi with hi | hi
    · exact h.promoted i hi
    · obtain rfl := mem_singleton.mp hi
      exact ⟨above, habove, hlevel, hne, hpopped⟩
  · intro i
    rw [hiff, h.pruned, hlinked.mem_children habove]
    constructor
    · rintro ⟨⟨hi, hold⟩, hi'⟩
      refine ⟨hi, fun q hq heq => ?_⟩
      rcases mem_append.mp hq with hq | hq
      · exact hold q hq heq
      · exact hi' (mem_singleton.mp hq ▸ heq)
    · rintro ⟨hi, hq⟩
      refine ⟨⟨hi, (forall_mem_append.mp hq).1⟩, ?_⟩
      exact hq p (mem_append_right _ (mem_singleton_self p))
  · exact hnodup
  · rfl

/-- A parent that has not been promoted is not in the queue, and never was. -/
theorem Invariant.new_of_children (h : Invariant json table leaves popped s)
    (hleaves : AreLeaves table leaves) (habove : table[p]? = some above) (hne : above.children ≠ [])
    (hnot : p ∉ s.promotedParents) : p ∉ popped ++ s.queue := by
  intro hmem
  rcases h.seen p hmem with hleaf | hpromoted
  · obtain ⟨leaf, hleaf', hnil, -⟩ := hleaves.leaf p hleaf
    rw [habove] at hleaf'
    exact hne (some.inj hleaf' ▸ hnil)
  · exact hnot hpromoted

/-- **A promotion.**  When all children of a parent are marked, the parent comes into the queue
in their place; else nothing happens. -/
theorem Invariant.exists_promote (h : Invariant json table leaves popped s)
    (hleaves : AreLeaves table leaves) (hlinked : WellLinked table) (habove : table[p]? = some above) (hne : above.children ≠ [])
    (hcomplete : Complete table popped s (some p)) :
    ∃ s', s.promote json p = some s' ∧ Invariant json table leaves popped s' ∧
      Complete table popped s' none := by
  obtain ⟨node, hnode, hflags⟩ := exists_node h.nodes habove
  have hlevel : node.level = above.level := by rw [← hflags]; rfl
  have hchildren : node.children = above.children := by rw [← hflags]; rfl
  unfold Selection.promote
  simp only [hnode, hlevel, hchildren]
  by_cases hcond : MIN_PRUNE_LEVEL ≤ above.level ∧ includes s.promotedParents p = false
  · have hnot : p ∉ s.promotedParents := includes_eq_false_iff.mp hcond.2
    rw [if_pos hcond]
    by_cases hall : above.children.all (includes s.prunedNodes) = true
    · have hmarked : ∀ c ∈ above.children, c ∈ s.prunedNodes := fun c hc =>
        includes_eq_true_iff.mp (List.all_eq_true.mp hall c hc)
      have hpopped : ∀ c ∈ above.children, c ∈ popped := fun c hc =>
        ((h.pruned c).mp (hmarked c hc)).1
      have hvalid : ∀ c ∈ above.children, c < table.length := fun c hc =>
        h.valid c (mem_append_left _ (hpopped c hc))
      obtain ⟨pruned, bytes, heq, hnodup, hiff, rfl⟩ := exists_unmark h.nodes hlinked
        (s := s) rfl (hlinked.linked habove).nodup h.pruned_nodup hmarked hvalid h.bytes
      have hunflagged : (s.nodes.modify p TreeNode.promote).map TreeNode.unflagged = table := by
        rw [map_modify TreeNode.unflagged_promote, modify_id, h.nodes]
      obtain ⟨queue, hpush, hperm⟩ := PriorityQueue.exists_push
        (comparable_of_valid json hunflagged hlinked (p :: s.queue) (by
          intro i hi
          rcases mem_cons.mp hi with rfl | hi
          · exact (List.getElem?_eq_some_iff.mp habove).1
          · exact h.valid i (mem_append_right _ hi)))
      rw [if_pos hall, heq, bind_some, Selection.push]
      refine ⟨_, by rw [Selection.markPromoted, hpush, map_some],
        h.promotion hlinked habove hcond.1 hne hpopped
          (h.new_of_children hleaves habove hne hnot) hunflagged hperm hnodup hiff, ?_⟩
      intro q other hq hlevel' hne' hpopped'
      rcases hcomplete q other hq hlevel' hne' hpopped' with hpromoted | heq'
      · exact Or.inl (mem_append_left _ hpromoted)
      · refine Or.inl (mem_append_right _ (mem_singleton.mpr ?_))
        exact some.inj heq'
    · rw [if_neg hall]
      refine ⟨s, rfl, h, fun q other hq hlevel' hne' hpopped' => ?_⟩
      rcases hcomplete q other hq hlevel' hne' hpopped' with hpromoted | heq
      · exact Or.inl hpromoted
      · -- All children have come out, and none of them lies in a promoted parent.
        obtain rfl := some.inj heq
        rw [habove] at hq
        obtain rfl := some.inj hq
        refine absurd (List.all_eq_true.mpr fun c hc => ?_) hall
        refine includes_eq_true_iff.mpr ((h.pruned c).mpr ⟨hpopped' c hc, fun r hr heq' => ?_⟩)
        rw [(hlinked.mem_children habove c).mp hc] at heq'
        exact hnot (some.inj heq' ▸ hr)
  · rw [if_neg hcond]
    refine ⟨s, rfl, h, fun q other hq hlevel' hne' hpopped' => ?_⟩
    rcases hcomplete q other hq hlevel' hne' hpopped' with hpromoted | heq
    · exact Or.inl hpromoted
    · obtain rfl := some.inj heq
      rw [habove] at hq
      obtain rfl := some.inj hq
      refine Or.inl (by_contra fun hnot => hcond ⟨hlevel', includes_eq_false_iff.mpr hnot⟩)

/-- A node that comes out of the queue can complete the children of its parent only. -/
theorem Complete.add (h : Complete table popped s none) (hlinked : WellLinked table) (id : ℕ)
    (s' : Selection) (hs : s'.promotedParents = s.promotedParents) :
    Complete table (popped ++ [id]) s' (table[id]?.bind TreeNode.parent) := by
  intro q node hq hlevel hne hpopped
  by_cases hall : ∀ c ∈ node.children, c ∈ popped
  · rcases h q node hq hlevel hne hall with hpromoted | hnone
    · exact Or.inl (hs ▸ hpromoted)
    · exact absurd hnone (some_ne_none q)
  · simp only [not_forall] at hall
    obtain ⟨c, hc, hnot⟩ := hall
    rcases mem_append.mp (hpopped c hc) with hold | hid
    · exact absurd hold hnot
    · obtain rfl := mem_singleton.mp hid
      exact Or.inr ((hlinked.mem_children hq c).mp hc).symm

/-- **One round** takes one node out of the queue. -/
theorem Invariant.exists_step (h : Invariant json table leaves popped s)
    (hleaves : AreLeaves table leaves) (hlinked : WellLinked table)
    (hcomplete : Complete table popped s none) (hne : s.queue ≠ []) :
    ∃ id s', s.step json = some s' ∧ Invariant json table leaves (popped ++ [id]) s' ∧
      Complete table (popped ++ [id]) s' none := by
  obtain ⟨id, queue, hpop, hperm⟩ := PriorityQueue.exists_pop
    (comparable_of_valid json h.nodes hlinked s.queue
      (forall_mem_append.mp h.valid).2) hne
  have hmem : id ∈ s.queue := hperm.subset mem_cons_self
  have hid : id < table.length := h.valid id (mem_append_right _ hmem)
  have hnew : id ∉ s.prunedNodes := fun hpruned =>
    (nodup_append.mp h.nodup).2.2 id ((h.pruned id).mp hpruned).1 id hmem rfl
  have hadd := h.add hlinked hperm
  have hcomplete' := hcomplete.add hlinked id
    { s with
      queue := queue
      prunedNodes := s.prunedNodes ++ [id]
      bytesRemoved := s.bytesRemoved + gain json table id } rfl
  obtain ⟨node, hnode, hflags⟩ := exists_node h.nodes (List.getElem?_eq_getElem hid)
  have htable : table[id]? = some node.unflagged := getElem?_unflagged h.nodes hnode
  have hsaving : saving json s.nodes id = some (gain json table id) := by
    rw [saving_unflagged h.nodes, saving_eq hlinked htable]
  refine ⟨id, ?_⟩
  rw [Selection.step, hpop]
  dsimp only
  rw [includes_eq_false_iff.mpr hnew, Selection.prune]
  simp only [hnode, hsaving]
  rcases hparent : node.parent with _ | p
  · refine ⟨_, rfl, hadd, ?_⟩
    have hnone : table[id]?.bind TreeNode.parent = none := by
      rw [htable]
      exact hparent
    rwa [hnone] at hcomplete'
  · obtain ⟨above, habove, hchild⟩ := hlinked.parent htable (p := p) hparent
    have hsome : table[id]?.bind TreeNode.parent = some p := by
      rw [htable]
      exact hparent
    rw [hsome] at hcomplete'
    exact hadd.exists_promote hleaves hlinked habove (ne_nil_of_mem hchild) hcomplete'

/-- **The loop** ends with the queue empty or with enough bytes removed. -/
theorem Invariant.exists_loop (hleaves : AreLeaves table leaves) (hlinked : WellLinked table)
    (bytesToRemove : ℤ) {rounds : ℕ} (h : Invariant json table leaves popped s) (hcomplete : Complete table popped s none)
    (hrounds : table.length ≤ popped.length + rounds) :
    ∃ popped' s', s.loop json bytesToRemove rounds = some s' ∧
      Invariant json table leaves popped' s' ∧ Complete table popped' s' none ∧
      (s'.queue = [] ∨ bytesToRemove ≤ s'.bytesRemoved) := by
  induction rounds generalizing popped s with
  | zero =>
    have hlen : (popped ++ s.queue).length ≤ table.length := by
      have hsub : popped ++ s.queue ⊆ List.range table.length := fun i hi =>
        mem_range.mpr (h.valid i hi)
      have hle := (subperm_of_subset h.nodup hsub).length_le
      rwa [length_range] at hle
    rw [length_append] at hlen
    exact ⟨popped, s, rfl, h, hcomplete, Or.inl (eq_nil_of_length_eq_zero (by omega))⟩
  | succ rounds ih =>
    rw [Selection.loop]
    by_cases hgo : 0 < s.queue.length ∧ s.bytesRemoved < bytesToRemove
    · obtain ⟨id, s', hstep, h', hcomplete'⟩ := h.exists_step hleaves hlinked hcomplete
        (ne_nil_of_length_pos hgo.1)
      rw [if_pos hgo, hstep]
      exact ih h' hcomplete' (by rw [length_append, length_singleton]; omega)
    · rw [if_neg hgo]
      refine ⟨popped, s, rfl, h, hcomplete, ?_⟩
      rcases Nat.eq_zero_or_pos s.queue.length with hzero | hpos
      · exact Or.inl (eq_nil_of_length_eq_zero hzero)
      · exact Or.inr (not_lt.mp fun hlt => hgo ⟨hpos, hlt⟩)

/-! ## The leaves -/

/-- The prunable leaves of a forest. -/
def leafIds (level n : ℕ) : Forest → List ℕ
  | .nil => []
  | .unit _ rest => leafIds level n rest
  | .text _ rest => leafIds level n rest
  | .braces inside rest =>
    (if inside.count = 0 ∧ MIN_PRUNE_LEVEL ≤ level then [n] else []) ++
      leafIds (level + 1) (n + 1) inside ++ leafIds level (n + 1 + inside.count) rest

theorem lt_of_mem_leafIds {n : ℕ} {f : Forest} (h : i ∈ leafIds level n f) :
    n ≤ i ∧ i < n + f.count := by
  induction f generalizing level n with
  | nil => cases h
  | unit c f ih => exact ih h
  | text s f ih => exact ih h
  | braces j f ihj ih =>
    rw [Forest.count]
    rw [leafIds, mem_append, mem_append, mem_ite_nil_right, mem_singleton] at h
    rcases h with (⟨-, rfl⟩ | h) | h
    · omega
    · have hlt := ihj h
      omega
    · have hlt := ih h
      omega

theorem nodup_leafIds (level n : ℕ) (f : Forest) : (leafIds level n f).Nodup := by
  induction f generalizing level n with
  | nil => exact nodup_nil
  | unit c f ih | text s f ih => exact ih level n
  | braces j f ihj ih =>
    rw [leafIds, nodup_append, nodup_append]
    refine ⟨⟨?_, ihj _ _, ?_⟩, ih _ _, ?_⟩
    · split_ifs
      · exact nodup_singleton n
      · exact nodup_nil
    · intro a ha b hb
      have hlt := lt_of_mem_leafIds hb
      rw [mem_ite_nil_right] at ha
      omega
    · intro a ha b hb
      have hlt := lt_of_mem_leafIds hb
      rw [mem_append, mem_ite_nil_right, mem_singleton] at ha
      rcases ha with ha | ha
      · omega
      · have hlt' := lt_of_mem_leafIds ha
        omega

theorem Laid.leaf {pos n : ℕ} {parent : Option ℕ} {f : Forest}
    (h : Laid table pos level n parent f) (hi : i ∈ leafIds level n f) :
    ∃ node, table[i]? = some node ∧ node.children = [] ∧ MIN_PRUNE_LEVEL ≤ node.level := by
  induction f generalizing pos level n parent with
  | nil => cases hi
  | unit c f ih | text s f ih => exact ih h hi
  | braces j f ihj ih =>
    rw [leafIds, mem_append, mem_append, mem_ite_nil_right, mem_singleton] at hi
    rcases hi with (⟨⟨hcount, hlevel⟩, rfl⟩ | hi) | hi
    · exact ⟨_, h.1, roots_eq_nil_iff.mpr hcount, hlevel⟩
    · exact ihj h.2.1 hi
    · exact ih h.2.2 hi

/-- The traversal finds the leaves of a forest, and has generations enough. -/
theorem flatMap_traverse (hnodes : nodes.map TreeNode.unflagged = table)
    {pos n : ℕ} {parent : Option ℕ} {f : Forest} (h : Laid table pos level n parent f)
    (generations : ℕ) (hgen : f.count ≤ generations) :
    (roots n f).flatMap (traverse nodes generations) = leafIds level n f := by
  induction f generalizing pos level n parent generations with
  | nil => rfl
  | unit c f ih | text s f ih => exact ih h generations hgen
  | braces j f ihj ih =>
    rw [Forest.count] at hgen
    obtain ⟨generations, rfl⟩ : ∃ m, generations = m + 1 := ⟨generations - 1, by omega⟩
    obtain ⟨node, hnode, hflags⟩ := exists_node hnodes h.1
    have hchildren : node.children = roots (n + 1) j := by
      show node.unflagged.children = _
      rw [hflags]
    have hlevel : node.level = level := by
      show node.unflagged.level = _
      rw [hflags]
    have hleaf : node.isLeaf = true ↔ j.count = 0 := by
      rw [TreeNode.isLeaf, List.isEmpty_iff, hchildren, roots_eq_nil_iff]
    rw [roots, flatMap_cons, ih h.2.2 _ (by omega), traverse]
    simp only [hnode, hchildren, hlevel, hleaf]
    rw [ihj h.2.1 _ (by omega), leafIds]

/-! ## The whole selection -/

theorem exists_pushAll (json : Str) (hnodes : nodes.map TreeNode.unflagged = table)
    (hlinked : WellLinked table)
    (leaves queue : List ℕ)
    (hvalid : ∀ i ∈ queue ++ leaves, i < table.length) :
    ∃ queue', leaves.foldlM (Selection.push json) { nodes := nodes, queue := queue } =
        some { nodes := nodes, queue := queue' } ∧ queue'.Perm (queue ++ leaves) := by
  induction leaves generalizing queue with
  | nil => exact ⟨queue, rfl, by rw [append_nil]⟩
  | cons i leaves ih =>
    have hmiddle : (i :: queue).Perm (queue ++ [i]) := (perm_append_singleton i queue).symm
    obtain ⟨queue₁, hpush, hperm₁⟩ := PriorityQueue.exists_push
      (comparable_of_valid json hnodes hlinked (i :: queue) fun k hk =>
        hvalid k (by
          rcases mem_cons.mp hk with rfl | hk
          · exact mem_append_right _ mem_cons_self
          · exact mem_append_left _ hk))
    have hperm : (queue₁ ++ leaves).Perm (queue ++ i :: leaves) := by
      refine ((hperm₁.trans hmiddle).append_right leaves).trans ?_
      rw [append_assoc, singleton_append]
    obtain ⟨queue', heq, hperm'⟩ := ih queue₁ fun k hk => hvalid k (hperm.subset hk)
    refine ⟨queue', ?_, hperm'.trans hperm⟩
    rw [foldlM_cons, Selection.push, hpush]
    exact heq

theorem invariant_start (hnodes : nodes.map TreeNode.unflagged = table)
    (hleaves : AreLeaves table leaves) (hperm : queue.Perm leaves) :
    Invariant json table leaves [] { nodes := nodes, queue := queue } := by
  constructor
  · exact hnodes
  · exact hperm.nodup_iff.mpr hleaves.nodup
  · intro i hi
    obtain ⟨node, hnode, -⟩ := hleaves.leaf i (hperm.subset hi)
    exact (List.getElem?_eq_some_iff.mp hnode).1
  · exact fun i hi => Or.inl (hperm.subset hi)
  · exact fun i hi => hperm.symm.subset hi
  · exact fun i hi => absurd hi not_mem_nil
  · exact fun i hi => absurd hi not_mem_nil
  · exact fun i => ⟨fun hi => absurd hi not_mem_nil, fun hi => absurd hi.1 not_mem_nil⟩
  · exact nodup_nil
  · rfl

theorem complete_start :
    Complete table [] { nodes := nodes, queue := queue } none := by
  intro p node _ _ hne hall
  obtain ⟨c, hc⟩ := exists_mem_of_ne_nil _ hne
  exact absurd (hall c hc) not_mem_nil

/-- **The selection** from the leaves of a root comes to an end, with the queue empty or with
enough bytes removed. -/
theorem exists_selectNodesToPrune (json : Str) (hnodes : nodes.map TreeNode.unflagged = table)
    (hlinked : WellLinked table) {root : ℕ}
    (hleaves : AreLeaves table (collectPrunableLeaves nodes root)) (bytesToRemove : ℤ) :
    ∃ popped s, selectNodesToPrune json nodes root bytesToRemove = some s ∧
      Invariant json table (collectPrunableLeaves nodes root) popped s ∧
      Complete table popped s none ∧ (s.queue = [] ∨ bytesToRemove ≤ s.bytesRemoved) := by
  obtain ⟨queue, hpush, hperm⟩ := exists_pushAll json hnodes hlinked
    (collectPrunableLeaves nodes root) [] fun i hi => by
      obtain ⟨node, hnode, -⟩ := hleaves.leaf i hi
      exact (List.getElem?_eq_some_iff.mp hnode).1
  have hlen : table.length = nodes.length := by rw [← hnodes, length_map]
  rw [selectNodesToPrune, hpush]
  exact Invariant.exists_loop hleaves hlinked bytesToRemove
    (invariant_start hnodes hleaves hperm) complete_start (by simp [hlen])

end DdTrace.Debugger.SnapshotPruner
