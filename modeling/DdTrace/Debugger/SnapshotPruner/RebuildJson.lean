import DdTrace.Debugger.SnapshotPruner.SelectNodes

/-!
# Cutting the selected objects out of a snapshot's text

The selected objects are cut out of the raw text from the last one to the first, so that the
places of those still to come stay right.  That no selected object lies in another one (`Sparse`)
makes the cuts disjoint, and the outcome is then the text of the forest in which each of the
objects has been replaced.

* `sortedNodes_eq`: the sort by the starts puts the objects in the opposite order of the text.
* `rebuildJson_eq`: the rebuilt text is that of the forest without the marked objects.
* `total_gain`: what the objects gain, taken together, is what the text loses in bytes.
-/

namespace DdTrace.Debugger.SnapshotPruner

open Library List Option
open Library.JsonSyntax

/-- One replacement in the text. -/
def splice (json : Str) (node : TreeNode) : Str :=
  json.take node.start ++ PRUNED_JSON ++ json.drop ((node.close.map (· + 1)).getD 0)

/-- The nodes of a selection, the last one in the text first. -/
def sortedNodes (nodes : List TreeNode) (prunedNodes : List ℕ) : List TreeNode :=
  (prunedNodes.filterMap (nodes[·]?)).insertionSort fun a b => b.start ≤ a.start

def rebuildJson (json : Str) (nodes : List TreeNode) (prunedNodes : List ℕ) : Str :=
  (sortedNodes nodes prunedNodes).foldl splice json

/-! ## The outcome on forests -/

/-- What stands in place of an object that is pruned, without its braces. -/
def prunedMembers : Phrase .members :=
  .member [] [.plain (unit 'p') (by decide), .plain (unit 'r') (by decide),
    .plain (unit 'u') (by decide), .plain (unit 'n') (by decide), .plain (unit 'e') (by decide),
    .plain (unit 'd') (by decide)] [] [] (.literal .true) []

theorem objectText_prunedMembers : Forest.objectText prunedMembers.forest = PRUNED_JSON := by
  decide

/-- A forest without the objects whose numbers are marked. -/
def replaceMarked (marked : ℕ → Bool) (n : ℕ) : Forest → Forest
  | .nil => .nil
  | .unit c rest => .unit c (replaceMarked marked n rest)
  | .text s rest => .text s (replaceMarked marked n rest)
  | .braces inside rest =>
    .braces (if marked n then prunedMembers.forest else replaceMarked marked (n + 1) inside)
      (replaceMarked marked (n + 1 + inside.count) rest)

/-- The objects that are replaced. -/
def replaced (marked : ℕ → Bool) (n : ℕ) : Forest → List ℕ
  | .nil => []
  | .unit _ rest => replaced marked n rest
  | .text _ rest => replaced marked n rest
  | .braces inside rest =>
    (if marked n then [n] else replaced marked (n + 1) inside) ++
      replaced marked (n + 1 + inside.count) rest

/-- No marked object lies in another one. -/
def Sparse (marked : ℕ → Bool) (n : ℕ) : Forest → Prop
  | .nil => True
  | .unit _ rest => Sparse marked n rest
  | .text _ rest => Sparse marked n rest
  | .braces inside rest =>
    (marked n = true → ∀ i, n + 1 ≤ i → i < n + 1 + inside.count → marked i = false) ∧
      Sparse marked (n + 1) inside ∧ Sparse marked (n + 1 + inside.count) rest

variable {marked : ℕ → Bool} {pos level n : ℕ} {parent : Option ℕ} {f : Forest}
  {table : List TreeNode}

theorem replaceMarked_append (f g : Forest) : replaceMarked marked n (f ++ g) =
      replaceMarked marked n f ++ replaceMarked marked (n + f.count) g := by
  induction f generalizing n with
  | nil => rfl
  | unit c f ih => rw [Forest.unit_append, replaceMarked, ih]; rfl
  | text s f ih => rw [Forest.text_append, replaceMarked, ih]; rfl
  | braces i f _ ih =>
    have hcount : n + 1 + i.count + f.count = n + (Forest.braces i f).count := by
      rw [Forest.count]
      omega
    rw [Forest.braces_append, replaceMarked, ih, hcount]
    rfl

theorem replaceMarked_eq_self (h : ∀ i, n ≤ i → i < n + f.count → marked i = false) :
    replaceMarked marked n f = f := by
  induction f generalizing n with
  | nil => rfl
  | unit c f ih | text s f ih => rw [replaceMarked, ih h]
  | braces i f ihi ih =>
    rw [Forest.count] at h
    have hn := h n (Nat.le_refl n) (by omega)
    rw [replaceMarked, hn, if_neg Bool.false_ne_true, ihi fun k hk hk' => h k (by omega) (by omega),
      ih fun k hk hk' => h k (by omega) (by omega)]

theorem lt_of_mem_replaced {i : ℕ} (h : i ∈ replaced marked n f) :
    n ≤ i ∧ i < n + f.count ∧ marked i = true := by
  induction f generalizing n with
  | nil => cases h
  | unit c f ih => exact ih h
  | text s f ih => exact ih h
  | braces j f ihj ih =>
    rw [Forest.count]
    rcases mem_append.mp h with h | h
    · by_cases hn : marked n = true
      · rw [if_pos hn] at h
        obtain rfl := mem_singleton.mp h
        exact ⟨Nat.le_refl i, by omega, hn⟩
      · rw [if_neg hn] at h
        have hj := ihj h
        exact ⟨by omega, by omega, hj.2.2⟩
    · have hf := ih h
      exact ⟨by omega, by omega, hf.2.2⟩

theorem nodup_replaced (n : ℕ) (f : Forest) : (replaced marked n f).Nodup := by
  induction f generalizing n with
  | nil => exact nodup_nil
  | unit c f ih => exact ih n
  | text s f ih => exact ih n
  | braces j f ihj ih =>
    rw [replaced, nodup_append]
    refine ⟨?_, ih _, fun a ha b hb => ?_⟩
    · split_ifs
      · exact nodup_singleton n
      · exact ihj _
    · have hb' := lt_of_mem_replaced hb
      split_ifs at ha
      · rw [mem_singleton] at ha
        omega
      · have ha' := lt_of_mem_replaced ha
        omega

theorem mem_replaced (hsparse : Sparse marked n f) {i : ℕ} (hn : n ≤ i) (hi : i < n + f.count)
    (hmarked : marked i = true) : i ∈ replaced marked n f := by
  induction f generalizing n with
  | nil => exact absurd hi (by rw [Forest.count]; omega)
  | unit c f ih | text s f ih => exact ih hsparse hn hi
  | braces j f ihj ih =>
    rw [Forest.count] at hi
    rw [replaced]
    by_cases hroot : marked n = true
    · rw [if_pos hroot, singleton_append, mem_cons]
      by_cases heq : i = n
      · exact Or.inl heq
      · refine Or.inr (ih hsparse.2.2 (not_lt.mp fun hlt => ?_) (by omega))
        have hfalse := hsparse.1 hroot i (by omega) hlt
        rw [hmarked] at hfalse
        exact Bool.noConfusion hfalse
    · rw [if_neg hroot]
      have hne : i ≠ n := fun h => hroot (h ▸ hmarked)
      rcases Nat.lt_or_ge i (n + 1 + j.count) with hlt | hge
      · exact mem_append_left _ (ihj hsparse.2.1 (by omega) hlt)
      · exact mem_append_right _ (ih hsparse.2.2 hge (by omega))

/-- Objects that lie deep enough are replaced. -/
theorem replaced_replaceMarked (h : Laid table pos level n parent f)
    (hlevel : ∀ i node, marked i = true → table[i]? = some node → MIN_PRUNE_LEVEL ≤ node.level) :
    Forest.Replaced prunedMembers.forest MIN_PRUNE_LEVEL level f (replaceMarked marked n f) := by
  induction f generalizing pos level n parent with
  | nil => exact .nil
  | unit c f ih => exact .unit c (ih h)
  | text s f ih => exact .text s (ih h)
  | braces i f ihi ih =>
    rw [replaceMarked]
    by_cases hn : marked n = true
    · rw [if_pos hn]
      exact .replace i (hlevel n _ hn h.1) (ih h.2.2)
    · rw [if_neg hn]
      exact .braces (ihi h.2.1) (ih h.2.2)

/-! ## The text -/

theorem render_replaceMarked_braces (i f : Forest) (hn : marked n = true) :
    (replaceMarked marked n (.braces i f)).render =
      PRUNED_JSON ++ (replaceMarked marked (n + 1 + i.count) f).render := by
  rw [replaceMarked, if_pos hn, Forest.render_braces, objectText_prunedMembers]

theorem splice_append {node : TreeNode} {before object : Str} {close : ℕ}
    (hstart : before.length = node.start) (hnode : node.close = some close)
    (hclose : close + 1 = before.length + object.length) (after : Str) :
    splice (before ++ (object ++ after)) node = before ++ (PRUNED_JSON ++ after) := by
  rw [splice, hnode, map_some, getD_some, take_left' hstart, hclose,
    ← append_assoc before object, drop_left' length_append, append_assoc]

/-- **The replacements, from the last one to the first**, leave the text of the forest without
the marked objects. -/
theorem foldl_splice (marked : ℕ → Bool) (h : Laid table pos level n parent f)
    (before after : Str) (hpos : before.length = pos) :
    ((replaced marked n f).filterMap (table[·]?)).reverse.foldl splice
        (before ++ (f.render ++ after)) =
      before ++ ((replaceMarked marked n f).render ++ after) := by
  induction f generalizing pos level n parent before after with
  | nil => rfl
  | unit c f ih =>
    have hf := ih h (before ++ [c.1]) after (by simp [hpos])
    simpa [replaced, replaceMarked, Forest.render] using hf
  | text s f ih =>
    have hf := ih h (before ++ Forest.quotedText s) after (by simp [hpos, Forest.quotedText]; omega)
    simpa [replaced, replaceMarked, Forest.render_text] using hf
  | braces i f ihi ih =>
    have hlen : (Forest.objectText i).length = i.render.length + 2 := by
      simp [Forest.objectText]
    have hf := ih h.2.2 (before ++ Forest.objectText i) after
      (by rw [length_append, hpos, hlen, Nat.add_assoc])
    rw [replaced, filterMap_append, reverse_append, foldl_append, Forest.render_braces]
    rw [append_assoc, append_assoc before] at hf
    rw [append_assoc, hf]
    by_cases hn : marked n = true
    · rw [if_pos hn, filterMap_cons_some h.1, filterMap_nil, reverse_singleton,
        foldl_cons, foldl_nil, splice_append hpos rfl (by omega),
        render_replaceMarked_braces i f hn, append_assoc]
    · have hi := ihi h.2.1 (before ++ [unit '{'])
        (unit '}' :: ((replaceMarked marked (n + 1 + i.count) f).render ++ after))
        (by rw [length_append, hpos, length_singleton])
      rw [if_neg hn, replaceMarked, if_neg hn, Forest.render_braces]
      simpa [Forest.objectText] using hi

/-- The nodes of the replaced objects, in the order of the text. -/
theorem pairwise_replaced (marked : ℕ → Bool) (h : Laid table pos level n parent f) :
    ((replaced marked n f).filterMap (table[·]?)).Pairwise (fun a b => a.start < b.start) ∧
      ∀ node ∈ (replaced marked n f).filterMap (table[·]?),
        pos ≤ node.start ∧ node.start < pos + f.render.length := by
  induction f generalizing pos level n parent with
  | nil => exact ⟨List.Pairwise.nil, fun _ h => absurd h not_mem_nil⟩
  | unit c f ih =>
    obtain ⟨hpair, hbound⟩ := ih h
    refine ⟨hpair, fun node hnode => ?_⟩
    have hb := hbound node hnode
    rw [Forest.render, length_cons]
    omega
  | text s f ih =>
    obtain ⟨hpair, hbound⟩ := ih h
    refine ⟨hpair, fun node hnode => ?_⟩
    have hb := hbound node hnode
    rw [Forest.render, length_cons, length_append, length_cons]
    omega
  | braces i f ihi ih =>
    obtain ⟨hpair, hbound⟩ := ih h.2.2
    obtain ⟨hpair', hbound'⟩ := ihi h.2.1
    have hlen : (Forest.braces i f).render.length = i.render.length + 2 + f.render.length := by
      simp [Forest.render]
      omega
    rw [replaced, filterMap_append, pairwise_append]
    by_cases hn : marked n = true
    · rw [if_pos hn, filterMap_cons_some h.1]
      refine ⟨⟨pairwise_singleton _ _, hpair, fun a ha b hb => ?_⟩, fun node hnode => ?_⟩
      · obtain rfl := mem_singleton.mp ha
        have hb' := hbound b hb
        show pos < b.start
        omega
      · rcases mem_append.mp hnode with hnode | hnode
        · obtain rfl := mem_singleton.mp hnode
          exact ⟨Nat.le_refl pos, by show pos < _; omega⟩
        · have hb := hbound node hnode
          omega
    · rw [if_neg hn]
      refine ⟨⟨hpair', hpair, fun a ha b hb => ?_⟩, fun node hnode => ?_⟩
      · have ha' := hbound' a ha
        have hb' := hbound b hb
        omega
      · rcases mem_append.mp hnode with hnode | hnode
        · have hb := hbound' node hnode
          omega
        · have hb := hbound node hnode
          omega

variable {prunedNodes : List ℕ}

/-- The sort puts the replaced nodes in the opposite order. -/
theorem sortedNodes_eq (h : Laid table pos level n parent f)
    (hperm : prunedNodes.Perm (replaced marked n f)) :
    sortedNodes table prunedNodes = ((replaced marked n f).filterMap (table[·]?)).reverse := by
  obtain ⟨hpair, -⟩ := pairwise_replaced marked h
  have hinj : ∀ a ∈ (replaced marked n f).filterMap (table[·]?),
      ∀ b ∈ (replaced marked n f).filterMap (table[·]?), a.start = b.start → a = b := by
    intro a ha b hb
    exact List.Pairwise.forall_of_forall_of_flip (R := fun a b : TreeNode =>
        a.start = b.start → a = b) (fun _ _ _ => rfl)
      (hpair.imp fun hlt heq => absurd heq (Nat.ne_of_lt hlt))
      (hpair.imp fun hlt heq => absurd heq (Nat.ne_of_gt hlt)) ha hb
  have hperm' : (sortedNodes table prunedNodes).Perm
      ((replaced marked n f).filterMap (table[·]?)) :=
    (perm_insertionSort _ _).trans (hperm.filterMap _)
  have hreverse := hperm'.trans (reverse_perm _).symm
  have hsorted : (sortedNodes table prunedNodes).Pairwise fun a b => b.start ≤ a.start :=
    pairwise_insertionSort _ _
  have hsorted' : ((replaced marked n f).filterMap (table[·]?)).reverse.Pairwise
      fun a b => b.start ≤ a.start :=
    pairwise_reverse.mpr (hpair.imp fun hlt => Nat.le_of_lt hlt)
  refine List.Perm.eq_of_pairwise (fun a b ha hb hab hba => ?_) hsorted hsorted' hreverse
  exact hinj a (hperm'.subset ha) b (mem_reverse.mp hb) (Nat.le_antisymm hba hab)

/-- Flags are of no consequence for the text. -/
theorem rebuildJson_unflagged {nodes : List TreeNode}
    (hnodes : nodes.map TreeNode.unflagged = table) (json : Str) (prunedNodes : List ℕ) :
    rebuildJson json nodes prunedNodes = rebuildJson json table prunedNodes := by
  have hfilter : prunedNodes.filterMap (table[·]?) =
      (prunedNodes.filterMap (nodes[·]?)).map TreeNode.unflagged := by
    rw [map_filterMap, ← hnodes]
    congr 1
    funext i
    exact List.getElem?_map ..
  rw [rebuildJson, rebuildJson, sortedNodes, sortedNodes, hfilter,
    ← map_insertionSort (fun a b : TreeNode => b.start ≤ a.start) _ TreeNode.unflagged _
      fun _ _ _ _ => Iff.rfl, foldl_map]
  rfl

/-- **The rebuilt text** is that of the forest without the marked objects. -/
theorem rebuildJson_eq (h : Laid table 0 level n parent f) {nodes : List TreeNode}
    (hnodes : nodes.map TreeNode.unflagged = table) (hperm : prunedNodes.Perm (replaced marked n f)) :
    rebuildJson f.render nodes prunedNodes = (replaceMarked marked n f).render := by
  have hfold := foldl_splice marked h [] [] rfl
  rw [List.nil_append, append_nil, List.nil_append, append_nil] at hfold
  rw [rebuildJson_unflagged hnodes, rebuildJson, sortedNodes_eq h hperm, hfold]

/-! ## The bytes -/

theorem gain_eq (h : Laid table pos level n parent (.braces inside f)) {before after : Str}
    (hpos : before.length = pos) :
    gain (before ++ ((Forest.braces inside f).render ++ after)) table n =
      (Unicode.byteLength (Forest.objectText inside) : ℤ) - PRUNED_JSON_BYTES := by
  have hlen : (Forest.objectText inside).length = inside.render.length + 2 := by
    simp [Forest.objectText]
  have hslice : slice (before ++ ((Forest.braces inside f).render ++ after)) pos
      (pos + inside.render.length + 1 + 1) = Forest.objectText inside := by
    rw [slice, Forest.render_braces, append_assoc, ← append_assoc before,
      take_left' (by rw [length_append, hlen]; omega), drop_left' hpos]
  rw [gain, saving, h.1, bind_some, TreeNode.size, map_some, hslice]
  rfl

/-- **The gains of the replaced objects** are the bytes that the text loses. -/
theorem total_gain (marked : ℕ → Bool) (h : Laid table pos level n parent f)
    (before after : Str) (hpos : before.length = pos) :
    total (gain (before ++ (f.render ++ after)) table) (replaced marked n f) =
      (Unicode.byteLength f.render : ℤ) - Unicode.byteLength (replaceMarked marked n f).render := by
  induction f generalizing pos level n parent before after with
  | nil => exact (Int.sub_self _).symm
  | unit c f ih =>
    have hf := ih h (before ++ [c.1]) after (by simp [hpos])
    have htext : before ++ [c.1] ++ (f.render ++ after) =
        before ++ ((Forest.unit c f).render ++ after) := by simp [Forest.render]
    rw [htext] at hf
    rw [replaced, replaceMarked, Forest.byteLength_unit, Forest.byteLength_unit]
    omega
  | text s f ih =>
    have hf := ih h (before ++ Forest.quotedText s) after (by simp [hpos, Forest.quotedText]; omega)
    have htext : before ++ Forest.quotedText s ++ (f.render ++ after) =
        before ++ ((Forest.text s f).render ++ after) := by simp [Forest.render_text]
    rw [htext] at hf
    rw [replaced, replaceMarked, hf, Forest.byteLength_text, Forest.byteLength_text]
    omega
  | braces i f ihi ih =>
    have hf := ih h.2.2 (before ++ Forest.objectText i) after
      (by simp [hpos, Forest.objectText]; omega)
    have htext : before ++ Forest.objectText i ++ (f.render ++ after) =
        before ++ ((Forest.braces i f).render ++ after) := by simp [Forest.render_braces]
    rw [htext] at hf
    rw [replaced, total_append, Forest.byteLength_braces, replaceMarked, Forest.byteLength_braces]
    by_cases hn : marked n = true
    · rw [if_pos hn, if_pos hn, total, gain_eq h hpos, objectText_prunedMembers]
      show _ - (Unicode.byteLength PRUNED_JSON : ℤ) + 0 + _ = _
      omega
    · have hi := ihi h.2.1 (before ++ [unit '{']) (unit '}' :: (f.render ++ after))
        (by rw [length_append, hpos, length_singleton])
      have htext' : before ++ [unit '{'] ++ (i.render ++ unit '}' :: (f.render ++ after)) =
          before ++ ((Forest.braces i f).render ++ after) := by simp [Forest.render]
      rw [htext'] at hi
      rw [if_neg hn, if_neg hn, hi, Forest.byteLength_objectText, Forest.byteLength_objectText]
      omega

end DdTrace.Debugger.SnapshotPruner
