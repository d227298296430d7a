import Mathlib.Data.List.Nodup
import Mathlib.Tactic.Common

/-!
# Trees of maps

A map from a name and a list of further keys, kept as a map of nodes in which every node has a map
of nodes below it.  A level lists its nodes in the order in which their keys were first used; a
node carries a value, and whether a path ended in it (`touched`) or only passed through it.

* `update`: change the node of a key, made from `init` where there is none.
* `lookup`: the value at a path, where a path ended.
* `entries`: every path that ended, with its value, in depth-first order.
* `mem_entries`, `nodup_entries`: the entries are exactly the values of `lookup`, each path once.

`WellFormed init` is what `update` keeps: the keys of a level are distinct, and a node in which no
path ended has the value `init`.
-/

namespace Library

open List

/-- One level of a tree. -/
inductive Trie (κ α : Type*)
  | nil
  | node (key : κ) (nodes : Trie κ α) (touched : Bool) (value : α) (rest : Trie κ α)
  deriving DecidableEq

namespace Trie

variable {κ α : Type*}

/-- What a key of a level leads to. -/
structure Node (κ α : Type*) where
  nodes : Trie κ α
  touched : Bool
  value : α

/-- A node that was only just made. -/
def Node.fresh (init : α) : Node κ α := ⟨nil, false, init⟩

/-- The value of a node in which a path ended. -/
def Node.own (n : Node κ α) : Option α := if n.touched then some n.value else none

/-- The node in which a path ends, with its value changed. -/
def Node.touch (f : α → α) (n : Node κ α) : Node κ α := { n with touched := true, value := f n.value }

/-- A node with its level changed. -/
def Node.within (g : Trie κ α → Trie κ α) (n : Node κ α) : Node κ α := { n with nodes := g n.nodes }

/-- The keys of a level. -/
def keys : Trie κ α → List κ
  | nil => []
  | node key _ _ _ rest => key :: keys rest

/-- Distinct keys on every level, and `init` where no path ended. -/
def WellFormed (init : α) : Trie κ α → Prop
  | nil => True
  | node key nodes touched value rest =>
    key ∉ keys rest ∧ (touched = false → value = init) ∧ WellFormed init nodes ∧
      WellFormed init rest

/-- A well-formed node. -/
def Node.WellFormed (init : α) (n : Node κ α) : Prop :=
  (n.touched = false → n.value = init) ∧ n.nodes.WellFormed init

section

variable [DecidableEq κ]

/-- `get` of a level. -/
def find? (k : κ) : Trie κ α → Option (Node κ α)
  | nil => none
  | node key nodes touched value rest =>
    if key = k then some ⟨nodes, touched, value⟩ else find? k rest

/-- Change the node of `k`, which is put behind the others where there is none. -/
def update (init : α) (k : κ) (g : Node κ α → Node κ α) : Trie κ α → Trie κ α
  | nil =>
    let n := g (.fresh init)
    node k n.nodes n.touched n.value nil
  | node key nodes touched value rest =>
    if key = k then
      let n := g ⟨nodes, touched, value⟩
      node key n.nodes n.touched n.value rest
    else node key nodes touched value (update init k g rest)

/-- The value at the path `k :: ks`. -/
def lookup : κ → List κ → Trie κ α → Option α
  | k, [], t => (t.find? k).bind Node.own
  | k, j :: ks, t => (t.find? k).bind fun n => lookup j ks n.nodes

end

/-- The paths below `name` and `tags` that ended, the nodes of a level one after the other. -/
def entriesBelow (name : κ) (tags : List κ) : Trie κ α → List (κ × List κ × α)
  | nil => []
  | node tag nodes touched value rest =>
    (if touched then [(name, tags ++ [tag], value)] else []) ++
      (entriesBelow name (tags ++ [tag]) nodes ++ entriesBelow name tags rest)

/-- The paths that ended, with their values. -/
def entries : Trie κ α → List (κ × List κ × α)
  | nil => []
  | node name nodes touched value rest =>
    (if touched then [(name, [], value)] else []) ++ (entriesBelow name [] nodes ++ entries rest)

/-! ## Updates -/

section

variable {init : α}

theorem wellFormed_fresh (init : α) : (Node.fresh init : Node κ α).WellFormed init :=
  ⟨fun _ => rfl, trivial⟩

theorem Node.WellFormed.touch {n : Node κ α} (h : n.WellFormed init) (f : α → α) :
    (n.touch f).WellFormed init :=
  ⟨fun htouched => (by cases htouched), h.2⟩

theorem Node.WellFormed.within {n : Node κ α} (h : n.WellFormed init)
    {g : Trie κ α → Trie κ α} (hg : (g n.nodes).WellFormed init) : (n.within g).WellFormed init :=
  ⟨h.1, hg⟩

/-- The value of a node in which no path ended counts as `init`. -/
theorem Node.WellFormed.getD_own {n : Node κ α} (h : n.WellFormed init) :
    n.own.getD init = n.value := by
  rw [Node.own]
  cases htouched : n.touched with
  | true => rfl
  | false => exact (h.1 htouched).symm

end

section

variable [DecidableEq κ] {init : α} {g : Node κ α → Node κ α}

@[simp] theorem lookup_nil (k : κ) (ks : List κ) : lookup k ks (nil : Trie κ α) = none := by
  cases ks <;> rfl

/-- A path of several keys is a path below its first one. -/
theorem lookup_cons (init : α) (k j : κ) (ks : List κ) (t : Trie κ α) :
    lookup k (j :: ks) t = lookup j ks ((t.find? k).getD (.fresh init)).nodes := by
  rw [lookup]
  cases t.find? k with
  | none => exact (lookup_nil j ks).symm
  | some n => rfl

theorem find?_update (t : Trie κ α) (k j : κ) : (t.update init k g).find? j =
      if j = k then some (g ((t.find? k).getD (.fresh init))) else t.find? j := by
  induction t with
  | nil =>
    show (if k = j then _ else _) = _
    by_cases h : j = k
    · rw [if_pos h.symm, if_pos h]
      rfl
    · rw [if_neg (Ne.symm h), if_neg h]
  | node key nodes touched value rest _ ih =>
    by_cases hk : key = k
    · rw [update, if_pos hk, find?, find?, if_pos hk]
      by_cases hj : key = j
      · rw [if_pos hj, if_pos (hj.symm.trans hk)]
        rfl
      · rw [if_neg hj, if_neg fun h => hj (hk.trans h.symm), find?, if_neg hj]
    · rw [update, if_neg hk, find?, ih, find?, if_neg hk]
      by_cases hj : key = j
      · rw [if_pos hj, if_neg fun h => hk (hj.trans h), find?, if_pos hj]
      · rw [if_neg hj]
        by_cases hjk : j = k
        · rw [if_pos hjk, if_pos hjk]
        · rw [if_neg hjk, if_neg hjk, find?, if_neg hj]

variable {t : Trie κ α}

theorem mem_keys_update {k j : κ} : j ∈ (t.update init k g).keys ↔ j = k ∨ j ∈ t.keys := by
  induction t with
  | nil =>
    show j ∈ [k] ↔ _
    rw [mem_singleton]
    exact (or_iff_left not_mem_nil).symm
  | node key nodes touched value rest _ ih =>
    rw [update]
    split
    · next h =>
      show j ∈ key :: rest.keys ↔ j = k ∨ j ∈ key :: rest.keys
      rw [mem_cons, h]
      exact ⟨Or.inr, fun hj => hj.elim Or.inl id⟩
    · show j ∈ key :: (rest.update init k g).keys ↔ j = k ∨ j ∈ key :: rest.keys
      rw [mem_cons, ih, mem_cons]
      exact or_left_comm

/-- **An update keeps a tree well formed** when it keeps a node so. -/
theorem WellFormed.update (h : t.WellFormed init) (k : κ)
    (hg : ∀ n : Node κ α, n.WellFormed init → (g n).WellFormed init) :
    (t.update init k g).WellFormed init := by
  induction t with
  | nil =>
    obtain ⟨hvalue, hnodes⟩ := hg _ (wellFormed_fresh init)
    exact ⟨not_mem_nil, hvalue, hnodes, trivial⟩
  | node key nodes touched value rest _ ih =>
    obtain ⟨hkey, hvalue, hnodes, hrest⟩ := h
    rw [Trie.update]
    split
    · obtain ⟨hvalue', hnodes'⟩ := hg ⟨nodes, touched, value⟩ ⟨hvalue, hnodes⟩
      exact ⟨hkey, hvalue', hnodes', hrest⟩
    · next hne =>
      refine ⟨?_, hvalue, hnodes, ih hrest⟩
      rw [mem_keys_update, not_or]
      exact ⟨hne, hkey⟩

/-- What a level holds for a key is well formed. -/
theorem WellFormed.getD_find? (h : t.WellFormed init) (k : κ) :
    ((t.find? k).getD (.fresh init)).WellFormed init := by
  induction t with
  | nil => exact wellFormed_fresh init
  | node key nodes touched value rest _ ih =>
    rw [find?]
    split
    · exact ⟨h.2.1, h.2.2.1⟩
    · exact ih h.2.2.2

theorem mem_keys_of_find? {k : κ} {n : Node κ α} (h : t.find? k = some n) :
    k ∈ t.keys := by
  induction t with
  | nil => cases h
  | node key nodes touched value rest _ ih =>
    rw [find?] at h
    split at h
    · next heq => exact heq ▸ mem_cons_self
    · exact mem_cons_of_mem _ (ih h)

theorem mem_keys_of_lookup {k : κ} {ks : List κ} {v : α}
    (h : lookup k ks t = some v) : k ∈ t.keys := by
  cases ks with
  | nil | cons j ks =>
    obtain ⟨n, hn, _⟩ := Option.bind_eq_some_iff.mp h
    exact mem_keys_of_find? hn

end

/-! ## Entries -/

section

variable [DecidableEq κ] {init : α}

theorem lookup_node_self (k : κ) (ks : List κ) (nodes : Trie κ α) (touched : Bool) (value : α)
    (rest : Trie κ α) :
    lookup k ks (node k nodes touched value rest) =
      match ks with
      | [] => if touched then some value else none
      | j :: ks => lookup j ks nodes := by
  cases ks with
  | nil | cons j ks =>
    rw [lookup, find?, if_pos rfl]
    rfl

theorem lookup_node_of_ne {k key : κ} (h : key ≠ k) (ks : List κ) (nodes : Trie κ α)
    (touched : Bool) (value : α) (rest : Trie κ α) :
    lookup k ks (node key nodes touched value rest) = lookup k ks rest := by
  cases ks with
  | nil | cons j ks => rw [lookup, find?, if_neg h, lookup]

variable {t : Trie κ α}

/-- What is listed below a path. -/
theorem mem_entriesBelow (h : t.WellFormed init) {name n : κ} {tags ts : List κ} {v : α} :
    (n, ts, v) ∈ entriesBelow name tags t ↔
      n = name ∧ ∃ k ks, ts = tags ++ k :: ks ∧ lookup k ks t = some v := by
  induction t generalizing tags with
  | nil =>
    constructor
    · exact fun hmem => absurd hmem not_mem_nil
    · rintro ⟨_, k, ks, _, hlookup⟩
      rw [lookup_nil] at hlookup
      cases hlookup
  | node key nodes touched value rest ihn ihr =>
    obtain ⟨hkey, _, hnodes, hrest⟩ := h
    rw [entriesBelow, mem_append, mem_append, ihn hnodes, ihr hrest]
    constructor
    · rintro (hown | ⟨rfl, k, ks, rfl, hlookup⟩ | ⟨rfl, k, ks, rfl, hlookup⟩)
      · split at hown
        · next htouched =>
          cases mem_singleton.mp hown
          refine ⟨rfl, key, [], rfl, ?_⟩
          rw [lookup_node_self, if_pos htouched]
        · cases hown
      · refine ⟨rfl, key, k :: ks, by rw [append_assoc]; rfl, ?_⟩
        rw [lookup_node_self]
        exact hlookup
      · refine ⟨rfl, k, ks, rfl, ?_⟩
        rw [lookup_node_of_ne, hlookup]
        rintro rfl
        exact hkey (mem_keys_of_lookup hlookup)
    · rintro ⟨rfl, k, ks, rfl, hlookup⟩
      by_cases hk : key = k
      · subst hk
        rw [lookup_node_self] at hlookup
        cases ks with
        | nil =>
          refine Or.inl ?_
          dsimp only at hlookup
          split at hlookup
          · next htouched =>
            rw [if_pos htouched, ← Option.some.inj hlookup]
            exact mem_singleton_self _
          · cases hlookup
        | cons j ks =>
          exact Or.inr (Or.inl ⟨rfl, j, ks, by rw [append_assoc]; rfl, hlookup⟩)
      · rw [lookup_node_of_ne hk] at hlookup
        exact Or.inr (Or.inr ⟨rfl, k, ks, rfl, hlookup⟩)

/-- **The entries of a tree are the values of its paths.** -/
theorem mem_entries (h : t.WellFormed init) {k : κ} {ks : List κ} {v : α} :
    (k, ks, v) ∈ entries t ↔ lookup k ks t = some v := by
  induction t with
  | nil =>
    rw [lookup_nil]
    exact ⟨fun hmem => absurd hmem not_mem_nil, fun hnone => by cases hnone⟩
  | node key nodes touched value rest _ ihr =>
    obtain ⟨hkey, _, hnodes, hrest⟩ := h
    rw [entries, mem_append, mem_append, mem_entriesBelow hnodes, ihr hrest]
    by_cases hk : key = k
    · subst hk
      have hnone : ¬lookup key ks rest = some v := fun hl => hkey (mem_keys_of_lookup hl)
      rw [lookup_node_self, or_iff_left hnone]
      cases ks with
      | nil =>
        constructor
        · rintro (hown | ⟨_, _, _, hnil, _⟩)
          · split at hown
            · next htouched =>
              cases mem_singleton.mp hown
              exact if_pos htouched
            · cases hown
          · cases hnil
        · intro hown
          refine Or.inl ?_
          dsimp only at hown
          split at hown
          · next htouched =>
            rw [if_pos htouched, ← Option.some.inj hown]
            exact mem_singleton_self _
          · cases hown
      | cons j ks =>
        constructor
        · rintro (hown | ⟨_, k, ks', heq, hlookup⟩)
          · split at hown
            · cases mem_singleton.mp hown
            · cases hown
          · cases heq
            exact hlookup
        · exact fun hlookup => Or.inr ⟨rfl, j, ks, rfl, hlookup⟩
    · rw [lookup_node_of_ne hk]
      constructor
      · rintro (hown | ⟨rfl, _⟩ | hlookup)
        · split at hown
          · cases mem_singleton.mp hown
            exact absurd rfl hk
          · cases hown
        · exact absurd rfl hk
        · exact hlookup
      · exact fun hlookup => Or.inr (Or.inr hlookup)

/-- Below a path every path is listed once. -/
theorem nodup_entriesBelow (h : t.WellFormed init) (name : κ) (tags : List κ) :
    ((entriesBelow name tags t).map fun e => (e.1, e.2.1)).Nodup := by
  induction t generalizing tags with
  | nil => exact nodup_nil
  | node key nodes touched value rest ihn ihr =>
    obtain ⟨hkey, _, hnodes, hrest⟩ := h
    rw [entriesBelow, map_append, map_append]
    have hin : ∀ p ∈ (entriesBelow name (tags ++ [key]) nodes).map fun e => (e.1, e.2.1),
        ∃ k ks, p.2 = tags ++ key :: k :: ks := by
      intro p hp
      obtain ⟨⟨n, ts, v⟩, he, rfl⟩ := mem_map.mp hp
      obtain ⟨_, k, ks, rfl, _⟩ := (mem_entriesBelow hnodes).mp he
      exact ⟨k, ks, by rw [append_assoc]; rfl⟩
    have hout : ∀ p ∈ (entriesBelow name tags rest).map fun e => (e.1, e.2.1),
        ∃ k ks, p.2 = tags ++ k :: ks ∧ k ≠ key := by
      intro p hp
      obtain ⟨⟨n, ts, v⟩, he, rfl⟩ := mem_map.mp hp
      obtain ⟨_, k, ks, rfl, hlookup⟩ := (mem_entriesBelow hrest).mp he
      refine ⟨k, ks, rfl, ?_⟩
      rintro rfl
      exact hkey (mem_keys_of_lookup hlookup)
    have hown : ∀ p ∈ (if touched then [(name, tags ++ [key], value)] else []).map
        (fun e : κ × List κ × α => (e.1, e.2.1)), p.2 = tags ++ [key] := by
      intro p hp
      split at hp
      · rw [mem_singleton.mp hp]
      · cases hp
    refine nodup_append.mpr ⟨?_, nodup_append.mpr ⟨ihn hnodes _, ihr hrest _, ?_⟩, ?_⟩
    · split
      · exact nodup_singleton _
      · exact nodup_nil
    · rintro p hp q hq rfl
      obtain ⟨k, ks, heq⟩ := hin p hp
      obtain ⟨k', ks', heq', hne⟩ := hout p hq
      rw [heq] at heq'
      exact hne (List.cons.inj (append_cancel_left heq')).1.symm
    · rintro p hp q hq rfl
      have heq := hown p hp
      rcases mem_append.mp hq with hq | hq
      · obtain ⟨k, ks, heq'⟩ := hin p hq
        rw [heq] at heq'
        cases (List.cons.inj (append_cancel_left heq')).2
      · obtain ⟨k, ks, heq', hne⟩ := hout p hq
        rw [heq] at heq'
        exact hne (List.cons.inj (append_cancel_left heq')).1.symm

/-- **Every path is listed once.** -/
theorem nodup_entries (h : t.WellFormed init) : ((entries t).map fun e => (e.1, e.2.1)).Nodup := by
  induction t with
  | nil => exact nodup_nil
  | node key nodes touched value rest _ ihr =>
    obtain ⟨hkey, _, hnodes, hrest⟩ := h
    rw [entries, map_append, map_append]
    have hin : ∀ p ∈ (entriesBelow key [] nodes).map fun e => (e.1, e.2.1),
        p.1 = key ∧ p.2 ≠ [] := by
      intro p hp
      obtain ⟨⟨n, ts, v⟩, he, rfl⟩ := mem_map.mp hp
      obtain ⟨rfl, k, ks, rfl, _⟩ := (mem_entriesBelow hnodes).mp he
      exact ⟨rfl, cons_ne_nil k ks⟩
    have hout : ∀ p ∈ (entries rest).map fun e => (e.1, e.2.1), p.1 ≠ key := by
      intro p hp
      obtain ⟨⟨n, ts, v⟩, he, rfl⟩ := mem_map.mp hp
      rintro rfl
      exact hkey (mem_keys_of_lookup ((mem_entries hrest).mp he))
    have hown : ∀ p ∈ (if touched then [(key, [], value)] else []).map
        (fun e : κ × List κ × α => (e.1, e.2.1)), p = (key, []) := by
      intro p hp
      split at hp
      · exact mem_singleton.mp hp
      · cases hp
    refine nodup_append.mpr
      ⟨?_, nodup_append.mpr ⟨nodup_entriesBelow hnodes _ _, ihr hrest, ?_⟩, ?_⟩
    · split
      · exact nodup_singleton _
      · exact nodup_nil
    · rintro p hp q hq rfl
      exact hout p hq (hin p hp).1
    · rintro p hp q hq rfl
      have heq := hown p hp
      rcases mem_append.mp hq with hq | hq
      · exact (hin p hq).2 (by rw [heq])
      · exact hout p hq (by rw [heq])

end

end Trie
end Library
