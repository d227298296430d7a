import Mathlib.Data.List.Dedup
import Mathlib.Data.List.Induction
import Mathlib.Data.List.Nodup
import Mathlib.Tactic.Common

/-!
# Maps in insertion order

The map of ECMAScript, `Map`: `set` of a new key adds it at the end, `set` of a key that is there
replaces its value where it stands, and an iteration follows that order.  An `OrderedMap` is its
list of entries, with the proof that no key occurs twice as a field.

* `get?_set`, `get?_delete`: what an update changes, and that it changes nothing else.
* `mem_entries_iff`: an entry is in the list exactly when `get?` finds it.
* `keys_set_of_mem`, `entries_set_of_notMem`: where an update leaves the order.
* `get?_ofEntries`: a map built from a list of pairs keeps the last value of each key.
* `reverse_ofEntries_reverse_eq_take_iff`: what becomes of a list that repeats keys.
-/

namespace Library

open List Option

/-- A map that is iterated in the order its keys were first set. -/
structure OrderedMap (κ ν : Type*) where
  entries : List (κ × ν)
  nodup : (entries.map Prod.fst).Nodup

namespace OrderedMap

variable {κ ν : Type*}

/-- The empty map. -/
def empty : OrderedMap κ ν := ⟨[], nodup_nil⟩

instance [DecidableEq κ] [DecidableEq ν] : DecidableEq (OrderedMap κ ν) := fun m n =>
  decidable_of_iff (m.entries = n.entries) ⟨fun h => by cases n; cases h; rfl, congrArg _⟩

/-- The keys, in order. -/
def keys (m : OrderedMap κ ν) : List κ := m.entries.map Prod.fst

/-- The values, in order. -/
def values (m : OrderedMap κ ν) : List ν := m.entries.map Prod.snd

@[simp] theorem entries_empty : (empty : OrderedMap κ ν).entries = [] := rfl

@[simp] theorem keys_empty : (empty : OrderedMap κ ν).keys = [] := rfl

@[simp] theorem values_empty : (empty : OrderedMap κ ν).values = [] := rfl

theorem nodup_keys (m : OrderedMap κ ν) : m.keys.Nodup := m.nodup

variable {k : κ} {m : OrderedMap κ ν} {l : List (κ × ν)} {v : ν} {μ : Type*} {j : κ}
  {n : OrderedMap κ ν}

theorem ext (h : m.entries = n.entries) : m = n := by
  cases n
  cases h
  rfl

/-- The values changed, under the same keys. -/
def mapValues {μ : Type*} (f : ν → μ) (m : OrderedMap κ ν) : OrderedMap κ μ :=
  ⟨m.entries.map fun e => (e.1, f e.2), by simpa [Function.comp_def] using m.nodup⟩

variable (f : ν → μ)

theorem keys_mapValues (m : OrderedMap κ ν) : (m.mapValues f).keys = m.keys := by
  simp [keys, mapValues, Function.comp_def]

theorem values_mapValues (m : OrderedMap κ ν) : (m.mapValues f).values = m.values.map f := by
  simp [values, mapValues, Function.comp_def]

variable [DecidableEq κ]

/-- The value of the first entry with the key. -/
def get? (m : OrderedMap κ ν) (k : κ) : Option ν := m.entries.lookup k

/-- Whether the key is there. -/
def has (m : OrderedMap κ ν) (k : κ) : Bool := (m.get? k).isSome

@[simp] theorem get?_empty (k : κ) : (empty : OrderedMap κ ν).get? k = none := rfl

/-! ## The list operations behind `set` and `delete` -/

/-- Replace the value of `k` where it stands, or add the pair at the end. -/
def setEntries (k : κ) (v : ν) : List (κ × ν) → List (κ × ν)
  | [] => [(k, v)]
  | e :: l => if e.1 = k then (k, v) :: l else e :: setEntries k v l

theorem fst_mem_setEntries : j ∈ (setEntries k v l).map Prod.fst ↔ j = k ∨ j ∈ l.map Prod.fst := by
  induction l with
  | nil => simp [setEntries]
  | cons e l ih =>
    rw [setEntries]
    split
    · next he =>
      simp only [map_cons, mem_cons, he]
      tauto
    · simp only [map_cons, mem_cons, ih]
      tauto

theorem nodup_setEntries (h : (l.map Prod.fst).Nodup) :
    ((setEntries k v l).map Prod.fst).Nodup := by
  induction l with
  | nil => simp [setEntries]
  | cons e l ih =>
    rw [map_cons, nodup_cons] at h
    rw [setEntries]
    split
    · next he =>
      rw [map_cons, nodup_cons]
      exact ⟨he ▸ h.1, h.2⟩
    · next he =>
      rw [map_cons, nodup_cons, fst_mem_setEntries, not_or]
      exact ⟨⟨he, h.1⟩, ih h.2⟩

theorem lookup_setEntries : (setEntries k v l).lookup j = if j = k then some v else l.lookup j := by
  induction l with
  | nil =>
    by_cases h : j = k <;> simp [setEntries, h]
  | cons e l ih =>
    obtain ⟨i, w⟩ := e
    rw [setEntries]
    by_cases hi : i = k
    · by_cases hj : j = k
      · simp [hi, hj]
      · simp [hi, hj, List.lookup_cons, beq_false_of_ne hj]
    · by_cases hji : j = i
      · subst hji
        simp [hi]
      · simp only [hi, if_false, List.lookup_cons, beq_false_of_ne hji]
        exact ih

/-- `set`. -/
def set (m : OrderedMap κ ν) (k : κ) (v : ν) : OrderedMap κ ν :=
  ⟨setEntries k v m.entries, nodup_setEntries m.nodup⟩

/-- `delete`. -/
def delete (m : OrderedMap κ ν) (k : κ) : OrderedMap κ ν :=
  ⟨m.entries.filter fun e => e.1 ≠ k, m.nodup.sublist (List.Sublist.map _ filter_sublist)⟩

/-- `new Map(entries)`: the pairs are set one after the other. -/
def ofEntries (l : List (κ × ν)) : OrderedMap κ ν := l.foldl (fun m e => m.set e.1 e.2) empty

/-! ## Entries and lookups -/

theorem mem_entries_iff : (k, v) ∈ m.entries ↔ m.get? k = some v := by
  obtain ⟨l, hl⟩ := m
  show (k, v) ∈ l ↔ l.lookup k = some v
  induction l with
  | nil => simp
  | cons e l ih =>
    obtain ⟨i, w⟩ := e
    rw [map_cons, nodup_cons] at hl
    by_cases hk : k = i
    · subst hk
      rw [lookup_cons_self, some_inj, mem_cons]
      constructor
      · rintro (h | h)
        · exact (congrArg Prod.snd h).symm
        · exact absurd (List.mem_map_of_mem (f := Prod.fst) h) hl.1
      · intro h
        rw [h]
        exact Or.inl rfl
    · rw [List.lookup_cons, beq_false_of_ne hk, mem_cons]
      rw [← ih hl.2]
      exact or_iff_right fun h => hk (congrArg Prod.fst h)

theorem mem_keys_iff : k ∈ m.keys ↔ ∃ v, m.get? k = some v := by
  rw [keys, List.mem_map]
  constructor
  · rintro ⟨⟨i, v⟩, he, rfl⟩
    exact ⟨v, mem_entries_iff.mp he⟩
  · rintro ⟨v, hv⟩
    exact ⟨(k, v), mem_entries_iff.mpr hv, rfl⟩

theorem get?_eq_none_iff : m.get? k = none ↔ k ∉ m.keys := by
  rw [mem_keys_iff]
  cases m.get? k <;> simp

@[simp] theorem has_eq_true_iff : m.has k = true ↔ k ∈ m.keys := by
  rw [has, isSome_iff_exists, mem_keys_iff]

@[simp] theorem has_eq_false_iff : m.has k = false ↔ k ∉ m.keys := by
  rw [← has_eq_true_iff, Bool.not_eq_true]

theorem has_congr (h : m.keys = n.keys) (k : κ) : m.has k = n.has k := by
  rw [Bool.eq_iff_iff, has_eq_true_iff, has_eq_true_iff, h]

theorem mem_values_iff : v ∈ m.values ↔ ∃ k, m.get? k = some v := by
  rw [values, List.mem_map]
  constructor
  · rintro ⟨⟨k, w⟩, he, rfl⟩
    exact ⟨k, mem_entries_iff.mp he⟩
  · rintro ⟨k, hk⟩
    exact ⟨(k, v), mem_entries_iff.mpr hk, rfl⟩

theorem get?_set (m : OrderedMap κ ν) (k j : κ) (v : ν) :
    (m.set k v).get? j = if j = k then some v else m.get? j := lookup_setEntries

@[simp] theorem get?_set_self (m : OrderedMap κ ν) (k : κ) (v : ν) :
    (m.set k v).get? k = some v := by
  rw [get?_set, if_pos rfl]

theorem get?_set_of_ne (m : OrderedMap κ ν) (h : j ≠ k) (v : ν) :
    (m.set k v).get? j = m.get? j := by
  rw [get?_set, if_neg h]

theorem mem_keys_set : j ∈ (m.set k v).keys ↔ j = k ∨ j ∈ m.keys := fst_mem_setEntries

theorem get?_delete (m : OrderedMap κ ν) (k j : κ) :
    (m.delete k).get? j = if j = k then none else m.get? j := by
  obtain ⟨l, hl⟩ := m
  show (l.filter fun e => e.1 ≠ k).lookup j = if j = k then none else l.lookup j
  clear hl
  induction l with
  | nil => simp
  | cons e l ih =>
    obtain ⟨i, w⟩ := e
    by_cases hi : i = k
    · rw [filter_cons_of_neg (by simpa using hi), ih]
      by_cases hj : j = k
      · simp [hj]
      · rw [if_neg hj, if_neg hj, List.lookup_cons, beq_false_of_ne (hi ▸ hj)]
    · rw [filter_cons_of_pos (by simpa using hi), List.lookup_cons, List.lookup_cons]
      by_cases hji : j = i
      · rw [hji, if_neg hi, beq_self_eq_true]
      · rw [beq_false_of_ne hji]
        exact ih

@[simp] theorem get?_delete_self (m : OrderedMap κ ν) (k : κ) : (m.delete k).get? k = none := by
  rw [get?_delete, if_pos rfl]

theorem get?_delete_of_ne (m : OrderedMap κ ν) (h : j ≠ k) : (m.delete k).get? j = m.get? j := by
  rw [get?_delete, if_neg h]

theorem mem_keys_delete : j ∈ (m.delete k).keys ↔ j ≠ k ∧ j ∈ m.keys := by
  rw [mem_keys_iff, mem_keys_iff, get?_delete]
  by_cases h : j = k <;> simp [h]

/-! ## The order of the entries -/

/-- A new key goes to the end. -/
theorem entries_set_of_notMem (h : k ∉ m.keys) (v : ν) :
    (m.set k v).entries = m.entries ++ [(k, v)] := by
  obtain ⟨l, hl⟩ := m
  show setEntries k v l = l ++ [(k, v)]
  have h' : k ∉ l.map Prod.fst := h
  clear h hl
  induction l with
  | nil => rfl
  | cons e l ih =>
    rw [map_cons, mem_cons, not_or] at h'
    rw [setEntries, if_neg fun he => h'.1 he.symm, ih h'.2, cons_append]

/-- A key that is there stays where it stands. -/
theorem keys_set_of_mem (h : k ∈ m.keys) (v : ν) : (m.set k v).keys = m.keys := by
  obtain ⟨l, hl⟩ := m
  show (setEntries k v l).map Prod.fst = l.map Prod.fst
  have h' : k ∈ l.map Prod.fst := h
  clear h hl
  induction l with
  | nil => cases h'
  | cons e l ih =>
    rw [setEntries]
    split
    · next he => rw [map_cons, map_cons, he]
    · next he =>
      rw [map_cons, mem_cons] at h'
      rw [map_cons, map_cons, ih (h'.resolve_left fun hk => he hk.symm)]

/-- The order of the keys and the value of each determine a map. -/
theorem ext_get? (hk : m.keys = n.keys) (hv : ∀ k, m.get? k = n.get? k) :
    m = n := by
  refine ext ?_
  have hlen : m.entries.length = n.entries.length := by
    have := congrArg List.length hk
    rwa [keys, keys, length_map, length_map] at this
  refine ext_getElem hlen fun i h₁ h₂ => ?_
  have hfst : m.entries[i].1 = n.entries[i].1 := by
    have hi : m.keys[i]? = n.keys[i]? := by rw [hk]
    rw [keys, keys, getElem?_map, getElem?_map, getElem?_eq_getElem h₁,
      getElem?_eq_getElem h₂] at hi
    exact some_inj.mp hi
  have hm := mem_entries_iff.mp (show (m.entries[i].1, m.entries[i].2) ∈ m.entries from
    getElem_mem h₁)
  have hn := mem_entries_iff.mp (show (n.entries[i].1, n.entries[i].2) ∈ n.entries from
    getElem_mem h₂)
  rw [hv, hfst, hn, some_inj] at hm
  exact Prod.ext hfst hm.symm

theorem get?_mk_cons {e : κ × ν} (h : ((e :: l).map Prod.fst).Nodup) (k : κ) :
    (mk (e :: l) h).get? k =
      if k = e.1 then some e.2 else (mk l (nodup_cons.mp h).2).get? k := by
  obtain ⟨i, v⟩ := e
  rw [get?, get?, List.lookup_cons]
  by_cases hk : k = i
  · rw [if_pos hk, beq_iff_eq.mpr hk]
  · rw [if_neg hk, beq_eq_false_iff_ne.mpr hk]

/-- The removal of a key that is not there. -/
theorem delete_eq_self (h : m.has k = false) : m.delete k = m := by
  apply ext
  show m.entries.filter (fun e => e.1 ≠ k) = m.entries
  rw [filter_eq_self]
  rintro e he
  have hne : e.1 ≠ k := by
    rintro rfl
    have hget := mem_entries_iff.mp he
    rw [has, hget] at h
    cases h
  simpa using hne

/-- Setting the value that is there changes nothing. -/
theorem set_eq_self (h : m.get? k = some v) :
    m.set k v = m := by
  refine ext_get? (keys_set_of_mem (mem_keys_iff.mpr ⟨v, h⟩) v) fun j => ?_
  rw [get?_set]
  split
  · next hj => rw [hj, h]
  · rfl

/-! ## Updates of one value -/

/-- Change the value of a key, which is `init` where there is none. -/
def update (m : OrderedMap κ ν) (k : κ) (init : ν) (f : ν → ν) : OrderedMap κ ν :=
  m.set k (f ((m.get? k).getD init))

theorem get?_update (m : OrderedMap κ ν) (k j : κ) (init : ν) (f : ν → ν) :
    (m.update k init f).get? j =
      if j = k then some (f ((m.get? k).getD init)) else m.get? j := get?_set m k j _

/-- A key joins the others at the end, unless it is there already. -/
def addKey (ks : List κ) (k : κ) : List κ := if k ∈ ks then ks else ks ++ [k]

theorem keys_set (m : OrderedMap κ ν) (k : κ) (v : ν) : (m.set k v).keys = addKey m.keys k := by
  unfold addKey
  split
  · next h => exact keys_set_of_mem h v
  · next h => rw [keys, entries_set_of_notMem h, map_append, map_singleton, ← keys]

/-! ## Maps from lists of pairs -/

theorem keys_foldl_set (l : List (κ × ν)) (m : OrderedMap κ ν) :
    (l.foldl (fun m e => m.set e.1 e.2) m).keys = (l.map Prod.fst).foldl addKey m.keys := by
  induction l generalizing m with
  | nil => rfl
  | cons e l ih => rw [foldl_cons, ih, keys_set, map_cons, foldl_cons]

/-- The value of the last pair with a key. -/
def lastValue : List (κ × ν) → κ → Option ν
  | [], _ => none
  | e :: l, k => (lastValue l k).or (if e.1 = k then some e.2 else none)

theorem lastValue_append (l l' : List (κ × ν)) (k : κ) :
    lastValue (l ++ l') k = (lastValue l' k).or (lastValue l k) := by
  induction l with
  | nil => rw [List.nil_append, lastValue, or_none]
  | cons e l ih => rw [cons_append, lastValue, ih, lastValue, Option.or_assoc]

theorem lastValue_concat (l : List (κ × ν)) (k : κ) (v : ν) :
    lastValue (l ++ [(k, v)]) k = some v := by
  rw [lastValue_append, lastValue, if_pos rfl]
  rfl

theorem mem_of_lastValue (h : lastValue l k = some v) : (k, v) ∈ l := by
  induction l with
  | nil => cases h
  | cons e l ih =>
    rw [lastValue, or_eq_some_iff] at h
    rcases h with h | ⟨-, h⟩
    · exact mem_cons_of_mem _ (ih h)
    · split at h
      · next hi =>
        rw [some_inj] at h
        exact hi ▸ h ▸ mem_cons_self
      · cases h

theorem lastValue_eq_none_iff :
    lastValue l k = none ↔ k ∉ l.map Prod.fst := by
  induction l with
  | nil => exact iff_of_true rfl not_mem_nil
  | cons e l ih =>
    rw [lastValue, or_eq_none_iff, ih, map_cons]
    by_cases h : e.1 = k
    · simp [h]
    · simp [h, Ne.symm h]

theorem get?_foldl_set (l : List (κ × ν)) (m : OrderedMap κ ν) (k : κ) :
    (l.foldl (fun m e => m.set e.1 e.2) m).get? k = (lastValue l k).or (m.get? k) := by
  induction l generalizing m with
  | nil => rfl
  | cons e l ih =>
    rw [foldl_cons, ih, lastValue, Option.or_assoc, get?_set]
    by_cases hk : k = e.1
    · rw [if_pos hk, if_pos hk.symm, some_or]
    · rw [if_neg hk, if_neg (Ne.symm hk), none_or]

/-- A map built from a list of pairs keeps the last value of each key. -/
theorem get?_ofEntries (l : List (κ × ν)) (k : κ) : (ofEntries l).get? k = lastValue l k := by
  rw [ofEntries, get?_foldl_set, get?_empty, or_none]

theorem entries_foldl_set (h : (m.keys ++ l.map Prod.fst).Nodup) :
    (l.foldl (fun m e => m.set e.1 e.2) m).entries = m.entries ++ l := by
  induction l generalizing m with
  | nil => simp
  | cons e l ih =>
    have hsplit := nodup_append.mp h
    have hnew : e.1 ∉ m.keys := fun hm =>
      hsplit.2.2 e.1 hm e.1 (List.mem_map_of_mem mem_cons_self) rfl
    have hentries := entries_set_of_notMem hnew e.2
    rw [foldl_cons, ih, hentries, append_assoc]
    · rfl
    · rw [keys, hentries, map_append, append_assoc]
      exact h

/-- When no key repeats, the entries are the list itself. -/
theorem entries_ofEntries (h : (l.map Prod.fst).Nodup) : (ofEntries l).entries = l := by
  rw [ofEntries, entries_foldl_set (by simpa using h)]
  rfl

theorem ofEntries_entries (m : OrderedMap κ ν) : ofEntries m.entries = m :=
  ext (entries_ofEntries m.nodup)

theorem lastValue_eq_some_iff (h : (l.map Prod.fst).Nodup) :
    lastValue l k = some v ↔ (k, v) ∈ l := by
  rw [← get?_ofEntries, ← mem_entries_iff, entries_ofEntries h]

/-! ## Changed values -/

theorem get?_mapValues (m : OrderedMap κ ν) (k : κ) :
    (m.mapValues f).get? k = (m.get? k).map f := by
  obtain ⟨l, hl⟩ := m
  show (l.map fun e => (e.1, f e.2)).lookup k = (l.lookup k).map f
  clear hl
  induction l with
  | nil => rfl
  | cons e l ih =>
    rw [map_cons, List.lookup_cons, List.lookup_cons, ih]
    split <;> rfl

theorem mapValues_set (m : OrderedMap κ ν) (k : κ) (v : ν) :
    (m.set k v).mapValues f = (m.mapValues f).set k (f v) := by
  obtain ⟨l, hl⟩ := m
  refine ext ?_
  show (setEntries k v l).map _ = setEntries k (f v) (l.map _)
  clear hl
  induction l with
  | nil => rfl
  | cons e l ih =>
    rw [map_cons, setEntries, setEntries]
    by_cases he : e.1 = k
    · rw [if_pos he, if_pos he, map_cons]
    · rw [if_neg he, if_neg he, map_cons, ih]

theorem mapValues_delete (m : OrderedMap κ ν) (k : κ) :
    (m.delete k).mapValues f = (m.mapValues f).delete k := by
  refine ext ?_
  show (m.entries.filter _).map _ = (m.entries.map _).filter _
  rw [List.filter_map]
  rfl

/-! ## Deleting a list of keys -/

theorem get?_foldl_delete_eq_some {l : List κ} :
    (l.foldl (fun m j => m.delete j) m).get? k = some v ↔ k ∉ l ∧ m.get? k = some v := by
  induction l generalizing m with
  | nil => simp
  | cons j l ih =>
    rw [foldl_cons, ih, get?_delete]
    by_cases hj : k = j
    · simp [hj]
    · simp [hj]

/-! ## The last value of a key in parts of a list -/

theorem lastValue_entries (m : OrderedMap κ ν) (k : κ) : lastValue m.entries k = m.get? k := by
  rw [← get?_ofEntries, ofEntries_entries]

theorem lastValue_map (l : List (κ × ν)) (k : κ) :
    lastValue (l.map fun e => (e.1, f e.2)) k = (lastValue l k).map f := by
  induction l with
  | nil => rfl
  | cons e l ih =>
    rw [map_cons, lastValue, ih, lastValue]
    rcases lastValue l k with _ | v
    · by_cases h : e.1 = k <;> simp [h]
    · rfl

/-- The end of a list has the last value of each of its keys. -/
theorem lastValue_drop (l : List (κ × ν)) (n : ℕ) (k : κ) : lastValue (l.drop n) k =
      if k ∈ (l.map Prod.fst).drop n then lastValue l k else none := by
  rw [← map_drop]
  split
  · next h =>
    conv_rhs => rw [← take_append_drop n l, lastValue_append]
    rcases hv : lastValue (l.drop n) k with _ | v
    · exact absurd h (lastValue_eq_none_iff.mp hv)
    · rfl
  · next h => exact lastValue_eq_none_iff.mpr h

/-- A filter that keeps the keys, on a list that repeats none. -/
theorem lastValue_filterMap {f : κ × ν → Option (κ × μ)} (hl : (l.map Prod.fst).Nodup)
    (hf : ∀ e ∈ l, ∀ e', f e = some e' → e'.1 = e.1) (k : κ) :
    lastValue (l.filterMap f) k = (lastValue l k).bind fun v => (f (k, v)).map Prod.snd := by
  induction l with
  | nil => rfl
  | cons e l ih =>
    obtain ⟨i, v⟩ := e
    rw [map_cons, nodup_cons] at hl
    have ih := ih hl.2 (forall_mem_cons.mp hf).2
    have hi := hf (i, v) mem_cons_self
    by_cases hk : i = k
    · subst hk
      have hnone := lastValue_eq_none_iff.mpr hl.1
      rw [hnone] at ih
      rw [lastValue, hnone, if_pos rfl, none_or, bind_some]
      rcases he : f (i, v) with _ | ⟨j, w⟩
      · rw [filterMap_cons_none he, ih]
        rfl
      · have hj : j = i := hi _ he
        rw [filterMap_cons_some he, lastValue, ih, if_pos hj]
        rfl
    · rw [lastValue, if_neg hk, or_none]
      rcases he : f (i, v) with _ | ⟨j, w⟩
      · rw [filterMap_cons_none he, ih]
      · have hj : j = i := hi _ he
        rw [filterMap_cons_some he, lastValue, ih, if_neg (by rw [hj]; exact hk), or_none]

/-! ## Lists that repeat keys -/

theorem ofEntries_concat (l : List (κ × ν)) (e : κ × ν) :
    ofEntries (l ++ [e]) = (ofEntries l).set e.1 e.2 := by
  rw [ofEntries, foldl_append]
  rfl

theorem mem_keys_ofEntries : k ∈ (ofEntries l).keys ↔ k ∈ l.map Prod.fst := by
  rw [← not_iff_not, ← get?_eq_none_iff, get?_ofEntries, lastValue_eq_none_iff]

theorem delete_set (m : OrderedMap κ ν) (k j : κ) (v : ν) :
    (m.set k v).delete j = if k = j then m.delete j else (m.delete j).set k v := by
  have hlist : ∀ l : List (κ × ν), (setEntries k v l).filter (fun e => e.1 ≠ j) =
      if k = j then l.filter (fun e => e.1 ≠ j)
      else setEntries k v (l.filter fun e => e.1 ≠ j) := by
    intro l
    induction l with
    | nil =>
      by_cases hkj : k = j
      · rw [if_pos hkj, setEntries, filter_cons_of_neg (by simpa using hkj)]
      · rw [if_neg hkj, setEntries, filter_cons_of_pos (by simpa using hkj)]
        rfl
    | cons e l ih =>
      rw [setEntries]
      by_cases hek : e.1 = k
      · rw [if_pos hek]
        by_cases hkj : k = j
        · rw [if_pos hkj, filter_cons_of_neg (by simpa using hkj),
            filter_cons_of_neg (by simp [hek, hkj])]
        · rw [if_neg hkj, filter_cons_of_pos (by simpa using hkj),
            filter_cons_of_pos (by simp [hek, hkj]), setEntries, if_pos hek]
      · rw [if_neg hek]
        by_cases hej : e.1 = j
        · rw [filter_cons_of_neg (by simpa using hej), ih, filter_cons_of_neg (by simpa using hej)]
        · rw [filter_cons_of_pos (by simpa using hej), ih, filter_cons_of_pos (by simpa using hej)]
          by_cases hkj : k = j
          · rw [if_pos hkj, if_pos hkj]
          · rw [if_neg hkj, if_neg hkj, setEntries, if_neg hek]
  refine ext ?_
  show (setEntries k v m.entries).filter (fun e => e.1 ≠ j) = _
  rw [hlist]
  split <;> rfl

/-- Deleting a key from a map of pairs leaves the map of the other pairs. -/
theorem delete_ofEntries (l : List (κ × ν)) (k : κ) :
    (ofEntries l).delete k = ofEntries (l.filter fun e => e.1 ≠ k) := by
  induction l using List.reverseRecOn with
  | nil => rfl
  | append_singleton l e ih =>
    rw [ofEntries_concat, delete_set, ih, filter_append]
    by_cases hk : e.1 = k
    · rw [if_pos hk, filter_cons_of_neg (by simpa using hk), filter_nil, append_nil]
    · rw [if_neg hk, filter_cons_of_pos (by simpa using hk), filter_nil, ofEntries_concat]

theorem keys_ofEntries_perm (l : List (κ × ν)) :
    (ofEntries l).keys.Perm (l.map Prod.fst).dedup := by
  rw [perm_ext_iff_of_nodup (nodup_keys _) (nodup_dedup _)]
  intro k
  rw [mem_keys_ofEntries, mem_dedup]

/-- A map of pairs has as many entries as there are pairs when no key repeats, else fewer. -/
theorem length_ofEntries_le (l : List (κ × ν)) : (ofEntries l).entries.length ≤ l.length := by
  have hlen := (keys_ofEntries_perm l).length_eq
  rw [keys, length_map] at hlen
  rw [hlen, ← length_map Prod.fst]
  exact (dedup_sublist _).length_le

theorem length_ofEntries_eq_iff :
    (ofEntries l).entries.length = l.length ↔ (l.map Prod.fst).Nodup := by
  have hlen := (keys_ofEntries_perm l).length_eq
  rw [keys, length_map] at hlen
  rw [hlen, ← length_map Prod.fst, ← dedup_eq_self]
  exact ⟨fun h => (dedup_sublist _).eq_of_length h, fun h => by rw [h]⟩

theorem prefix_foldl_addKey (l ks : List κ) : ks <+: l.foldl addKey ks := by
  induction l generalizing ks with
  | nil => exact prefix_rfl
  | cons k l ih =>
    refine List.IsPrefix.trans ?_ (ih (addKey ks k))
    unfold addKey
    split
    · exact prefix_rfl
    · exact prefix_append _ _

/-- The first key of a list of pairs is the first key of their map. -/
theorem head?_keys_ofEntries (e : κ × ν) (l : List (κ × ν)) :
    (ofEntries (e :: l)).keys.head? = some e.1 := by
  have hkeys : (ofEntries (e :: l)).keys = (l.map Prod.fst).foldl addKey [e.1] := by
    rw [ofEntries, keys_foldl_set]
    rfl
  obtain ⟨t, ht⟩ := prefix_foldl_addKey (l.map Prod.fst) [e.1]
  rw [hkeys, ← ht]
  rfl

/-- Two pairs with the first key, one after the other, are one. -/
theorem ofEntries_cons_cons {x y : κ × ν} (h : x.1 = y.1) (l : List (κ × ν)) :
    ofEntries (y :: x :: l) = ofEntries (x :: l) := by
  have hset : (empty.set y.1 y.2).set x.1 x.2 = empty.set x.1 x.2 := by
    refine ext ?_
    show setEntries x.1 x.2 [(y.1, y.2)] = [(x.1, x.2)]
    rw [setEntries, if_pos h.symm]
  rw [ofEntries, ofEntries, foldl_cons, foldl_cons, foldl_cons, hset]

/-- **When the reverse of a map of reversed pairs is a first part of a list** that the pairs start:
no key repeats, and the part is all of the pairs and of the list or ends where they do, or the
part ends just before the last pair, which has the key of the one before it. -/
theorem reverse_ofEntries_reverse_eq_take_iff {m : List (κ × ν)} {n : ℕ} (hl : l.length ≤ n + 1) :
    (ofEntries l.reverse).entries.reverse = (l ++ m).take n ↔
      ((l.map Prod.fst).Nodup ∧ (l.length = n ∨ l.length ≤ n ∧ m = [])) ∨
      ∃ c x y, l = c ++ [x, y] ∧ c.length + 1 = n ∧ x.1 = y.1 ∧
        ((c ++ [x]).map Prod.fst).Nodup := by
  have hreverse : ((l.reverse).map Prod.fst).Nodup ↔ (l.map Prod.fst).Nodup := by
    rw [map_reverse, nodup_reverse]
  have hle := length_ofEntries_le l.reverse
  rw [length_reverse] at hle
  constructor
  · intro h
    have hlen := congrArg List.length h
    rw [length_reverse, length_take, length_append] at hlen
    rcases Nat.lt_or_ge n l.length with hlt | hge
    · -- one pair too many: its key has to be that of the pair before it
      right
      obtain ⟨l₀, y, rfl⟩ := (eq_nil_or_concat' l).resolve_left (by
        rintro rfl
        exact absurd hlt (Nat.not_lt_zero n))
      rw [length_append, length_singleton] at hl hlt hlen
      have htake : (l₀ ++ [y] ++ m).take n = l₀ := by
        rw [append_assoc]
        exact take_left' (by omega)
      rw [htake, reverse_append, reverse_singleton, singleton_append] at h
      have hentries : (ofEntries (y :: l₀.reverse)).entries = l₀.reverse := by
        rw [← reverse_reverse (ofEntries (y :: l₀.reverse)).entries, h]
      have hkeys : (ofEntries (y :: l₀.reverse)).keys = (l₀.map Prod.fst).reverse := by
        rw [keys, hentries, map_reverse]
      have hhead := head?_keys_ofEntries y l₀.reverse
      rw [hkeys, head?_reverse] at hhead
      obtain ⟨c, x, rfl⟩ := (eq_nil_or_concat' l₀).resolve_left (by
        rintro rfl
        cases hhead)
      rw [map_append, map_singleton, getLast?_append, getLast?_singleton,
        some_or, some_inj] at hhead
      refine ⟨c, x, y, by rw [append_assoc]; rfl, ?_, hhead, ?_⟩
      · rw [length_append, length_singleton] at hl hlt
        omega
      · have hnodup := nodup_keys (ofEntries (y :: (c ++ [x]).reverse))
        rwa [hkeys, nodup_reverse] at hnodup
    · left
      have heq : (ofEntries l.reverse).entries.length = l.reverse.length := by
        rw [length_reverse]
        omega
      refine ⟨hreverse.mp (length_ofEntries_eq_iff.mp heq), ?_⟩
      rcases Nat.lt_or_ge l.length n with hlt | hge'
      · refine Or.inr ⟨hge, length_eq_zero_iff.mp (by omega)⟩
      · exact Or.inl (Nat.le_antisymm hge hge')
  · rintro (⟨hnodup, hcase⟩ | ⟨c, x, y, rfl, hc, hxy, hnodup⟩)
    · rw [entries_ofEntries (hreverse.mpr hnodup), reverse_reverse]
      rcases hcase with hlen | ⟨hlen, rfl⟩
      · exact (take_left' hlen).symm
      · rw [append_nil, take_of_length_le hlen]
    · have hreversed : (c ++ [x, y]).reverse = y :: x :: c.reverse := by simp
      have hcons : x :: c.reverse = (c ++ [x]).reverse := by simp
      have hnodup' : (((c ++ [x]).reverse).map Prod.fst).Nodup := by
        rw [map_reverse, nodup_reverse]
        exact hnodup
      have hassoc : c ++ [x, y] ++ m = (c ++ [x]) ++ (y :: m) := by simp
      rw [hreversed, ofEntries_cons_cons hxy, hcons, entries_ofEntries hnodup',
        reverse_reverse, hassoc]
      exact (take_left' (by simpa using hc)).symm

/-! ## Maps built and folded by key -/

/-- The values changed, each with its key. -/
def mapEntries {μ : Type*} (f : κ → ν → μ) (m : OrderedMap κ ν) : OrderedMap κ μ :=
  ⟨m.entries.map fun e => (e.1, f e.1 e.2), by
    rw [List.map_map]
    exact m.nodup⟩

theorem get?_mapEntries (f : κ → ν → μ) (m : OrderedMap κ ν) (k : κ) :
    (m.mapEntries f).get? k = (m.get? k).map (f k) := by
  obtain ⟨l, hl⟩ := m
  induction l with
  | nil => rfl
  | cons e l ih =>
    have hmap := get?_mk_cons (mapEntries f ⟨e :: l, hl⟩).nodup k
    refine hmap.trans ?_
    rw [get?_mk_cons hl]
    by_cases hk : k = e.1
    · rw [if_pos hk, if_pos hk, hk]
      rfl
    · rw [if_neg hk, if_neg hk]
      exact ih (nodup_cons.mp hl).2

/-- The map of the keys that have a value, in their order. -/
def build (ks : List κ) (f : κ → Option ν) : OrderedMap κ ν :=
  ks.foldl (fun m k => (f k).elim m (m.set k)) empty

theorem get?_build (ks : List κ) (f : κ → Option ν) (k : κ) :
    (build ks f).get? k = if k ∈ ks then f k else none := by
  have hfold : ∀ m : OrderedMap κ ν, (ks.foldl (fun m k => (f k).elim m (m.set k)) m).get? k =
      ((if k ∈ ks then f k else none).or (m.get? k)) := by
    induction ks with
    | nil => exact fun m => rfl
    | cons j ks ih =>
      intro m
      rw [foldl_cons, ih]
      cases hj : f j with
      | none =>
        rw [elim_none]
        by_cases hk : k = j
        · subst hk
          rw [hj, ite_self, ite_self]
        · simp only [mem_cons, hk, false_or]
      | some v =>
        rw [elim_some, get?_set]
        by_cases hk : k = j
        · subst hk
          rw [hj, if_pos rfl, if_pos mem_cons_self]
          split
          · rfl
          · rfl
        · simp only [mem_cons, hk, false_or, if_false]
  rw [build, hfold, get?_empty, or_none]

/-- **A fold over a map, seen one key at a time.**  When a step of the fold changes only what is seen
at its own key, the whole fold has made one step at every key of the map. -/
theorem view_foldl {σ ε : Type*} (view : σ → κ → ε) {f : σ → κ × ν → σ} (g : κ → ν → ε → ε)
    (hself : ∀ s e, view (f s e) e.1 = g e.1 e.2 (view s e.1))
    (hother : ∀ s e j, j ≠ e.1 → view (f s e) j = view s j) (m : OrderedMap κ ν) (s : σ) (k : κ) :
    view (m.entries.foldl f s) k = ((m.get? k).map fun v => g k v (view s k)).getD (view s k) := by
  obtain ⟨l, hl⟩ := m
  induction l generalizing s with
  | nil => rfl
  | cons e l ih =>
    refine (ih (f s e) (nodup_cons.mp hl).2).trans ?_
    rw [get?_mk_cons hl]
    by_cases hk : k = e.1
    · subst hk
      have hnone : (OrderedMap.mk l (nodup_cons.mp hl).2).get? e.1 = none :=
        get?_eq_none_iff.mpr (nodup_cons.mp hl).1
      rw [hnone, if_pos rfl]
      exact hself s e
    · rw [if_neg hk, hother s e k hk]

/-! ## Updates addressed by key -/

/-- What is addressed to the key, in order. -/
def addressed {ε : Type*} (k : κ) (l : List (κ × ε)) : List ε :=
  l.filterMap fun e => if e.1 = k then some e.2 else none

theorem addressed_cons {ε : Type*} (k : κ) (e : κ × ε) (l : List (κ × ε)) :
    addressed k (e :: l) = if e.1 = k then e.2 :: addressed k l else addressed k l := by
  rw [addressed, filterMap_cons]
  by_cases hk : e.1 = k
  · rw [if_pos hk, if_pos hk]
    rfl
  · rw [if_neg hk, if_neg hk]
    rfl

/-- **Updates that are addressed by key do not see each other.**  However the updates of the keys
are interleaved, the value of a key is what its own updates make of it. -/
theorem get?_foldl_alter {ε : Type*} (f : ε → Option ν → ν) (l : List (κ × ε))
    (m : OrderedMap κ ν) (k : κ) :
    (l.foldl (fun m e => m.set e.1 (f e.2 (m.get? e.1))) m).get? k =
      (addressed k l).foldl (fun o e => some (f e o)) (m.get? k) := by
  induction l generalizing m with
  | nil => rfl
  | cons e l ih =>
    rw [foldl_cons, ih, get?_set, addressed_cons]
    by_cases hk : k = e.1
    · rw [if_pos hk, if_pos hk.symm, hk]
      rfl
    · rw [if_neg hk, if_neg (Ne.symm hk)]

end OrderedMap
end Library
