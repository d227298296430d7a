import Mathlib.Algebra.BigOperators.Group.List.Basic
import Mathlib.Algebra.Order.Group.Multiset
import DdTrace.Library.OrderedMap

/-!
# Passes over a map

`mapAccum f m s` runs through the entries of a map in their order.  Each step gives the entry a new
value and hands a state to the next one; it may fail.

* `keys_mapAccum`: the keys stay, in their order.
* `get?_mapAccum`: where the steps for the other keys leave alone what of the state is read for one
  key, the pass does with that key what a single step does.
* `sum_update`, `perm_flatMap_update`: a sum over the entries grows by what the update of one value
  adds, and so does what the entries amount to together.
-/

namespace Library.OrderedMap

open List Option

variable {κ ν μ σ τ : Type*} {f : κ → ν → σ → Option (μ × σ)}

/-- The pass over a list of entries. -/
def mapAccumEntries (f : κ → ν → σ → Option (μ × σ)) : List (κ × ν) → σ → Option (List (κ × μ) × σ)
  | [], s => some ([], s)
  | e :: l, s =>
    (f e.1 e.2 s).bind fun (v, t) =>
      (mapAccumEntries f l t).map fun (l', u) => ((e.1, v) :: l', u)

variable {s t : σ} {l : List (κ × ν)} {l' : List (κ × μ)} {m : OrderedMap κ ν} {m' : OrderedMap κ μ}

theorem mapAccumEntries_cons_eq_some {e : κ × ν} {u : σ} :
    mapAccumEntries f (e :: l) s = some (l', u) ↔
      ∃ v t rest, f e.1 e.2 s = some (v, t) ∧ mapAccumEntries f l t = some (rest, u) ∧
        l' = (e.1, v) :: rest := by
  rw [mapAccumEntries, bind_eq_some_iff]
  constructor
  · rintro ⟨⟨v, t⟩, hstep, hmap⟩
    obtain ⟨⟨rest, u'⟩, hrest, heq⟩ := map_eq_some_iff.mp hmap
    obtain ⟨rfl, rfl⟩ := heq
    exact ⟨v, t, rest, hstep, hrest, rfl⟩
  · rintro ⟨v, t, rest, hstep, hrest, rfl⟩
    exact ⟨(v, t), hstep, map_eq_some_iff.mpr ⟨(rest, u), hrest, rfl⟩⟩

theorem keys_mapAccumEntries (h : mapAccumEntries f l s = some (l', t)) :
    l'.map Prod.fst = l.map Prod.fst := by
  induction l generalizing s l' with
  | nil =>
    rw [mapAccumEntries, some.injEq, Prod.mk.injEq] at h
    rw [← h.1]
    rfl
  | cons e l ih =>
    obtain ⟨v, u, rest, -, hrest, rfl⟩ := mapAccumEntries_cons_eq_some.mp h
    rw [map_cons, map_cons, ih hrest]

variable (proj : σ → τ)

/-- What no step changes, the pass does not change. -/
theorem frame_mapAccumEntries
    (hframe : ∀ e ∈ l, ∀ s v t, f e.1 e.2 s = some (v, t) → proj t = proj s)
    (h : mapAccumEntries f l s = some (l', t)) : proj t = proj s := by
  induction l generalizing s l' with
  | nil =>
    rw [mapAccumEntries, some.injEq, Prod.mk.injEq] at h
    rw [h.2]
  | cons e l ih =>
    obtain ⟨v, u, rest, hstep, hrest, -⟩ := mapAccumEntries_cons_eq_some.mp h
    rw [ih (forall_mem_cons.mp hframe).2 hrest]
    exact hframe e mem_cons_self _ _ _ hstep

theorem mem_mapAccumEntries (hnodup : (l.map Prod.fst).Nodup) {k : κ} {v : ν} (hmem : (k, v) ∈ l)
    (hframe : ∀ e ∈ l, e.1 ≠ k → ∀ s v t, f e.1 e.2 s = some (v, t) → proj t = proj s)
    (h : mapAccumEntries f l s = some (l', t)) :
    ∃ before v' after, proj before = proj s ∧ f k v before = some (v', after) ∧ (k, v') ∈ l' ∧
      proj t = proj after := by
  induction l generalizing s l' with
  | nil => exact absurd hmem not_mem_nil
  | cons e l ih =>
    obtain ⟨w, u, rest, hstep, hrest, rfl⟩ := mapAccumEntries_cons_eq_some.mp h
    rw [map_cons, nodup_cons] at hnodup
    rcases mem_cons.mp hmem with rfl | hmem
    · refine ⟨s, w, u, rfl, hstep, mem_cons_self, frame_mapAccumEntries proj (fun e' he' => ?_) hrest⟩
      refine hframe e' (mem_cons_of_mem _ he') fun heq => hnodup.1 ?_
      exact List.mem_map.mpr ⟨e', he', heq⟩
    · have hne : e.1 ≠ k := fun heq => hnodup.1 (heq ▸ List.mem_map.mpr ⟨_, hmem, rfl⟩)
      obtain ⟨before, v', after, hbefore, hv', hmem', hafter⟩ :=
        ih hnodup.2 hmem (forall_mem_cons.mp hframe).2 hrest
      refine ⟨before, v', after, ?_, hv', mem_cons_of_mem _ hmem', hafter⟩
      rw [hbefore]
      exact hframe e mem_cons_self hne _ _ _ hstep

/-- A pass over the entries of a map. -/
def mapAccum (f : κ → ν → σ → Option (μ × σ)) (m : OrderedMap κ ν) (s : σ) :
    Option (OrderedMap κ μ × σ) :=
  match h : mapAccumEntries f m.entries s with
  | none => none
  | some (l, t) => some (⟨l, keys_mapAccumEntries h ▸ m.nodup⟩, t)

theorem entries_mapAccum (h : m.mapAccum f s = some (m', t)) :
    mapAccumEntries f m.entries s = some (m'.entries, t) := by
  unfold mapAccum at h
  split at h
  · cases h
  · next l u hl =>
    rw [some.injEq, Prod.mk.injEq] at h
    rw [hl, ← h.1, ← h.2]

theorem keys_mapAccum (h : m.mapAccum f s = some (m', t)) : m'.keys = m.keys :=
  keys_mapAccumEntries (entries_mapAccum h)

theorem frame_mapAccum
    (hframe : ∀ e ∈ m.entries, ∀ s v t, f e.1 e.2 s = some (v, t) → proj t = proj s)
    (h : m.mapAccum f s = some (m', t)) : proj t = proj s :=
  frame_mapAccumEntries proj hframe (entries_mapAccum h)

/-- **One key of a pass.** -/
theorem get?_mapAccum [DecidableEq κ] {k : κ} {v : ν} (hget : m.get? k = some v)
    (hframe : ∀ e ∈ m.entries, e.1 ≠ k → ∀ s v t, f e.1 e.2 s = some (v, t) → proj t = proj s)
    (h : m.mapAccum f s = some (m', t)) :
    ∃ before v' after, proj before = proj s ∧ f k v before = some (v', after) ∧
      m'.get? k = some v' ∧ proj t = proj after := by
  obtain ⟨before, v', after, hbefore, hv', hmem, hafter⟩ :=
    mem_mapAccumEntries proj m.nodup (mem_entries_iff.mpr hget) hframe (entries_mapAccum h)
  exact ⟨before, v', after, hbefore, hv', mem_entries_iff.mp hmem, hafter⟩

/-! ## Sums over the entries -/

theorem sum_setEntries [DecidableEq κ] {α : Type*} [AddCommMonoid α] {T : κ → ν → α} {new : α}
    {k : κ} {v w : ν} (hnodup : (l.map Prod.fst).Nodup) (hmem : (k, v) ∈ l)
    (hw : T k w = T k v + new) :
    ((setEntries k w l).map fun e => T e.1 e.2).sum = (l.map fun e => T e.1 e.2).sum + new := by
  induction l with
  | nil => exact absurd hmem not_mem_nil
  | cons e l ih =>
    rw [map_cons, nodup_cons] at hnodup
    by_cases hk : e.1 = k
    · have he : e = (k, v) := by
        rcases mem_cons.mp hmem with he | he
        · exact he.symm
        · exact absurd (List.mem_map.mpr ⟨_, he, rfl⟩) (hk ▸ hnodup.1)
      rw [setEntries, if_pos hk, he, map_cons, hw]
      exact add_right_comm _ _ _
    · rcases mem_cons.mp hmem with he | he
      · exact absurd (congrArg Prod.fst he).symm hk
      · rw [setEntries, if_neg hk, map_cons, map_cons, sum_cons, sum_cons,
          ih hnodup.2 he, add_assoc]

/-- **An update adds to a sum what it adds to one value.** -/
theorem sum_update [DecidableEq κ] {α : Type*} [AddCommMonoid α] {T : κ → ν → α} {new : α}
    (m : OrderedMap κ ν) (k : κ) (init : ν) (f : ν → ν) (hinit : T k init = 0)
    (hf : T k (f ((m.get? k).getD init)) = T k ((m.get? k).getD init) + new) :
    ((m.update k init f).entries.map fun e => T e.1 e.2).sum =
      (m.entries.map fun e => T e.1 e.2).sum + new := by
  cases hget : m.get? k with
  | none =>
    rw [hget, getD_none, hinit, zero_add] at hf
    have hentries : (m.update k init f).entries = m.entries ++ [(k, f init)] := by
      rw [update, hget]
      exact entries_set_of_notMem (get?_eq_none_iff.mp hget) _
    rw [hentries, map_append, sum_append, map_singleton, sum_singleton, hf]
  | some v =>
    rw [hget] at hf
    have hentries : (m.update k init f).entries = setEntries k (f v) m.entries := by
      rw [update, hget]
      rfl
    rw [hentries]
    exact sum_setEntries m.nodup (mem_entries_iff.mpr hget) hf

/-- **An update adds what it adds to one value.** -/
theorem perm_flatMap_update [DecidableEq κ] {β : Type*} {T : κ → ν → List β} {new : List β}
    (m : OrderedMap κ ν) (k : κ) (init : ν) (f : ν → ν) (hinit : T k init = [])
    (hf : (T k (f ((m.get? k).getD init))).Perm (T k ((m.get? k).getD init) ++ new)) :
    ((m.update k init f).entries.flatMap fun e => T e.1 e.2).Perm
      (m.entries.flatMap (fun e => T e.1 e.2) ++ new) := by
  have hcoe : ∀ l : List (κ × ν), (l.map fun e => (T e.1 e.2 : Multiset β)).sum =
      (l.flatMap fun e => T e.1 e.2 : List β) := by
    intro l
    induction l with
    | nil => rfl
    | cons e l ih => rw [map_cons, sum_cons, ih, flatMap_cons, Multiset.coe_add]
  have hnew : (T k (f ((m.get? k).getD init)) : Multiset β) = T k ((m.get? k).getD init) + new :=
    Multiset.coe_eq_coe.mpr hf
  have hsum := sum_update (T := fun k v => (T k v : Multiset β)) m k init f (by rw [hinit]; rfl) hnew
  rw [hcoe, hcoe, Multiset.coe_add] at hsum
  exact Multiset.coe_eq_coe.mp hsum

end Library.OrderedMap
