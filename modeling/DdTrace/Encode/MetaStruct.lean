import DdTrace.Encode.AgentEncoderTrace
import DdTrace.Encode.SpanEvents

/-!
# What is left out of a `meta_struct`

The objects below an entry of a `meta_struct` may refer to each other.  What an entry holds is a
tree all the same: one goes from an object to those it refers to, and not back to one that one is
within.  `#encodeObject` walks along this tree.  It keeps a set of the objects that it has met, to
stay out of circles, but never takes one out of it again, so that the second of two references to
one object is left out even where there is no circle.  Booleans have a place in objects; where the
items of an array and the entries of the `meta_struct` are chosen, they are forgotten.

* `Tree`, `unfold`: the tree of a value, and how it comes from the objects.
* `isSome_unfold`: among finitely many objects, every value has a tree.
* `Tree.Written`: trees of which nothing is forgotten; `Tree.refs`: the objects in a tree.
* `followsTree_objectImage`: **what is read of a value is its tree exactly when nothing is forgotten in
  it and no object is in it twice**.
* `metaStruct_iff`: the same for a `meta_struct`, from the bytes that are written.
-/

open Library

namespace DdTrace.Encode

open MsgpackChunk List Option

/-! ## Trees -/

/-- A value with the objects below it. -/
inductive Tree where
  | str (s : Str)
  | num (d : Binary64)
  | bool (b : Bool)
  | array (n : ℕ) (items : List Tree)
  | object (n : ℕ) (entries : List (Str × Tree))

namespace Tree

mutual

/-- The value itself. -/
def value : Tree → Msgpack
  | str s => .str s
  | num d => .float d
  | bool b => .bool b
  | array _ items => .array (itemValues items)
  | object _ entries => .map (entryValues entries)

def itemValues : List Tree → List Msgpack
  | [] => []
  | t :: items => t.value :: itemValues items

def entryValues : List (Str × Tree) → List (Msgpack × Msgpack)
  | [] => []
  | (k, t) :: entries => (.str k, t.value) :: entryValues entries

end

mutual

/-- The objects in a tree, each as often as it is there. -/
def refs : Tree → List ℕ
  | array n items => n :: itemRefs items
  | object n entries => n :: entryRefs entries
  | _ => []

def itemRefs : List Tree → List ℕ
  | [] => []
  | t :: items => t.refs ++ itemRefs items

def entryRefs : List (Str × Tree) → List ℕ
  | [] => []
  | (_, t) :: entries => t.refs ++ entryRefs entries

end

def isBool : Tree → Bool
  | bool _ => true
  | _ => false

mutual

/-- No array in the tree has a boolean for an item, and no key and no string has a lone surrogate.
-/
def Written : Tree → Prop
  | str s => Unicode.isWellFormed s = true
  | array _ items => ItemsWritten items
  | object _ entries => EntriesWritten entries
  | _ => True

def ItemsWritten : List Tree → Prop
  | [] => True
  | t :: items => (t.isBool = false ∧ t.Written) ∧ ItemsWritten items

def EntriesWritten : List (Str × Tree) → Prop
  | [] => True
  | (k, t) :: entries => (Unicode.isWellFormed k = true ∧ t.Written) ∧ EntriesWritten entries

end

end Tree

/-! ### The tree of a value -/

/-- A value that belongs to the tree of what it is in: it is of a supported type, and no object that
it is within. -/
def JsValue.isChild (path : List ℕ) : JsValue → Bool
  | .str _ | .num _ | .bool _ => true
  | .ref n => !path.elem n
  | .other => false

/-- The trees of the items that belong to it. -/
def unfoldItems (path : List ℕ) (unfold : JsValue → Option Tree) : List JsValue → Option (List Tree)
  | [] => some []
  | v :: items =>
    if JsValue.isChild path v then
      (unfold v).bind fun t => (unfoldItems path unfold items).map (t :: ·)
    else unfoldItems path unfold items

/-- The trees of the properties that belong to it; none if reading one of them throws. -/
def unfoldEntries (path : List ℕ) (unfold : JsValue → Option Tree) :
    List (Str × Option JsValue) → Option (List (Str × Tree))
  | [] => some []
  | (_, none) :: _ => none
  | (key, some v) :: entries =>
    if JsValue.isChild path v then
      (unfold v).bind fun t => (unfoldEntries path unfold entries).map ((key, t) :: ·)
    else unfoldEntries path unfold entries

/-- The tree of a value within the objects of `path`, if it is no deeper than `f`. -/
def unfold (objects : ℕ → JsObject) : ℕ → List ℕ → JsValue → Option Tree
  | 0, _, _ => none
  | f + 1, path, value =>
    match value with
    | .ref n =>
      match objects n with
      | .array items =>
        (unfoldItems (n :: path) (unfold objects f (n :: path)) items).map (.array n)
      | .object entries =>
        (unfoldEntries (n :: path) (unfold objects f (n :: path)) entries.entries).map (.object n)
    | .str s => some (.str s)
    | .num d => some (.num d)
    | .bool b => some (.bool b)
    | .other => none

/-! ### Trees and values -/

theorem length_itemValues (ts : List Tree) : (Tree.itemValues ts).length = ts.length := by
  induction ts with
  | nil =>
    rfl
  | cons t ts ih => rw [Tree.itemValues, length_cons, length_cons, ih]

theorem length_entryValues (ts : List (Str × Tree)) : (Tree.entryValues ts).length = ts.length := by
  induction ts with
  | nil =>
    rfl
  | cons e ts ih =>
    rw [Tree.entryValues, length_cons, length_cons, ih]

variable {visited : List ℕ} {t : Tree} {objects : ℕ → JsObject} {n : ℕ} {path : List ℕ}
  {ts : List (Str × Tree)} {after : List ℕ}

/-- The root of the tree of a reference is the object that is meant. -/
theorem mem_refs_of_unfold {f : ℕ} (h : unfold objects f path (.ref n) = some t) : n ∈ t.refs := by
  cases f with
  | zero => cases h
  | succ f =>
    rw [unfold] at h
    cases hn : objects n with
    | array items | object entries =>
      simp only [hn, map_eq_some_iff] at h
      obtain ⟨ts, -, rfl⟩ := h
      exact mem_cons_self

/-- Only a boolean is a tree of one. -/
theorem isBool_of_unfold {f : ℕ} {v : JsValue} (h : unfold objects f path v = some t) :
    t.isBool = true ↔ ∃ b, v = .bool b := by
  cases f with
  | zero => cases h
  | succ f =>
    cases v with
    | ref n =>
      rw [unfold] at h
      cases hn : objects n with
      | array items | object entries =>
        simp only [hn, map_eq_some_iff] at h
        obtain ⟨ts, -, rfl⟩ := h
        simp [Tree.isBool]
    | str s | num d | bool b =>
      cases h
      simp [Tree.isBool]
    | other => cases h

/-! ## What is kept -/

/-- Nothing is left out of the tree where the objects of `visited` have been met. -/
structure Kept (visited : List ℕ) (t : Tree) : Prop where
  written : t.Written
  nodup : t.refs.Nodup
  fresh : ∀ k ∈ t.refs, k ∉ visited

structure ItemsKept (visited : List ℕ) (ts : List Tree) : Prop where
  written : Tree.ItemsWritten ts
  nodup : (Tree.itemRefs ts).Nodup
  fresh : ∀ k ∈ Tree.itemRefs ts, k ∉ visited

structure EntriesKept (visited : List ℕ) (ts : List (Str × Tree)) : Prop where
  written : Tree.EntriesWritten ts
  nodup : (Tree.entryRefs ts).Nodup
  fresh : ∀ k ∈ Tree.entryRefs ts, k ∉ visited

/-- Two lists of objects that have not been met, one after the other. -/
theorem fresh_append_iff {l m : List ℕ} (hafter : ∀ k, k ∈ after ↔ k ∈ visited ∨ k ∈ l) :
    ((l ++ m).Nodup ∧ ∀ k ∈ l ++ m, k ∉ visited) ↔
      (l.Nodup ∧ ∀ k ∈ l, k ∉ visited) ∧ m.Nodup ∧ ∀ k ∈ m, k ∉ after := by
  rw [nodup_append, forall_mem_append]
  constructor
  · rintro ⟨⟨hl, hm, hlm⟩, hvl, hvm⟩
    refine ⟨⟨hl, hvl⟩, hm, fun k hk hka => ?_⟩
    rcases (hafter k).mp hka with h | h
    · exact hvm k hk h
    · exact hlm k h k hk rfl
  · rintro ⟨⟨hl, hvl⟩, hm, hvm⟩
    refine ⟨⟨hl, hm, ?_⟩, hvl, fun k hk hv => hvm k hk ((hafter k).mpr (.inl hv))⟩
    rintro a ha b hb rfl
    exact hvm a hb ((hafter a).mpr (.inr ha))

theorem itemsKept_cons {ts : List Tree} (hafter : ∀ k, k ∈ after ↔ k ∈ visited ∨ k ∈ t.refs) :
    ItemsKept visited (t :: ts) ↔
      t.isBool = false ∧ Kept visited t ∧ ItemsKept after ts := by
  have hfresh := fresh_append_iff (m := Tree.itemRefs ts) hafter
  constructor
  · rintro ⟨hw, hn, hf⟩
    obtain ⟨⟨hl, hvl⟩, hm, hvm⟩ := hfresh.mp ⟨hn, hf⟩
    exact ⟨hw.1.1, ⟨hw.1.2, hl, hvl⟩, hw.2, hm, hvm⟩
  · rintro ⟨hb, ⟨hw, hl, hvl⟩, hws, hm, hvm⟩
    obtain ⟨hn, hf⟩ := hfresh.mpr ⟨⟨hl, hvl⟩, hm, hvm⟩
    exact ⟨by exact ⟨⟨hb, hw⟩, hws⟩, by rwa [Tree.itemRefs], by rwa [Tree.itemRefs]⟩

theorem entriesKept_cons {k : Str} (hafter : ∀ k, k ∈ after ↔ k ∈ visited ∨ k ∈ t.refs) :
    EntriesKept visited ((k, t) :: ts) ↔
      Unicode.isWellFormed k = true ∧ Kept visited t ∧ EntriesKept after ts := by
  have hfresh := fresh_append_iff (m := Tree.entryRefs ts) hafter
  constructor
  · rintro ⟨hw, hn, hf⟩
    obtain ⟨⟨hl, hvl⟩, hm, hvm⟩ := hfresh.mp ⟨hn, hf⟩
    exact ⟨hw.1.1, ⟨hw.1.2, hl, hvl⟩, hw.2, hm, hvm⟩
  · rintro ⟨hb, ⟨hw, hl, hvl⟩, hws, hm, hvm⟩
    obtain ⟨hn, hf⟩ := hfresh.mpr ⟨⟨hl, hvl⟩, hm, hvm⟩
    exact ⟨by exact ⟨⟨hb, hw⟩, hws⟩, by rwa [Tree.entryRefs], by rwa [Tree.entryRefs]⟩

/-- The first of the trees is kept on its own. -/
theorem ItemsKept.head {ts : List Tree}
    (h : ItemsKept visited (t :: ts)) : t.isBool = false ∧ Kept visited t := by
  have hafter : ∀ k, k ∈ visited ++ t.refs ↔ k ∈ visited ∨ k ∈ t.refs := fun k => mem_append
  have hcons := (itemsKept_cons hafter).mp h
  exact ⟨hcons.1, hcons.2.1⟩

theorem EntriesKept.head {k : Str} (h : EntriesKept visited ((k, t) :: ts)) :
    Unicode.isWellFormed k = true ∧ Kept visited t := by
  have hafter : ∀ k, k ∈ visited ++ t.refs ↔ k ∈ visited ∨ k ∈ t.refs := fun k => mem_append
  have hcons := (entriesKept_cons hafter).mp h
  exact ⟨hcons.1, hcons.2.1⟩

/-- What is read of a value, beside its tree. -/
structure Matches (visited : List ℕ) (t : Tree) (r : List ℕ × Msgpack) : Prop where
  grows : ∀ k ∈ visited, k ∈ r.1
  value_iff : r.2 = t.value ↔ Kept visited t
  met : Kept visited t → ∀ k, k ∈ r.1 ↔ k ∈ visited ∨ k ∈ t.refs

/-- A reading of values beside their trees: none of them has been met. -/
def FollowsTree (path : List ℕ) (tree : JsValue → Option Tree)
    (image : List ℕ → JsValue → Option (List ℕ × Msgpack)) : Prop :=
  ∀ visited v t r, (∀ k ∈ path, k ∈ visited) → (∀ n, v = .ref n → n ∉ visited) →
    tree v = some t → image visited v = some r → Matches visited t r

structure ItemsMatch (visited : List ℕ) (ts : List Tree) (r : List ℕ × List Msgpack) : Prop where
  grows : ∀ k ∈ visited, k ∈ r.1
  length_le : r.2.length ≤ ts.length
  value_iff : r.2 = Tree.itemValues ts ↔ ItemsKept visited ts
  met : ItemsKept visited ts → ∀ k, k ∈ r.1 ↔ k ∈ visited ∨ k ∈ Tree.itemRefs ts

structure EntriesMatch (visited : List ℕ) (ts : List (Str × Tree))
    (r : List ℕ × List (Msgpack × Msgpack)) : Prop where
  grows : ∀ k ∈ visited, k ∈ r.1
  length_le : r.2.length ≤ ts.length
  value_iff : r.2 = Tree.entryValues ts ↔ EntriesKept visited ts
  met : EntriesKept visited ts → ∀ k, k ∈ r.1 ↔ k ∈ visited ∨ k ∈ Tree.entryRefs ts

section Objects

variable {objects : ℕ → JsObject} {f : ℕ} {path : List ℕ}
  {image : List ℕ → JsValue → Option (List ℕ × Msgpack)}

variable {visited : List ℕ}

/-- What is written as an item belongs to the tree. -/
theorem isChild_of_isItem (hpath : ∀ k ∈ path, k ∈ visited) {v : JsValue}
    (h : V04.JsValue.isItem visited v = true) : JsValue.isChild path v = true := by
  cases v with
  | ref n =>
    simp only [V04.JsValue.isItem, Bool.not_eq_true', elem_eq_mem, decide_eq_false_iff_not] at h
    simp only [JsValue.isChild, Bool.not_eq_true', elem_eq_mem, decide_eq_false_iff_not]
    exact fun hn => h (hpath n hn)
  | str s => rfl
  | num d => rfl
  | bool b => cases h
  | other => cases h

/-- What is written as a property belongs to the tree. -/
theorem isChild_of_isProperty (hpath : ∀ k ∈ path, k ∈ visited) {v : JsValue}
    (h : V04.JsValue.isProperty visited v = true) : JsValue.isChild path v = true := by
  cases v with
  | ref n =>
    simp only [V04.JsValue.isProperty, Bool.not_eq_true', elem_eq_mem, decide_eq_false_iff_not] at h
    simp only [JsValue.isChild, Bool.not_eq_true', elem_eq_mem, decide_eq_false_iff_not]
    exact fun hn => h (hpath n hn)
  | str s => rfl
  | num d => rfl
  | bool b => rfl
  | other => cases h

/-- What belongs to the tree and is not written is a boolean, or has been met. -/
theorem cases_of_not_isItem {v : JsValue}
    (hchild : JsValue.isChild path v = true) (h : ¬ V04.JsValue.isItem visited v = true) :
    (∃ b, v = .bool b) ∨ ∃ n, v = .ref n ∧ n ∈ visited := by
  cases v with
  | ref n =>
    simp only [V04.JsValue.isItem, Bool.not_eq_true', elem_eq_mem, decide_eq_false_iff_not,
      not_not] at h
    exact .inr ⟨n, rfl, h⟩
  | str s | num d => exact absurd rfl h
  | bool b => exact .inl ⟨b, rfl⟩
  | other => cases hchild

/-- **The items of an array.** -/
theorem itemsMatch (h : FollowsTree path (unfold objects f path) image) (items : List JsValue)
    {ts : List Tree} {r : List ℕ × List Msgpack}
    (hpath : ∀ k ∈ path, k ∈ visited)
    (hts : unfoldItems path (unfold objects f path) items = some ts)
    (hr : itemsImage image visited items = some r) : ItemsMatch visited ts r := by
  induction items generalizing visited ts r with
  | nil =>
    rw [unfoldItems, some_inj] at hts
    rw [itemsImage, some_inj] at hr
    subst hts hr
    refine ⟨fun k hk => hk, Nat.le_refl 0, ?_, fun _ k => ?_⟩
    · exact iff_of_true rfl ⟨by trivial, by exact nodup_nil, by rw [Tree.itemRefs]; simp⟩
    · rw [Tree.itemRefs]
      simp
  | cons v items ih =>
    rw [unfoldItems] at hts
    rw [itemsImage] at hr
    by_cases hchild : JsValue.isChild path v = true
    · rw [if_pos hchild] at hts
      obtain ⟨t, ht, hts⟩ := bind_eq_some_iff.mp hts
      obtain ⟨ts', hts', rfl⟩ := map_eq_some_iff.mp hts
      by_cases hitem : V04.JsValue.isItem visited v = true
      · rw [if_pos hitem] at hr
        obtain ⟨a, ha, hr⟩ := bind_eq_some_iff.mp hr
        obtain ⟨q, hq, rfl⟩ := map_eq_some_iff.mp hr
        have hfresh : ∀ n, v = .ref n → n ∉ visited := by
          rintro n rfl
          simpa [V04.JsValue.isItem] using hitem
        have hbool : t.isBool = false := by
          rw [← Bool.not_eq_true, isBool_of_unfold ht]
          rintro ⟨b, rfl⟩
          cases hitem
        obtain ⟨hgrows, hvalue, hmet⟩ := h visited v t a hpath hfresh ht ha
        obtain ⟨hgrows', hle, hvalue', hmet'⟩ := ih (fun k hk => hgrows k (hpath k hk)) hts' hq
        refine ⟨fun k hk => hgrows' k (hgrows k hk), Nat.succ_le_succ hle, ?_, fun hkept k => ?_⟩
        · rw [Tree.itemValues, cons_eq_cons, hvalue, hvalue']
          constructor
          · rintro ⟨hkept, hrest⟩
            exact (itemsKept_cons (hmet hkept)).mpr ⟨hbool, hkept, hrest⟩
          · intro hall
            have hkept := hall.head.2
            exact ⟨hkept, ((itemsKept_cons (hmet hkept)).mp hall).2.2⟩
        · have hhead := hkept.head.2
          rw [hmet' ((itemsKept_cons (hmet hhead)).mp hkept).2.2, hmet hhead, Tree.itemRefs,
            mem_append, (or_assoc : (_ ∨ _) ∨ _ ↔ _)]
      · rw [if_neg hitem] at hr
        obtain ⟨hgrows, hle, -, -⟩ := ih hpath hts' hr
        have hnot : ¬ ItemsKept visited (t :: ts') := by
          intro hkept
          obtain ⟨hb, hhead⟩ := hkept.head
          rcases cases_of_not_isItem hchild hitem with ⟨b, rfl⟩ | ⟨n, rfl, hn⟩
          · rw [(isBool_of_unfold ht).mpr ⟨b, rfl⟩] at hb
            cases hb
          · exact hhead.fresh n (mem_refs_of_unfold ht) hn
        refine ⟨hgrows, Nat.le_succ_of_le hle, iff_of_false (fun heq => ?_) hnot,
          fun hkept => absurd hkept hnot⟩
        have hlen := congrArg List.length heq
        rw [length_itemValues, length_cons] at hlen
        omega
    · have hitem : ¬ V04.JsValue.isItem visited v = true := fun hv =>
        hchild (isChild_of_isItem hpath hv)
      rw [if_neg hchild] at hts
      rw [if_neg hitem] at hr
      exact ih hpath hts hr

/-- **The properties of an object.** -/
theorem entriesMatch (h : FollowsTree path (unfold objects f path) image)
    (entries : List (Str × Option JsValue)) {ts : List (Str × Tree)}
    {r : List ℕ × List (Msgpack × Msgpack)} (hpath : ∀ k ∈ path, k ∈ visited)
    (hts : unfoldEntries path (unfold objects f path) entries = some ts)
    (hr : propertiesImage image visited entries = some r) : EntriesMatch visited ts r := by
  induction entries generalizing visited ts r with
  | nil =>
    rw [unfoldEntries, some_inj] at hts
    rw [propertiesImage, some_inj] at hr
    subst hts hr
    refine ⟨fun k hk => hk, Nat.le_refl 0, ?_, fun _ k => ?_⟩
    · exact iff_of_true rfl ⟨by trivial, by exact nodup_nil, by rw [Tree.entryRefs]; simp⟩
    · rw [Tree.entryRefs]
      simp
  | cons e entries ih =>
    obtain ⟨key, v⟩ := e
    cases v with
    | none => cases hts
    | some v =>
      rw [unfoldEntries] at hts
      rw [propertiesImage] at hr
      by_cases hchild : JsValue.isChild path v = true
      · rw [if_pos hchild] at hts
        obtain ⟨t, ht, hts⟩ := bind_eq_some_iff.mp hts
        obtain ⟨ts', hts', rfl⟩ := map_eq_some_iff.mp hts
        by_cases hproperty : V04.JsValue.isProperty visited v = true
        · rw [if_pos hproperty] at hr
          obtain ⟨a, ha, hr⟩ := bind_eq_some_iff.mp hr
          obtain ⟨q, hq, rfl⟩ := map_eq_some_iff.mp hr
          have hfresh : ∀ n, v = .ref n → n ∉ visited := by
            rintro n rfl
            simpa [V04.JsValue.isProperty] using hproperty
          have hkey : textImage key = .str key ↔ Unicode.isWellFormed key = true := by
            rw [textImage, Msgpack.str.injEq, Unicode.toWellFormed_eq_self_iff]
          obtain ⟨hgrows, hvalue, hmet⟩ := h visited v t a hpath hfresh ht ha
          obtain ⟨hgrows', hle, hvalue', hmet'⟩ := ih (fun k hk => hgrows k (hpath k hk)) hts' hq
          refine ⟨fun k hk => hgrows' k (hgrows k hk), Nat.succ_le_succ hle, ?_, fun hkept k => ?_⟩
          · rw [Tree.entryValues, cons_eq_cons, Prod.mk.injEq, hkey, hvalue, hvalue']
            constructor
            · rintro ⟨⟨hk, hkept⟩, hrest⟩
              exact (entriesKept_cons (hmet hkept)).mpr ⟨hk, hkept, hrest⟩
            · intro hall
              obtain ⟨hk, hkept⟩ := hall.head
              exact ⟨⟨hk, hkept⟩, ((entriesKept_cons (hmet hkept)).mp hall).2.2⟩
          · have hhead := hkept.head.2
            rw [hmet' ((entriesKept_cons (hmet hhead)).mp hkept).2.2, hmet hhead, Tree.entryRefs,
              mem_append, (or_assoc : (_ ∨ _) ∨ _ ↔ _)]
        · rw [if_neg hproperty] at hr
          obtain ⟨hgrows, hle, -, -⟩ := ih hpath hts' hr
          have hnot : ¬ EntriesKept visited ((key, t) :: ts') := by
            intro hkept
            cases v with
            | ref n =>
              simp only [V04.JsValue.isProperty, Bool.not_eq_true', elem_eq_mem,
                decide_eq_false_iff_not, not_not] at hproperty
              exact hkept.head.2.fresh n (mem_refs_of_unfold ht) hproperty
            | str s | num d | bool b => exact hproperty rfl
            | other => cases hchild
          refine ⟨hgrows, Nat.le_succ_of_le hle, iff_of_false (fun heq => ?_) hnot,
            fun hkept => absurd hkept hnot⟩
          have hlen := congrArg List.length heq
          rw [length_entryValues, length_cons] at hlen
          omega
      · have hproperty : ¬ V04.JsValue.isProperty visited v = true := fun hv =>
          hchild (isChild_of_isProperty hpath hv)
        rw [if_neg hchild] at hts
        rw [if_neg hproperty] at hr
        exact ih hpath hts hr

end Objects

/-! ## What is read of a value -/

/-- An object that has not been met, and those below it. -/
theorem fresh_cons_iff {l : List ℕ} (hn : n ∉ visited) :
    ((n :: l).Nodup ∧ ∀ k ∈ n :: l, k ∉ visited) ↔ l.Nodup ∧ ∀ k ∈ l, k ∉ n :: visited := by
  rw [nodup_cons, forall_mem_cons]
  constructor
  · rintro ⟨⟨hnl, hl⟩, -, hfresh⟩
    refine ⟨hl, fun k hk hmem => ?_⟩
    rcases mem_cons.mp hmem with rfl | hmem
    · exact hnl hk
    · exact hfresh k hk hmem
  · rintro ⟨hl, hfresh⟩
    exact ⟨⟨fun hmem => hfresh n hmem mem_cons_self, hl⟩, hn,
      fun k hk hmem => hfresh k hk (mem_cons_of_mem n hmem)⟩

theorem kept_array {ts : List Tree} (hn : n ∉ visited) :
    Kept visited (.array n ts) ↔ ItemsKept (n :: visited) ts := by
  have hiff := fresh_cons_iff (l := Tree.itemRefs ts) hn
  constructor
  · rintro ⟨hw, hnodup, hfresh⟩
    obtain ⟨hnodup', hfresh'⟩ := hiff.mp ⟨hnodup, hfresh⟩
    exact ⟨hw, hnodup', hfresh'⟩
  · rintro ⟨hw, hnodup, hfresh⟩
    obtain ⟨hnodup', hfresh'⟩ := hiff.mpr ⟨hnodup, hfresh⟩
    exact ⟨by rwa [Tree.Written], by rwa [Tree.refs], by rwa [Tree.refs]⟩

theorem kept_object (hn : n ∉ visited) :
    Kept visited (.object n ts) ↔ EntriesKept (n :: visited) ts := by
  have hiff := fresh_cons_iff (l := Tree.entryRefs ts) hn
  constructor
  · rintro ⟨hw, hnodup, hfresh⟩
    obtain ⟨hnodup', hfresh'⟩ := hiff.mp ⟨hnodup, hfresh⟩
    exact ⟨hw, hnodup', hfresh'⟩
  · rintro ⟨hw, hnodup, hfresh⟩
    obtain ⟨hnodup', hfresh'⟩ := hiff.mpr ⟨hnodup, hfresh⟩
    exact ⟨by rwa [Tree.Written], by rwa [Tree.refs], by rwa [Tree.refs]⟩

/-- A value without objects is read as it is, if it is written. -/
theorem matches_leaf {m : Msgpack} (hrefs : t.refs = [])
    (h : m = t.value ↔ t.Written) : Matches visited t (visited, m) where
  grows _ hk := hk
  value_iff := by
    rw [h]
    constructor
    · exact fun hw => ⟨hw, by rw [hrefs]; exact nodup_nil, by rw [hrefs]; simp⟩
    · exact fun hkept => hkept.written
  met _ k := by
    rw [hrefs]
    simp

/-- **What is read of a value is its tree exactly when nothing is forgotten in it and no object is
in it twice**, or has been met before. -/
theorem followsTree_objectImage (objects : ℕ → JsObject) (depth : ℕ) :
    ∀ f path, FollowsTree path (unfold objects f path) (objectImage objects depth) := by
  induction depth with
  | zero =>
    intro f path visited v t r _ _ _ hr
    cases hr
  | succ depth ih =>
    intro f path visited v t r hpath hfresh ht hr
    cases f with
    | zero => cases ht
    | succ f =>
      cases v with
      | other => cases ht
      | str s =>
        cases ht
        cases hr
        refine matches_leaf (by rw [Tree.refs]; all_goals simp) ?_
        rw [Tree.value, Tree.Written, textImage, Msgpack.str.injEq,
          Unicode.toWellFormed_eq_self_iff]
      | num d | bool b =>
        cases ht
        cases hr
        refine matches_leaf (by rw [Tree.refs]; all_goals simp) ?_
        simp [Tree.value, Tree.Written]
      | ref n =>
        have hn := hfresh n rfl
        have hsub : ∀ k ∈ n :: path, k ∈ n :: visited := fun k hk => by
          rcases mem_cons.mp hk with rfl | hk
          · exact mem_cons_self
          · exact mem_cons_of_mem n (hpath k hk)
        rw [unfold] at ht
        rw [objectImage] at hr
        cases hobject : objects n with
        | array items =>
          simp only [hobject, map_eq_some_iff] at ht hr
          obtain ⟨ts, hts, rfl⟩ := ht
          obtain ⟨q, hq, rfl⟩ := hr
          obtain ⟨hgrows, -, hvalue, hmet⟩ := itemsMatch (ih f (n :: path)) items hsub hts hq
          refine ⟨fun k hk => hgrows k (mem_cons_of_mem n hk), ?_, fun hkept k => ?_⟩
          · rw [Tree.value, Msgpack.array.injEq, hvalue, kept_array hn]
          · rw [hmet ((kept_array hn).mp hkept), Tree.refs, mem_cons, mem_cons]
            tauto
        | object entries =>
          simp only [hobject, map_eq_some_iff] at ht hr
          obtain ⟨ts, hts, rfl⟩ := ht
          obtain ⟨q, hq, rfl⟩ := hr
          obtain ⟨hgrows, -, hvalue, hmet⟩ :=
            entriesMatch (ih f (n :: path)) entries.entries hsub hts hq
          refine ⟨fun k hk => hgrows k (mem_cons_of_mem n hk), ?_, fun hkept k => ?_⟩
          · rw [Tree.value, Msgpack.map.injEq, hvalue, kept_object hn]
          · rw [hmet ((kept_object hn).mp hkept), Tree.refs, mem_cons, mem_cons]
            tauto

/-! ## What can be read -/

section Objects

variable {objects : ℕ → JsObject} {f : ℕ} {path : List ℕ}
  {image : List ℕ → JsValue → Option (List ℕ × Msgpack)}

/-- A reading of values that have a tree. -/
def Readable (path : List ℕ) (tree : JsValue → Option Tree)
    (image : List ℕ → JsValue → Option (List ℕ × Msgpack)) : Prop :=
  ∀ visited v, (∀ k ∈ path, k ∈ visited) → (tree v).isSome = true → (image visited v).isSome = true

theorem isSome_itemsImage (h : FollowsTree path (unfold objects f path) image)
    (hread : Readable path (unfold objects f path) image) (items : List JsValue)
    {visited : List ℕ} (hpath : ∀ k ∈ path, k ∈ visited)
    (hts : (unfoldItems path (unfold objects f path) items).isSome = true) :
    (itemsImage image visited items).isSome = true := by
  induction items generalizing visited with
  | nil => rfl
  | cons v items ih =>
    rw [unfoldItems] at hts
    rw [itemsImage]
    by_cases hitem : V04.JsValue.isItem visited v = true
    · rw [if_pos (isChild_of_isItem hpath hitem)] at hts
      obtain ⟨ts, hts⟩ := isSome_iff_exists.mp hts
      obtain ⟨t, ht, hts⟩ := bind_eq_some_iff.mp hts
      obtain ⟨ts', hts', -⟩ := map_eq_some_iff.mp hts
      obtain ⟨a, ha⟩ := isSome_iff_exists.mp (hread visited v hpath (by rw [ht]; rfl))
      have hfresh : ∀ n, v = .ref n → n ∉ visited := by
        rintro n rfl
        simpa [V04.JsValue.isItem] using hitem
      have hgrows := (h visited v t a hpath hfresh ht ha).grows
      rw [if_pos hitem, ha, Option.bind_some, isSome_map]
      exact ih (fun k hk => hgrows k (hpath k hk)) (by rw [hts']; rfl)
    · rw [if_neg hitem]
      by_cases hchild : JsValue.isChild path v = true
      · rw [if_pos hchild] at hts
        obtain ⟨ts, hts⟩ := isSome_iff_exists.mp hts
        obtain ⟨t, ht, hts⟩ := bind_eq_some_iff.mp hts
        obtain ⟨ts', hts', -⟩ := map_eq_some_iff.mp hts
        exact ih hpath (by rw [hts']; rfl)
      · rw [if_neg hchild] at hts
        exact ih hpath hts

theorem isSome_propertiesImage (h : FollowsTree path (unfold objects f path) image)
    (hread : Readable path (unfold objects f path) image)
    (entries : List (Str × Option JsValue)) {visited : List ℕ}
    (hpath : ∀ k ∈ path, k ∈ visited)
    (hts : (unfoldEntries path (unfold objects f path) entries).isSome = true) :
    (propertiesImage image visited entries).isSome = true := by
  induction entries generalizing visited with
  | nil => rfl
  | cons e entries ih =>
    obtain ⟨key, v⟩ := e
    cases v with
    | none => cases hts
    | some v =>
      rw [unfoldEntries] at hts
      rw [propertiesImage]
      by_cases hproperty : V04.JsValue.isProperty visited v = true
      · have hchild := isChild_of_isProperty hpath hproperty
        rw [if_pos hchild] at hts
        obtain ⟨ts, hts⟩ := isSome_iff_exists.mp hts
        obtain ⟨t, ht, hts⟩ := bind_eq_some_iff.mp hts
        obtain ⟨ts', hts', -⟩ := map_eq_some_iff.mp hts
        obtain ⟨a, ha⟩ := isSome_iff_exists.mp (hread visited v hpath (by rw [ht]; rfl))
        have hfresh : ∀ n, v = .ref n → n ∉ visited := by
          rintro n rfl
          simpa [V04.JsValue.isProperty] using hproperty
        have hgrows := (h visited v t a hpath hfresh ht ha).grows
        rw [if_pos hproperty, ha, Option.bind_some, isSome_map]
        exact ih (fun k hk => hgrows k (hpath k hk)) (by rw [hts']; rfl)
      · rw [if_neg hproperty]
        by_cases hchild : JsValue.isChild path v = true
        · rw [if_pos hchild] at hts
          obtain ⟨ts, hts⟩ := isSome_iff_exists.mp hts
          obtain ⟨t, ht, hts⟩ := bind_eq_some_iff.mp hts
          obtain ⟨ts', hts', -⟩ := map_eq_some_iff.mp hts
          exact ih hpath (by rw [hts']; rfl)
        · rw [if_neg hchild] at hts
          exact ih hpath hts

end Objects

/-- A value whose tree is no deeper than calls may be is read. -/
theorem readable_objectImage (objects : ℕ → JsObject) (depth : ℕ) :
    ∀ f path, f ≤ depth → Readable path (unfold objects f path) (objectImage objects depth) := by
  induction depth with
  | zero =>
    intro f path hf visited v _ ht
    rw [Nat.le_zero.mp hf] at ht
    cases ht
  | succ depth ih =>
    intro f path hf visited v hpath ht
    cases f with
    | zero => cases ht
    | succ f =>
      cases v with
      | other => cases ht
      | str s => rfl
      | num d => rfl
      | bool b => rfl
      | ref n =>
        have hread := ih f (n :: path) (Nat.le_of_succ_le_succ hf)
        have hfollows := followsTree_objectImage objects depth f (n :: path)
        have hsub : ∀ k ∈ n :: path, k ∈ n :: visited := fun k hk => by
          rcases mem_cons.mp hk with rfl | hk
          · exact mem_cons_self
          · exact mem_cons_of_mem n (hpath k hk)
        rw [unfold] at ht
        rw [objectImage]
        cases hobject : objects n with
        | array items =>
          simp only [hobject, isSome_map] at ht ⊢
          exact isSome_itemsImage hfollows hread items hsub ht
        | object entries =>
          simp only [hobject, isSome_map] at ht ⊢
          exact isSome_propertiesImage hfollows hread entries.entries hsub ht

/-! ## Every value has a tree -/

/-- The objects that an object refers to. -/
def JsObject.values : JsObject → List (Option JsValue)
  | .array items => items.map some
  | .object entries => entries.entries.map Prod.snd

/-- Finitely many objects, none of which has a getter that throws. -/
structure IsFinite (objects : ℕ → JsObject) (bound : ℕ) : Prop where
  getter : ∀ n, none ∉ (objects n).values
  ref : ∀ n k, some (.ref k) ∈ (objects n).values → k < bound

theorem isSome_unfoldItems {tree : JsValue → Option Tree} {items : List JsValue}
    (h : ∀ v ∈ items, JsValue.isChild path v = true → (tree v).isSome = true) :
    (unfoldItems path tree items).isSome = true := by
  induction items with
  | nil => rfl
  | cons v items ih =>
    have hrest := ih fun w hw => h w (mem_cons_of_mem v hw)
    rw [unfoldItems]
    split
    · next hv =>
      obtain ⟨t, ht⟩ := isSome_iff_exists.mp (h v mem_cons_self hv)
      rw [ht, Option.bind_some, isSome_map]
      exact hrest
    · exact hrest

theorem isSome_unfoldEntries {tree : JsValue → Option Tree}
    {entries : List (Str × Option JsValue)} (hgetter : none ∉ entries.map Prod.snd)
    (h : ∀ v, some v ∈ entries.map Prod.snd → JsValue.isChild path v = true →
      (tree v).isSome = true) :
    (unfoldEntries path tree entries).isSome = true := by
  induction entries with
  | nil => rfl
  | cons e entries ih =>
    obtain ⟨key, v⟩ := e
    rw [map_cons, mem_cons, not_or] at hgetter
    have hrest := ih hgetter.2 fun w hw => h w (mem_cons_of_mem v hw)
    cases v with
    | none => exact absurd rfl hgetter.1
    | some v =>
      rw [unfoldEntries]
      split
      · next hv =>
        obtain ⟨t, ht⟩ := isSome_iff_exists.mp (h v mem_cons_self hv)
        rw [ht, Option.bind_some, isSome_map]
        exact hrest
      · exact hrest

/-- **Among finitely many objects, every value has a tree**: the objects that one is within are
different from each other. -/
theorem isSome_unfold {bound : ℕ} (hfinite : IsFinite objects bound) :
    ∀ (f : ℕ) (path : List ℕ) (v : JsValue), path.Nodup → (∀ k ∈ path, k < bound) →
      bound < f + path.length → JsValue.isChild path v = true → (∀ n, v = .ref n → n < bound) →
      (unfold objects f path v).isSome = true := by
  intro f
  induction f with
  | zero =>
    intro path v hnodup hpath hlen _ _
    have hsub : path ⊆ List.range bound := fun k hk => mem_range.mpr (hpath k hk)
    have hle := hnodup.length_le_of_subset hsub
    rw [length_range] at hle
    omega
  | succ f ih =>
    intro path v hnodup hpath hlen hchild hbound
    cases v with
    | other => cases hchild
    | str s => rfl
    | num d => rfl
    | bool b => rfl
    | ref n =>
      have hn : n ∉ path := by simpa [JsValue.isChild] using hchild
      have hnodup' : (n :: path).Nodup := nodup_cons.mpr ⟨hn, hnodup⟩
      have hpath' : ∀ k ∈ n :: path, k < bound :=
        forall_mem_cons.mpr ⟨hbound n rfl, hpath⟩
      have hchildren : ∀ v, some v ∈ (objects n).values → JsValue.isChild (n :: path) v = true →
          (unfold objects f (n :: path) v).isSome = true := by
        intro v hv hv'
        refine ih (n :: path) v hnodup' hpath' (by rw [length_cons]; omega) hv' ?_
        rintro k rfl
        exact hfinite.ref n k hv
      have hgetter := hfinite.getter n
      rw [unfold]
      cases hobject : objects n with
      | array items =>
        simp only [hobject, JsObject.values, isSome_map] at hchildren ⊢
        exact isSome_unfoldItems fun v hv =>
          hchildren v (mem_map_of_mem hv)
      | object entries =>
        simp only [hobject, JsObject.values, isSome_map] at hchildren hgetter ⊢
        exact isSome_unfoldEntries hgetter hchildren

/-! ## The entries of a `meta_struct` -/

/-- The entries that belong to a `meta_struct`, each with its tree.  Each has objects of its own. -/
def structTrees (objects : ℕ → JsObject) (f n : ℕ) : Option (List (Str × Tree)) :=
  unfoldEntries [] (unfold objects f []) (structEntries objects n)

/-- The keys and values of these trees. -/
def structValues (ts : List (Str × Tree)) : List (Str × Msgpack) := ts.map fun e => (e.1, e.2.value)

/-- An entry that is read as it is: it is no boolean, nothing is forgotten in it, and no object is
in it twice. -/
structure IsWhole (e : Str × Tree) : Prop where
  key : Unicode.isWellFormed e.1 = true
  value : e.2.isBool = false
  written : e.2.Written
  nodup : e.2.refs.Nodup

theorem kept_nil_iff : Kept [] t ↔ t.Written ∧ t.refs.Nodup := by
  constructor
  · exact fun h => ⟨h.written, h.nodup⟩
  · exact fun h => ⟨h.1, h.2, fun k _ => not_mem_nil⟩

/-- What is read of an entry, with its key as it is read. -/
def readEntry (e : Str × Msgpack) : Str × Msgpack := (Unicode.toWellFormed e.1, e.2)

/-- **The entries are read as they are exactly when each of them is whole.** -/
theorem structEntries_iff {env : Env} {f : ℕ} (hf : f ≤ env.depth)
    (entries : List (Str × Option JsValue)) (hts : unfoldEntries [] (unfold objects f []) entries = some ts) :
    (∀ e ∈ entries, (structEntry env objects e).isSome = true) ∧
    (entries.filterMap fun e => (structEntry env objects e).join).length ≤ ts.length ∧
    ((entries.filterMap fun e => (structEntry env objects e).join).map readEntry =
      structValues ts ↔ ∀ e ∈ ts, IsWhole e) := by
  set image := fun e => (structEntry env objects e).join
  induction entries generalizing ts with
  | nil =>
    rw [unfoldEntries, some_inj] at hts
    subst hts
    simp [structValues]
  | cons e entries ih =>
    obtain ⟨key, v⟩ := e
    cases v with
    | none => cases hts
    | some v =>
      rw [unfoldEntries] at hts
      by_cases hchild : JsValue.isChild [] v = true
      · rw [if_pos hchild] at hts
        obtain ⟨t, ht, hts⟩ := bind_eq_some_iff.mp hts
        obtain ⟨ts', hts', rfl⟩ := map_eq_some_iff.mp hts
        obtain ⟨hsome, hle, hiff⟩ := ih hts'
        by_cases hentry : V04.JsValue.isEntry v = true
        · have hread := readable_objectImage objects env.depth f [] hf [] v
            (fun k hk => hk) (by rw [ht]; rfl)
          obtain ⟨r, hr⟩ := isSome_iff_exists.mp hread
          have hmatches := followsTree_objectImage objects env.depth f [] [] v t r
            (fun k hk => hk) (fun n _ => not_mem_nil) ht hr
          have hstruct : structEntry env objects (key, some v) = some (some (key, r.2)) := by
            rw [structEntry]
            dsimp only
            rw [if_pos hentry, hr]
            rfl
          have hbool : t.isBool = false := by
            rw [← Bool.not_eq_true, isBool_of_unfold ht]
            rintro ⟨b, rfl⟩
            cases hentry
          have hjoin : image (key, some v) = some (key, r.2) := congrArg Option.join hstruct
          refine ⟨forall_mem_cons.mpr ⟨by rw [hstruct]; rfl, hsome⟩, ?_, ?_⟩
          · rw [filterMap_cons_some hjoin, length_cons]
            exact Nat.succ_le_succ hle
          · rw [filterMap_cons_some hjoin, map_cons, structValues, map_cons,
              cons_eq_cons, ← structValues, hiff, forall_mem_cons, readEntry,
              Prod.mk.injEq, Unicode.toWellFormed_eq_self_iff, hmatches.value_iff, kept_nil_iff]
            constructor
            · rintro ⟨⟨hk, hw, hn⟩, hrest⟩
              exact ⟨⟨hk, hbool, hw, hn⟩, hrest⟩
            · rintro ⟨⟨hk, -, hw, hn⟩, hrest⟩
              exact ⟨⟨hk, hw, hn⟩, hrest⟩
        · have hstruct : structEntry env objects (key, some v) = some none := by
            exact if_neg hentry
          have hjoin : image (key, some v) = none := congrArg Option.join hstruct
          have hbool : t.isBool = true := by
            rw [isBool_of_unfold ht]
            cases v with
            | bool b => exact ⟨b, rfl⟩
            | str s | num d | ref n => exact absurd rfl hentry
            | other => cases hchild
          refine ⟨forall_mem_cons.mpr ⟨by rw [hstruct]; rfl, hsome⟩, ?_, ?_⟩
          · rw [filterMap_cons_none hjoin]
            exact Nat.le_succ_of_le hle
          · rw [filterMap_cons_none hjoin]
            refine iff_of_false (fun heq => ?_) fun hall => ?_
            · have hlen := congrArg List.length heq
              rw [length_map, structValues, length_map, length_cons] at hlen
              omega
            · have hvalue := (hall (key, t) mem_cons_self).value
              rw [hbool] at hvalue
              cases hvalue
      · have hother : v = .other := by
          cases v with
          | other => rfl
          | str s | num d | bool b | ref n => exact absurd rfl hchild
        subst hother
        obtain ⟨hsome, hle, hiff⟩ := ih hts
        exact ⟨forall_mem_cons.mpr ⟨rfl, hsome⟩, hle, hiff⟩

/-! ## From the bytes -/

/-- The entries of a map of byte strings, each of which is a value of its own. -/
def openEntries : List (Msgpack × Msgpack) → Option (List (Str × Msgpack))
  | [] => some []
  | (.str k, .bin b) :: es =>
    (Msgpack.decodeAll b).bind fun v => (openEntries es).map ((k, v) :: ·)
  | _ => none

/-- The `meta_struct` that bytes are read as. -/
def readStruct (l : List UInt8) : Option (List (Str × Msgpack)) :=
  match Msgpack.decodeAll l with
  | some (.map es) => openEntries es
  | _ => none

theorem openEntries_of_forall₂ {img : List (Str × Msgpack)} {es : List (Msgpack × Msgpack)}
    (h : List.Forall₂ IsBinEntry img es) : openEntries es = some (img.map readEntry) := by
  induction h with
  | nil => rfl
  | cons hx _ ih =>
    obtain ⟨b, rfl, hb⟩ := hx
    rw [textImage, openEntries, hb, ih]
    rfl

namespace V04

/-- Unless the chunk is full, the bytes that are added are read as the entries as they are read. -/
theorem encodeMetaStruct_cases (env : Env) (objects : ℕ → JsObject) (n : ℕ) {s : Chunks Slice}
    (hs : Slices s.strings) (hcap : s.traceBytes.length ≤ MAX_SIZE)
    (hsome : ∀ e ∈ structEntries objects n, (structEntry env objects e).isSome = true) :
    (∃ t l, encodeMetaStruct env objects n s = (.ok (), t) ∧ t.traceBytes = s.traceBytes ++ l ∧
      readStruct l = some ((structImage env objects n).map readEntry)) ∨
    ∃ e t, encodeMetaStruct env objects n s = (.error e, t) ∧ Recovers e := by
  rcases (adds_encodeMetaStruct env objects n s hs hcap).cases with
    ⟨⟨⟩, t, hx, -, -, hlen, l, hl, es, hes, hencodes⟩ | ⟨e, t, hx, he⟩
  · have hlt : l.length < 2 ^ 32 := by
      have hmax : (traceLog Slice).cap < 2 ^ 32 := by decide
      have hout : t.traceBytes.length ≤ (traceLog Slice).cap := hlen
      have happend : t.traceBytes = s.traceBytes ++ l := hl
      rw [happend, length_append] at hout
      omega
    refine .inl ⟨t, l, hx, hl, ?_⟩
    rw [readStruct, Msgpack.decodeAll_of_encodes hencodes hlt]
    exact openEntries_of_forall₂ hes
  · exact .inr ⟨e, t, hx, he.mono fun _ => hsome⟩

/-- **A `meta_struct`.**  From every state of the encoder, unless the chunk is full, the bytes that
are added are read as a map of byte strings that are values, and these are what the `meta_struct`
holds exactly when each of its entries is whole. -/
theorem metaStruct_iff (env : Env) (objects : ℕ → JsObject) (n : ℕ) {f : ℕ}
    {ts : List (Str × Tree)} (hts : structTrees objects f n = some ts) (hf : f ≤ env.depth)
    {s : Chunks Slice} (hs : Slices s.strings) (hcap : s.traceBytes.length ≤ MAX_SIZE) :
    (∃ t l img, encodeMetaStruct env objects n s = (.ok (), t) ∧
      t.traceBytes = s.traceBytes ++ l ∧ readStruct l = some img ∧
        (img = structValues ts ↔ ∀ e ∈ ts, IsWhole e)) ∨
    ∃ e t, encodeMetaStruct env objects n s = (.error e, t) ∧ Recovers e := by
  obtain ⟨hsome, -, hiff⟩ := structEntries_iff hf (structEntries objects n) hts
  rcases encodeMetaStruct_cases env objects n hs hcap hsome with ⟨t, l, hx, hl, hread⟩ | h
  · exact .inl ⟨t, l, _, hx, hl, hread, hiff⟩
  · exact .inr h

/-- `{ a: { x: o, y: o } }` where `o` is `{ k: true }`. -/
def shared : ℕ → JsObject
  | 0 => .object (OrderedMap.ofEntries [(lit "a", some (.ref 1))])
  | 1 => .object (OrderedMap.ofEntries [(lit "x", some (.ref 2)), (lit "y", some (.ref 2))])
  | _ => .object (OrderedMap.ofEntries [(lit "k", some (.bool true))])

/-- The tree of `o`. -/
def leaf : Tree := .object 2 [(lit "k", .bool true)]

theorem metaStruct_leaf : (∃ t l img, encodeMetaStruct plainEnv shared 2 blank = (.ok (), t) ∧
      t.traceBytes = blank.traceBytes ++ l ∧ readStruct l = some img ∧
        (img = structValues [(lit "k", .bool true)] ↔
          ∀ e ∈ [(lit "k", Tree.bool true)], IsWhole e)) ∨
    ∃ e t, encodeMetaStruct plainEnv shared 2 blank = (.error e, t) ∧ Recovers e :=
  metaStruct_iff plainEnv shared 2 (f := 1) rfl (by decide) slices_empty (Nat.zero_le MAX_SIZE)

/-- **The second of two references to one object is left out.** -/
theorem metaStruct_shared : structTrees shared 3 0 =
      some [(lit "a", .object 1 [(lit "x", leaf), (lit "y", leaf)])] ∧
    ∃ t, encodeMetaStruct plainEnv shared 0 blank = (.ok (), t) ∧
      readStruct t.traceBytes = some [(lit "a", .map [(.str (lit "x"), leaf.value)])] ∧
      readStruct t.traceBytes ≠
        some (structValues [(lit "a", .object 1 [(lit "x", leaf), (lit "y", leaf)])]) := by
  refine ⟨rfl, ?_⟩
  have hread : (structImage plainEnv shared 0).map readEntry =
      [(lit "a", .map [(.str (lit "x"), leaf.value)])] := by
    rfl
  rcases encodeMetaStruct_cases plainEnv shared 0 (s := blank) slices_empty (Nat.zero_le MAX_SIZE)
    (by decide) with ⟨t, l, hx, hl, himage⟩ | ⟨e, t, hx, -⟩
  · have ht : t.traceBytes = l := hl
    rw [hread] at himage
    refine ⟨t, hx, ht ▸ himage, ?_⟩
    rw [ht, himage, Ne]
    simp [structValues, Tree.value, Tree.entryValues]
  · have hok : (encodeMetaStruct plainEnv shared 0 blank).1.isOk = true := by decide +kernel
    rw [hx] at hok
    cases hok

end V04
end DdTrace.Encode
