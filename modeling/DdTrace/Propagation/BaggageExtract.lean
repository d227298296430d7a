import DdTrace.Propagation.Baggage

/-!
# Baggage that is extracted in part

Extraction of a `baggage` header is meant to be all or nothing: a malformed member takes the whole
header with it.  The loop collects the items in an object that the return at a malformed member
leaves behind, but it writes the tag of an item to the trace at once, so that the tags of the items
before the malformed one stay.  And an item named `__proto__`, which is a token, is not collected,
while its tag is written.

* `within`: the members that the limits leave.
* `items_readItems`, `tags_readItems`: what the loop leaves.
* `allOrNothing_iff`: **extraction is all or nothing exactly when no item before a malformed member
  has a tag of its own and no item of a header without one is named `__proto__`**.
-/

namespace DdTrace.Baggage

open Library OrderedMap

/-! ## The members within the limits -/

def Member.isItem : Member → Bool
  | .item _ _ => true
  | .skip | .malformed => false

/-- The members before the first one that exceeds a limit, as extraction counts. -/
def within (config : Config) (itemCount byteCount : ℕ) : List Str → List Member
  | [] => []
  | keyValue :: l =>
    if itemCount ≥ config.baggageMaxItems then []
    else if byteCount + (keyValue.length + 1) > config.baggageMaxBytes then []
    else
      readMember keyValue :: within config (itemCount + (readMember keyValue).isItem.toNat)
        (byteCount + (keyValue.length + 1)) l

/-- The members of a header. -/
def members (config : Config) (header : Str) : List Member :=
  within config 0 0 (Str.split (unit ',') header)

/-- The item that a member is. -/
def Member.entry? : Member → Option (Str × Str)
  | .item key value => some (key, value)
  | .skip | .malformed => none

def items (l : List Member) : List (Str × Str) := l.filterMap Member.entry?

/-- The items before the first malformed member. -/
def itemsBefore (l : List Member) : List (Str × Str) := items (l.takeWhile (· != .malformed))

@[simp] theorem items_skip_cons (l : List Member) : items (.skip :: l) = items l := rfl

@[simp] theorem items_item_cons (key value : Str) (l : List Member) :
    items (.item key value :: l) = (key, value) :: items l := rfl

@[simp] theorem itemsBefore_skip_cons (l : List Member) :
    itemsBefore (.skip :: l) = itemsBefore l := rfl

@[simp] theorem itemsBefore_malformed_cons (l : List Member) :
    itemsBefore (.malformed :: l) = [] := rfl

@[simp] theorem itemsBefore_item_cons (key value : Str) (l : List Member) :
    itemsBefore (.item key value :: l) = (key, value) :: itemsBefore l := rfl

/-- A tag is configured for the key. -/
def tagged (config : Config) (key : Str) : Bool :=
  includes config.baggageTagKeys (lit "*") || includes config.baggageTagKeys key

/-! ## The loop -/

/-- The tags of some items, written one after the other. -/
def writeTags (config : Config) (tags : OrderedMap Str Str) (l : List (Str × Str)) :
    OrderedMap Str Str :=
  l.foldl (fun tags e => if tagged config e.1 then tags.set (tagPrefix ++ e.1) e.2 else tags) tags

/-- The items of an object that is made when there is one. -/
def collect (collected : Option Store) : List (Str × Str) → Option Store
  | [] => collected
  | e :: l => some (assignAll (collected.getD .empty) (e :: l))

theorem getD_collect (collected : Option Store) (l : List (Str × Str)) :
    (collect collected l).getD .empty = assignAll (collected.getD .empty) l := by
  cases l with
  | nil => rfl
  | cons e l => rfl

theorem collect_cons (collected : Option Store) (e : Str × Str) (l : List (Str × Str)) :
    collect (some (assign (collected.getD .empty) e.1 e.2)) l = collect collected (e :: l) := by
  cases l with
  | nil => rfl
  | cons f l => rfl

variable (config : Config)

theorem map_writeTags_nil (tags : Option (OrderedMap Str Str)) :
    (tags.map fun tags => writeTags config tags []) = tags := by
  cases tags <;> rfl

/-- **The items that the loop leaves**: those of all members, or none. -/
theorem items_readItems (r : Reading) (l : List Str) : (readItems config r l).items =
      if .malformed ∈ within config r.itemCount r.byteCount l then none
      else collect r.items (items (within config r.itemCount r.byteCount l)) := by
  induction l generalizing r with
  | nil => rfl
  | cons keyValue l ih =>
    rw [readItems, within]
    by_cases hitems : r.itemCount ≥ config.baggageMaxItems
    · rw [if_pos hitems, if_pos hitems]
      rfl
    rw [if_neg hitems, if_neg hitems]
    by_cases hbytes : r.byteCount + (keyValue.length + 1) > config.baggageMaxBytes
    · rw [if_pos hbytes, if_pos hbytes]
      rfl
    rw [if_neg hbytes, if_neg hbytes]
    cases hmember : readMember keyValue with
    | skip =>
      simpa [Member.isItem] using ih { r with byteCount := r.byteCount + (keyValue.length + 1) }
    | malformed => simp
    | item key value =>
      have hcollect := collect_cons r.items (key, value)
      have hrest := ih (Reading.keep config
        { r with byteCount := r.byteCount + (keyValue.length + 1) } key value)
      simpa [Member.isItem, ← hcollect, Reading.keep] using hrest

/-- **The tags that the loop leaves**: those of the items before the first malformed member. -/
theorem tags_readItems (r : Reading) (l : List Str) :
    (readItems config r l).tags = r.tags.map fun tags =>
      writeTags config tags (itemsBefore (within config r.itemCount r.byteCount l)) := by
  induction l generalizing r with
  | nil => exact (map_writeTags_nil config r.tags).symm
  | cons keyValue l ih =>
    rw [readItems, within]
    by_cases hitems : r.itemCount ≥ config.baggageMaxItems
    · rw [if_pos hitems, if_pos hitems]
      exact (map_writeTags_nil config r.tags).symm
    rw [if_neg hitems, if_neg hitems]
    by_cases hbytes : r.byteCount + (keyValue.length + 1) > config.baggageMaxBytes
    · rw [if_pos hbytes, if_pos hbytes]
      exact (map_writeTags_nil config r.tags).symm
    rw [if_neg hbytes, if_neg hbytes]
    cases hmember : readMember keyValue with
    | skip =>
      simpa [Member.isItem] using ih { r with byteCount := r.byteCount + (keyValue.length + 1) }
    | malformed => exact (map_writeTags_nil config r.tags).symm
    | item key value =>
      have hrest := ih (Reading.keep config
        { r with byteCount := r.byteCount + (keyValue.length + 1) } key value)
      simpa [Member.isItem, Reading.keep, writeTags, Function.comp_def, tagged] using hrest

/-- The tag of a key is the value of its last item, where one is configured. -/
theorem get?_writeTags (tags : OrderedMap Str Str) (l : List (Str × Str))
    (key : Str) : (writeTags config tags l).get? (tagPrefix ++ key) =
      if tagged config key then (OrderedMap.lastValue l key).or (tags.get? (tagPrefix ++ key))
      else tags.get? (tagPrefix ++ key) := by
  induction l generalizing tags with
  | nil => split <;> rfl
  | cons e l ih =>
    have hstep : writeTags config tags (e :: l) = writeTags config
        (if tagged config e.1 then tags.set (tagPrefix ++ e.1) e.2 else tags) l := rfl
    rw [hstep, ih, OrderedMap.lastValue, Option.or_assoc]
    by_cases hkey : e.1 = key
    · subst hkey
      by_cases htagged : tagged config e.1 = true
      · rw [if_pos htagged, if_pos htagged, if_pos htagged, get?_set, if_pos rfl, if_pos rfl]
        rfl
      · rw [if_neg htagged, if_neg htagged, if_neg htagged]
    · have hget : (if tagged config e.1 then tags.set (tagPrefix ++ e.1) e.2 else tags).get?
          (tagPrefix ++ key) = tags.get? (tagPrefix ++ key) := by
        split
        · refine get?_set_of_ne tags (fun h => hkey ?_) e.2
          exact (List.append_cancel_left h).symm
        · rfl
      rw [hget, if_neg hkey, Option.none_or]

/-- Tags of other names are left alone. -/
theorem get?_writeTags_of_not_prefix (tags : OrderedMap Str Str)
    (l : List (Str × Str)) {k : Str} (hk : tagPrefix.isPrefixOf k = false) :
    (writeTags config tags l).get? k = tags.get? k := by
  induction l generalizing tags with
  | nil => rfl
  | cons e l ih =>
    refine (ih _).trans ?_
    dsimp only
    split
    · refine get?_set_of_ne tags ?_ e.2
      rintro rfl
      cases hk
    · rfl

/-! ## All or nothing -/

/-- **Extraction of a header**, by its members. -/
theorem extractBaggageItems_eq {config : Config} (hextracts : config.extracts = true)
    (header : Str) (tags : OrderedMap Str Str) :
    extractBaggageItems config (some header) (some tags) =
      (if .malformed ∈ members config header then .empty
        else assignAll .empty (items (members config header)),
      some (writeTags config tags (itemsBefore (members config header)))) := by
  unfold extractBaggageItems
  by_cases hempty : header = []
  · subst hempty
    have hmembers : members config [] = [] ∨ members config [] = [.skip] := by
      have hskip : readMember [] = .skip := rfl
      show within config 0 0 [[]] = [] ∨ within config 0 0 [[]] = [.skip]
      rw [within]
      split
      · exact .inl rfl
      split
      · exact .inl rfl
      · exact .inr rfl
    have hskips : config.extracts = false ∨ ([] : Str) = [] := .inr rfl
    dsimp only
    rw [if_pos hskips]
    rcases hmembers with h | h <;> rw [h] <;> rfl
  · dsimp only
    rw [if_neg (by simp [hextracts, hempty]), items_readItems, tags_readItems]
    refine Prod.ext ?_ rfl
    show Option.getD (if Member.malformed ∈ members config header then none
      else collect none (items (members config header))) .empty = _
    split
    · rfl
    · exact getD_collect none _

/-- With a malformed member nothing is stored and no tag is set.  Without one every item is stored,
the last one of a key, and the tags that are configured are those of the stored items. -/
structure AllOrNothing (config : Config) (header : Str) : Prop where
  nothing : .malformed ∈ members config header → ∀ tags,
    extractBaggageItems config (some header) (some tags) = (.empty, some tags)
  stored : .malformed ∉ members config header → ∀ tags, ∃ store tags',
    extractBaggageItems config (some header) (some tags) = (store, some tags') ∧
      (∀ key, store.get? key = OrderedMap.lastValue (items (members config header)) key) ∧
      (∀ key, tags'.get? (tagPrefix ++ key) =
        if tagged config key then (store.get? key).or (tags.get? (tagPrefix ++ key))
        else tags.get? (tagPrefix ++ key)) ∧
      ∀ k, tagPrefix.isPrefixOf k = false → tags'.get? k = tags.get? k

theorem itemsBefore_of_notMem {l : List Member} (h : .malformed ∉ l) : itemsBefore l = items l := by
  rw [itemsBefore, List.takeWhile_eq_self_iff.mpr]
  intro m hm
  rw [bne_iff_ne]
  rintro rfl
  exact h hm

/-- **Extraction is all or nothing exactly when no item before a malformed member has a tag of its
own, and no item of a header without one is named `__proto__`.** -/
theorem allOrNothing_iff {config : Config} (hextracts : config.extracts = true) (header : Str) :
    AllOrNothing config header ↔ (.malformed ∈ members config header →
        ∀ e ∈ itemsBefore (members config header), tagged config e.1 = false) ∧
      (.malformed ∉ members config header →
        ∀ e ∈ items (members config header), e.1 ≠ lit "__proto__") := by
  constructor
  · intro h
    refine ⟨fun hmalformed e he => ?_, fun hwell e he hproto => ?_⟩
    · by_contra htagged
      rw [Bool.not_eq_false] at htagged
      have hnothing := h.nothing hmalformed .empty
      rw [extractBaggageItems_eq hextracts, Prod.mk.injEq, Option.some_inj] at hnothing
      have hget := get?_writeTags config .empty (itemsBefore (members config header)) e.1
      rw [hnothing.2, if_pos htagged, get?_empty, Option.or_none] at hget
      exact lastValue_eq_none_iff.mp hget.symm (List.mem_map_of_mem he)
    · obtain ⟨store, tags', hextract, hstore, -⟩ := h.stored hwell .empty
      rw [extractBaggageItems_eq hextracts, if_neg hwell, Prod.mk.injEq] at hextract
      have hnot : lit "__proto__" ∉ (assignAll .empty (items (members config header))).keys :=
        notMem_keys_assignAll List.not_mem_nil
      rw [hextract.1, ← get?_eq_none_iff, hstore] at hnot
      exact lastValue_eq_none_iff.mp hnot (hproto ▸ List.mem_map_of_mem he)
  · rintro ⟨hbefore, hproto⟩
    refine ⟨fun hmalformed tags => ?_, fun hwell tags => ?_⟩
    · rw [extractBaggageItems_eq hextracts, if_pos hmalformed]
      have hnone : ∀ (l : List (Str × Str)), (∀ e ∈ l, tagged config e.1 = false) →
          writeTags config tags l = tags := by
        intro l hl
        induction l with
        | nil => rfl
        | cons e l ih =>
          have hstep : writeTags config tags (e :: l) = writeTags config
              (if tagged config e.1 then tags.set (tagPrefix ++ e.1) e.2 else tags) l := rfl
          rw [hstep, if_neg (by simp [hl e List.mem_cons_self])]
          exact ih fun f hf => hl f (List.mem_cons_of_mem _ hf)
      rw [hnone _ (hbefore hmalformed)]
    · refine ⟨_, _, extractBaggageItems_eq hextracts header tags, ?_⟩
      rw [if_neg hwell, itemsBefore_of_notMem hwell, assignAll_eq (hproto hwell)]
      have hstore : ∀ key, (OrderedMap.ofEntries (items (members config header))).get? key =
          OrderedMap.lastValue (items (members config header)) key :=
        fun key => get?_ofEntries _ key
      refine ⟨hstore, fun key => ?_, fun k hk => get?_writeTags_of_not_prefix config tags _ hk⟩
      rw [get?_writeTags]
      exact congrArg (fun o => if tagged config key then o.or (tags.get? (tagPrefix ++ key))
        else tags.get? (tagPrefix ++ key)) (hstore key).symm

theorem allOrNothing_dogHeader : AllOrNothing {} (lit "dog=Lassie") ↔
    (.malformed ∈ members {} (lit "dog=Lassie") →
      ∀ e ∈ itemsBefore (members {} (lit "dog=Lassie")), tagged {} e.1 = false) ∧
    (.malformed ∉ members {} (lit "dog=Lassie") →
      ∀ e ∈ items (members {} (lit "dog=Lassie")), e.1 ≠ lit "__proto__") :=
  allOrNothing_iff rfl (lit "dog=Lassie")

/-- **The tag of an item stays when a later member is malformed.** -/
theorem not_allOrNothing : .malformed ∈ members {} (lit "user.id=ada,=") ∧
      extractBaggageItems {} (some (lit "user.id=ada,=")) (some .empty) =
        (.empty, some (OrderedMap.empty.set (lit "baggage.user.id") (lit "ada"))) ∧
      ¬ AllOrNothing {} (lit "user.id=ada,=") := by
  have hmalformed : .malformed ∈ members {} (lit "user.id=ada,=") := by decide +kernel
  have hextract : extractBaggageItems {} (some (lit "user.id=ada,=")) (some .empty) =
      (.empty, some (OrderedMap.empty.set (lit "baggage.user.id") (lit "ada"))) := by
    rw [extractBaggageItems_eq rfl, if_pos hmalformed]
    have htags : (writeTags {} .empty (itemsBefore (members {} (lit "user.id=ada,=")))).entries =
        (OrderedMap.empty.set (lit "baggage.user.id") (lit "ada")).entries := by decide +kernel
    rw [OrderedMap.ext htags]
  refine ⟨hmalformed, hextract, fun h => ?_⟩
  have hnothing := h.nothing hmalformed .empty
  rw [hextract, Prod.mk.injEq, Option.some_inj] at hnothing
  exact absurd (congrArg (fun m => m.entries.length) hnothing.2) (by decide)

end DdTrace.Baggage
