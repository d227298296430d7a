import DdTrace.Library.OrderedMap
import DdTrace.Library.Text

/-!
# Tags from payloads

`tagsFromObject` of `payload-tagging/tagging.js` walks through a payload and makes a tag of every
leaf.  The value of a redacted key is not looked at; its tag says so.  After `MAX - 1` tags the walk
is to stop, and one more tag says that it did.

Whether it has to stop is looked at where a value is visited, and a redacted key is not visited.  So
the redacted keys that follow the last tag in the objects around it are tagged as well, and a
value that has no tag stops the walk as one with a tag does.

A walk is a list of items that are still to be visited, in order.  `Reaches n items rest` says that
`rest` is what is left of it when `n` tags have been made.

* `run_of_reaches`: what the walk has done then; `run_of_full`: what it does from there, when it
  has no more room.
* `tagsFromObject_mask`: nothing is told of the value of a redacted key.
* `limited_iff`: **the walk makes at most `MAX` tags, and marks them exactly when it has left one
  out, if and only if at the end of its room nothing is left, or one redacted key, or values of
  which one has a tag**.
-/

open Library

namespace DdTrace.PayloadTagging

open List

/-! ## The source -/

def PAYLOAD_TAGGING_MAX_TAGS : ℕ := 758

/-- What a payload holds, with the text of what has one, and the entries of an object or an array
in their order.  A function, a symbol or a bigint is none of the kinds that are looked for. -/
inductive Payload where
  | undefined
  | null
  | scalar (text : Str)
  | buffer (text : Str)
  | string (s : Str)
  | object (entries : List (Str × Payload))
  | other

/-- The keys that are redacted, and `toLowerCase` of the language. -/
structure Rules where
  redactedKeys : List Str
  toLowerCase : Str → Str

def Rules.has (R : Rules) (key : Str) : Bool := includes R.redactedKeys (R.toLowerCase key)

inductive TagValue where
  | text (s : Str)
  | true
  deriving DecidableEq

structure State where
  tagCount : ℕ
  abort : Bool
  emitted : List (Str × TagValue)

/-- One more tag. -/
def State.tag (s : State) (name value : Str) : State :=
  { s with tagCount := s.tagCount + 1, emitted := s.emitted ++ [(name, .text value)] }

def INCOMPLETE : Str := lit "_dd.payload_tags_incomplete"

/-- What comes before a value is looked at. -/
def State.visit (s : State) (f : State → State) : State :=
  if s.abort then s
  else if s.tagCount ≥ PAYLOAD_TAGGING_MAX_TAGS - 1 then
    { s with abort := Bool.true, emitted := s.emitted ++ [(INCOMPLETE, .true)] }
  else f s

/-- `escapeKey`. -/
def escapeKey (key : Str) : Str :=
  key.flatMap fun u => if u = unit '.' then [unit '\\', unit '.'] else [u]

/-- The name of what is found under a key. -/
def child (name key : Str) : Str := name ++ [unit '.'] ++ escapeKey key

mutual

/-- `tagRec`. -/
def tagRec (R : Rules) (maxDepth : ℕ) (name : Str) (depth : ℕ) : Payload → State → State
  | .undefined, s => s.visit fun s => s.tag name (lit "undefined")
  | .null, s => s.visit fun s => s.tag name (lit "null")
  | .scalar text, s => s.visit fun s => s.tag name (text.take 5000)
  | .buffer text, s => s.visit fun s =>
    if depth ≥ maxDepth then s.tag name (lit "truncated") else s.tag name (text.take 5000)
  | .string text, s => s.visit fun s => s.tag name (text.take 5000)
  | .object entries, s => s.visit fun s =>
    if depth ≥ maxDepth then s.tag name (lit "truncated")
    else tagEntries R maxDepth name depth entries s
  | .other, s => s.visit fun s => s

/-- The loop over the entries of an object. -/
def tagEntries (R : Rules) (maxDepth : ℕ) (name : Str) (depth : ℕ) :
    List (Str × Payload) → State → State
  | [], s => s
  | (key, value) :: entries, s =>
    tagEntries R maxDepth name depth entries
      (if R.has key then s.tag (child name key) (lit "redacted")
      else tagRec R maxDepth (child name key) (depth + 1) value s)

end

/-- The state after the walk. -/
def walk (R : Rules) (maxDepth : ℕ) (tagPrefix : Str) (object : Payload) : State :=
  tagRec R maxDepth tagPrefix 0 object ⟨0, false, []⟩

/-- `tagsFromObject`. -/
def tagsFromObject (R : Rules) (maxDepth : ℕ) (tagPrefix : Str) (object : Payload) :
    OrderedMap Str TagValue :=
  OrderedMap.ofEntries (walk R maxDepth tagPrefix object).emitted

/-! ## Items -/

/-- What is visited: a value under a name, or a redacted key. -/
inductive Item where
  | node (name : Str) (depth : ℕ) (value : Payload)
  | redacted (name : Str)

/-- What an item comes to: a tag, nothing, or other items. -/
inductive Step where
  | tag (name value : Str)
  | nothing
  | enter (items : List Item)

def entryItem (R : Rules) (name : Str) (depth : ℕ) (e : Str × Payload) : Item :=
  if R.has e.1 then .redacted (child name e.1) else .node (child name e.1) (depth + 1) e.2

def Item.step (R : Rules) (maxDepth : ℕ) : Item → Step
  | .redacted name => .tag name (lit "redacted")
  | .node name _ .undefined => .tag name (lit "undefined")
  | .node name _ .null => .tag name (lit "null")
  | .node name _ (.scalar text) => .tag name (text.take 5000)
  | .node name depth (.buffer text) =>
    if depth ≥ maxDepth then .tag name (lit "truncated") else .tag name (text.take 5000)
  | .node name _ (.string text) => .tag name (text.take 5000)
  | .node name depth (.object entries) =>
    if depth ≥ maxDepth then .tag name (lit "truncated")
    else .enter (entries.map (entryItem R name depth))
  | .node _ _ .other => .nothing

/-- What the walk does with an item. -/
def Item.visit (R : Rules) (maxDepth : ℕ) (s : State) : Item → State
  | .redacted name => s.tag name (lit "redacted")
  | .node name depth value => tagRec R maxDepth name depth value s

def run (R : Rules) (maxDepth : ℕ) (items : List Item) (s : State) : State :=
  items.foldl (Item.visit R maxDepth) s

/-- What the walk does with a step. -/
def Step.visit (R : Rules) (maxDepth : ℕ) (s : State) : Step → State
  | .tag name value => s.tag name value
  | .nothing => s
  | .enter items => run R maxDepth items s

variable {R : Rules} {maxDepth : ℕ}

theorem run_append (items items' : List Item) (s : State) :
    run R maxDepth (items ++ items') s = run R maxDepth items' (run R maxDepth items s) :=
  foldl_append

variable (name : Str)

/-- **The loop over the entries** visits their items. -/
theorem tagEntries_eq (depth : ℕ) (entries : List (Str × Payload)) (s : State) :
    tagEntries R maxDepth name depth entries s =
      run R maxDepth (entries.map (entryItem R name depth)) s := by
  induction entries generalizing s with
  | nil => rfl
  | cons e entries ih =>
    obtain ⟨key, value⟩ := e
    rw [tagEntries, ih, map_cons]
    unfold entryItem
    by_cases hkey : R.has key = true
    · rw [if_pos hkey, if_pos hkey]
      rfl
    · rw [if_neg hkey, if_neg hkey]
      rfl

/-- There is room for another tag. -/
def State.Open (s : State) : Prop := s.abort = false ∧ s.tagCount < PAYLOAD_TAGGING_MAX_TAGS - 1

variable {s : State} {rest : List Item} {tagPrefix : Str} {object : Payload}

theorem State.visit_of_open (h : s.Open) (f : State → State) : s.visit f = f s := by
  unfold State.visit
  rw [if_neg (by rw [h.1]; exact Bool.false_ne_true), if_neg (Nat.not_le.mpr h.2)]

/-- **What the walk does with an item** while there is room. -/
theorem visit_of_open (h : s.Open) (item : Item) :
    item.visit R maxDepth s = (item.step R maxDepth).visit R maxDepth s := by
  cases item with
  | redacted name => rfl
  | node name depth value =>
    cases value with
    | undefined | null | scalar text | string text | other =>
      rw [Item.visit, tagRec, State.visit_of_open h]
      rfl
    | buffer text =>
      rw [Item.visit, tagRec, State.visit_of_open h, Item.step]
      by_cases hdepth : depth ≥ maxDepth
      · rw [if_pos hdepth, if_pos hdepth]
        rfl
      · rw [if_neg hdepth, if_neg hdepth]
        rfl
    | object entries =>
      rw [Item.visit, tagRec, State.visit_of_open h, Item.step]
      by_cases hdepth : depth ≥ maxDepth
      · rw [if_pos hdepth, if_pos hdepth]
        rfl
      · rw [if_neg hdepth, if_neg hdepth]
        exact tagEntries_eq name depth entries s

/-! ## All tags -/

/-- What a path adds to a name. -/
def pathText (path : List Str) : Str := path.flatMap fun key => unit '.' :: escapeKey key

mutual

/-- The leaves of a payload, with their paths and values. -/
def leaves (R : Rules) (maxDepth depth : ℕ) : Payload → List (List Str × Str)
  | .undefined => [([], lit "undefined")]
  | .null => [([], lit "null")]
  | .scalar text => [([], text.take 5000)]
  | .buffer text => if depth ≥ maxDepth then [([], lit "truncated")] else [([], text.take 5000)]
  | .string text => [([], text.take 5000)]
  | .object entries =>
    if depth ≥ maxDepth then [([], lit "truncated")] else entryLeaves R maxDepth depth entries
  | .other => []

def entryLeaves (R : Rules) (maxDepth depth : ℕ) : List (Str × Payload) → List (List Str × Str)
  | [] => []
  | (key, value) :: entries =>
    (if R.has key then [([key], lit "redacted")]
      else (leaves R maxDepth (depth + 1) value).map fun l => (key :: l.1, l.2)) ++
      entryLeaves R maxDepth depth entries

end

/-- The tags that an item has, however many there are. -/
def Item.tags (R : Rules) (maxDepth : ℕ) : Item → List (Str × Str)
  | .redacted name => [(name, lit "redacted")]
  | .node name depth value =>
    (leaves R maxDepth depth value).map fun l => (name ++ pathText l.1, l.2)

def allTags (R : Rules) (maxDepth : ℕ) (items : List Item) : List (Str × Str) :=
  items.flatMap (Item.tags R maxDepth)

def Step.tags (R : Rules) (maxDepth : ℕ) : Step → List (Str × Str)
  | .tag name value => [(name, value)]
  | .nothing => []
  | .enter items => allTags R maxDepth items

theorem allTags_cons (item : Item) (items : List Item) :
    allTags R maxDepth (item :: items) = item.tags R maxDepth ++ allTags R maxDepth items :=
  flatMap_cons

theorem allTags_append (items items' : List Item) : allTags R maxDepth (items ++ items') =
      allTags R maxDepth items ++ allTags R maxDepth items' :=
  flatMap_append

theorem allTags_entries (depth : ℕ) (entries : List (Str × Payload)) :
    allTags R maxDepth (entries.map (entryItem R name depth)) =
      (entryLeaves R maxDepth depth entries).map fun l => (name ++ pathText l.1, l.2) := by
  induction entries with
  | nil => rfl
  | cons e entries ih =>
    obtain ⟨key, value⟩ := e
    rw [map_cons, allTags_cons, ih, entryLeaves]
    unfold entryItem
    by_cases hkey : R.has key = true
    · rw [if_pos hkey, if_pos hkey]
      simp [Item.tags, pathText, child]
    · rw [if_neg hkey, if_neg hkey]
      simp [Item.tags, pathText, child, Function.comp_def]

/-- **An item has the tags of its step.** -/
theorem tags_eq (item : Item) : item.tags R maxDepth = (item.step R maxDepth).tags R maxDepth := by
  cases item with
  | redacted name => rfl
  | node name depth value =>
    cases value with
    | undefined | null | scalar text => simp [Item.tags, Item.step, Step.tags, leaves, pathText]
    | string text => simp [Item.tags, Item.step, Step.tags, leaves, pathText]
    | other => rfl
    | buffer text =>
      by_cases hdepth : depth ≥ maxDepth <;>
        simp [Item.tags, Item.step, Step.tags, leaves, pathText, hdepth]
    | object entries =>
      rw [Item.tags, leaves, Item.step]
      by_cases hdepth : depth ≥ maxDepth
      · rw [if_pos hdepth, if_pos hdepth]
        simp [Step.tags, pathText]
      · rw [if_neg hdepth, if_neg hdepth]
        exact (allTags_entries name depth entries).symm

/-! ## What is left of a walk -/

/-- **What is left of a walk** when `n` tags have been made. -/
inductive Reaches (R : Rules) (maxDepth : ℕ) : ℕ → List Item → List Item → Prop where
  | zero (items : List Item) : Reaches R maxDepth 0 items items
  | tag {n : ℕ} {item : Item} {items rest : List Item} {name value : Str} :
      item.step R maxDepth = .tag name value → Reaches R maxDepth n items rest →
        Reaches R maxDepth (n + 1) (item :: items) rest
  | nothing {n : ℕ} {item : Item} {items rest : List Item} :
      item.step R maxDepth = .nothing → Reaches R maxDepth (n + 1) items rest →
        Reaches R maxDepth (n + 1) (item :: items) rest
  | enter {n : ℕ} {item : Item} {items inner rest : List Item} :
      item.step R maxDepth = .enter inner → Reaches R maxDepth (n + 1) (inner ++ items) rest →
        Reaches R maxDepth (n + 1) (item :: items) rest

/-- The size of what is to be visited. -/
noncomputable def weight : List Item → ℕ
  | [] => 0
  | .redacted _ :: items => 1 + weight items
  | .node _ _ value :: items => 1 + sizeOf value + weight items

theorem weight_append (items items' : List Item) :
    weight (items ++ items') = weight items + weight items' := by
  induction items with
  | nil => exact (Nat.zero_add _).symm
  | cons item items ih =>
    cases item with
    | redacted name | node name depth value =>
      rw [cons_append, weight, weight]
      omega

theorem weight_entries (depth : ℕ) (entries : List (Str × Payload)) :
    weight (entries.map (entryItem R name depth)) ≤ sizeOf entries := by
  induction entries with
  | nil => exact Nat.zero_le _
  | cons e entries ih =>
    obtain ⟨key, value⟩ := e
    rw [map_cons, entryItem]
    by_cases hkey : R.has key = true
    · rw [if_pos hkey, weight]
      simp only [List.cons.sizeOf_spec, Prod.mk.sizeOf_spec]
      omega
    · rw [if_neg hkey, weight]
      simp only [List.cons.sizeOf_spec, Prod.mk.sizeOf_spec]
      omega

theorem weight_enter {item : Item} {inner items : List Item}
    (h : item.step R maxDepth = .enter inner) :
    weight (inner ++ items) < weight (item :: items) := by
  cases item with
  | redacted name => cases h
  | node name depth value =>
    cases value with
    | object entries =>
      rw [Item.step] at h
      split at h
      · cases h
      · cases h
        have hle := weight_entries (R := R) name depth entries
        rw [weight_append, weight, Payload.object.sizeOf_spec]
        omega
    | buffer text =>
      rw [Item.step] at h
      split at h <;> cases h
    | _ => cases h

theorem weight_lt_cons (item : Item) (items : List Item) :
    weight items < weight (item :: items) := by
  cases item with
  | redacted name | node name depth value =>
    rw [weight]
    omega

/-- **Induction along a walk.** -/
theorem walk_induction {P : List Item → Prop} (nil : P [])
    (tag : ∀ item items name value, item.step R maxDepth = .tag name value → P items →
      P (item :: items))
    (nothing : ∀ item items, item.step R maxDepth = .nothing → P items → P (item :: items))
    (enter : ∀ item items inner, item.step R maxDepth = .enter inner → P (inner ++ items) →
      P (item :: items)) (items : List Item) : P items := by
  induction hn : weight items using Nat.strong_induction_on generalizing items with
  | _ n ih =>
    subst hn
    cases items with
    | nil => exact nil
    | cons item items =>
      cases hstep : item.step R maxDepth with
      | tag name value =>
        exact tag item items name value hstep (ih _ (weight_lt_cons item items) items rfl)
      | nothing => exact nothing item items hstep (ih _ (weight_lt_cons item items) items rfl)
      | enter inner =>
        exact enter item items inner hstep (ih _ (weight_enter hstep) (inner ++ items) rfl)

variable (items : List Item)

/-- A walk makes `n` tags, unless it has fewer. -/
theorem exists_reaches {n : ℕ} (h : n ≤ (allTags R maxDepth items).length) :
    ∃ rest, Reaches R maxDepth n items rest := by
  cases n with
  | zero => exact ⟨items, .zero items⟩
  | succ n =>
    revert n
    refine @walk_induction R maxDepth (fun items => ∀ n, n + 1 ≤ (allTags R maxDepth items).length →
        ∃ rest, Reaches R maxDepth (n + 1) items rest) ?_ ?_ ?_ ?_ items
    · intro n h
      exact absurd h (Nat.not_succ_le_zero n)
    · intro item items name value hstep ih n h
      rw [allTags_cons, tags_eq, hstep, length_append] at h
      cases n with
      | zero => exact ⟨items, .tag hstep (.zero items)⟩
      | succ n =>
        obtain ⟨rest, hrest⟩ := ih n (by simp only [Step.tags, length_singleton] at h; omega)
        exact ⟨rest, .tag hstep hrest⟩
    · intro item items hstep ih n h
      rw [allTags_cons, tags_eq, hstep] at h
      obtain ⟨rest, hrest⟩ := ih n h
      exact ⟨rest, .nothing hstep hrest⟩
    · intro item items inner hstep ih n h
      rw [allTags_cons, tags_eq, hstep] at h
      obtain ⟨rest, hrest⟩ := ih n (by rw [allTags_append]; exact h)
      exact ⟨rest, .enter hstep hrest⟩

/-! ## The walk -/

/-- A tag as it is emitted. -/
def textTag (t : Str × Str) : Str × TagValue := (t.1, .text t.2)

/-- More tags. -/
def State.tags (s : State) (made : List (Str × Str)) : State :=
  { s with tagCount := s.tagCount + made.length, emitted := s.emitted ++ made.map textTag }

theorem State.tags_nil (s : State) : s.tags [] = s := by
  unfold State.tags
  rw [map_nil, append_nil]
  rfl

theorem State.tags_cons (s : State) (name value : Str) (made : List (Str × Str)) :
    s.tags ((name, value) :: made) = (s.tag name value).tags made := by
  unfold State.tags State.tag
  rw [append_assoc]
  rw [Nat.add_assoc, Nat.add_comm 1]
  rfl

theorem run_cons (h : s.Open) (item : Item) (items : List Item) : run R maxDepth (item :: items) s =
      run R maxDepth items ((item.step R maxDepth).visit R maxDepth s) := by
  show run R maxDepth items (item.visit R maxDepth s) = _
  rw [visit_of_open h]

/-- **While there is room,** the walk makes the tags of its items in their order. -/
theorem run_of_reaches {n : ℕ} {items : List Item} (h : Reaches R maxDepth n items rest) :
    ∀ s : State, s.abort = false → s.tagCount + n ≤ PAYLOAD_TAGGING_MAX_TAGS - 1 →
      ∃ made, made.length = n ∧ allTags R maxDepth items = made ++ allTags R maxDepth rest ∧
        run R maxDepth items s = run R maxDepth rest (s.tags made) := by
  induction h with
  | zero items =>
    intro s _ _
    exact ⟨[], rfl, rfl, by rw [State.tags_nil]⟩
  | @tag n item items rest name value hstep _ ih =>
    intro s hs hroom
    obtain ⟨made, hlength, hall, hrun⟩ := ih (s.tag name value) hs (by
      show s.tagCount + 1 + n ≤ _
      omega)
    refine ⟨(name, value) :: made, by rw [length_cons, hlength], ?_, ?_⟩
    · rw [allTags_cons, tags_eq, hstep, hall]
      rfl
    · rw [run_cons ⟨hs, by omega⟩, hstep, State.tags_cons]
      exact hrun
  | @nothing n item items rest hstep _ ih =>
    intro s hs hroom
    obtain ⟨made, hlength, hall, hrun⟩ := ih s hs hroom
    refine ⟨made, hlength, ?_, ?_⟩
    · rw [allTags_cons, tags_eq, hstep, ← hall]
      rfl
    · rw [run_cons ⟨hs, by omega⟩, hstep]
      exact hrun
  | @enter n item items inner rest hstep _ ih =>
    intro s hs hroom
    obtain ⟨made, hlength, hall, hrun⟩ := ih s hs hroom
    refine ⟨made, hlength, ?_, ?_⟩
    · rw [allTags_cons, tags_eq, hstep, ← hall, allTags_append]
      rfl
    · rw [run_cons ⟨hs, by omega⟩, hstep, ← hrun, run_append]
      rfl

/-- **With room to spare,** it makes them all. -/
theorem run_all : ∀ s : State, s.abort = false →
    s.tagCount + (allTags R maxDepth items).length < PAYLOAD_TAGGING_MAX_TAGS - 1 →
      run R maxDepth items s = s.tags (allTags R maxDepth items) := by
  refine @walk_induction R maxDepth (fun items => ∀ s : State, s.abort = false →
    s.tagCount + (allTags R maxDepth items).length < PAYLOAD_TAGGING_MAX_TAGS - 1 →
      run R maxDepth items s = s.tags (allTags R maxDepth items)) ?_ ?_ ?_ ?_ items
  · intro s _ _
    exact (State.tags_nil s).symm
  · intro item items name value hstep ih s hs hroom
    rw [allTags_cons, tags_eq, hstep] at hroom ⊢
    rw [run_cons ⟨hs, by omega⟩, hstep]
    show run R maxDepth items (s.tag name value) = s.tags ((name, value) :: _)
    rw [State.tags_cons]
    refine ih _ hs ?_
    simp only [Step.tags, length_append, length_singleton] at hroom
    show s.tagCount + 1 + _ < _
    omega
  · intro item items hstep ih s hs hroom
    rw [allTags_cons, tags_eq, hstep] at hroom ⊢
    rw [run_cons ⟨hs, by omega⟩, hstep]
    exact ih s hs hroom
  · intro item items inner hstep ih s hs hroom
    rw [allTags_cons, tags_eq, hstep] at hroom ⊢
    rw [allTags_append] at ih
    rw [run_cons ⟨hs, by omega⟩, hstep, Step.visit, ← run_append]
    exact ih s hs hroom

/-! ## Without room -/

def Item.isRedacted : Item → Bool
  | .redacted _ => true
  | .node _ _ _ => false

@[simp] theorem isRedacted_redacted : (Item.redacted name).isRedacted = true := rfl

@[simp] theorem isRedacted_node (depth : ℕ) (value : Payload) :
    (Item.node name depth value).isRedacted = false := rfl

/-- What is emitted for the items for which there is no room. -/
def overflow : Bool → List Item → List (Str × TagValue)
  | _, [] => []
  | abort, .redacted name :: items => (name, .text (lit "redacted")) :: overflow abort items
  | false, .node _ _ _ :: items => (INCOMPLETE, .true) :: overflow true items
  | true, .node _ _ _ :: items => overflow true items

theorem tagRec_of_full (h : PAYLOAD_TAGGING_MAX_TAGS - 1 ≤ s.tagCount) (name : Str)
    (depth : ℕ) (value : Payload) :
    tagRec R maxDepth name depth value s =
      if s.abort then s
      else { s with abort := true, emitted := s.emitted ++ [(INCOMPLETE, .true)] } := by
  cases value <;> rw [tagRec, State.visit, if_pos h]

/-- **What the walk does without room**: it tags the redacted keys, and marks the first value. -/
theorem run_of_full : ∀ s : State, PAYLOAD_TAGGING_MAX_TAGS - 1 ≤ s.tagCount →
      (run R maxDepth items s).emitted = s.emitted ++ overflow s.abort items ∧
        (run R maxDepth items s).tagCount = s.tagCount + items.countP Item.isRedacted := by
  induction items with
  | nil => exact fun s _ => ⟨(append_nil _).symm, rfl⟩
  | cons item items ih =>
    intro s hs
    cases item with
    | redacted name =>
      obtain ⟨hemitted, hcount⟩ := ih (s.tag name (lit "redacted")) (Nat.le_succ_of_le hs)
      constructor
      · rw [overflow, append_cons]
        exact hemitted
      · rw [countP_cons_of_pos rfl, Nat.add_comm _ 1, ← Nat.add_assoc]
        exact hcount
    | node name depth value =>
      show (run R maxDepth items (tagRec R maxDepth name depth value s)).emitted = _ ∧
        (run R maxDepth items (tagRec R maxDepth name depth value s)).tagCount = _
      rw [tagRec_of_full hs]
      cases hs' : s.abort with
      | true =>
        rw [if_pos rfl, overflow, ← hs']
        exact ih s hs
      | false =>
        rw [overflow, append_cons _ _ (overflow true items)]
        exact ih _ hs

theorem length_overflow (abort : Bool) (items : List Item) :
    (overflow abort items).length = items.countP Item.isRedacted +
      if abort = false ∧ ∃ item ∈ items, item.isRedacted = false then 1 else 0 := by
  induction items generalizing abort with
  | nil => cases abort <;> simp [overflow]
  | cons item items ih =>
    cases item with
    | redacted name =>
      rw [overflow, length_cons, ih, countP_cons_of_pos rfl]
      simp only [isRedacted_redacted, mem_cons, exists_eq_or_imp, Bool.true_eq_false, false_or]
      omega
    | node name depth value =>
      cases abort <;> simp [overflow, ih]

theorem incomplete_mem_overflow :
    (INCOMPLETE, .true) ∈ overflow false items ↔ ∃ item ∈ items, item.isRedacted = false := by
  induction items with
  | nil => simp [overflow]
  | cons item items ih =>
    cases item with
    | redacted name => simp [overflow, ih]
    | node name depth value => simp [overflow]


/-! ## Redacted values -/

mutual

/-- A payload without the values of its redacted keys. -/
def mask (R : Rules) : Payload → Payload
  | .object entries => .object (maskEntries R entries)
  | .undefined => .undefined
  | .null => .null
  | .scalar text => .scalar text
  | .buffer text => .buffer text
  | .string text => .string text
  | .other => .other

def maskEntries (R : Rules) : List (Str × Payload) → List (Str × Payload)
  | [] => []
  | (key, value) :: entries =>
    (key, if R.has key then .null else mask R value) :: maskEntries R entries

end

mutual

theorem tagRec_mask (name : Str) (depth : ℕ) : (value : Payload) → (s : State) →
    tagRec R maxDepth name depth (mask R value) s = tagRec R maxDepth name depth value s
  | .object entries, s => by
    rw [mask, tagRec]
    congr 1
    funext s
    rw [tagEntries_mask name depth entries s]
  | .undefined, s | .null, s | .scalar text, s | .buffer text, s | .string text, s => by rw [mask]
  | .other, s => by rw [mask]

theorem tagEntries_mask (name : Str) (depth : ℕ) : (entries : List (Str × Payload)) →
    (s : State) → tagEntries R maxDepth name depth (maskEntries R entries) s =
      tagEntries R maxDepth name depth entries s
  | [], s => by rw [maskEntries]
  | (key, value) :: entries, s => by
    rw [maskEntries, tagEntries, tagEntries, tagEntries_mask name depth entries]
    by_cases hkey : R.has key = true
    · rw [if_pos hkey, if_pos hkey]
    · rw [if_neg hkey, if_neg hkey, if_neg hkey, tagRec_mask (child name key) (depth + 1) value s]

end

/-- **Nothing is told of the value of a redacted key.** -/
theorem tagsFromObject_mask (tagPrefix : Str) (object : Payload) :
    tagsFromObject R maxDepth tagPrefix (mask R object) =
      tagsFromObject R maxDepth tagPrefix object := by
  unfold tagsFromObject walk
  rw [tagRec_mask]

/-! ## The limit -/

/-- The tags of a payload, however many there are. -/
def payloadTags (R : Rules) (maxDepth : ℕ) (tagPrefix : Str) (object : Payload) :
    List (Str × Str) :=
  (leaves R maxDepth 0 object).map fun l => (tagPrefix ++ pathText l.1, l.2)

/-- What is promised: no more than the maximum of tags, marked as incomplete exactly when a tag
is missing, and nothing that is told of redacted values. -/
structure Limited (R : Rules) (maxDepth : ℕ) (tagPrefix : Str) (object : Payload) : Prop where
  bound : (walk R maxDepth tagPrefix object).emitted.length ≤ PAYLOAD_TAGGING_MAX_TAGS
  marked : (INCOMPLETE, .true) ∈ (walk R maxDepth tagPrefix object).emitted ↔
    (walk R maxDepth tagPrefix object).tagCount < (payloadTags R maxDepth tagPrefix object).length
  silent : ∀ object', mask R object' = mask R object →
    tagsFromObject R maxDepth tagPrefix object' = tagsFromObject R maxDepth tagPrefix object

/-- What may be left of a walk where its room ends: nothing, one redacted key, or values of which
one has a tag. -/
inductive Fine (R : Rules) (maxDepth : ℕ) : List Item → Prop where
  | nothing : Fine R maxDepth []
  | redacted (name : Str) : Fine R maxDepth [.redacted name]
  | values {items : List Item} : (∀ item ∈ items, item.isRedacted = false) →
      (∃ item ∈ items, item.tags R maxDepth ≠ []) → Fine R maxDepth items

theorem countP_le_length_allTags :
    items.countP Item.isRedacted ≤ (allTags R maxDepth items).length := by
  induction items with
  | nil => exact le_refl 0
  | cons item items ih =>
    rw [allTags_cons, length_append]
    cases item with
    | redacted name =>
      rw [countP_cons_of_pos rfl, Item.tags, length_singleton]
      omega
    | node name depth value =>
      rw [countP_cons_of_neg Bool.false_ne_true]
      omega

/-- A tag is missing where a value has one. -/
theorem countP_lt_length_allTags :
    items.countP Item.isRedacted < (allTags R maxDepth items).length ↔
      ∃ item ∈ items, item.isRedacted = false ∧ item.tags R maxDepth ≠ [] := by
  induction items with
  | nil => simp [allTags]
  | cons item items ih =>
    rw [allTags_cons, length_append]
    simp only [mem_cons, exists_eq_or_imp]
    rw [← ih]
    cases item with
    | redacted name =>
      rw [countP_cons_of_pos rfl, Item.tags, length_singleton]
      simp only [isRedacted_redacted, Bool.true_eq_false, false_and, false_or]
      omega
    | node name depth value =>
      have hle : items.countP Item.isRedacted ≤ (allTags R maxDepth items).length :=
        countP_le_length_allTags items
      rw [countP_cons_of_neg Bool.false_ne_true, isRedacted_node, ← length_pos_iff]
      simp only [true_and]
      omega

theorem fine_iff : Fine R maxDepth items ↔ (overflow false items).length ≤ 1 ∧
      ((INCOMPLETE, .true) ∈ overflow false items ↔
        items.countP Item.isRedacted < (allTags R maxDepth items).length) := by
  rw [length_overflow, incomplete_mem_overflow, countP_lt_length_allTags]
  constructor
  · rintro (_ | name | ⟨hall, item, hitem, htags⟩)
    · simp
    · simp
    · have hcount : items.countP Item.isRedacted = 0 := by
        rw [countP_eq_zero]
        intro item' hitem'
        rw [hall item' hitem']
        exact Bool.false_ne_true
      have hvalue : ∃ item ∈ items, item.isRedacted = false := ⟨item, hitem, hall item hitem⟩
      rw [hcount, if_pos ⟨rfl, hvalue⟩]
      exact ⟨le_refl 1, fun _ => ⟨item, hitem, hall item hitem, htags⟩, fun _ => hvalue⟩
  · rintro ⟨hlength, hmarked⟩
    by_cases hvalue : ∃ item ∈ items, item.isRedacted = false
    · rw [if_pos ⟨rfl, hvalue⟩] at hlength
      have hcount : items.countP Item.isRedacted = 0 := by omega
      rw [countP_eq_zero] at hcount
      obtain ⟨item, hitem, -, htags⟩ := hmarked.mp hvalue
      exact .values (fun item' hitem' => Bool.eq_false_iff.mpr (hcount item' hitem'))
        ⟨item, hitem, htags⟩
    · have hall : ∀ item ∈ items, item.isRedacted = true := by
        intro item hitem
        rw [← Bool.not_eq_false]
        exact fun h => hvalue ⟨item, hitem, h⟩
      rw [if_neg fun h => hvalue h.2, countP_eq_length.mpr hall] at hlength
      match items, hlength, hall with
      | [], _, _ => exact .nothing
      | [.redacted name], _, _ => exact .redacted name
      | [.node name depth value], _, hall =>
        exact absurd (hall _ mem_cons_self) Bool.false_ne_true

theorem incomplete_notMem (made : List (Str × Str)) : (INCOMPLETE, .true) ∉ made.map textTag := by
  intro hmem
  obtain ⟨t, -, ht⟩ := mem_map.mp hmem
  exact TagValue.noConfusion (Prod.ext_iff.mp ht).2

theorem allTags_root (tagPrefix : Str) (object : Payload) :
    allTags R maxDepth [.node tagPrefix 0 object] = payloadTags R maxDepth tagPrefix object :=
  append_nil _

/-- **What a walk emits** that comes to the end of its room. -/
theorem walk_of_reaches
    (h : Reaches R maxDepth (PAYLOAD_TAGGING_MAX_TAGS - 1) [.node tagPrefix 0 object] rest) :
    ∃ made, made.length = PAYLOAD_TAGGING_MAX_TAGS - 1 ∧
      payloadTags R maxDepth tagPrefix object = made ++ allTags R maxDepth rest ∧
      (walk R maxDepth tagPrefix object).emitted = made.map textTag ++ overflow false rest ∧
      (walk R maxDepth tagPrefix object).tagCount =
        made.length + rest.countP Item.isRedacted := by
  obtain ⟨made, hlength, htags, hrun⟩ :=
    run_of_reaches h ⟨0, false, []⟩ rfl (Nat.zero_add _).le
  have hfull : PAYLOAD_TAGGING_MAX_TAGS - 1 ≤ (State.tags ⟨0, false, []⟩ made).tagCount := by
    show _ ≤ 0 + made.length
    omega
  have hwalk : walk R maxDepth tagPrefix object =
      run R maxDepth rest (State.tags ⟨0, false, []⟩ made) := hrun
  obtain ⟨hemitted, hcount⟩ := @run_of_full R maxDepth rest _ hfull
  refine ⟨made, hlength, ?_, ?_, ?_⟩
  · rw [← allTags_root, htags]
  · rw [hwalk, hemitted]
    rfl
  · rw [hwalk, hcount]
    show 0 + made.length + _ = _
    rw [Nat.zero_add]

/-- **What a walk emits** that does not. -/
theorem walk_of_lt
    (h : (payloadTags R maxDepth tagPrefix object).length < PAYLOAD_TAGGING_MAX_TAGS - 1) :
    (walk R maxDepth tagPrefix object).emitted =
        (payloadTags R maxDepth tagPrefix object).map textTag ∧
      (walk R maxDepth tagPrefix object).tagCount =
        (payloadTags R maxDepth tagPrefix object).length := by
  have hwalk : walk R maxDepth tagPrefix object =
      State.tags ⟨0, false, []⟩ (payloadTags R maxDepth tagPrefix object) := by
    rw [← allTags_root]
    refine run_all [.node tagPrefix 0 object] ⟨0, false, []⟩ rfl ?_
    rw [allTags_root]
    show 0 + _ < _
    omega
  constructor
  · rw [hwalk]
    rfl
  · rw [hwalk]
    exact Nat.zero_add _

/-- A walk comes to the end of its room, or has fewer tags. -/
theorem exists_reaches_root (tagPrefix : Str) (object : Payload) :
    (payloadTags R maxDepth tagPrefix object).length < PAYLOAD_TAGGING_MAX_TAGS - 1 ∨ ∃ rest,
        Reaches R maxDepth (PAYLOAD_TAGGING_MAX_TAGS - 1) [.node tagPrefix 0 object] rest := by
  rcases Nat.lt_or_ge (payloadTags R maxDepth tagPrefix object).length
    (PAYLOAD_TAGGING_MAX_TAGS - 1) with h | h
  · exact .inl h
  · exact .inr (exists_reaches _ (by rw [allTags_root]; exact h))

/-- **Where the room ends,** the rest decides. -/
theorem fine_iff_of_reaches
    (h : Reaches R maxDepth (PAYLOAD_TAGGING_MAX_TAGS - 1) [.node tagPrefix 0 object] rest) :
    Fine R maxDepth rest ↔
      (walk R maxDepth tagPrefix object).emitted.length ≤ PAYLOAD_TAGGING_MAX_TAGS ∧
        ((INCOMPLETE, .true) ∈ (walk R maxDepth tagPrefix object).emitted ↔
          (walk R maxDepth tagPrefix object).tagCount <
            (payloadTags R maxDepth tagPrefix object).length) := by
  obtain ⟨made, hlength, htags, hemitted, hcount⟩ := walk_of_reaches h
  have hmax : PAYLOAD_TAGGING_MAX_TAGS = made.length + 1 := by
    rw [hlength]
    rfl
  rw [fine_iff, hemitted, hcount, htags, hmax, length_append, length_append,
    length_map, mem_append, Nat.add_le_add_iff_left, Nat.add_lt_add_iff_left]
  simp only [incomplete_notMem, false_or]

/-- **The limit is kept and marked** exactly when what is left of a walk, where its room ends, is
nothing, one redacted key, or values of which one has a tag. -/
theorem limited_iff (R : Rules) (maxDepth : ℕ) (tagPrefix : Str) (object : Payload) :
    Limited R maxDepth tagPrefix object ↔
      ∀ rest, Reaches R maxDepth (PAYLOAD_TAGGING_MAX_TAGS - 1) [.node tagPrefix 0 object] rest →
        Fine R maxDepth rest := by
  constructor
  · intro hlimited rest hrest
    exact (fine_iff_of_reaches hrest).mpr ⟨hlimited.bound, hlimited.marked⟩
  intro hfine
  have hsilent : ∀ object', mask R object' = mask R object →
      tagsFromObject R maxDepth tagPrefix object' =
        tagsFromObject R maxDepth tagPrefix object := by
    intro object' h
    rw [← tagsFromObject_mask, h, tagsFromObject_mask]
  rcases @exists_reaches_root R maxDepth tagPrefix object with hlt | ⟨rest, hrest⟩
  · obtain ⟨hemitted, hcount⟩ := walk_of_lt hlt
    refine ⟨?_, ?_, hsilent⟩
    · rw [hemitted, length_map]
      omega
    · rw [hemitted, hcount]
      exact iff_of_false (incomplete_notMem _) (lt_irrefl _)
  · obtain ⟨hbound, hmarked⟩ := (fine_iff_of_reaches hrest).mp (hfine rest hrest)
    exact ⟨hbound, hmarked, hsilent⟩

/-- The rules of the source, for keys in lower case. -/
def sourceRules : Rules :=
  ⟨[lit "authorization", lit "x-authorization", lit "password", lit "token"], id⟩

/-- An object with 757 values, and two redacted keys behind them. -/
def crowded : Payload :=
  .object (List.replicate 757 (lit "k", .null) ++ [(lit "password", .null), (lit "token", .null)])

theorem reaches_replicate (n depth : ℕ) (name key : Str) (hkey : R.has key = false)
    (entries : List (Str × Payload)) :
    Reaches R maxDepth n
      ((List.replicate n (key, Payload.null) ++ entries).map (entryItem R name depth))
      (entries.map (entryItem R name depth)) := by
  induction n with
  | zero => exact .zero _
  | succ n ih =>
    have hitem : entryItem R name depth (key, .null) =
        .node (child name key) (depth + 1) .null := by
      unfold entryItem
      rw [if_neg (by rw [hkey]; exact Bool.false_ne_true)]
    rw [replicate_succ, cons_append, map_cons, hitem]
    exact .tag rfl ih

/-- **Two redacted keys behind 757 values** are tagged, so that there are 759 tags. -/
theorem not_limited_crowded : ¬Limited sourceRules 10 (lit "p") crowded := by
  intro hlimited
  have hkey : sourceRules.has (lit "k") = false := by decide
  have hrest : Reaches sourceRules 10 (PAYLOAD_TAGGING_MAX_TAGS - 1) [.node (lit "p") 0 crowded]
      [.redacted (child (lit "p") (lit "password")),
        .redacted (child (lit "p") (lit "token"))] := by
    refine .enter rfl ?_
    rw [append_nil]
    exact reaches_replicate 757 0 (lit "p") (lit "k") hkey _
  have hfine := (fine_iff_of_reaches hrest).mpr ⟨hlimited.bound, hlimited.marked⟩
  rw [fine_iff] at hfine
  exact absurd hfine.1 (by decide)

end DdTrace.PayloadTagging
