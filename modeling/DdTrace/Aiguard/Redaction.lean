import DdTrace.Library.JsonPath
import DdTrace.Library.Number

/-!
# Redaction of AI Guard messages

`aiguard/redaction.js` replaces strings of a copy of the messages, by the paths that the service
gives.  Of a path with different replacements none is made.  Paths are told apart by their text, and
`messages[0]` and `messages[00]` are two texts of one place: they do not conflict, the later one stays.

* `redactMessages`: the replacements, in the order of the paths.
* `Agreed`: what the replacements of a path have in common, and `inv_scanEntry`.
* `Names`: a path with one replacement, and the string that it leads to.
* `redacts_redactMessages`: **a string is replaced exactly when such a path leads to it, every other
  path and every malformed replacement is a failure, and the order does not matter when no string has
  two replacements left**.
-/

namespace DdTrace.Aiguard

open Library List Json

/-! ## Paths -/

structure Segment where
  name : Str
  index : Option ℕ

/-- `[A-Za-z0-9_]` -/
def isWord (u : UInt16) : Bool :=
  Number.isDigit u || unit 'A' ≤ u && u ≤ unit 'Z' || unit 'a' ≤ u && u ≤ unit 'z' || u == unit '_'

/-- `SEGMENT_PATTERN`, and what is made of its match. -/
def parseSegment (rawSegment : Str) : Option Segment :=
  let name := rawSegment.takeWhile isWord
  if name = [] then none
  else match rawSegment.dropWhile isWord with
    | [] => some ⟨name, none⟩
    | u :: rest =>
      let digits := rest.dropLast
      if u = unit '[' ∧ rest.getLast? = some (unit ']') ∧ digits ≠ [] ∧ digits.all Number.isDigit then
        some ⟨name, some (Str.readDigits 10 0 digits)⟩
      else none

def parsePath (path : Str) : Option (List Segment) := (Str.split (unit '.') path).mapM parseSegment

def MESSAGES : Str := lit "messages"
def CONTENT : Str := lit "content"
def TEXT : Str := lit "text"
def TOOL_CALLS : Str := lit "tool_calls"
def FUNCTION : Str := lit "function"
def ARGUMENTS : Str := lit "arguments"

def isRedactablePath : List Segment → Bool
  | ⟨name, some _⟩ :: rest => decide (name = MESSAGES) && match rest with
    | [⟨content, none⟩] => decide (content = CONTENT)
    | [⟨content, some _⟩, ⟨text, none⟩] => decide (content = CONTENT ∧ text = TEXT)
    | [⟨toolCalls, some _⟩, ⟨function, none⟩, ⟨arguments, none⟩] =>
      decide (toolCalls = TOOL_CALLS ∧ function = FUNCTION ∧ arguments = ARGUMENTS)
    | _ => false
  | _ => false

def Segment.steps (segment : Segment) : List Step :=
  .key segment.name :: (segment.index.map Step.index).toList

/-- `resolveWritableString`: the steps to the string.  None of the names is an index, so that an
array has none of them. -/
def resolveWritableString (root : Json) (path : Str) : Option (List Step) :=
  (parsePath path).bind fun segments =>
    let steps := segments.flatMap Segment.steps
    if isRedactablePath segments = true ∧ (stringAt steps root).isSome = true then some steps
    else none

/-! ## Replacements -/

/-- The path and the replacement of an entry that is well formed. -/
def readEntry : Json → Option (Str × Str)
  | .obj members =>
    match member (lit "path") members, member (lit "replacement") members with
    | some (.str path), some (.str replacement) =>
      if path.length = 0 then none else some (path, replacement)
    | _, _ => none
  | _ => none

structure Scan where
  replacementsByPath : OrderedMap Str Str := .empty
  conflictingPaths : List Str := []
  failures : ℕ := 0

/-- One turn of the first loop. -/
def scanEntry (s : Scan) (entry : Json) : Scan :=
  match readEntry entry with
  | none => { s with failures := s.failures + 1 }
  | some (path, replacement) =>
    if path ∈ s.conflictingPaths then s
    else match s.replacementsByPath.get? path with
      | some other =>
        if other ≠ replacement then
          { replacementsByPath := s.replacementsByPath.delete path
            conflictingPaths := s.conflictingPaths ++ [path]
            failures := s.failures + 1 }
        else { s with replacementsByPath := s.replacementsByPath.set path replacement }
      | none => { s with replacementsByPath := s.replacementsByPath.set path replacement }

structure Result where
  messages : Json
  redacted : Bool
  failures : ℕ

def rootOf (messages : Json) : Json := .obj [(MESSAGES, messages)]

def targets (root : Json) (replacementsByPath : OrderedMap Str Str) : List (List Step × Str) :=
  replacementsByPath.entries.filterMap fun e =>
    (resolveWritableString root e.1).map fun steps => (steps, e.2)

/-- The messages of the object that the replacements have been made in. -/
def write (messages : Json) (targets : List (List Step × Str)) : Json :=
  (child (targets.foldl (fun root target => put target.2 target.1 root) (rootOf messages))
    (.key MESSAGES)).getD messages

def redactMessages (messages : Json) (replacements : Option Json) : Result :=
  match messages, replacements with
  | .arr _, some (.arr entries) =>
    let s := entries.foldl scanEntry {}
    let root := rootOf messages
    let targets := targets root s.replacementsByPath
    { messages := write messages targets
      redacted := decide (0 < targets.length)
      failures := s.failures + s.replacementsByPath.entries.countP fun e =>
        (resolveWritableString root e.1).isNone }
  | .arr _, none | .arr _, some .null => ⟨messages, false, 0⟩
  | .arr _, some _ => ⟨messages, false, 1⟩
  | _, _ => ⟨messages, false, 0⟩

/-! ## What the replacements amount to -/

/-- All replacements of the path have this text. -/
def Agreed (l : List (Str × Str)) (path text : Str) : Prop :=
  (path, text) ∈ l ∧ ∀ text', (path, text') ∈ l → text' = text

/-- The path has one replacement, and leads to a string. -/
def Names (messages : Json) (entries : List Json) (path : Str) (steps : List Step) (text : Str) :
    Prop :=
  Agreed (entries.filterMap readEntry) path text ∧
    resolveWritableString (rootOf messages) path = some steps

/-- The content of a message, the text of a part of it, or the arguments of a tool call. -/
inductive Redactable : List Step → Prop
  | content (i : ℕ) : Redactable [.key MESSAGES, .index i, .key CONTENT]
  | text (i j : ℕ) : Redactable [.key MESSAGES, .index i, .key CONTENT, .index j, .key TEXT]
  | arguments (i j : ℕ) : Redactable [.key MESSAGES, .index i, .key TOOL_CALLS, .index j,
      .key FUNCTION, .key ARGUMENTS]

open Classical in
/-- The paths that name nothing. -/
noncomputable def unnamed (messages : Json) (entries : List Json) : Finset Str :=
  ((entries.filterMap readEntry).map Prod.fst).toFinset.filter fun path =>
    ¬∃ steps text, Names messages entries path steps text

/-- **What the replacements are for**, path by path. -/
structure Redacts (messages : Json) (entries : List Json) (r : Result) : Prop where
  strings : ∀ steps, (∃ path text, Names messages entries path steps text ∧
      stringAt steps (rootOf r.messages) = some text) ∨
    ((∀ path text, ¬Names messages entries path steps text) ∧
      stringAt steps (rootOf r.messages) = stringAt steps (rootOf messages))
  redactable : ∀ path steps text, Names messages entries path steps text → Redactable steps
  failures : r.failures = entries.countP (fun entry => (readEntry entry).isNone) +
    (unnamed messages entries).card

/-! ## The first loop -/

/-- What the entries that have been read amount to. -/
structure Inv (entries : List Json) (s : Scan) : Prop where
  agreed : ∀ path text, s.replacementsByPath.get? path = some text ↔
    Agreed (entries.filterMap readEntry) path text
  conflicting : ∀ path, path ∈ s.conflictingPaths ↔
    (∃ text, (path, text) ∈ entries.filterMap readEntry) ∧
      ∀ text, ¬Agreed (entries.filterMap readEntry) path text
  nodup : s.conflictingPaths.Nodup
  failures : s.failures = entries.countP (fun entry => (readEntry entry).isNone) +
    s.conflictingPaths.length

/-- **The step of the first loop.** -/
theorem inv_scanEntry {entries : List Json} {s : Scan} (h : Inv entries s) (entry : Json) :
    Inv (entries ++ [entry]) (scanEntry s entry) := by
  obtain ⟨hagreed, hconflicting, hnodup, hfailures⟩ := h
  unfold scanEntry
  cases hread : readEntry entry with
  | none =>
    have hfilter : (entries ++ [entry]).filterMap readEntry = entries.filterMap readEntry := by
      rw [filterMap_append, filterMap_cons_none hread, filterMap_nil, append_nil]
    refine ⟨?_, ?_, hnodup, ?_⟩
    · rwa [hfilter]
    · rwa [hfilter]
    · simp [countP_append, hread, hfailures]
      omega
  | some e =>
    obtain ⟨path, replacement⟩ := e
    have hfilter : (entries ++ [entry]).filterMap readEntry =
        entries.filterMap readEntry ++ [(path, replacement)] := by
      rw [filterMap_append, filterMap_cons_some hread, filterMap_nil]
    have hcount : (entries ++ [entry]).countP (fun entry => (readEntry entry).isNone) =
        entries.countP fun entry => (readEntry entry).isNone := by
      simp [countP_append, hread]
    generalize entries.filterMap readEntry = l at *
    -- the other paths are not concerned
    have hother : ∀ p t, p ≠ path → (Agreed (l ++ [(path, replacement)]) p t ↔ Agreed l p t) := by
      intro p t hne
      simp [Agreed, hne]
    have hself : ∀ t, Agreed (l ++ [(path, replacement)]) path t ↔
        t = replacement ∧ ∀ t', (path, t') ∈ l → t' = t := by
      intro t
      simp [Agreed]
      grind
    have hrest : ∀ p, p ≠ path → (p ∈ s.conflictingPaths ↔
        (∃ t, (p, t) ∈ l ++ [(path, replacement)]) ∧
          ∀ t, ¬Agreed (l ++ [(path, replacement)]) p t) := by
      intro p hne
      rw [hconflicting]
      simp [hother p _ hne, hne]
    dsimp only
    split_ifs with hmem
    · refine ⟨?_, ?_, hnodup, ?_⟩
      all_goals grind [Agreed]
    · cases hget : s.replacementsByPath.get? path with
      | none =>
        have hnone : ∀ t, (path, t) ∉ l := fun t ht => hmem ((hconflicting path).mpr
          ⟨⟨t, ht⟩, fun t' ha => by rw [(hagreed path t').mpr ha] at hget; cases hget⟩)
        refine ⟨fun p t => ?_, fun p => ?_, hnodup, by rw [hcount, hfailures]⟩
        · rw [OrderedMap.get?_set]
          grind
        · rw [hfilter]
          by_cases hp : p = path
          · subst hp
            exact iff_of_false hmem fun hall => hall.2 replacement ((hself replacement).mpr
              ⟨rfl, fun t' ht' => absurd ht' (hnone t')⟩)
          · exact hrest p hp
      | some other =>
        have hold := (hagreed path other).mp hget
        dsimp only
        split_ifs with hne
        · refine ⟨fun p t => ?_, fun p => ?_, ?_, ?_⟩
          · rw [OrderedMap.get?_delete]
            grind [Agreed]
          · rw [hfilter, mem_append, mem_singleton]
            by_cases hp : p = path
            · subst hp
              refine iff_of_true (.inr rfl) ⟨⟨replacement, by simp⟩, fun t ht => ?_⟩
              obtain ⟨rfl, hall⟩ := (hself t).mp ht
              exact hne (hall other hold.1)
            · rw [or_iff_left hp]
              exact hrest p hp
          · exact nodup_append.mpr ⟨hnodup, nodup_singleton path, by grind⟩
          · rw [length_append, length_singleton, hcount, hfailures, Nat.add_assoc]
        · rw [not_not] at hne
          subst hne
          refine ⟨fun p t => ?_, fun p => ?_, hnodup, by rw [hcount, hfailures]⟩
          · rw [OrderedMap.get?_set]
            grind [Agreed]
          · rw [hfilter]
            by_cases hp : p = path
            · subst hp
              exact iff_of_false hmem fun hall => hall.2 other ((hself other).mpr ⟨rfl, hold.2⟩)
            · exact hrest p hp

theorem inv_scan (entries : List Json) : Inv entries (entries.foldl scanEntry {}) := by
  induction entries using List.reverseRecOn with
  | nil => exact ⟨by simp [Agreed], by simp, nodup_nil, rfl⟩
  | append_singleton entries entry ih =>
    rw [foldl_append]
    exact inv_scanEntry ih entry

/-! ## The second loop -/

theorem redactable_of {segments : List Segment} (h : isRedactablePath segments = true) :
    Redactable (segments.flatMap Segment.steps) := by
  unfold isRedactablePath at h
  split at h
  · rw [Bool.and_eq_true, decide_eq_true_iff] at h
    obtain ⟨rfl, h⟩ := h
    split at h
    · obtain rfl := of_decide_eq_true h
      exact .content _
    · obtain ⟨rfl, rfl⟩ := of_decide_eq_true h
      exact .text _ _
    · obtain ⟨rfl, rfl, rfl⟩ := of_decide_eq_true h
      exact .arguments _ _
    · cases h
  · cases h

variable {messages root : Json} {entries : List Json} {s : Scan} {path : Str} {steps : List Step}

theorem resolve_spec (h : resolveWritableString root path = some steps) :
    Redactable steps ∧ (stringAt steps root).isSome = true := by
  obtain ⟨segments, -, h⟩ := Option.bind_eq_some_iff.mp h
  dsimp only at h
  split_ifs at h with hred
  cases h
  exact ⟨redactable_of hred.1, hred.2⟩

theorem mem_targets_iff (h : Inv entries s) (target : List Step × Str) :
    target ∈ targets (rootOf messages) s.replacementsByPath ↔
      ∃ path, Names messages entries path target.1 target.2 := by
  obtain ⟨steps, text⟩ := target
  simp only [targets, mem_filterMap, Option.map_eq_some_iff, Prod.mk.injEq, Prod.exists,
    OrderedMap.mem_entries_iff, h.agreed, Names]
  grind

/-- The messages are those of the object that the replacements have been made in. -/
theorem rootOf_write {targets : List (List Step × Str)}
    (h : ∀ target ∈ targets, Redactable target.1) : rootOf (write messages targets) =
      targets.foldl (fun root target => put target.2 target.1 root) (rootOf messages) := by
  have hput : ∀ {steps : List Step}, Redactable steps → ∀ (s : Str) (m : Json),
      ∃ m', put s steps (rootOf m) = rootOf m' := by
    intro steps hsteps s m
    cases hsteps <;> exact ⟨_, rfl⟩
  have hroot : ∃ m', targets.foldl (fun root target => put target.2 target.1 root)
      (rootOf messages) = rootOf m' := by
    induction targets generalizing messages with
    | nil => exact ⟨messages, rfl⟩
    | cons target targets ih =>
      obtain ⟨m', hm'⟩ := hput (h target mem_cons_self) target.2 messages
      rw [foldl_cons, hm']
      exact ih (forall_mem_cons.mp h).2
  obtain ⟨m', hm'⟩ := hroot
  rw [write, hm']
  rfl

open Classical in
theorem mem_unnamed_iff : path ∈ unnamed messages entries ↔
    (∃ text, (path, text) ∈ entries.filterMap readEntry) ∧
      ((∀ text, ¬Agreed (entries.filterMap readEntry) path text) ∨
        resolveWritableString (rootOf messages) path = none) := by
  rw [unnamed, Finset.mem_filter, mem_toFinset, mem_map, Option.eq_none_iff_forall_ne_some]
  simp only [Prod.exists, exists_and_right, exists_eq_right, Names]
  grind

/-- The conflicting paths and those that lead nowhere. -/
theorem card_unnamed (h : Inv entries s) : (unnamed messages entries).card =
    s.conflictingPaths.length + s.replacementsByPath.entries.countP fun e =>
      (resolveWritableString (rootOf messages) e.1).isNone := by
  have hset : unnamed messages entries = (s.conflictingPaths ++
      (s.replacementsByPath.entries.filter fun e =>
        (resolveWritableString (rootOf messages) e.1).isNone).map Prod.fst).toFinset := by
    ext path
    rw [mem_unnamed_iff, mem_toFinset, mem_append, h.conflicting, mem_map]
    simp only [mem_filter, OrderedMap.mem_entries_iff, h.agreed, Option.isNone_iff_eq_none,
      Prod.exists, exists_and_right, exists_eq_right]
    grind [Agreed]
  have hnodup : (s.conflictingPaths ++ (s.replacementsByPath.entries.filter fun e =>
      (resolveWritableString (rootOf messages) e.1).isNone).map Prod.fst).Nodup := by
    refine nodup_append.mpr ⟨h.nodup, s.replacementsByPath.nodup.sublist (filter_sublist.map _), ?_⟩
    rintro path hpath path' hpath' rfl
    obtain ⟨e, he, rfl⟩ := mem_map.mp hpath'
    have hget := OrderedMap.mem_entries_iff.mp (mem_filter.mp he).1
    exact ((h.conflicting e.1).mp hpath).2 e.2 ((h.agreed e.1 e.2).mp hget)
  rw [hset, toFinset_card_of_nodup hnodup, length_append, length_map, countP_eq_length_filter]

/-! ## The result -/

theorem redacts_of (items entries : List Json) :
    Redacts (.arr items) entries (redactMessages (.arr items) (some (.arr entries))) := by
  have h := inv_scan entries
  have hmem : ∀ target, target ∈ targets (rootOf (.arr items)) _ ↔ _ := mem_targets_iff h
  refine ⟨fun steps => ?_, fun _ _ _ hnames => (resolve_spec hnames.2).1, ?_⟩
  · have hnamed : ∀ target ∈ targets (rootOf (.arr items))
        (entries.foldl scanEntry {}).replacementsByPath, Redactable target.1 ∧
          (stringAt target.1 (rootOf (.arr items))).isSome = true := by
      intro target htarget
      obtain ⟨path, hnames⟩ := (hmem target).mp htarget
      exact resolve_spec hnames.2
    show (∃ path text, _ ∧ stringAt steps (rootOf (write _ _)) = _) ∨
      _ ∧ stringAt steps (rootOf (write _ _)) = _
    rw [rootOf_write fun target ht => (hnamed target ht).1,
      stringAt_foldl_put fun target ht => (hnamed target ht).2]
    cases hlast : OrderedMap.lastValue (targets (rootOf (.arr items))
      (entries.foldl scanEntry {}).replacementsByPath) steps with
    | none =>
      refine .inr ⟨fun path text hnames => ?_, Option.none_or⟩
      exact OrderedMap.lastValue_eq_none_iff.mp hlast
        (mem_map.mpr ⟨(steps, text), (hmem (steps, text)).mpr ⟨path, hnames⟩, rfl⟩)
    | some text =>
      obtain ⟨path, hnames⟩ := (hmem (steps, text)).mp (OrderedMap.mem_of_lastValue hlast)
      exact .inl ⟨path, text, hnames, Option.some_or⟩
  · rw [card_unnamed h, ← Nat.add_assoc, ← h.failures]
    rfl

theorem redactMessages_perm {items entries' : List Json} (hperm : entries.Perm entries')
    (hone : ∀ path path' steps text text', Names (.arr items) entries path steps text →
      Names (.arr items) entries path' steps text' → text = text') :
    redactMessages (.arr items) (some (.arr entries')) =
      redactMessages (.arr items) (some (.arr entries)) := by
  have h := inv_scan entries
  have h' := inv_scan entries'
  have hagreed : ∀ path text, Agreed (entries'.filterMap readEntry) path text ↔
      Agreed (entries.filterMap readEntry) path text := by
    intro path text
    simp only [Agreed, (hperm.filterMap readEntry).mem_iff]
  have hentries : (entries'.foldl scanEntry {}).replacementsByPath.entries.Perm
      (entries.foldl scanEntry {}).replacementsByPath.entries := by
    refine (perm_ext_iff_of_nodup (.of_map _ (OrderedMap.nodup_keys _))
      (.of_map _ (OrderedMap.nodup_keys _))).mpr fun e => ?_
    rw [OrderedMap.mem_entries_iff, OrderedMap.mem_entries_iff, h.agreed, h'.agreed, hagreed]
  have htargets := hentries.filterMap fun e =>
    (resolveWritableString (rootOf (.arr items)) e.1).map fun steps => (steps, e.2)
  have hunnamed : unnamed (.arr items) entries' = unnamed (.arr items) entries := by
    ext path
    simp only [mem_unnamed_iff, hagreed, (hperm.filterMap readEntry).mem_iff]
  have hmessages : write (.arr items) (targets (rootOf (.arr items))
      (entries'.foldl scanEntry {}).replacementsByPath) = write (.arr items)
        (targets (rootOf (.arr items)) (entries.foldl scanEntry {}).replacementsByPath) := by
    refine congrArg (fun root => (child root (.key MESSAGES)).getD _)
      (htargets.foldl_eq' (fun x hx y hy root => ?_) _)
    obtain ⟨path, hx⟩ := (mem_targets_iff h x).mp (htargets.mem_iff.mp hx)
    obtain ⟨path', hy⟩ := (mem_targets_iff h y).mp (htargets.mem_iff.mp hy)
    by_cases hsteps : x.1 = y.1
    · rw [hsteps, hone path path' y.1 x.2 y.2 (hsteps ▸ hx) hy]
    · have hx' := (resolve_spec hx.2).2
      have hy' := (resolve_spec hy.2).2
      exact put_comm (fun hle => hsteps (eq_of_isPrefix hle hy' hx').symm)
        (fun hle => hsteps (eq_of_isPrefix hle hx' hy')) _ _ _
  have hfailures := (redacts_of items entries').failures
  rw [hunnamed, ← hperm.countP_eq, ← (redacts_of items entries).failures] at hfailures
  unfold redactMessages at hfailures ⊢
  rw [Result.mk.injEq]
  exact ⟨hmessages, congrArg (decide <| 0 < ·) htargets.length_eq, hfailures⟩

/-- **A string is replaced exactly when a path with one replacement leads to it**, every other path
and every malformed replacement is a failure, and the order does not matter when no string has two
replacements left. -/
theorem redacts_redactMessages (items entries : List Json) :
    Redacts (.arr items) entries (redactMessages (.arr items) (some (.arr entries))) ∧
      ((∀ path path' steps text text', Names (.arr items) entries path steps text →
        Names (.arr items) entries path' steps text' → text = text') →
        ∀ entries', entries.Perm entries' → redactMessages (.arr items) (some (.arr entries')) =
          redactMessages (.arr items) (some (.arr entries))) :=
  ⟨redacts_of items entries, fun hone _ hperm => redactMessages_perm hperm hone⟩

/-- `messages[00]` is another path than `messages[0]`: the later one stays. -/
theorem not_order_free : ¬∀ items entries entries' : List Json, entries.Perm entries' →
    (redactMessages (.arr items) (some (.arr entries'))).messages =
      (redactMessages (.arr items) (some (.arr entries))).messages := by
  intro h
  have h := congrArg (fun messages => stringAt [.key MESSAGES, .index 0, .key CONTENT]
    (rootOf messages)) (h [.obj [(CONTENT, .str (lit "secret"))]]
      [.obj [(lit "path", .str (lit "messages[0].content")), (lit "replacement", .str (lit "A"))],
        .obj [(lit "path", .str (lit "messages[00].content")), (lit "replacement", .str (lit "B"))]]
      _ (.swap ..))
  revert h
  decide

end DdTrace.Aiguard
