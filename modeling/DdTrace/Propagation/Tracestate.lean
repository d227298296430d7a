import DdTrace.Library.OrderedMap
import DdTrace.Propagation.Id

/-!
# The `tracestate` header

`opentracing/propagation/tracestate.js`: the list of vendors, separated by commas, and inside the
vendor `dd` a list of entries separated by semicolons.  Both are maps kept in reverse of the order
on the wire, printed by prepending and read by reversing.

* `parseEntries_trimEnd_render`: printed entries are read back, at most 32 of them and each
  without the blanks around its key and behind its value.
* `get?_fromString_toString_set`: the vendor set last is the first on the wire, and is read back
  whatever the other vendors hold.
-/

namespace DdTrace

open Library List Option

namespace Tracestate

/-- `MAX_LIST_MEMBERS`. -/
def maxListMembers : ℕ := 32

/-- The key without blanks around it and the value without blanks behind it, unless a side is
empty, the key holds a blank, or the value holds a tab where tabs are rejected. -/
def cleanEntry (rejectValueTabs : Bool) (e : Str × Str) : Option (Str × Str) :=
  let key := e.1.trim
  if key = [] ∨ unit ' ' ∈ key ∨ unit '\t' ∈ key then none
  else
    let entryValue := e.2.trimEnd
    if entryValue = [] ∨ (rejectValueTabs = true ∧ unit '\t' ∈ entryValue) then none
    else some (key, entryValue)

/-- One segment of the list. -/
def parseSegment (pairSeparator : UInt16) (rejectValueTabs : Bool) (segment : Str) :
    Option (Str × Str) :=
  (segment.cut pairSeparator).bind (cleanEntry rejectValueTabs)

/-- The entries of a list, in reverse of wire order. -/
def parseEntries (value : Str) (fieldSeparator pairSeparator : UInt16) (rejectValueTabs : Bool) :
    List (Str × Str) :=
  (((value.split fieldSeparator).take maxListMembers).filterMap
    (parseSegment pairSeparator rejectValueTabs)).reverse

/-- `fromString`: the entries of a nonempty string. -/
def fromString (value : Option Str) (fieldSeparator pairSeparator : UInt16)
    (rejectValueTabs : Bool) : OrderedMap Str Str :=
  match value with
  | some value =>
    if value = [] then .empty
    else .ofEntries (parseEntries value fieldSeparator pairSeparator rejectValueTabs)
  | none => .empty

/-- `toString`: each entry is put before what has been printed. -/
def render (pairSeparator fieldSeparator : UInt16) (entries : List (Str × Str)) : Str :=
  entries.foldl (fun result e =>
    let result := if result = [] then result else fieldSeparator :: result
    e.1 ++ pairSeparator :: e.2 ++ result) []

variable {p f : UInt16} {r : Bool}

/-- What the entries of a list look like. -/
theorem mem_parseEntries {value : Str} {e : Str × Str} (h : e ∈ parseEntries value f p r) :
    ∃ k v, cleanEntry r (k, v) = some e ∧ p ∉ k ∧ f ∉ k ∧ f ∉ v ∧
      (∀ u ∈ k, u ∈ value) ∧ ∀ u ∈ v, u ∈ value := by
  rw [parseEntries, mem_reverse, mem_filterMap] at h
  obtain ⟨s, hs, hparse⟩ := h
  have hmem := Str.mem_split (mem_of_mem_take hs)
  rw [parseSegment, bind_eq_some_iff] at hparse
  obtain ⟨⟨k, v⟩, hcut, hclean⟩ := hparse
  obtain ⟨rfl, hk⟩ := Str.cut_eq_some hcut
  refine ⟨k, v, hclean, hk, fun hf => ?_, fun hf => ?_, fun u hu => ?_, fun u hu => ?_⟩
  · exact (hmem f (mem_append_left _ hf)).1 rfl
  · exact (hmem f (mem_append_right _ (mem_cons_of_mem _ hf))).1 rfl
  · exact (hmem u (mem_append_left _ hu)).2
  · exact (hmem u (mem_append_right _ (mem_cons_of_mem _ hu))).2

/-! ## Printing and reading a list -/

/-- An entry as it is printed. -/
def segment (p : UInt16) (e : Str × Str) : Str := e.1 ++ p :: e.2

theorem render_append_singleton (p f : UInt16) (l : List (Str × Str)) (e : Str × Str) :
    render p f (l ++ [e]) =
      segment p e ++ (if render p f l = [] then [] else f :: render p f l) := by
  rw [render, foldl_append, foldl_cons, ← render]
  by_cases h : render p f l = []
  · simp [h, segment]
  · simp [h, segment]

theorem render_eq_nil_iff {l : List (Str × Str)} : render p f l = [] ↔ l = [] := by
  induction l using List.reverseRecOn with
  | nil => exact iff_of_true rfl rfl
  | append_singleton l e => simp [render_append_singleton, segment]

/-- The list is printed in reverse. -/
theorem render_eq_join (p f : UInt16) (l : List (Str × Str)) :
    render p f l = Str.join f (l.reverse.map (segment p)) := by
  induction l using List.reverseRecOn with
  | nil => rfl
  | append_singleton l e ih =>
    rw [render_append_singleton, reverse_append, reverse_singleton, singleton_append, map_cons]
    by_cases h : l = []
    · subst h
      simp [render]
    · rw [if_neg (fun hnil => h (render_eq_nil_iff.mp hnil)), Str.join_cons f _ (by simpa using h),
        ih]

theorem parseSegment_segment {e : Str × Str} (h : p ∉ e.1) :
    parseSegment p r (segment p e) = cleanEntry r e := by
  rw [parseSegment, segment, Str.cut_append h, bind_some]

/-- What separates the entries of a list does not occur in them. -/
def Separable (p f : UInt16) (l : List (Str × Str)) : Prop :=
  ∀ e ∈ l, p ∉ e.1 ∧ f ∉ e.1 ∧ f ∉ e.2

theorem notMem_segment (hpf : f ≠ p) {e : Str × Str} (h : f ∉ e.1 ∧ f ∉ e.2) :
    f ∉ segment p e := by
  rw [segment, mem_append, mem_cons]
  rintro (h1 | h2 | h3)
  · exact h.1 h1
  · exact hpf h2
  · exact h.2 h3

/-- The entries of a printed list, in wire order. -/
theorem segments_join (hpf : f ≠ p) {w : List (Str × Str)} (hw : Separable p f w) (hne : w ≠ []) :
    (((Str.join f (w.map (segment p))).split f).take maxListMembers).filterMap
      (parseSegment p r) = (w.take maxListMembers).filterMap (cleanEntry r) := by
  rw [Str.split_join _ (by simpa using hne), ← map_take, filterMap_map]
  · refine filterMap_congr fun e he => ?_
    exact parseSegment_segment (hw e (mem_of_mem_take he)).1
  · intro s hs
    obtain ⟨e, he, rfl⟩ := List.mem_map.mp hs
    exact notMem_segment hpf (hw e he).2

theorem trimEnd_trimEnd (s : Str) : s.trimEnd.trimEnd = s.trimEnd :=
  rdropWhile_idempotent _ _

theorem trimEnd_append_cons {u : UInt16} (hu : Str.isSpace u = false) (s t : Str) :
    Str.trimEnd (s ++ u :: t) = s ++ u :: t.trimEnd := by
  induction t using List.reverseRecOn with
  | nil =>
    refine Str.trimEnd_of_getLast fun c hc => ?_
    rw [List.getLast?_append, List.getLast?_singleton, some_or, mem_def, some_inj] at hc
    exact hc ▸ hu
  | append_singleton t c ih =>
    unfold Str.trimEnd at ih ⊢
    rw [← cons_append, ← append_assoc, rdropWhile_concat, rdropWhile_concat]
    split
    · exact ih
    · simp

theorem cleanEntry_trimEnd (r : Bool) (k v : Str) :
    cleanEntry r (k, v.trimEnd) = cleanEntry r (k, v) := by
  rw [cleanEntry, cleanEntry]
  simp only [trimEnd_trimEnd]

/-- The blanks behind a list are the ones behind its last value. -/
theorem trimEnd_join (hp : Str.isSpace p = false) {w : List (Str × Str)} (hne : w ≠ []) :
    ∃ w', w'.length = w.length ∧ (∀ r, w'.map (cleanEntry r) = w.map (cleanEntry r)) ∧
      (Separable p f w → Separable p f w') ∧
      Str.trimEnd (Str.join f (w.map (segment p))) = Str.join f (w'.map (segment p)) := by
  obtain ⟨l, ⟨k, v⟩, hw⟩ := (eq_nil_or_concat w).resolve_left hne
  rw [concat_eq_append] at hw
  subst hw
  refine ⟨l ++ [(k, v.trimEnd)], by simp, fun r => by simp [cleanEntry_trimEnd], ?_, ?_⟩
  · intro h e he
    rcases mem_append.mp he with he | he
    · exact h e (mem_append_left _ he)
    · rw [mem_singleton] at he
      subst he
      obtain ⟨h1, h2, h3⟩ := h (k, v) (by simp)
      exact ⟨h1, h2, fun hf => h3 (( rdropWhile_prefix _ _).subset hf)⟩
  · rw [map_append, map_append, map_singleton, map_singleton]
    by_cases hl : l = []
    · subst hl
      simp only [map_nil, List.nil_append, Str.join_singleton]
      exact trimEnd_append_cons hp k v
    · have hl' : l.map (segment p) ≠ [] := by simpa using hl
      rw [Str.join_concat f hl', Str.join_concat f hl']
      have := trimEnd_append_cons hp (Str.join f (l.map (segment p)) ++ f :: k) v
      simpa [segment] using this

/-- **Printed entries are read back**, the last 32 of them, with or without the blanks behind the
list. -/
theorem parseEntries_trimEnd_render (hp : Str.isSpace p = false)
    (hpf : f ≠ p) {l : List (Str × Str)} (hl : Separable p f l) (hne : l ≠ []) :
    parseEntries (render p f l).trimEnd f p r =
      (l.drop (l.length - maxListMembers)).filterMap (cleanEntry r) := by
  have hne' : l.reverse ≠ [] := by simpa using hne
  have hrev : Separable p f l.reverse := fun e he => hl e (mem_reverse.mp he)
  obtain ⟨w, hlen, hclean, hsep, htrim⟩ := trimEnd_join (f := f) hp hne'
  have hw : w ≠ [] := by
    rw [Ne, ← length_eq_zero_iff, hlen, length_eq_zero_iff]
    exact hne'
  rw [parseEntries, render_eq_join, htrim, segments_join hpf (hsep hrev) hw,
    ← reverse_reverse (l.drop _), ← take_reverse, filterMap_reverse]
  have hmap : ∀ l : List (Str × Str), l.filterMap (cleanEntry r) =
      (l.map (cleanEntry r)).filterMap (fun e => e) := by
    intro l
    rw [filterMap_map]
    rfl
  rw [hmap, hmap, map_take, map_take, hclean r]

end Tracestate

/-! ## The entries of one vendor -/

/-- What `TraceStateData` is given to store.  Values of different kinds are never `===`. -/
inductive DataValue where
  | text (s : Str)
  | identifier (i : Identifier)
  | number (z : Integral)
  | undefined
  deriving DecidableEq

/-- A value as it is printed. -/
def DataValue.toString : DataValue → Str
  | .text s => s
  | .identifier i => i.toString
  | .number z => z.toString
  | .undefined => lit "undefined"

/-- `TraceStateData`. -/
structure TraceStateData where
  map : OrderedMap Str DataValue := .empty
  changed : Bool := false

namespace TraceStateData

def set (d : TraceStateData) (key : Str) (value : DataValue) : TraceStateData :=
  if d.map.get? key = some value then d else ⟨d.map.set key value, true⟩

/-- The entries as they are printed. -/
def entries (d : TraceStateData) : List (Str × Str) :=
  d.map.entries.map fun e => (e.1, e.2.toString)

def fromString (value : Option Str) : TraceStateData :=
  let m := Tracestate.fromString value (unit ';') (unit ':') false
  ⟨⟨m.entries.map fun e => (e.1, .text e.2), by simpa [Function.comp_def] using m.nodup⟩, false⟩

def toString (d : TraceStateData) : Str := Tracestate.render (unit ':') (unit ';') d.entries

theorem entries_fromString (value : Option Str) : (fromString value).entries =
      (Tracestate.fromString value (unit ';') (unit ':') false).entries := by
  rw [entries, fromString]
  rw [List.map_map]
  exact List.map_id _

theorem map_set (d : TraceStateData) (key : Str) (value : DataValue) :
    (d.set key value).map = d.map.set key value := by
  unfold set
  split
  · next h => exact (OrderedMap.set_eq_self h).symm
  · rfl

theorem changed_set {d : TraceStateData} (h : d.changed = true) (key : Str) (value : DataValue) :
    (d.set key value).changed = true := by
  unfold set
  split
  · exact h
  · rfl

end TraceStateData

/-! ## The vendors -/

/-- `TraceState`. -/
structure TraceState where
  map : OrderedMap Str Str := .empty
  deriving DecidableEq

namespace TraceState

/-- An updated vendor moves to the end. -/
def set (ts : TraceState) (key value : Str) : TraceState := ⟨(ts.map.delete key).set key value⟩

def get (ts : TraceState) (key : Str) : Option Str := ts.map.get? key

def delete (ts : TraceState) (key : Str) : TraceState := ⟨ts.map.delete key⟩

/-- The handler sees the entries of a vendor, and what it changes is printed back. -/
def forVendor (ts : TraceState) (vendor : Str) (handle : TraceStateData → TraceStateData) :
    TraceState :=
  let state := handle (.fromString (ts.get vendor))
  if state.changed then
    let value := state.toString
    if value ≠ [] then ts.set vendor value else ts.delete vendor
  else ts

def fromString (value : Option Str) : TraceState :=
  ⟨Tracestate.fromString value (unit ',') (unit '=') true⟩

def toString (ts : TraceState) : Str := Tracestate.render (unit '=') (unit ',') ts.map.entries

theorem entries_set (ts : TraceState) (key value : Str) :
    (ts.set key value).map.entries = (ts.map.delete key).entries ++ [(key, value)] := by
  refine OrderedMap.entries_set_of_notMem ?_ value
  rw [OrderedMap.mem_keys_delete]
  exact fun h => h.1 rfl

/-- **The vendor set last is read back**, whatever the other vendors hold. -/
theorem get_fromString_toString_set (ts : TraceState) {key value : Str}
    (hkey : Tracestate.cleanEntry true (key, value) = some (key, value.trimEnd))
    (heq : unit '=' ∉ key) (hcomma : unit ',' ∉ key ∧ unit ',' ∉ value) :
    (fromString (some (ts.set key value).toString)).get key = some value.trimEnd := by
  have hseg : unit ',' ∉ Tracestate.segment (unit '=') (key, value) :=
    Tracestate.notMem_segment (by decide) hcomma
  have hread : Tracestate.parseSegment (unit '=') true (Tracestate.segment (unit '=') (key, value))
      = some (key, value.trimEnd) := by
    rw [Tracestate.parseSegment_segment heq, hkey]
  rw [fromString, get, toString, entries_set, Tracestate.render_append_singleton,
    Tracestate.fromString, if_neg (by simp [Tracestate.segment]), OrderedMap.get?_ofEntries,
    Tracestate.parseEntries]
  split
  · rw [append_nil, Str.split_of_notMem hseg]
    simp [Tracestate.maxListMembers, hread, OrderedMap.lastValue]
  · rw [Str.split_append_cons hseg, Tracestate.maxListMembers, take_succ_cons,
      filterMap_cons_some hread, reverse_cons]
    exact OrderedMap.lastValue_concat _ _ _

end TraceState

end DdTrace
