import DdTrace.Library.JsonBytes
import DdTrace.Library.JsonWriters
import DdTrace.Library.Packing

/-!
# The log exporter

`exporters/log/index.js` prints spans to the standard output, as lines of JSON that the Lambda
extension reads.  It keeps count of a line by hand, with the envelope and a comma for each span, so
that no line is longer than `MAX_SIZE`.  But it counts UTF-16 units, and the limit is one of bytes.

* `packed`: the spans that fit on their own, packed into lines of at most `MAX_SIZE` units.
* `exportSpans_eq`: **the count is right, span by span**; what is printed is that packing.
* `delivers_iff`: **it does so exactly when no line of the packing is over the limit in bytes**.
-/

namespace DdTrace.LogExporter

open Library Unicode List Json

/-! ## The code -/

/-- A span, as `JSON.stringify` finds it. -/
structure Span where
  json : Json
  numbers : ∀ n ∈ json.numerals, n.isJson = true

/-- `JSON.stringify(span)` -/
def Span.spanStr (span : Span) : Str := span.json.stringify

def TRACE_PREFIX : Str := lit "\x7b\"traces\":[["

def TRACE_SUFFIX : Str := lit "]]\x7d\n"

def TRACE_FORMAT_OVERHEAD : ℕ := TRACE_PREFIX.length + TRACE_SUFFIX.length

/-- 64kb -/
def MAX_SIZE : ℕ := 64 * 1024

/-- One turn of the loop of `_printSpans`. -/
def addSpan (logLine : Str) (firstTrace : Bool) (spanStr : Str) : Str :=
  if firstTrace then logLine ++ spanStr else logLine ++ unit ',' :: spanStr

/-- `_printSpans`: the line that is written. -/
def printSpans (queue : List Str) : Str :=
  (queue.foldl (fun s spanStr => (addSpan s.1 s.2 spanStr, false)) (TRACE_PREFIX, true)).1 ++
    TRACE_SUFFIX

structure State where
  size : ℕ := TRACE_FORMAT_OVERHEAD
  queue : List Str := []
  /-- What has been written to the standard output. -/
  lines : List Str := []

/-- One turn of the loop of `export`. -/
def step (s : State) (span : Span) : State :=
  let spanStr := span.spanStr
  if MAX_SIZE < spanStr.length + TRACE_FORMAT_OVERHEAD then s
  else
    let s := if MAX_SIZE < spanStr.length + s.size then
        { lines := s.lines ++ [printSpans s.queue] }
      else s
    { s with
      size := s.size + (spanStr.length + 1)  -- includes length of ',' character
      queue := s.queue ++ [spanStr] }

/-- `export`: the lines that are written. -/
def exportSpans (spans : List Span) : List Str :=
  let s := spans.foldl step {}
  if 0 < s.queue.length then s.lines ++ [printSpans s.queue] else s.lines

/-! ## Lines -/

/-- The line of some spans. -/
def line (batch : List Span) : Str := printSpans (batch.map Span.spanStr)

/-- The traces object of a line. -/
def traces (batch : List Span) : Json :=
  .obj [(lit "traces", .arr [.arr (batch.map Span.json)])]

theorem printSpans_eq (queue : List Str) :
    printSpans queue = TRACE_PREFIX ++ (Str.join (unit ',') queue ++ TRACE_SUFFIX) := by
  have hrest : ∀ (queue : List Str) (s : Str),
      (queue.foldl (fun s spanStr => (addSpan s.1 s.2 spanStr, false)) (s, false)).1 =
        s ++ queue.flatMap (unit ',' :: ·) := by
    intro queue
    induction queue with
    | nil => exact fun s => (append_nil s).symm
    | cons t queue ih =>
      intro s
      rw [foldl_cons, ih, flatMap_cons, ← append_assoc]
      rfl
  rw [← append_assoc]
  refine congrArg (· ++ TRACE_SUFFIX) ?_
  cases queue with
  | nil => exact (append_nil _).symm
  | cons s queue =>
    rw [foldl_cons, hrest]
    refine congrArg (TRACE_PREFIX ++ ·) ?_
    induction queue generalizing s with
    | nil => simp
    | cons t queue ih => rw [Str.join_cons _ _ (cons_ne_nil _ _), ← ih]; rfl

theorem line_eq (batch : List Span) : line batch = (traces batch).stringify ++ [10] := by
  rw [line, printSpans_eq, traces, Json.stringify, Json.stringifyMembers, Json.stringify,
    Json.stringifyItems, Json.stringify, stringifyItems_eq_join, map_map]
  simp only [append_assoc]
  rfl

/-- **A line is the JSON text of its traces object.** -/
theorem parse_line (batch : List Span) : Json.parse (line batch) = some (traces batch) := by
  have hnumbers : (traces batch).AllNumerals fun n => n.isJson = true := by
    rw [traces, allNumerals_obj]
    intro m hm
    rw [mem_singleton.mp hm, allNumerals_arr]
    intro v hv
    rw [mem_singleton.mp hv, allNumerals_arr]
    intro v hv
    obtain ⟨span, -, rfl⟩ := mem_map.mp hv
    exact span.numbers
  rw [line_eq]
  exact parse_stringify hnumbers (Str.forall_mem_of_all (by decide))

/-- **The bytes of a line.** -/
theorem byteLength_line (batch : List Span) : byteLength (line batch) = TRACE_FORMAT_OVERHEAD +
    Json.joinedBytes (batch.map fun span => byteLength span.spanStr) := by
  have hclosed : Json.Closed TRACE_PREFIX :=
    closed_concat (TRACE_PREFIX.dropLast) (u := unit '[') (by decide) (by decide)
  have htexts : ∀ s ∈ batch.map Span.spanStr, Json.Closed s := by
    intro s hs
    obtain ⟨span, -, rfl⟩ := mem_map.mp hs
    exact closed_stringify span.json
  have hbytes : byteLength TRACE_PREFIX = TRACE_PREFIX.length ∧
      byteLength TRACE_SUFFIX = TRACE_SUFFIX.length := by decide
  rw [line, printSpans_eq, Json.byteLength_append hclosed, byteLength_join htexts,
    map_map, TRACE_FORMAT_OVERHEAD]
  show _ + (Json.joinedBytes (batch.map fun span => byteLength span.spanStr) + _) = _
  omega

/-! ## The packing -/

/-- What a span takes of a line, with its comma. -/
def units (span : Span) : ℕ := span.spanStr.length + 1

/-- Room for the spans of a line and their commas; the last span has none. -/
def ROOM : ℕ := MAX_SIZE - TRACE_FORMAT_OVERHEAD + 1

/-- The spans that fit on their own, in units, packed into lines. -/
def packing (spans : List Span) : Packing units ROOM :=
  (spans.filter fun span => units span ≤ ROOM).foldl Packing.write .empty

/-- The spans of each line. -/
def packed (spans : List Span) : List (List Span) := (packing spans).close.closed

/-- The state of the loop, where some spans have been packed. -/
structure Holds (s : State) (p : Packing units ROOM) : Prop where
  size : s.size = TRACE_FORMAT_OVERHEAD + load units p.opened
  queue : s.queue = p.opened.map Span.spanStr
  lines : s.lines = p.closed.map line

theorem holds_step {s : State} {p : Packing units ROOM} (h : Holds s p) (span : Span) :
    Holds (step s span) (if units span ≤ ROOM then p.write span else p) := by
  have hroom : ROOM = 65521 ∧ MAX_SIZE = 65536 ∧ TRACE_FORMAT_OVERHEAD = 16 := by decide
  have hunits : units span = span.spanStr.length + 1 := rfl
  rw [step]
  by_cases hfits : units span ≤ ROOM
  · rw [if_pos hfits, if_neg (by omega), Packing.write, h.size]
    by_cases hflush : ROOM < load units p.opened + units span
    · have hopened : p.opened ≠ [] := by
        intro hnil
        rw [hnil, load_nil] at hflush
        omega
      rw [dif_pos hflush, if_pos (by omega)]
      refine ⟨by rfl, rfl, ?_⟩
      rw [h.lines, h.queue, Packing.closed_close_of_ne hopened, map_append]
      rfl
    · rw [dif_neg hflush, if_neg (by omega)]
      refine ⟨?_, ?_, h.lines⟩
      · show s.size + _ = _
        rw [load_concat, h.size]
        omega
      · show s.queue ++ _ = _
        rw [h.queue]
        show p.opened.map Span.spanStr ++ [span].map Span.spanStr = _
        exact map_append.symm
  · rw [if_neg hfits, if_pos (by omega)]
    exact h

theorem holds_foldl (spans : List Span) : ∀ {s : State} {p : Packing units ROOM}, Holds s p →
    Holds (spans.foldl step s)
      ((spans.filter fun span => units span ≤ ROOM).foldl Packing.write p) := by
  induction spans with
  | nil => exact fun h => h
  | cons span spans ih =>
    intro s p h
    have hstep := ih (holds_step h span)
    rw [filter_cons]
    by_cases hfits : units span ≤ ROOM
    · rw [if_pos hfits] at hstep
      rw [if_pos (by simpa using hfits)]
      exact hstep
    · rw [if_neg hfits] at hstep
      rw [if_neg (by simpa using hfits)]
      exact hstep

/-- **The exporter prints the packing of the spans.** -/
theorem exportSpans_eq (spans : List Span) : exportSpans spans = (packed spans).map line := by
  have h := holds_foldl spans (s := {}) (p := .empty) ⟨rfl, rfl, rfl⟩
  rw [exportSpans, packed, packing, h.queue, h.lines, length_map]
  by_cases hnil : ((spans.filter fun span => units span ≤ ROOM).foldl Packing.write
      (Packing.empty : Packing units ROOM)).opened = []
  · rw [Packing.close_of_nil hnil, hnil, if_neg (by simp)]
  · rw [Packing.closed_close_of_ne hnil, if_pos (length_pos_iff.mpr hnil), map_append]
    rfl

/-- **Every span that fits on its own is in one line, in order.** -/
theorem flatten_packed (spans : List Span) :
    (packed spans).flatten = spans.filter fun span => units span ≤ ROOM := by
  have hitems : ∀ (l : List Span) (p : Packing units ROOM),
      (l.foldl Packing.write p).items = p.items ++ l := by
    intro l
    induction l with
    | nil => exact fun p => (append_nil _).symm
    | cons a l ih =>
      intro p
      rw [foldl_cons, ih, Packing.items_write, append_assoc]
      rfl
  rw [packed, Packing.flatten_closed_close, packing, hitems]
  rfl

/-! ## Main results -/

/-- A span that fits on its own, in bytes. -/
def FitsAlone (span : Span) : Prop := byteLength (line [span]) ≤ MAX_SIZE

instance (span : Span) : Decidable (FitsAlone span) := inferInstanceAs (Decidable (_ ≤ _))

/-- **What the exporter is for**: the spans that fit on their own and no others, once and in order,
in lines that are traces objects of at most `MAX_SIZE` bytes. -/
def Delivers (spans : List Span) (lines : List Str) : Prop :=
  ∃ batches : List (List Span), lines = batches.map line ∧
    batches.flatten = spans.filter (fun span => FitsAlone span) ∧
    ∀ batch ∈ batches, batch ≠ [] ∧ Json.parse (line batch) = some (traces batch) ∧
      byteLength (line batch) ≤ MAX_SIZE

theorem le_joinedBytes {n : ℕ} {ns : List ℕ} (h : n ∈ ns) : n ≤ Json.joinedBytes ns := by
  induction ns with
  | nil => cases h
  | cons m ns ih =>
    by_cases hns : ns = []
    · subst hns
      rw [mem_singleton.mp h]
      exact Nat.le_refl m
    · rw [joinedBytes_cons _ hns]
      rcases mem_cons.mp h with rfl | h
      · omega
      · have := ih h
        omega

/-- **The exporter delivers exactly when no line of the packing is over the limit in bytes.** -/
theorem delivers_iff (spans : List Span) : Delivers spans (exportSpans spans) ↔
    ∀ batch ∈ packed spans, byteLength (line batch) ≤ MAX_SIZE := by
  rw [exportSpans_eq]
  constructor
  · rintro ⟨batches, hlines, -, hbatches⟩ batch hbatch
    have hmem := mem_map_of_mem (f := line) hbatch
    rw [hlines] at hmem
    obtain ⟨batch', hbatch', hline⟩ := mem_map.mp hmem
    rw [← hline]
    exact (hbatches batch' hbatch').2.2
  · intro h
    refine ⟨packed spans, rfl, ?_, fun batch hbatch => ⟨?_, parse_line batch, h batch hbatch⟩⟩
    · rw [flatten_packed]
      refine filter_congr fun span hspan => decide_eq_decide.mpr ⟨fun hunits => ?_,
        fun hbytes => ?_⟩
      · -- its line holds it, and is within the limit
        have hmem : span ∈ (packed spans).flatten := by
          rw [flatten_packed]
          exact mem_filter.mpr ⟨hspan, decide_eq_true hunits⟩
        obtain ⟨batch, hbatch, hin⟩ := mem_flatten.mp hmem
        have hle := h batch hbatch
        have hpart := le_joinedBytes (mem_map_of_mem (f := fun span => byteLength span.spanStr) hin)
        rw [byteLength_line] at hle
        rw [FitsAlone, byteLength_line]
        show _ + byteLength span.spanStr ≤ _
        omega
      · rw [FitsAlone, byteLength_line] at hbytes
        have hbytes' : TRACE_FORMAT_OVERHEAD + byteLength span.spanStr ≤ MAX_SIZE := hbytes
        have hle := length_le_byteLength span.spanStr
        have hroom : ROOM = 65521 ∧ MAX_SIZE = 65536 ∧ TRACE_FORMAT_OVERHEAD = 16 := by decide
        rw [units]
        omega
    · rintro rfl
      exact (packing spans).close.nonempty hbatch

/-! ### A span with many letters of two bytes -/

/-- A text of letters `é`, of one unit and of two bytes. -/
def accents (n : ℕ) : Str := List.replicate n 0xE9

/-- A span with such a text in a tag. -/
def accentSpan (n : ℕ) : Span :=
  ⟨.obj [(lit "tag", .str (accents n))], fun _ h => absurd h not_mem_nil⟩

theorem quoteBody_accents (n : ℕ) : quoteBody (accents n) = accents n := by
  induction n with
  | zero => rfl
  | succ n ih =>
    rcases n with _ | n
    · decide
    · have hrec : quoteBody (accents (n + 2)) = escapeUnit 0xE9 ++ quoteBody (accents (n + 1)) := by
        rfl
      rw [hrec, ih]
      rfl

theorem byteLength_accents (n : ℕ) : byteLength (accents n) = 2 * n := by
  induction n with
  | zero => rfl
  | succ n ih =>
    have hunit : byteLength [(0xE9 : UInt16)] = 2 := by decide
    have h := Unicode.byteLength_append (s := [0xE9]) (fun u hu => by cases hu; rfl) (accents n)
    show byteLength ([0xE9] ++ accents n) = _
    omega

theorem spanStr_accentSpan (n : ℕ) :
    (accentSpan n).spanStr = lit "\x7b\"tag\":\"" ++ (accents n ++ lit "\"\x7d") := by
  have hkey : quote (lit "tag") = lit "\"tag\"" := by decide
  rw [Span.spanStr, accentSpan, Json.stringify, Json.stringifyMembers, Json.stringify, hkey, quote,
    quoteBody_accents]
  simp only [append_assoc, cons_append]
  rfl

theorem length_accentSpan (n : ℕ) : (accentSpan n).spanStr.length = 10 + n := by
  have hends : (lit "\x7b\"tag\":\"").length = 8 ∧ (lit "\"\x7d").length = 2 := by decide
  rw [spanStr_accentSpan, length_append, length_append, accents, length_replicate]
  omega

theorem byteLength_accentSpan (n : ℕ) : byteLength (accentSpan n).spanStr = 10 + 2 * n := by
  have hends : byteLength (lit "\x7b\"tag\":\"") = 8 ∧ byteLength (lit "\"\x7d") = 2 := by decide
  have hlast : ∀ u ∈ (accents n).getLast?, isHigh u = false := by
    intro u hu
    rw [eq_of_mem_replicate (mem_of_mem_getLast? hu)]
    rfl
  have hquote : ∀ u ∈ (lit "\x7b\"tag\":\"").getLast?, isHigh u = false := by
    intro u hu
    cases hu
    rfl
  rw [spanStr_accentSpan, Unicode.byteLength_append hquote, Unicode.byteLength_append hlast,
    byteLength_accents]
  omega

/-- A span that fits in units and not in bytes is printed all the same. -/
theorem not_delivers_of_lt {span : Span} (hunits : span.spanStr.length ≤ 65520)
    (hbytes : 65520 < byteLength span.spanStr) : ¬ Delivers [span] (exportSpans [span]) := by
  have hmax : MAX_SIZE = 65536 ∧ TRACE_FORMAT_OVERHEAD = 16 := by decide
  have hprinted : exportSpans [span] = [line [span]] := by
    have hstep : step {} span =
        ⟨TRACE_FORMAT_OVERHEAD + (span.spanStr.length + 1), [span.spanStr], []⟩ := by
      have hflush : ¬ MAX_SIZE < span.spanStr.length + TRACE_FORMAT_OVERHEAD := by omega
      rw [step, if_neg hflush, if_neg hflush]
      rfl
    rw [exportSpans, foldl_cons, hstep]
    rfl
  rintro ⟨batches, hlines, -, hbatches⟩
  rw [hprinted] at hlines
  have hmem := mem_singleton_self (line [span])
  rw [hlines] at hmem
  obtain ⟨batch, hbatch, hline⟩ := mem_map.mp hmem
  have hle := (hbatches batch hbatch).2.2
  rw [hline, byteLength_line] at hle
  have hle' : TRACE_FORMAT_OVERHEAD + byteLength span.spanStr ≤ MAX_SIZE := hle
  omega

/-- The line of a span with 40000 accents is printed, and has 80026 bytes. -/
theorem not_delivers_accents : ¬ Delivers [accentSpan 40000] (exportSpans [accentSpan 40000]) := by
  have hlength := length_accentSpan 40000
  have hbytes := byteLength_accentSpan 40000
  exact not_delivers_of_lt (by omega) (by omega)

end DdTrace.LogExporter
