import DdTrace.Library.Substring
import DdTrace.Library.Text

/-!
# The sensitive handler of IAST

`appsec/iast/vulnerabilities-formatter/evidence-redaction/sensitive-handler.js` writes the evidence
of a vulnerability as a list of value parts, so that what is sensitive in it does not leave the
process.  It goes over the evidence once, beside two lists of ranges: the tainted ones, each with the
source of its data, and the sensitive ones, which an analyzer has found.

* `redactedPart`: the parts of a tainted range, some pieces of which are to be redacted.  A pattern
  stands for each piece; it is cut out of a placeholder.
* `taintedStep`, `sensitiveStep`, `step`: one iteration of the loop.
* `toRedactedJson`: the loop, with the number of its iterations as fuel.

A list of ranges stands for the next range and those after it.  An array of redaction contexts that
has not been made is empty.
-/

namespace DdTrace.Appsec

open Library

/-! ## `range-utils.js` -/

structure Range where
  start : ℕ
  stop : ℕ
  le : start ≤ stop

namespace Range

def contains (container contained : Range) : Bool :=
  if container.start > contained.start then false else decide (container.stop ≥ contained.stop)

def intersects (a b : Range) : Bool := decide (b.start < a.stop) && decide (b.stop > a.start)

def remove (range rangeToRemove : Range) : List Range :=
  if intersects range rangeToRemove = false then [range]
  else if contains rangeToRemove range then []
  else
    (if rangeToRemove.start > range.start then
      [⟨range.start, range.start + (rangeToRemove.start - range.start), Nat.le_add_right _ _⟩]
    else []) ++
    (if rangeToRemove.stop < range.stop then
      [⟨rangeToRemove.stop, rangeToRemove.stop + (range.stop - rangeToRemove.stop),
        Nat.le_add_right _ _⟩]
    else [])

end Range

/-! ## Sources and value parts -/

/-- `REDACTED_SOURCE_BUFFER` -/
def redactedSourceBuffer : Str :=
  lit "abcdefghijklmnopqrstuvwxyzABCDEFGHIJKLMNOPQRSTUVWXYZ0123456789"

/-- `''.padEnd(length, REDACTED_SOURCE_BUFFER)` -/
def padEnd (length : ℕ) : Str :=
  (List.range length).map fun i => redactedSourceBuffer.getD (i % redactedSourceBuffer.length) 0

/-- A source of tainted data. -/
structure Source where
  name : Str
  value : Str
  redacted : Bool := false
  pattern : Str := []
  deriving DecidableEq

/-- The source as it is once it was redacted. -/
def Source.redact (source : Source) : Source :=
  { source with redacted := true, pattern := padEnd source.value.length }

/-- A piece of the evidence: in clear, or redacted, with the source and a pattern where it has
them. -/
inductive ValuePart where
  | value (value : Str) (source : Option ℕ)
  | redacted (source : Option ℕ) (pattern : Option Str)
  deriving DecidableEq

/-- What a piece has in clear. -/
def ValuePart.clear : ValuePart → Str
  | .value text _ => text
  | .redacted _ _ => []

/-- What the value parts have in clear, in their order. -/
def clearText (valueParts : List ValuePart) : Str := (valueParts.map ValuePart.clear).flatten

def writeValuePart (valueParts : List ValuePart) (value : Str) (source : Option ℕ) :
    List ValuePart :=
  if 0 < value.length then valueParts ++ [.value value source] else valueParts

/-- A piece of a tainted range, from the start of the range. -/
structure RedactionContext where
  start : ℤ
  stop : ℤ
  deriving DecidableEq

/-! ## The parts of a tainted range -/

/-- What a pattern is cut out of. -/
def placeholder (source : Source) (partValue : Str) : Str :=
  if (indexOf partValue source.value).isSome then source.pattern
  else List.replicate partValue.length (unit '*')

/-- The pattern of a piece: cut out of the placeholder where the source has the piece. -/
def patternOf (source : Source) (partValue sensitive : Str) (context : RedactionContext) : Str :=
  match indexOf sensitive source.value with
  | none => substring (placeholder source partValue) context.start context.stop
  | some index => substring (placeholder source partValue) index (index + sensitive.length)

/-- The loop over the pieces: the parts so far, what is left of the value, and how much of it is
done. -/
structure PartState where
  valueParts : List ValuePart
  value : Str
  offset : ℤ

/-- One piece. -/
def redactPiece (source : Source) (sourceIndex : ℕ) (partValue : Str) (s : PartState)
    (context : RedactionContext) : PartState :=
  let s : PartState :=
    if context.start > 0 then
      { valueParts := s.valueParts ++
          [.value (substring s.value 0 (context.start - s.offset)) (some sourceIndex)]
        value := s.value.drop (context.start - s.offset).toNat
        offset := context.start }
    else s
  let sensitive := substring s.value (context.start - s.offset) (context.stop - s.offset)
  let pattern := patternOf source partValue sensitive context
  { valueParts := s.valueParts ++ [.redacted (some sourceIndex) (some pattern)]
    value := s.value.drop pattern.length
    offset := s.offset + pattern.length }

/-- A context that is not there yet. -/
def addContext (contexts : List RedactionContext) (context : RedactionContext) :
    List RedactionContext :=
  if contexts.any (fun c => decide (c.start = context.start) && decide (c.stop = context.stop)) then
    contexts
  else contexts ++ [context]

/-- `writeRedactedValuePart` of a tainted range. -/
def redactedPart (source : Source) (sourceIndex : ℕ) (partValue : Str)
    (contexts : List RedactionContext) (isSensibleSource : Bool) : List ValuePart :=
  if isSensibleSource then [.redacted (some sourceIndex) (some (placeholder source partValue))]
  else
    let s := (contexts.foldl addContext []).foldl (redactPiece source sourceIndex partValue)
      ⟨[], partValue, 0⟩
    if s.value.length ≠ 0 then s.valueParts ++ [.value s.value (some sourceIndex)] else s.valueParts

/-! ## The loop -/

/-- The variables of the loop. -/
structure Scrub where
  i : ℕ := 0
  start : ℕ := 0
  nextTaintedIndex : ℕ := 0
  sourceIndex : Option ℕ := none
  ranges : List Range
  sensitive : List Range
  valueParts : List ValuePart := []
  sources : List Source
  redactedSources : List ℕ := []
  redactedSourcesContext : ℕ → List RedactionContext := fun _ => []

/-- The evidence of a vulnerability: its text, its tainted ranges with the index of the source of
each, and the sensitive ranges. -/
structure Evidence where
  value : Str
  ranges : List Range
  sourcesIndexes : List ℕ
  sensitive : List Range

namespace Scrub

/-- `sources[index].redacted = true` and what goes with it, when it is not so already. -/
def markSource (s : Scrub) (index : ℕ) (source : Source) : Scrub :=
  if source.redacted then s
  else
    { s with
      redactedSources := s.redactedSources ++ [index]
      sources := s.sources.set index source.redact }

def redactSource (s : Scrub) (start stop : ℤ) : Scrub :=
  match s.sourceIndex with
  | none => s
  | some index =>
    match s.sources[index]? with
    | none => s
    | some source =>
      let s := s.markSource index source
      { s with
        redactedSourcesContext := fun j =>
          if j = index then s.redactedSourcesContext j ++ [⟨start, stop⟩]
          else s.redactedSourcesContext j }

/-- A sensitive range from the start of a tainted one. -/
def redactRange (s : Scrub) (tainted sensitive : Range) : Scrub :=
  s.redactSource ((sensitive.start : ℤ) - tainted.start) ((sensitive.stop : ℤ) - tainted.start)

/-- `while (nextSensitive != null && contains(nextTainted, nextSensitive))` -/
def redactContained (tainted : Range) : List Range → Scrub → Scrub
  | [], s => { s with sensitive := [] }
  | next :: rest, s =>
    if Range.contains tainted next then
      redactContained tainted rest (if next.start = next.stop then
          { s with valueParts := s.valueParts ++ [.redacted none none] }
        else s.redactRange tainted next)
    else { s with sensitive := next :: rest }

/-- The sensitive range that goes on behind the tainted one. -/
def redactStraddling (tainted : Range) (s : Scrub) : Scrub :=
  match s.sensitive with
  | [] => s
  | next :: rest =>
    if Range.intersects next tainted then
      let s := s.redactRange tainted next
      match Range.remove next tainted with
      | [] => { s with sensitive := [] }
      | entry :: _ => { s with sensitive := entry :: rest }
    else s

variable (isSensibleSource : Str → Str → Bool)

/-- A source that is sensible by itself. -/
def redactSensible (s : Scrub) : Scrub :=
  match s.sourceIndex with
  | none => s
  | some index =>
    match s.sources[index]? with
    | none => s
    | some source =>
      if isSensibleSource source.name source.value then s.markSource index source else s

/-- The value parts of the tainted range. -/
def writeTainted (value : Str) (tainted : Range) (s : Scrub) : Scrub :=
  match s.sourceIndex.bind fun index => (s.sources[index]?).map fun source => (index, source) with
  | none =>
    { s with
      valueParts := writeValuePart s.valueParts
        (slice value tainted.start (min tainted.stop value.length)) s.sourceIndex }
  | some (index, source) =>
    if includes s.redactedSources index then
      { s with
        valueParts := s.valueParts ++
          redactedPart source index (slice value s.i (s.i + (tainted.stop - tainted.start)))
            (s.redactedSourcesContext index) (isSensibleSource source.name source.value)
        redactedSourcesContext := fun j => if j = index then [] else s.redactedSourcesContext j }
    else
      { s with
        valueParts := writeValuePart s.valueParts
          (slice value tainted.start (min tainted.stop value.length)) s.sourceIndex }

/-- The iteration at the start of a tainted range. -/
def taintedStep (e : Evidence) (tainted : Range) (rest : List Range) (s : Scrub) : Scrub :=
  let s :=
    { s with
      valueParts := writeValuePart s.valueParts (slice e.value s.start s.i) s.sourceIndex
      sourceIndex := e.sourcesIndexes[s.nextTaintedIndex]? }
  let s := redactStraddling tainted (redactContained tainted s.sensitive s)
  let s := writeTainted isSensibleSource e.value tainted (redactSensible isSensibleSource s)
  let start := s.i + (tainted.stop - tainted.start)
  { s with
    start := start
    i := start
    ranges := rest
    nextTaintedIndex := s.nextTaintedIndex + 1
    sourceIndex := none }

/-- The iteration at the start of a sensitive range. -/
def sensitiveStep (e : Evidence) (next : Range) (rest : List Range) (s : Scrub) : Scrub :=
  let s :=
    { s with valueParts := writeValuePart s.valueParts (slice e.value s.start s.i) s.sourceIndex }
  let (next, rest, s) :=
    match s.ranges with
    | [] => (next, rest, s)
    | tainted :: _ =>
      if Range.intersects next tainted then
        let s := { s with sourceIndex := e.sourcesIndexes[s.nextTaintedIndex]? }
        let s := s.redactRange tainted next
        let (next, rest) := (Range.remove next tainted).foldl
          (fun (r : Range × List Range) (entry : Range) =>
            if entry.start = s.i then (entry, r.2) else (r.1, entry :: r.2))
          (next, rest)
        (next, rest, s)
      else (next, rest, s)
  let length := next.stop - next.start
  { s with
    valueParts := s.valueParts ++ [.redacted none none]
    start := s.i + length
    i := s.i + length
    sensitive := rest }

/-- One iteration. -/
def step (e : Evidence) (s : Scrub) : Scrub :=
  match s.ranges, s.sensitive with
  | tainted :: ranges, sensitive =>
    if tainted.start = s.i then taintedStep isSensibleSource e tainted ranges s
    else
      match sensitive with
      | [] => { s with i := s.i + 1 }
      | next :: rest =>
        if next.start = s.i then sensitiveStep e next rest s else { s with i := s.i + 1 }
  | [], [] => { s with i := s.i + 1 }
  | [], next :: rest =>
    if next.start = s.i then sensitiveStep e next rest s else { s with i := s.i + 1 }

/-- The loop. -/
def run (e : Evidence) : ℕ → Scrub → Option Scrub
  | 0, _ => none
  | fuel + 1, s =>
    if s.i < e.value.length then run e fuel (step isSensibleSource e s) else some s

end Scrub

/-- `toRedactedJson` -/
def toRedactedJson (isSensibleSource : Str → Str → Bool) (e : Evidence) (sources : List Source)
    (fuel : ℕ) : Option (List ValuePart) :=
  (Scrub.run isSensibleSource e fuel
      { ranges := e.ranges, sensitive := e.sensitive, sources := sources }).map fun s =>
    if s.start < e.value.length then writeValuePart s.valueParts (e.value.drop s.start) none
    else s.valueParts

end DdTrace.Appsec
