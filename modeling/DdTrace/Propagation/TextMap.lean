import DdTrace.Propagation.SpanContext

/-!
# Injecting and extracting headers

`opentracing/propagation/text_map.js`, for the styles `tracecontext`, `datadog` and B3 (single and
multiple headers).  A `Carrier` holds the headers as the readers of `carrier.js` hand them out.

The regular expressions are read as what they admit: `matchTraceparent` takes fields of hexadecimal
digits of fixed lengths off the header, `b3HeaderTest` looks at the parts between hyphens, and the
filters of `tracestate` are the classes of code units that they keep.

Baggage is left out, as are the headers of the other styles and the choice among styles.
-/

namespace DdTrace.TextMap

open Library List

/-- The headers of a request. -/
structure Carrier where
  traceparent : Option Str := none
  tracestate : Option Str := none
  datadogTraceId : Option Str := none
  datadogParentId : Option Str := none
  datadogSamplingPriority : Option Str := none
  datadogOrigin : Option Str := none
  datadogTags : Option Str := none
  b3TraceId : Option Str := none
  b3SpanId : Option Str := none
  b3Sampled : Option Str := none
  b3Flags : Option Str := none
  b3 : Option Str := none
  deriving DecidableEq

/-- `DD_TRACE_X_DATADOG_TAGS_MAX_LENGTH` and `DD_TRACE_PROPAGATION_EXTRACT_FIRST`. -/
structure Config where
  tagsMaxLength : ℕ := 512
  extractFirst : Bool := false

/-! ## Patterns -/

/-- Code units from `lo` to `hi`. -/
def inRange (lo hi : ℕ) (u : UInt16) : Bool := lo ≤ u.toNat && u.toNat ≤ hi

def isHexDigit (u : UInt16) : Bool := (Str.digit? 16 u).isSome

/-- `[0-9a-f]{n}`, in either case. -/
def isHexOfLength (n : ℕ) (s : Str) : Bool := s.length == n && s.all isHexDigit

def b3TraceExpr (s : Str) : Bool := isHexOfLength 16 s || isHexOfLength 32 s

def b3SpanExpr (s : Str) : Bool := isHexOfLength 16 s

/-- `[01d]`, in either case. -/
def isB3Sampled (s : Str) : Bool := includes [lit "0", lit "1", lit "d", lit "D"] s

def b3HeaderExpr (s : Str) : Bool :=
  match s.split (unit '-') with
  | [f] => isB3Sampled f
  | [t, i] => b3TraceExpr t && b3SpanExpr i
  | [t, i, f] => b3TraceExpr t && b3SpanExpr i && isB3Sampled f
  | [t, i, f, p] => b3TraceExpr t && b3SpanExpr i && isB3Sampled f && b3SpanExpr p
  | _ => false

/-- `/^0+$/`. -/
def invalidSegment (s : Str) : Bool := s != [] && s.all (· == unit '0')

def hex16 (s : Str) : Bool := isHexOfLength 16 s

/-- The prefix of the trace tags that are propagated. -/
def tagPrefix : Str := lit "_dd.p."

/-- ASCII minus spaces and commas. -/
def tagKeyExpr (s : Str) : Bool :=
  tagPrefix.isPrefixOf s && s.drop 6 != [] &&
    (s.drop 6).all fun u => inRange 0x21 0x2B u || inRange 0x2D 0x7E u

/-- ASCII minus commas. -/
def tagValueExpr (s : Str) : Bool := s.all fun u => inRange 0x20 0x2B u || inRange 0x2D 0x7E u

/-- What the filter of tag keys keeps: visible ASCII without `,` and `=`. -/
def tracestateTagKeyFilter (u : UInt16) : Bool :=
  inRange 0x21 0x2B u || inRange 0x2D 0x3C u || inRange 0x3E 0x7E u

/-- What the filter of tag values keeps: printable ASCII without `,`, `;` and `~`. -/
def tracestateTagValueFilter (u : UInt16) : Bool :=
  inRange 0x20 0x2B u || inRange 0x2D 0x3A u || inRange 0x3C 0x7D u

/-- What the filter of origins keeps. -/
def tracestateOriginFilter (u : UInt16) : Bool :=
  inRange 0x20 0x2B u || inRange 0x2D 0x3A u || inRange 0x3C 0x7D u

/-- The groups of `traceparentExpr`. -/
structure TraceparentMatch where
  version : Str
  traceId : Str
  spanId : Str
  flags : Str
  tail : Option Str
  deriving DecidableEq

/-- A field of `n` hexadecimal digits, and what follows it. -/
def takeHex (n : ℕ) (s : Str) : Option (Str × Str) :=
  if isHexOfLength n (s.take n) then some (s.take n, s.drop n) else none

def takeDash : Str → Option Str
  | u :: s => if u = unit '-' then some s else none
  | [] => none

/-- What ends a line. -/
def isLineTerminator (u : UInt16) : Bool :=
  u.toNat == 0x0A || u.toNat == 0x0D || u.toNat == 0x2028 || u.toNat == 0x2029

/-- The end of the header, or a hyphen and the rest of the line. -/
def takeTail : Str → Option (Option Str)
  | [] => some none
  | u :: s =>
    if u = unit '-' ∧ s.any isLineTerminator = false then
      some (some (u :: s))
    else none

/-- `match(traceparentExpr)`. -/
def matchTraceparent (s : Str) : Option TraceparentMatch := do
  let (version, s) ← takeHex 2 s
  let (traceId, s) ← takeHex 32 (← takeDash s)
  let (spanId, s) ← takeHex 16 (← takeDash s)
  let (flags, s) ← takeHex 2 (← takeDash s)
  some ⟨version, traceId, spanId, flags, ← takeTail s⟩

/-! ## Injecting `tracecontext` -/

/-- A number that is neither `undefined` nor zero. -/
def truthy (z : Option Integral) : Option Integral := z.filter (·.val ≠ 0)

def tagKey (key : Str) : Str :=
  lit "t." ++ Str.replaceUnless tracestateTagKeyFilter (unit '_') (key.drop 6)

def tagValue (value : Str) : Str :=
  Str.replace (unit '=') (unit '~') (Str.replaceUnless tracestateTagValueFilter (unit '_') value)

def originValue (origin : Str) : Str :=
  Str.replace (unit '=') (unit '~') (Str.replaceUnless tracestateOriginFilter (unit '_') origin)

/-- The tags that are injected: nonempty values under keys with the prefix. -/
def isInjected (e : Str × Str) : Bool := e.2 != [] && tagPrefix.isPrefixOf e.1

/-- The handler of the vendor `dd`. -/
def injectDd (ctx : SpanContext) (state : TraceStateData) : TraceStateData :=
  let state :=
    if ctx.isRemote = false then
      state.set (lit "p") ((ctx.spanId.map .identifier).getD .undefined)
    else
      match ctx.trace.tags.get? DD_PARENT_ID with
      | some parentId => if parentId ≠ [] then state.set (lit "p") (.text parentId) else state
      | none => state
  let state := state.set (lit "s") ((ctx.sampling.priority.map .number).getD .undefined)
  let state :=
    match truthy ctx.sampling.mechanism with
    | some mechanism => state.set (lit "t.dm") (.text (unit '-' :: mechanism.toString))
    | none => state
  let state :=
    match ctx.trace.origin with
    | some origin => state.set (lit "o") (.text (originValue origin))
    | none => state
  ctx.trace.tags.entries.foldl (fun state e =>
    if isInjected e then state.set (tagKey e.1) (.text (tagValue e.2)) else state) state

/-- `_injectTraceparent` with `injectTraceContext`.  The `tracestate` of the context, when it has
one, is updated in place.  A context without a span id makes it throw. -/
def injectTraceparent (ctx : SpanContext) (carrier : Carrier) : Option (SpanContext × Carrier) :=
  ctx.toTraceparent.map fun traceparent =>
    let ts := (ctx.tracestate.getD {}).forVendor (lit "dd") (injectDd ctx)
    ({ ctx with tracestate := ctx.tracestate.map fun _ => ts },
      { carrier with traceparent := some traceparent, tracestate := some ts.toString })

/-! ## Extracting `tracecontext` -/

/-- `_extract128BitTraceId`: the upper half of a trace id that arrived in one piece. -/
def extract128BitTraceId (traceId : Str) (ctx : SpanContext) : SpanContext :=
  if ctx.traceId.buffer.length ≠ 16 then ctx
  else
    let tid := traceId.take 16
    if tid = lit "0000000000000000" then ctx
    else { ctx with trace := { ctx.trace with tags := ctx.trace.tags.set TRACE_ID_128 tid } }

/-- A tag of the trace. -/
def setTraceTag (ctx : SpanContext) (key value : Str) : SpanContext :=
  { ctx with trace := { ctx.trace with tags := ctx.trace.tags.set key value } }

/-- The priority of `tracestate` refines the flag of `traceparent`. -/
def refinePriority (flag : Option Integral) (priority : Integral) : Option Integral :=
  if (flag.map (·.val) = some 1 ∧ priority.val > 0) ∨ (flag.map (·.val) = some 0 ∧ priority.val < 0)
  then some priority else flag

/-- `-${mechanism}`, for the absolute value of what a string reads as. -/
def readMechanism (value : Str) : Option (Integral × Str) :=
  (Integral.parseInt 10 value).map fun z =>
    let mechanism := z.abs
    (mechanism, unit '-' :: mechanism.toString)

/-- One entry of the vendor `dd`. -/
def extractDdEntry (ctx : SpanContext) (e : Str × Str) : SpanContext :=
  let (key, value) := e
  if key = lit "p" then setTraceTag ctx DD_PARENT_ID value
  else if key = lit "s" then
    match Integral.parseInt 10 value with
    | some priority =>
      { ctx with sampling :=
          { ctx.sampling with priority := refinePriority ctx.sampling.priority priority } }
    | none => ctx
  else if key = lit "o" then
    { ctx with trace :=
        { ctx.trace with origin := some (Str.replace (unit '~') (unit '=') value) } }
  else if key = lit "t.dm" then
    match readMechanism value with
    | some (mechanism, tag) =>
      setTraceTag { ctx with sampling := { ctx.sampling with mechanism := some mechanism } }
        (lit "_dd.p.dm") tag
    | none => ctx
  else if (lit "t.").isPrefixOf key then
    let subKey := key.drop 2
    -- the trace id in `traceparent` is the one that counts
    if subKey = lit "tid" then ctx
    else setTraceTag ctx (tagPrefix ++ subKey) (Str.replace (unit '~') (unit '=') value)
  else ctx

/-- The priority that the flags of `traceparent` stand for. -/
def flagPriority (flags : Str) : Integral :=
  if Str.readDigits 16 0 flags % 2 = 1 then .one else .zero

/-- What makes a matched header invalid: an id of zeros, the version `ff`, or a tail in version
`00`. -/
def isRejected (m : TraceparentMatch) : Bool :=
  invalidSegment m.traceId || invalidSegment m.spanId || m.version == lit "ff" ||
    (m.tail.isSome && m.version == lit "00")

/-- The context of a matched header. -/
def contextOfMatch (m : TraceparentMatch) (traceId spanId : Identifier) (tracestate : TraceState) :
    SpanContext :=
  let ctx : SpanContext :=
    { traceId, spanId := some spanId, isRemote := true,
      sampling := { priority := some (flagPriority m.flags) },
      traceparent := some m.version, tracestate := some tracestate }
  let state := TraceStateData.fromString (tracestate.get (lit "dd"))
  state.entries.foldl extractDdEntry (extract128BitTraceId m.traceId ctx)

/-- `_extractTraceparentContext`. -/
def extractTraceparentContext (random : Identifier) (carrier : Carrier) : Option SpanContext := do
  let headerValue ← carrier.traceparent.filter (· ≠ [])
  let m ← (matchTraceparent (Str.trim headerValue)).filter fun m => !isRejected m
  let traceId ← Identifier.id random m.traceId 16
  let spanId ← Identifier.id random m.spanId 16
  some (contextOfMatch m traceId spanId (.fromString carrier.tracestate))

/-! ## Extracting `datadog` -/

/-- `_extractGenericContext`. -/
def extractGenericContext (random : Identifier) (traceId spanId : Option Str) (radix : ℕ) :
    Option SpanContext := do
  let traceId ← traceId.filter fun t => t != [] && !invalidSegment t
  let spanId ← spanId.filter (· ≠ [])
  let traceId ← Identifier.id random traceId radix
  let spanId ← Identifier.id random spanId radix
  some { traceId, spanId := some spanId, isRemote := true }

/-- The tags between the commas of a header.  A tag that fails its pattern drops them all. -/
def readTags : List Str → OrderedMap Str Str → Option (OrderedMap Str Str)
  | [], tags => some tags
  | segment :: rest, tags =>
    let (key, value) := (segment.cut (unit '=')).getD (segment, [])
    if tagKeyExpr key = false ∨ tagValueExpr value = false then none
    else if key = TRACE_ID_128 ∧ hex16 value = false then readTags rest tags
    else readTags rest (tags.set key value)

/-- `_extractTags`. -/
def extractTags (config : Config) (carrier : Carrier) : Option (OrderedMap Str Str) := do
  let header ← carrier.datadogTags.filter (· ≠ [])
  if config.tagsMaxLength = 0 then none
  else if config.tagsMaxLength < header.length then none
  else readTags (Str.split (unit ',') header) .empty

def extractOrigin (carrier : Carrier) (ctx : SpanContext) : SpanContext :=
  match carrier.datadogOrigin with
  | some origin => { ctx with trace := { ctx.trace with origin := some origin } }
  | none => ctx

def extractSamplingPriority (carrier : Carrier) (ctx : SpanContext) : SpanContext :=
  match carrier.datadogSamplingPriority.bind (Integral.parseInt 10) with
  | some priority => { ctx with sampling := { ctx.sampling with priority := some priority } }
  | none => ctx

/-- The tags of the header, when they pass, are the tags of the trace. -/
def extractTraceTags (config : Config) (carrier : Carrier) (ctx : SpanContext) : SpanContext :=
  match extractTags config carrier with
  | some tags => { ctx with trace := { ctx.trace with tags } }
  | none => ctx

/-- The W3C headers of the same trace lend their version and their vendors. -/
def adoptTraceparent (ctx : SpanContext) : Option SpanContext → SpanContext
  | some tc =>
    if ctx.traceId.equals tc.traceId then
      { ctx with traceparent := tc.traceparent, tracestate := tc.tracestate }
    else ctx
  | none => ctx

/-- `_extractDatadogContext`. -/
def extractDatadogContext (config : Config) (random : Identifier) (carrier : Carrier) :
    Option SpanContext := do
  let ctx ← extractGenericContext random carrier.datadogTraceId carrier.datadogParentId 10
  let ctx := extractTraceTags config carrier
    (extractSamplingPriority carrier (extractOrigin carrier ctx))
  if config.extractFirst then some ctx
  else some (adoptTraceparent ctx (extractTraceparentContext random carrier))

/-! ## Extracting B3 -/

/-- The fields of a B3 header or of the multiple headers. -/
structure B3 where
  traceId : Option Str := none
  spanId : Option Str := none
  sampled : Option Str := none
  flags : Option Str := none

/-- `_getPriority`. -/
def getPriority (sampled : Option Str) (debug : Bool) : Option Integral :=
  if debug then some .two
  else if sampled = some (lit "1") then some .one
  else if sampled = some (lit "0") then some .zero
  else none

/-- `_extractB3Context`. -/
def extractB3Context (random : Identifier) (b3 : B3) : Option SpanContext :=
  let priority := getPriority b3.sampled (b3.flags == some (lit "1"))
  match extractGenericContext random b3.traceId b3.spanId 16, priority with
  | none, none => none
  -- a sampling decision without identifiers
  | none, some _ =>
    some { traceId := random, spanId := none, isRemote := true, sampling := { priority } }
  | some ctx, none => some (extract128BitTraceId (b3.traceId.getD []) ctx)
  | some ctx, some _ =>
    some (extract128BitTraceId (b3.traceId.getD [])
      { ctx with sampling := { ctx.sampling with priority } })

/-- `_extractB3MultipleHeaders`. -/
def extractB3MultipleHeaders (carrier : Carrier) : Option B3 :=
  let (traceId, spanId) :=
    match carrier.b3TraceId, carrier.b3SpanId with
    | some t, some i => if b3TraceExpr t ∧ b3SpanExpr i then (some t, some i) else (none, none)
    | _, _ => (none, none)
  let sampled := carrier.b3Sampled.filter (· ≠ [])
  let flags := carrier.b3Flags.filter (· ≠ [])
  if traceId = none ∧ sampled = none ∧ flags = none then none
  else some { traceId, spanId, sampled, flags }

/-- `_extractB3MultiContext`. -/
def extractB3MultiContext (random : Identifier) (carrier : Carrier) : Option SpanContext :=
  (extractB3MultipleHeaders carrier).bind (extractB3Context random)

/-- `_extractB3SingleHeader`. -/
def extractB3SingleHeader (header : Str) : B3 :=
  match header.split (unit '-') with
  | [] => {}
  | [f] => if f = lit "d" then { sampled := some (lit "1"), flags := some (lit "1") }
    else { sampled := some f }
  | t :: i :: rest =>
    match rest.head?.filter (· ≠ []) with
    | none => { traceId := some t, spanId := some i }
    | some f =>
      { traceId := some t, spanId := some i,
        sampled := some (if f = lit "0" then lit "0" else lit "1"),
        flags := if f = lit "d" then some (lit "1") else none }

/-- `_extractB3SingleContext`. -/
def extractB3SingleContext (random : Identifier) (carrier : Carrier) : Option SpanContext := do
  let header ← carrier.b3.filter fun header => header != [] && b3HeaderExpr header
  extractB3Context random (extractB3SingleHeader header)

/-! ## The identifiers of a context are left alone -/

theorem traceId_extract128BitTraceId (t : Str) (ctx : SpanContext) :
    (extract128BitTraceId t ctx).traceId = ctx.traceId := by
  unfold extract128BitTraceId
  split
  · rfl
  · simp only
    split <;> rfl

theorem ids_extractDdEntry (ctx : SpanContext) (e : Str × Str) :
    (extractDdEntry ctx e).traceId = ctx.traceId ∧ (extractDdEntry ctx e).spanId = ctx.spanId := by
  unfold extractDdEntry
  simp only
  split_ifs <;> try exact ⟨rfl, rfl⟩
  all_goals split <;> exact ⟨rfl, rfl⟩

theorem ids_foldl_extractDdEntry (l : List (Str × Str)) (ctx : SpanContext) :
    (l.foldl extractDdEntry ctx).traceId = ctx.traceId ∧
      (l.foldl extractDdEntry ctx).spanId = ctx.spanId := by
  induction l generalizing ctx with
  | nil => exact ⟨rfl, rfl⟩
  | cons e l ih =>
    obtain ⟨h1, h2⟩ := ids_extractDdEntry ctx e
    rw [foldl_cons, (ih _).1, (ih _).2, h1, h2]
    exact ⟨rfl, rfl⟩

/-! ## Hexadecimal fields -/

variable {l : List UInt8}

theorem isHexDigit_hex {u : UInt16} (h : u ∈ Bytes.hex l) :
    isHexDigit u = true := by
  obtain ⟨b, -, hu⟩ := mem_flatMap.mp h
  have hb := b.toNat_lt
  have hdigit : ∀ n < 16, isHexDigit (unit n.digitChar) = true := by decide
  rw [Bytes.hexByte, mem_cons, mem_singleton] at hu
  rcases hu with rfl | rfl
  · exact hdigit _ (by omega)
  · exact hdigit _ (by omega)

theorem isHexOfLength_hex {n : ℕ} (h : 2 * l.length = n) :
    isHexOfLength n (Bytes.hex l) = true := by
  rw [isHexOfLength, Bool.and_eq_true, beq_iff_eq, Bytes.length_hex, all_eq_true]
  exact ⟨h, fun u hu => isHexDigit_hex hu⟩

theorem invalidSegment_hex (hl : l ≠ []) :
    invalidSegment (Bytes.hex l) = true ↔ ∀ b ∈ l, b = 0 := by
  have hne : Bytes.hex l ≠ [] := by
    rw [Ne, ← length_eq_zero_iff, Bytes.length_hex]
    have := length_pos_iff.mpr hl
    omega
  have hdigit : ∀ n < 16, unit n.digitChar = unit '0' → n = 0 := by decide
  have hzero : ∀ u ∈ Bytes.hexByte 0, u = unit '0' :=
    Str.forall_mem_of_all (by decide)
  simp only [invalidSegment, Bool.and_eq_true, bne_iff_ne, all_eq_true, beq_iff_eq]
  constructor
  · rintro ⟨-, hall⟩ b hb
    have hmem : ∀ u ∈ Bytes.hexByte b, u = unit '0' := fun u hu =>
      hall u (mem_flatMap.mpr ⟨b, hb, hu⟩)
    have hlt := b.toNat_lt
    have h1 := hdigit (b.toNat / 16) (by omega) (hmem _ (by simp [Bytes.hexByte]))
    have h2 := hdigit (b.toNat % 16) (by omega) (hmem _ (by simp [Bytes.hexByte]))
    apply UInt8.toNat_inj.mp
    show b.toNat = 0
    omega
  · intro hall
    refine ⟨hne, fun u hu => ?_⟩
    obtain ⟨b, hb, hu⟩ := mem_flatMap.mp hu
    rw [hall b hb] at hu
    exact hzero u hu

/-- An identifier is read back from its hexadecimal digits. -/
theorem id_hex (random : Identifier) (h8 : 8 ∣ l.length) (hl : 8 ≤ l.length) :
    Identifier.id random (Bytes.hex l) 16 = some ⟨l, hl⟩ :=
  Identifier.createBuffer_of_unhex (Bytes.unhex_hex l) h8 hl

end DdTrace.TextMap
