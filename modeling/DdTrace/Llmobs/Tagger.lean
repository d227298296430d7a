import DdTrace.Library.Heap
import DdTrace.Library.Json
import DdTrace.Library.OrderedMap
import DdTrace.Library.Run

/-!
# What is recorded of an LLMObs span

`llmobs/tagger.js` keeps for each span a record of its tags, its metadata, its metrics and its
prompt.  A span starts inside calls of `annotationContext`, whose options it takes over, and
`annotate` adds to its records.  The first object of a kind becomes the record, and later ones are
merged into it.  For metrics and prompts that object is a new one, and for tags and metadata it is
the one of the caller, or of the context.

* `Recorded`: what was said of a span, one object after the other, with `merged` for their merge.
* `Sim`, `sim_tag`: the records are the merges, and the objects of the caller are as they were.
* `isolated_of_merges`: **this holds in every run in which no object is merged into one of the
  caller, unless it adds nothing there**.
-/

namespace DdTrace.Llmobs

open Library List Option

/-! ## Objects -/

abbrev Object := OrderedMap Str Json

instance : Inhabited Object := ⟨.empty⟩

/-- `Object.assign` -/
def assign (target source : Object) : Object :=
  source.entries.foldl (fun m e => m.set e.1 e.2) target

/-- Whether a value counts as true. -/
def isTruthy : Json → Bool
  | .null => false
  | .bool b => b
  | .num n => n.text != lit "0" && n.text != lit "-0"
  | .str s => s != []
  | .arr _ | .obj _ => true

def isString : Json → Bool
  | .str _ => true
  | _ => false

/-- `Object.values` of an object or an array. -/
def valuesOf : Json → List Json
  | .obj members => members.map Prod.snd
  | .arr items => items
  | _ => []

def isObject : Json → Bool
  | .obj _ | .arr _ | .null => true
  | _ => false

/-! ## The checks -/

def METRIC_KEYS : List (Str × Str) :=
  [(lit "inputTokens", lit "input_tokens"), (lit "outputTokens", lit "output_tokens"),
    (lit "totalTokens", lit "total_tokens"), (lit "cacheReadTokens", lit "cache_read_input_tokens"),
    (lit "cacheWriteTokens", lit "cache_write_input_tokens"),
    (lit "cacheWrite5mTokens", lit "ephemeral_5m_input_tokens"),
    (lit "cacheWrite1hTokens", lit "ephemeral_1h_input_tokens"),
    (lit "reasoningOutputTokens", lit "reasoning_output_tokens")]

def processedKey (key : Str) : Str := (METRIC_KEYS.lookup key).getD key

/-- `filterdMetrics`.  A value that is no number makes the call throw, unless it fails softly. -/
def filterMetrics (softFail : Bool) : List (Str × Json) → Object → Option Object
  | [], metrics => some metrics
  | (key, .num n) :: entries, metrics =>
    filterMetrics softFail entries (metrics.set (processedKey key) (.num n))
  | _ :: entries, metrics => if softFail then filterMetrics softFail entries metrics else none

/-- `validateCostTags` -/
def validateCostTags (costTags : Json) (spanTags : Object) : List Str :=
  match costTags with
  | .arr items => (items.filterMap fun item =>
      match item with
      | .str costTag => if spanTags.has costTag then some costTag else none
      | _ => none).eraseDups
  | _ => []

/-- The keys of variables must be strings in an array, or something that counts as false. -/
def checkVariableKeys (keys : Json) : Bool :=
  match keys with
  | .arr items => items.all isString
  | keys => !isTruthy keys

/-- Tags and variables must be objects of strings, or something that counts as false. -/
def checkMapping (mapping : Option Json) : Bool :=
  match mapping with
  | none => true
  | some mapping => !isTruthy mapping || isObject mapping && (valuesOf mapping).all isString

/-- A message of a template must have a role and content. -/
def checkMessage : Json → Bool
  | .obj members => ((Json.member (lit "role") members).any isTruthy) &&
      (Json.member (lit "content") members).any isTruthy
  | _ => false

def checkTemplate (template : Option Json) : Bool :=
  match template with
  | some (.arr messages) => messages.all checkMessage
  | some (.str _) | none => true
  | some template => !isTruthy template

/-- The role and the content of a message. -/
def chatMessage : Json → Json
  | .obj members => .obj
      ([lit "role", lit "content"].filterMap fun key => (Json.member key members).map (key, ·))
  | message => message

def INTERNAL_CONTEXT_VARIABLE_KEYS : Str := lit "_dd_context_variable_keys"

def INTERNAL_QUERY_VARIABLE_KEYS : Str := lit "_dd_query_variable_keys"

/-- `value ?? fallback` -/
def orElse (value : Option Json) (fallback : Json) : Json :=
  match value with
  | none | some .null => fallback
  | some value => value

/-- `validatedPrompt`, or nothing for a prompt that is not recorded. -/
def validatePrompt (spanKind mlApp : Str) (prompt : Json) : Option Object :=
  if spanKind ≠ lit "llm" then none
  else if isTruthy prompt = false ∨ isObject prompt = false then none
  else
    let field := fun key : String => Json.member (lit key) (match prompt with
      | .obj members => members
      | _ => [])
    let finalPromptId := orElse (field "id") (.str (mlApp ++ lit "_unnamed-prompt"))
    let finalCtxVariablesKeys := orElse (field "contextVariables") (.arr [.str (lit "context")])
    let finalQueryVariablesKeys := orElse (field "queryVariables") (.arr [.str (lit "question")])
    if isString finalPromptId = false then none
    else if checkVariableKeys finalCtxVariablesKeys = false then none
    else if checkVariableKeys finalQueryVariablesKeys = false then none
    else if (field "version").any (fun v => isTruthy v && !isString v) then none
    else if checkMapping (field "tags") = false then none
    else if checkTemplate (field "template") = false then none
    else if checkMapping (field "variables") = false then none
    else
      let template := match field "template" with
        | some (.arr messages) =>
          if messages = [] then [] else [(lit "chat_template", .arr (messages.map chatMessage))]
        | some template => [(lit "template", template)]
        | none => []
      some (.ofEntries (([(lit "id", finalPromptId)] ++
        ((field "version").map (lit "version", ·)).toList ++
        ((field "variables").map (lit "variables", ·)).toList ++ template ++
        ((field "tags").map (lit "tags", ·)).toList ++
        [(INTERNAL_CONTEXT_VARIABLE_KEYS, finalCtxVariablesKeys),
          (INTERNAL_QUERY_VARIABLE_KEYS, finalQueryVariablesKeys)]).filter fun e => isTruthy e.2))

/-- The tag of a span with a prompt. -/
def INSTRUMENTED : Object :=
  .ofEntries [(lit "prompt_tracking_instrumentation_method", .str (lit "annotated"))]

/-! ## The tagger -/

/-- The records of a span. -/
inductive Field where
  | tags
  | metadata
  | metrics
  | inputPrompt
  deriving DecidableEq

/-- The registry entry of a span. -/
structure SpanRecord where
  spanKind : Str
  mlApp : Str
  name : Option Str
  finished : Bool := false
  refs : Field → Option Ref := fun _ => none
  costTags : Option (List Str) := none

/-- The options of `annotate`.  Metadata, metrics and tags are objects of the caller. -/
structure AnnotateOptions where
  metadata : Option ℕ := none
  metrics : Option ℕ := none
  tags : Option ℕ := none
  costTags : Option Json := none
  prompt : Option Json := none

/-- The options in force inside calls of `annotationContext`. -/
structure Context where
  tags : Option ℕ := none
  costTags : Option Json := none
  name : Option Str := none
  prompt : Option Json := none

/-- The options of one call: those that are there, though they can be undefined. -/
structure ContextOptions where
  tags : Option (Option ℕ) := none
  costTags : Option (Option Json) := none
  name : Option (Option Str) := none
  prompt : Option (Option Json) := none

/-- `{ ...currentStore?.annotationContext, ...options }` -/
def Context.spread (context : Context) (options : ContextOptions) : Context where
  tags := options.tags.getD context.tags
  costTags := options.costTags.getD context.costTags
  name := options.name.getD context.name
  prompt := options.prompt.getD context.prompt

/-- The objects, the contexts that were entered and the spans. -/
structure Tagger where
  heap : Heap Object
  contexts : List Context := []
  spans : List SpanRecord := []

/-- A span that is registered. -/
def SpanRecord.registered (kind mlApp : Str) (name : Option Str) : SpanRecord where
  spanKind := kind
  mlApp := mlApp
  name := name.filter (· ≠ [])

/-- Put a reference in a field. -/
def SpanRecord.setRef (span : SpanRecord) (f : Field) (r : Ref) : SpanRecord :=
  { span with refs := fun g => if g = f then some r else span.refs g }

namespace Tagger

/-- An object becomes the record of a kind, or is merged into the one that is there. -/
def tag (s : Tagger) (i : ℕ) (f : Field) (source : Ref) : Tagger :=
  match s.spans[i]? with
  | none => s
  | some span =>
    match span.refs f with
    | some r => { s with heap := s.heap.write r (assign (s.heap.read r) (s.heap.read source)) }
    | none => { s with spans := s.spans.set i (span.setRef f source) }

/-- `tag` with a new object. -/
def tagNew (s : Tagger) (i : ℕ) (f : Field) (o : Object) : Tagger :=
  tag { s with heap := s.heap.alloc o } i f s.heap.next

def tagMetadata (s : Tagger) (i n : ℕ) : Tagger := s.tag i .metadata (.given n)

def tagMetrics (s : Tagger) (i : ℕ) (filtered : Object) : Tagger := s.tagNew i .metrics filtered

def tagSpanTags (s : Tagger) (i n : ℕ) : Tagger := s.tag i .tags (.given n)

/-- The new keys are pushed onto those that are there. -/
def pushAll (current : List Str) (costTags : List Str) : List Str :=
  costTags.foldl (fun l costTag => if includes l costTag then l else l ++ [costTag]) current

/-- The cost tags of a span, after more of them. -/
def mergeCostTags (current : Option (List Str)) (validated : List Str) : Option (List Str) :=
  if validated = [] then current
  else match current with
    | some current => some (pushAll current validated)
    | none => some validated

def tagCostTags (s : Tagger) (i : ℕ) (costTags : Json) : Tagger :=
  match s.spans[i]? with
  | none => s
  | some span =>
    let spanTags := ((span.refs .tags).map s.heap.read).getD .empty
    let validatedCostTags := validateCostTags costTags spanTags
    let span := { span with costTags := mergeCostTags span.costTags validatedCostTags }
    { s with spans := s.spans.set i span }

def tagPrompt (s : Tagger) (i : ℕ) (prompt : Json) : Tagger :=
  match s.spans[i]? with
  | none => s
  | some span =>
    match validatePrompt span.spanKind span.mlApp prompt with
    | none => s
    | some validatedPrompt =>
      (s.tagNew i .inputPrompt validatedPrompt).tagNew i .tags INSTRUMENTED

def setName (s : Tagger) (i : ℕ) (name : Str) : Tagger :=
  match s.spans[i]? with
  | none => s
  | some span =>
    if name = [] then s else { s with spans := s.spans.set i { span with name := some name } }

/-- A call for an option that is there. -/
def withOption {α : Type*} (s : Tagger) (option : Option α) (call : Tagger → α → Tagger) : Tagger :=
  match option with
  | none => s
  | some a => call s a

/-- The options of `annotate` after the metrics. -/
def annotateTags (s : Tagger) (i : ℕ) (options : AnnotateOptions) : Tagger :=
  ((s.withOption options.tags fun s n => s.tagSpanTags i n).withOption options.costTags fun s c =>
    s.tagCostTags i c).withOption options.prompt fun s p => s.tagPrompt i p

/-- `annotate`.  A span that is finished is left as it is. -/
def annotate (s : Tagger) (i : ℕ) (options : AnnotateOptions) (softFail : Bool) : Tagger :=
  match s.spans[i]? with
  | none => s
  | some span =>
    if span.finished then s
    else
      let s := s.withOption options.metadata fun s n => s.tagMetadata i n
      match options.metrics with
      | none => s.annotateTags i options
      | some n =>
        match filterMetrics softFail (s.heap.read (.given n)).entries .empty with
        | none => s
        | some filtered => (s.tagMetrics i filtered).annotateTags i options

/-- `registerLLMObsSpan`, inside a context or none. -/
def registerLLMObsSpan (s : Tagger) (context : Option ℕ) (kind mlApp : Str) (name : Option Str) :
    Tagger :=
  if kind = [] then s
  else
    let i := s.spans.length
    let context := (context.bind (s.contexts[·]?)).getD {}
    let s : Tagger := { s with spans := s.spans ++ [.registered kind mlApp name] }
    (((s.withOption context.tags fun s n => s.tagSpanTags i n).withOption context.costTags
      fun s c => s.tagCostTags i c).withOption context.name fun s name => s.setName i name).withOption
      context.prompt fun s p => s.tagPrompt i p

/-- `annotationContext`, inside a context or none. -/
def annotationContext (s : Tagger) (current : Option ℕ) (options : ContextOptions) : Tagger :=
  { s with contexts := s.contexts ++
      [((current.bind (s.contexts[·]?)).getD {}).spread options] }

/-- A span ends. -/
def finish (s : Tagger) (i : ℕ) : Tagger :=
  match s.spans[i]? with
  | none => s
  | some span => { s with spans := s.spans.set i { span with finished := true } }

end Tagger

/-- What a program does: it enters a context, starts a span in one, annotates a span and finishes
it. -/
inductive TaggerEvent where
  | annotationContext (current : Option ℕ) (options : ContextOptions)
  | start (context : Option ℕ) (kind mlApp : Str) (name : Option Str)
  | annotate (i : ℕ) (options : AnnotateOptions) (softFail : Bool)
  | finish (i : ℕ)

def Tagger.step (s : Tagger) : TaggerEvent → Option Tagger
  | .annotationContext current options => some (s.annotationContext current options)
  | .start context kind mlApp name => some (s.registerLLMObsSpan context kind mlApp name)
  | .annotate i options softFail => some (s.annotate i options softFail)
  | .finish i => some (s.finish i)

/-! ## What was said of the spans -/

/-- The merge of objects, in order. -/
def merged : List Object → Option Object
  | [] => none
  | os => some (os.foldl assign .empty)

/-- What was said of a span: the objects of each kind, in order. -/
structure Recorded where
  spanKind : Str
  mlApp : Str
  name : Option Str
  finished : Bool := false
  passed : Field → List Object := fun _ => []
  costTags : Option (List Str) := none

namespace Recorded

def tag (r : Recorded) (f : Field) (o : Object) : Recorded :=
  { r with passed := fun g => if g = f then r.passed f ++ [o] else r.passed g }

def tagCostTags (r : Recorded) (costTags : Json) : Recorded :=
  let spanTags := (merged (r.passed .tags)).getD .empty
  { r with costTags := Tagger.mergeCostTags r.costTags (validateCostTags costTags spanTags) }

def tagPrompt (r : Recorded) (prompt : Json) : Recorded :=
  match validatePrompt r.spanKind r.mlApp prompt with
  | none => r
  | some validatedPrompt => (r.tag .inputPrompt validatedPrompt).tag .tags INSTRUMENTED

def setName (r : Recorded) (name : Str) : Recorded :=
  if name = [] then r else { r with name := some name }

def withOption {α : Type*} (r : Recorded) (option : Option α) (call : Recorded → α → Recorded) :
    Recorded :=
  match option with
  | none => r
  | some a => call r a

variable (object : ℕ → Object)

def annotateTags (r : Recorded) (options : AnnotateOptions) : Recorded :=
  ((r.withOption options.tags fun r n => r.tag .tags (object n)).withOption options.costTags
    tagCostTags).withOption options.prompt tagPrompt

def annotate (r : Recorded) (options : AnnotateOptions) (softFail : Bool) : Recorded :=
  if r.finished then r
  else
    let r := r.withOption options.metadata fun r n => r.tag .metadata (object n)
    match options.metrics with
    | none => r.annotateTags object options
    | some n =>
      match filterMetrics softFail (object n).entries .empty with
      | none => r
      | some filtered => (r.tag .metrics filtered).annotateTags object options

def start (context : Context) (kind mlApp : Str) (name : Option Str) : Recorded :=
  let r : Recorded := { spanKind := kind, mlApp := mlApp, name := name.filter (· ≠ []) }
  (((r.withOption context.tags fun r n => r.tag .tags (object n)).withOption context.costTags
    tagCostTags).withOption context.name setName).withOption context.prompt tagPrompt

end Recorded

/-- What was said of all spans. -/
structure Ledger where
  contexts : List Context := []
  spans : List Recorded := []

def Ledger.step (object : ℕ → Object) (l : Ledger) : TaggerEvent → Option Ledger
  | .annotationContext current options => some { l with contexts := l.contexts ++
      [((current.bind (l.contexts[·]?)).getD {}).spread options] }
  | .start context kind mlApp name =>
    if kind = [] then some l
    else some { l with spans := l.spans ++
      [Recorded.start object ((context.bind (l.contexts[·]?)).getD {}) kind mlApp name] }
  | .annotate i options softFail =>
    match l.spans[i]? with
    | none => some l
    | some r => some { l with spans := l.spans.set i (r.annotate object options softFail) }
  | .finish i =>
    match l.spans[i]? with
    | none => some l
    | some r => some { l with spans := l.spans.set i { r with finished := true } }

/-- The objects of the caller are as they were, and each record of a span is the merge of what was
said of it. -/
structure Isolated (objects : List Object) (s : Tagger) (l : Ledger) : Prop where
  objects : s.heap.given = objects
  count : s.spans.length = l.spans.length
  records : ∀ (i : ℕ) (span : SpanRecord), s.spans[i]? = some span → ∃ r, l.spans[i]? = some r ∧
    ∀ f, (span.refs f).map s.heap.read = merged (r.passed f)

/-! ## When it holds -/

/-- A merge of the object into a record that is an object of the caller adds nothing. -/
def SpanRecord.Keeps (object : ℕ → Object) (span : SpanRecord) (f : Field) (o : Object) : Prop :=
  ∀ n, span.refs f = some (.given n) → assign (object n) o = object n

/-- The span after an object of the caller became its record, if it had none. -/
def SpanRecord.tagged (span : SpanRecord) (f : Field) (source : Ref) : SpanRecord :=
  if span.refs f = none then span.setRef f source else span

def SpanRecord.taggedBy (span : SpanRecord) : Option ℕ → SpanRecord
  | none => span
  | some n => span.tagged .tags (.given n)

/-- The tags and the prompt of a span can be recorded. -/
def SpanRecord.TagsKeep (object : ℕ → Object) (span : SpanRecord) (tags : Option ℕ)
    (prompt : Option Json) : Prop :=
  (∀ n, tags = some n → span.Keeps object .tags (object n)) ∧
    ∀ p, prompt = some p → (validatePrompt span.spanKind span.mlApp p).isSome = true →
      (span.taggedBy tags).Keeps object .tags INSTRUMENTED

/-- Nothing is merged into an object of the caller, unless it adds nothing there. -/
def Tagger.Meets (s : Tagger) : TaggerEvent → Prop
  | .annotate i options softFail =>
    let object := fun n => s.heap.read (.given n)
    ∀ span, s.spans[i]? = some span → span.finished = false →
      (∀ n, options.metadata = some n → span.Keeps object .metadata (object n)) ∧
      ((∀ n, options.metrics = some n →
          (filterMetrics softFail (object n).entries .empty).isSome = true) →
        span.TagsKeep object options.tags options.prompt)
  | .start context kind mlApp name =>
    let options := (context.bind (s.contexts[·]?)).getD {}
    (SpanRecord.registered kind mlApp name).TagsKeep (fun n => s.heap.read (.given n)) options.tags
      options.prompt
  | .annotationContext _ _ | .finish _ => True

/-! ## Merges -/

theorem assign_empty (o : Object) : assign .empty o = o := OrderedMap.ofEntries_entries o

theorem merged_concat (os : List Object) (o : Object) :
    merged (os ++ [o]) = some (assign ((merged os).getD .empty) o) := by
  cases os with
  | nil => rfl
  | cons p os =>
    show some ((p :: os ++ [o]).foldl assign .empty) = _
    rw [foldl_append]
    rfl

/-! ## The invariant -/

/-- The entry of a span in the registry, and what was said of it. -/
structure Matches (heap : Heap Object) (span : SpanRecord) (r : Recorded) : Prop where
  spanKind : span.spanKind = r.spanKind
  mlApp : span.mlApp = r.mlApp
  name : span.name = r.name
  finished : span.finished = r.finished
  costTags : span.costTags = r.costTags
  records : ∀ f, (span.refs f).map heap.read = merged (r.passed f)

/-- A new object is the record of no span yet. -/
def Unowned (s : Tagger) (source : Ref) : Prop :=
  ∀ k, source = .made k → k < s.heap.made.length ∧
    ∀ (i : ℕ) (span : SpanRecord) (f : Field), s.spans[i]? = some span → span.refs f ≠ some source

/-- The kinds whose record can be an object of the caller. -/
def Field.IsShared (f : Field) : Prop := f = .tags ∨ f = .metadata

/-- The records are the merges, and a new object is the record of one span only. -/
structure Sim (objects : List Object) (s : Tagger) (l : Ledger) : Prop where
  given : s.heap.given = objects
  contexts : s.contexts = l.contexts
  count : s.spans.length = l.spans.length
  spans : ∀ (i : ℕ) (span : SpanRecord), s.spans[i]? = some span →
    ∃ r, l.spans[i]? = some r ∧ Matches s.heap span r
  owned : ∀ (i : ℕ) (span : SpanRecord) (f : Field) (k : ℕ), s.spans[i]? = some span →
    span.refs f = some (.made k) → k < s.heap.made.length ∧
      ∀ (j : ℕ) (other : SpanRecord) (g : Field), s.spans[j]? = some other →
        other.refs g = some (.made k) → j = i ∧ g = f
  shared : ∀ (i : ℕ) (span : SpanRecord) (f : Field) (n : ℕ), s.spans[i]? = some span →
    span.refs f = some (.given n) → f.IsShared

/-- One span of the tagger, with what was said of it. -/
structure At (objects : List Object) (s : Tagger) (l : Ledger) (i : ℕ) (span : SpanRecord)
    (r : Recorded) : Prop where
  sim : Sim objects s l
  span : s.spans[i]? = some span
  recorded : l.spans[i]? = some r

section Steps

variable {objects : List Object} {s : Tagger} {l : Ledger} {i : ℕ} {span : SpanRecord}
  {r : Recorded}

/-- An object of the caller. -/
def objectOf (objects : List Object) (n : ℕ) : Object := objects.getD n default

theorem Sim.read_given (h : Sim objects s l) (n : ℕ) :
    s.heap.read (.given n) = objectOf objects n := by
  show s.heap.given.getD n default = _
  rw [h.given, objectOf]

theorem At.matches (h : At objects s l i span r) : Matches s.heap span r := by
  obtain ⟨r', hr', hmatches⟩ := h.sim.spans i span h.span
  rw [h.recorded, some_inj] at hr'
  rwa [hr']

theorem Sim.at_of_span (h : Sim objects s l) (hspan : s.spans[i]? = some span) :
    ∃ r, At objects s l i span r := by
  obtain ⟨r, hr, -⟩ := h.spans i span hspan
  exact ⟨r, h, hspan, hr⟩

/-- A new value of the span, when it and what was said of it still match. -/
theorem At.set (h : At objects s l i span r) {span' : SpanRecord} {r' : Recorded}
    (hmatches : Matches s.heap span' r')
    (howned : ∀ f k, span'.refs f = some (.made k) → span.refs f = some (.made k) ∨
      Unowned s (.made k) ∧ ∀ g, span'.refs g = some (.made k) → g = f)
    (hshared : ∀ f n, span'.refs f = some (.given n) → f.IsShared) :
    At objects { s with spans := s.spans.set i span' } { l with spans := l.spans.set i r' } i
      span' r' := by
  have hi : i < s.spans.length := (List.getElem?_eq_some_iff.mp h.span).1
  have hil : i < l.spans.length := h.sim.count ▸ hi
  have hself : (s.spans.set i span')[i]? = some span' := List.getElem?_set_self hi
  have hother : ∀ {j : ℕ} {other : SpanRecord}, (s.spans.set i span')[j]? = some other →
      j = i ∧ other = span' ∨ j ≠ i ∧ s.spans[j]? = some other := by
    intro j other hj
    by_cases hij : i = j
    · subst hij
      rw [hself, some_inj] at hj
      exact Or.inl ⟨rfl, hj.symm⟩
    · rw [List.getElem?_set_ne hij] at hj
      exact Or.inr ⟨fun heq => hij heq.symm, hj⟩
  refine ⟨⟨h.sim.given, h.sim.contexts, ?_, fun j other hj => ?_, fun j other f k hj hk => ?_,
    fun j other f n hj hn => ?_⟩, hself, List.getElem?_set_self hil⟩
  · rw [length_set, length_set, h.sim.count]
  · rcases hother hj with ⟨rfl, rfl⟩ | ⟨hne, hj⟩
    · exact ⟨r', List.getElem?_set_self hil, hmatches⟩
    · obtain ⟨rj, hrj, hmatch⟩ := h.sim.spans j other hj
      exact ⟨rj, by rw [List.getElem?_set_ne hne.symm, hrj], hmatch⟩
  · -- an old owner keeps its object; a new one has an object that none had
    rcases hother hj with ⟨rfl, rfl⟩ | ⟨hne, hsame⟩
    · rcases howned f k hk with hold | ⟨hfree, honly⟩
      · obtain ⟨hlt, huniq⟩ := h.sim.owned j span f k h.span hold
        refine ⟨hlt, fun j' other' g hj' hg => ?_⟩
        rcases hother hj' with ⟨rfl, rfl⟩ | ⟨hne', hj'⟩
        · rcases howned g k hg with hold' | ⟨hfree, -⟩
          · exact huniq j' span g h.span hold'
          · exact absurd hold ((hfree k rfl).2 j' span f h.span)
        · exact huniq j' other' g hj' hg
      · refine ⟨(hfree k rfl).1, fun j' other' g hj' hg => ?_⟩
        rcases hother hj' with ⟨rfl, rfl⟩ | ⟨hne', hj'⟩
        · exact ⟨rfl, honly g hg⟩
        · exact absurd hg ((hfree k rfl).2 j' other' g hj')
    · obtain ⟨hlt, huniq⟩ := h.sim.owned j other f k hsame hk
      refine ⟨hlt, fun j' other' g hj' hg => ?_⟩
      rcases hother hj' with ⟨rfl, rfl⟩ | ⟨hne', hj'⟩
      · rcases howned g k hg with hold' | ⟨hfree, -⟩
        · exact absurd (huniq j' span g h.span hold').1 hne.symm
        · exact absurd hk ((hfree k rfl).2 j other f hsame)
      · exact huniq j' other' g hj' hg
  · rcases hother hj with ⟨rfl, rfl⟩ | ⟨-, hsame⟩
    · exact hshared f n hn
    · exact h.sim.shared j other f n hsame hn

/-- What was said of a span is replaced. -/
def Ledger.put (l : Ledger) (i : ℕ) (r : Recorded) : Ledger := { l with spans := l.spans.set i r }

@[simp] theorem Ledger.put_put (l : Ledger) (i : ℕ) (r r' : Recorded) :
    (l.put i r).put i r' = l.put i r' := by
  simp [Ledger.put]

theorem Ledger.put_self (h : l.spans[i]? = some r) : l.put i r = l := by
  obtain ⟨hi, rfl⟩ := List.getElem?_eq_some_iff.mp h
  rw [Ledger.put, set_getElem_self]

theorem unowned_given (s : Tagger) (n : ℕ) : Unowned s (.given n) := fun _ hk => by cases hk

variable {f : Field} {o : Object} {options : AnnotateOptions}

/-- The record of a kind takes the object in. -/
theorem records_tag {v : Option Object}
    (h : v = some (assign ((merged (r.passed f)).getD .empty) o)) :
    v = merged ((r.tag f o).passed f) := by
  have hpassed : (r.tag f o).passed f = r.passed f ++ [o] := if_pos rfl
  rw [hpassed, merged_concat, h]

theorem passed_tag_of_ne {g : Field} (hne : g ≠ f) (o : Object) :
    (r.tag f o).passed g = r.passed g := if_neg hne

/-- A write to a new object is seen by the span that has it. -/
theorem At.write (h : At objects s l i span r) {k : ℕ} (hf : span.refs f = some (.made k)) :
    At objects { s with heap := s.heap.write (.made k) (assign (s.heap.read (.made k)) o) }
      (l.put i (r.tag f o)) i span (r.tag f o) := by
  obtain ⟨hk, huniq⟩ := h.sim.owned i span f k h.span hf
  have hil : i < l.spans.length := (List.getElem?_eq_some_iff.mp h.recorded).1
  have hmatches := h.matches
  have hrecord := hmatches.records f
  rw [hf, map_some] at hrecord
  -- no other record is the object
  have hread : ∀ (j : ℕ) (other : SpanRecord) (g : Field), s.spans[j]? = some other →
      ¬ (j = i ∧ g = f) →
      (other.refs g).map (s.heap.write (.made k) (assign (s.heap.read (.made k)) o)).read =
        (other.refs g).map s.heap.read := by
    intro j other g hj hne
    cases hg : other.refs g with
    | none => rfl
    | some ref =>
      have hother : ref ≠ .made k := by
        rintro rfl
        exact hne (huniq j other g hj hg)
      rw [map_some, map_some, Heap.read_write_of_ne hother]
  refine ⟨⟨h.sim.given, h.sim.contexts, ?_, fun j other hj => ?_, fun j other g m hj hg => ?_,
    h.sim.shared⟩, h.span, List.getElem?_set_self hil⟩
  · show s.spans.length = (l.spans.set i _).length
    rw [length_set, h.sim.count]
  · by_cases hij : i = j
    · subst hij
      have hsame : other = span := some_inj.mp (hj.symm.trans h.span)
      subst hsame
      refine ⟨_, List.getElem?_set_self hil, hmatches.spanKind, hmatches.mlApp, hmatches.name,
        hmatches.finished, hmatches.costTags, fun g => ?_⟩
      by_cases hg : g = f
      · subst hg
        refine records_tag ?_
        rw [hf, map_some, Heap.read_write_made hk, ← hrecord, getD_some]
      · rw [hread i other g hj fun hboth => hg hboth.2, hmatches.records g, passed_tag_of_ne hg]
    · obtain ⟨rj, hrj, hmatch⟩ := h.sim.spans j other hj
      refine ⟨rj, by rw [Ledger.put, List.getElem?_set_ne hij, hrj], hmatch.spanKind, hmatch.mlApp,
        hmatch.name, hmatch.finished, hmatch.costTags, fun g => ?_⟩
      rw [hread j other g hj fun hboth => hij hboth.1.symm, hmatch.records g]
  · obtain ⟨hlt, hother⟩ := h.sim.owned j other g m hj hg
    exact ⟨by simpa [Heap.write] using hlt, hother⟩

/-- **The step of one object.** -/
theorem At.tag (h : At objects s l i span r) {source : Ref}
    (hfree : Unowned s source) (hshared : ∀ n, source = .given n → f.IsShared)
    (hkeeps : span.Keeps (objectOf objects) f (s.heap.read source)) :
    At objects (s.tag i f source) (l.put i (r.tag f (s.heap.read source))) i (span.tagged f source)
      (r.tag f (s.heap.read source)) := by
  have hmatches := h.matches
  have hrecord := hmatches.records f
  unfold Tagger.tag SpanRecord.tagged
  rw [h.span]
  dsimp only
  cases hf : span.refs f with
  | none =>
    rw [hf, map_none] at hrecord
    refine h.set ⟨hmatches.spanKind, hmatches.mlApp, hmatches.name, hmatches.finished,
      hmatches.costTags, fun g => ?_⟩ (fun g k hk => ?_) fun g n hn => ?_
    · by_cases hg : g = f
      · subst hg
        refine records_tag ?_
        have href : (span.setRef g source).refs g = some source := if_pos rfl
        rw [href, ← hrecord, map_some, getD_none, assign_empty]
      · have href : (span.setRef f source).refs g = span.refs g := if_neg hg
        rw [href, hmatches.records g, passed_tag_of_ne hg]
    · by_cases hg : g = f
      · subst hg
        have href : (span.setRef g source).refs g = some source := if_pos rfl
        rw [href, some_inj] at hk
        subst hk
        refine Or.inr ⟨hfree, fun g' hg' => ?_⟩
        by_contra hne
        have hold : (span.setRef g (.made k)).refs g' = span.refs g' := if_neg hne
        exact (hfree k rfl).2 i span g' h.span (hold ▸ hg')
      · have href : (span.setRef f source).refs g = span.refs g := if_neg hg
        exact Or.inl (href ▸ hk)
    · by_cases hg : g = f
      · subst hg
        have href : (span.setRef g source).refs g = some source := if_pos rfl
        rw [href, some_inj] at hn
        exact hshared n hn
      · have href : (span.setRef f source).refs g = span.refs g := if_neg hg
        exact h.sim.shared i span g n h.span (href ▸ hn)
  | some ref =>
    rw [hf, map_some] at hrecord
    cases ref with
    | given n =>
      -- the object of the caller stays as it is
      have hsame := hkeeps n hf
      rw [← h.sim.read_given] at hsame
      dsimp only
      rw [hsame, Heap.write_read]
      have hmerged : Matches s.heap span (r.tag f (s.heap.read source)) := by
        refine ⟨hmatches.spanKind, hmatches.mlApp, hmatches.name, hmatches.finished,
          hmatches.costTags, fun g => ?_⟩
        by_cases hg : g = f
        · subst hg
          refine records_tag ?_
          rw [hf, map_some, ← hrecord, getD_some, hsame]
        · rw [hmatches.records g, passed_tag_of_ne hg]
      have hset := h.set hmerged (fun g k hk => Or.inl hk) fun g n => h.sim.shared i span g n h.span
      obtain ⟨hi, heq⟩ := List.getElem?_eq_some_iff.mp h.span
      have hspans : s.spans.set i span = s.spans := by
        rw [← heq, set_getElem_self]
      rw [hspans] at hset
      exact hset
    | made k => exact h.write hf

/-- The heap grows by an object that no span has. -/
theorem At.alloc (h : At objects s l i span r) (o : Object) :
    At objects { s with heap := s.heap.alloc o } l i span r ∧
      Unowned { s with heap := s.heap.alloc o } s.heap.next := by
  have hread : ∀ (j : ℕ) (other : SpanRecord) (g : Field), s.spans[j]? = some other →
      (other.refs g).map (s.heap.alloc o).read = (other.refs g).map s.heap.read := by
    intro j other g hj
    cases hg : other.refs g with
    | none => rfl
    | some ref =>
      have hlt : ∀ k, ref = .made k → k < s.heap.made.length := by
        rintro k rfl
        exact (h.sim.owned j other g k hj hg).1
      rw [map_some, map_some, Heap.read_alloc hlt]
  have hlength : (s.heap.alloc o).made.length = s.heap.made.length + 1 := by
    simp [Heap.alloc]
  refine ⟨⟨⟨h.sim.given, h.sim.contexts, h.sim.count, fun j other hj => ?_,
    fun j other g k hj hk => ?_, h.sim.shared⟩, h.span, h.recorded⟩, fun k hk => ?_⟩
  · obtain ⟨rj, hrj, hmatch⟩ := h.sim.spans j other hj
    refine ⟨rj, hrj, hmatch.spanKind, hmatch.mlApp, hmatch.name, hmatch.finished, hmatch.costTags,
      fun g => ?_⟩
    rw [hread j other g hj, hmatch.records g]
  · obtain ⟨hlt, hother⟩ := h.sim.owned j other g k hj hk
    refine ⟨?_, hother⟩
    show k < (s.heap.alloc o).made.length
    omega
  · cases hk
    refine ⟨?_, fun j other g hj hg => ?_⟩
    · show s.heap.made.length < (s.heap.alloc o).made.length
      omega
    · exact absurd (h.sim.owned j other g _ hj hg).1 (Nat.lt_irrefl _)

/-- **The step of a new object.** -/
theorem At.tagNew (h : At objects s l i span r) (hkeeps : span.Keeps (objectOf objects) f o) :
    At objects (s.tagNew i f o) (l.put i (r.tag f o)) i (span.tagged f s.heap.next)
      (r.tag f o) := by
  obtain ⟨hat, hfree⟩ := h.alloc o
  have hread : (s.heap.alloc o).read s.heap.next = o := Heap.read_next s.heap o
  have hnew : ∀ n, s.heap.next = .given n → f.IsShared := fun n hn => by cases hn
  have htag := hat.tag hfree hnew (by
    rwa [hread])
  have hsame : ({ s with heap := s.heap.alloc o } : Tagger).heap.read s.heap.next = o := hread
  rw [hsame] at htag
  exact htag

/-- A record of metrics or of a prompt is a new object. -/
theorem At.keeps_new (h : At objects s l i span r) (hf : ¬ f.IsShared) (o : Object) :
    span.Keeps (objectOf objects) f o :=
  fun n hn => absurd (h.sim.shared i span f n h.span hn) hf

/-- What becomes of the other fields of a span. -/
theorem refs_tagged_of_ne {g : Field} (hne : g ≠ f) (source : Ref) :
    (span.tagged f source).refs g = span.refs g := by
  unfold SpanRecord.tagged
  split
  · exact if_neg hne
  · rfl

theorem kind_tagged (f : Field) (source : Ref) : (span.tagged f source).spanKind = span.spanKind ∧
      (span.tagged f source).mlApp = span.mlApp := by
  unfold SpanRecord.tagged
  split
  · exact ⟨rfl, rfl⟩
  · exact ⟨rfl, rfl⟩

/-! ## The steps of the options -/

/-- The same kind, app and references. -/
structure SameRefs (span span' : SpanRecord) : Prop where
  spanKind : span'.spanKind = span.spanKind
  mlApp : span'.mlApp = span.mlApp
  refs : span'.refs = span.refs

theorem At.withTags (h : At objects s l i span r) {tags : Option ℕ}
    (hkeeps : ∀ n, tags = some n → span.Keeps (objectOf objects) .tags (objectOf objects n)) :
    ∃ r', r' = r.withOption tags (fun r n => r.tag .tags (objectOf objects n)) ∧
      At objects (s.withOption tags fun s n => s.tagSpanTags i n) (l.put i r') i
        (span.taggedBy tags) r' := by
  refine ⟨_, rfl, ?_⟩
  cases tags with
  | none =>
    show At objects s (l.put i r) i span r
    rwa [Ledger.put_self h.recorded]
  | some n =>
    have hread := h.sim.read_given n
    have htag := h.tag (f := .tags) (unowned_given s n) (fun _ _ => Or.inl rfl) (by
      rw [hread]
      exact hkeeps n rfl)
    rw [hread] at htag
    exact htag

theorem At.withCostTags (h : At objects s l i span r) (costTags : Option Json) :
    ∃ span', SameRefs span span' ∧ At objects (s.withOption costTags fun s c => s.tagCostTags i c)
        (l.put i (r.withOption costTags Recorded.tagCostTags)) i span'
        (r.withOption costTags Recorded.tagCostTags) := by
  cases costTags with
  | none =>
    refine ⟨span, ⟨rfl, rfl, rfl⟩, ?_⟩
    show At objects s (l.put i r) i span r
    rwa [Ledger.put_self h.recorded]
  | some costTags =>
    have hmatches := h.matches
    have hstep : s.tagCostTags i costTags = { s with spans := s.spans.set i { span with
        costTags := Tagger.mergeCostTags span.costTags (validateCostTags costTags
          (((span.refs .tags).map s.heap.read).getD .empty)) } } := by
      unfold Tagger.tagCostTags
      rw [h.span]
    refine ⟨{ span with costTags := Tagger.mergeCostTags span.costTags (validateCostTags costTags
        (((span.refs .tags).map s.heap.read).getD .empty)) }, ⟨rfl, rfl, rfl⟩, ?_⟩
    show At objects (s.tagCostTags i costTags) _ i _ _
    rw [hstep]
    have hmerged : Matches s.heap { span with
        costTags := Tagger.mergeCostTags span.costTags (validateCostTags costTags
          (((span.refs .tags).map s.heap.read).getD .empty)) } (r.tagCostTags costTags) := by
      refine ⟨hmatches.spanKind, hmatches.mlApp, hmatches.name, hmatches.finished, ?_,
        hmatches.records⟩
      show Tagger.mergeCostTags span.costTags _ = Tagger.mergeCostTags r.costTags _
      rw [hmatches.costTags, hmatches.records]
    exact h.set hmerged (fun f k hk => Or.inl hk) fun f n => h.sim.shared i span f n h.span

theorem At.withName (h : At objects s l i span r) (name : Option Str) :
    ∃ span', SameRefs span span' ∧ At objects (s.withOption name fun s n => s.setName i n)
        (l.put i (r.withOption name Recorded.setName)) i span'
        (r.withOption name Recorded.setName) := by
  have hsame : At objects s (l.put i r) i span r := by rwa [Ledger.put_self h.recorded]
  cases name with
  | none => exact ⟨span, ⟨rfl, rfl, rfl⟩, hsame⟩
  | some name =>
    have hmatches := h.matches
    by_cases hname : name = []
    · have hstep : s.setName i name = s := by
        unfold Tagger.setName
        rw [h.span]
        exact if_pos hname
      have hrecord : r.setName name = r := if_pos hname
      refine ⟨span, ⟨rfl, rfl, rfl⟩, ?_⟩
      show At objects (s.setName i name) (l.put i (r.setName name)) i span (r.setName name)
      rwa [hstep, hrecord]
    · have hstep : s.setName i name =
          { s with spans := s.spans.set i { span with name := some name } } := by
        unfold Tagger.setName
        rw [h.span]
        exact if_neg hname
      have hrecord : r.setName name = { r with name := some name } := if_neg hname
      refine ⟨{ span with name := some name }, ⟨rfl, rfl, rfl⟩, ?_⟩
      show At objects (s.setName i name) (l.put i (r.setName name)) i _ (r.setName name)
      rw [hstep, hrecord]
      have hnamed : Matches s.heap { span with name := some name } { r with name := some name } :=
        ⟨hmatches.spanKind, hmatches.mlApp, rfl, hmatches.finished, hmatches.costTags,
          hmatches.records⟩
      exact h.set hnamed (fun f k hk => Or.inl hk) fun f n => h.sim.shared i span f n h.span

theorem At.withPrompt (h : At objects s l i span r) {prompt : Option Json}
    (hkeeps : ∀ p, prompt = some p → (validatePrompt span.spanKind span.mlApp p).isSome = true →
      span.Keeps (objectOf objects) .tags INSTRUMENTED) :
    ∃ span', At objects (s.withOption prompt fun s p => s.tagPrompt i p)
      (l.put i (r.withOption prompt Recorded.tagPrompt)) i span'
      (r.withOption prompt Recorded.tagPrompt) := by
  have hsame : At objects s (l.put i r) i span r := by rwa [Ledger.put_self h.recorded]
  cases prompt with
  | none => exact ⟨span, hsame⟩
  | some prompt =>
    have hmatches := h.matches
    show ∃ span', At objects (s.tagPrompt i prompt) (l.put i (r.tagPrompt prompt)) i span'
      (r.tagPrompt prompt)
    unfold Tagger.tagPrompt Recorded.tagPrompt
    rw [h.span, ← hmatches.spanKind, ← hmatches.mlApp]
    dsimp only
    cases hprompt : validatePrompt span.spanKind span.mlApp prompt with
    | none => exact ⟨span, hsame⟩
    | some validatedPrompt =>
      have hfirst := h.keeps_new (f := .inputPrompt) (by simp [Field.IsShared]) validatedPrompt
      have hnew := h.tagNew hfirst
      have hsecond : (span.tagged .inputPrompt s.heap.next).Keeps (objectOf objects) .tags
          INSTRUMENTED := by
        intro n hn
        rw [refs_tagged_of_ne (by decide)] at hn
        exact hkeeps prompt rfl (by rw [hprompt]; rfl) n hn
      have hlast := hnew.tagNew hsecond
      rw [Ledger.put_put] at hlast
      exact ⟨_, hlast⟩

/-! ## The steps of a program -/

theorem keeps_of_same {span' : SpanRecord} (hsame : SameRefs span span')
    (h : span.Keeps (objectOf objects) f o) : span'.Keeps (objectOf objects) f o := by
  intro n hn
  rw [hsame.refs] at hn
  exact h n hn

theorem kind_taggedBy (span : SpanRecord) (tags : Option ℕ) :
    (span.taggedBy tags).spanKind = span.spanKind ∧ (span.taggedBy tags).mlApp = span.mlApp := by
  cases tags with
  | none => exact ⟨rfl, rfl⟩
  | some n => exact kind_tagged _ _

/-- **The step of tags, cost tags and a prompt.** -/
theorem At.annotateTags (h : At objects s l i span r)
    (hkeep : span.TagsKeep (objectOf objects) options.tags options.prompt) :
    ∃ span', At objects (s.annotateTags i options)
      (l.put i (r.annotateTags (objectOf objects) options)) i span'
      (r.annotateTags (objectOf objects) options) := by
  obtain ⟨r₁, hr₁, h₁⟩ := h.withTags hkeep.1
  obtain ⟨span₂, hsame, h₂⟩ := h₁.withCostTags options.costTags
  obtain ⟨hkind, happ⟩ := kind_taggedBy span options.tags
  obtain ⟨span₃, h₃⟩ := h₂.withPrompt fun p hp hvalid => keeps_of_same hsame (hkeep.2 p hp (by
    rw [hsame.spanKind, hsame.mlApp, hkind, happ] at hvalid
    exact hvalid))
  rw [Ledger.put_put, Ledger.put_put, hr₁] at h₃
  exact ⟨span₃, h₃⟩

theorem At.annotate (h : At objects s l i span r) (hfinished : span.finished = false)
    {softFail : Bool}
    (hmeta : ∀ n, options.metadata = some n →
      span.Keeps (objectOf objects) .metadata (objectOf objects n))
    (htags : (∀ n, options.metrics = some n →
        (filterMetrics softFail (objectOf objects n).entries .empty).isSome = true) →
      span.TagsKeep (objectOf objects) options.tags options.prompt) :
    ∃ span', At objects (s.annotate i options softFail)
      (l.put i (r.annotate (objectOf objects) options softFail)) i span'
      (r.annotate (objectOf objects) options softFail) := by
  have hopen : r.finished = false := by rw [← h.matches.finished, hfinished]
  -- the metadata leaves the tags as they are
  have hfirst : ∃ span₁ r₁, r₁ = r.withOption options.metadata
      (fun r n => r.tag .metadata (objectOf objects n)) ∧ span₁.refs .tags = span.refs .tags ∧
      span₁.spanKind = span.spanKind ∧ span₁.mlApp = span.mlApp ∧
      At objects (s.withOption options.metadata fun s n => s.tagMetadata i n) (l.put i r₁) i span₁
        r₁ := by
    cases hoption : options.metadata with
    | none =>
      refine ⟨span, r, rfl, rfl, rfl, rfl, ?_⟩
      rwa [Ledger.put_self h.recorded]
    | some n =>
      have hread := h.sim.read_given n
      have htag := h.tag (f := .metadata) (unowned_given s n) (fun _ _ => Or.inr rfl) (by
        rw [hread]
        exact hmeta n hoption)
      rw [hread] at htag
      exact ⟨_, _, rfl, refs_tagged_of_ne (by decide) _, (kind_tagged _ _).1, (kind_tagged _ _).2,
        htag⟩
  obtain ⟨span₁, r₁, hr₁, hrefs, hkind, happ, h₁⟩ := hfirst
  have hkeep : ∀ span₂ : SpanRecord, span₂.refs .tags = span.refs .tags →
      span₂.spanKind = span.spanKind → span₂.mlApp = span.mlApp →
      span.TagsKeep (objectOf objects) options.tags options.prompt →
      span₂.TagsKeep (objectOf objects) options.tags options.prompt := by
    rintro span₂ hrefs₂ hkind₂ happ₂ ⟨htag, hprompt⟩
    refine ⟨fun n hn m hm => htag n hn m (hrefs₂ ▸ hm), fun p hp hvalid m hm => ?_⟩
    rw [hkind₂, happ₂] at hvalid
    refine hprompt p hp hvalid m ?_
    cases hoption : options.tags with
    | none =>
      rw [hoption] at hm
      exact hrefs₂ ▸ hm
    | some n =>
      rw [hoption] at hm
      simp only [SpanRecord.taggedBy, SpanRecord.tagged, hrefs₂] at hm ⊢
      split at hm
      · next hnone =>
        rw [if_pos hnone]
        exact hm
      · next hsome =>
        rw [if_neg hsome]
        exact hrefs₂ ▸ hm
  unfold Tagger.annotate Recorded.annotate
  rw [h.span]
  dsimp only
  rw [hfinished, hopen, ← hr₁]
  cases hmetrics : options.metrics with
  | none =>
    obtain ⟨span', h'⟩ := h₁.annotateTags (hkeep span₁ hrefs hkind happ (htags fun n hn => by
      rw [hmetrics] at hn
      cases hn))
    rw [Ledger.put_put] at h'
    exact ⟨span', h'⟩
  | some n =>
    dsimp only
    rw [h₁.sim.read_given]
    cases hfilter : filterMetrics softFail (objectOf objects n).entries .empty with
    | none => exact ⟨span₁, h₁⟩
    | some filtered =>
      have hnew := h₁.tagNew (h₁.keeps_new (f := .metrics) (by simp [Field.IsShared]) filtered)
      have hrefs₂ : ∀ source, (span₁.tagged .metrics source).refs .tags = span.refs .tags :=
        fun source => (refs_tagged_of_ne (by decide) source).trans hrefs
      obtain ⟨span', h'⟩ := hnew.annotateTags (hkeep _ (hrefs₂ _) ((kind_tagged _ _).1.trans hkind)
        ((kind_tagged _ _).2.trans happ) (htags fun m hm => by
          rw [hmetrics, some_inj] at hm
          rw [← hm, hfilter]
          rfl))
      rw [Ledger.put_put, Ledger.put_put] at h'
      exact ⟨span', h'⟩

/-- A span that is registered has no records yet. -/
theorem Sim.append (h : Sim objects s l) (kind mlApp : Str) (name : Option Str) :
    At objects { s with spans := s.spans ++ [.registered kind mlApp name] }
      { l with spans := l.spans ++
        [{ spanKind := kind, mlApp := mlApp, name := name.filter (· ≠ []) }] } s.spans.length
      (.registered kind mlApp name)
      { spanKind := kind, mlApp := mlApp, name := name.filter (· ≠ []) } := by
  have hcases : ∀ {j : ℕ} {other : SpanRecord},
      (s.spans ++ [SpanRecord.registered kind mlApp name])[j]? = some other →
      s.spans[j]? = some other ∨ j = s.spans.length ∧ other = .registered kind mlApp name := by
    intro j other hj
    rcases Nat.lt_or_ge j s.spans.length with hlt | hge
    · rw [List.getElem?_append_left hlt] at hj
      exact Or.inl hj
    · have hlt := (List.getElem?_eq_some_iff.mp hj).1
      rw [length_append, length_singleton] at hlt
      obtain rfl : j = s.spans.length := by omega
      rw [List.getElem?_concat_length, some_inj] at hj
      exact Or.inr ⟨rfl, hj.symm⟩
  refine ⟨⟨h.given, h.contexts, ?_, fun j other hj => ?_, fun j other f k hj hk => ?_,
    fun j other f n hj hn => ?_⟩, List.getElem?_concat_length, ?_⟩
  · rw [length_append, length_append, h.count]
    rfl
  · rcases hcases hj with hj | ⟨rfl, rfl⟩
    · obtain ⟨r, hr, hmatches⟩ := h.spans j other hj
      refine ⟨r, ?_, hmatches⟩
      rw [List.getElem?_append_left (List.getElem?_eq_some_iff.mp hr).1, hr]
    · refine ⟨{ spanKind := kind, mlApp := mlApp, name := name.filter (· ≠ []) }, ?_, rfl, rfl, rfl,
        rfl, rfl, fun f => rfl⟩
      rw [h.count, List.getElem?_concat_length]
  · rcases hcases hj with hj | ⟨rfl, rfl⟩
    · obtain ⟨hlt, huniq⟩ := h.owned j other f k hj hk
      refine ⟨hlt, fun j' other' g hj' hg => ?_⟩
      rcases hcases hj' with hj' | ⟨rfl, rfl⟩
      · exact huniq j' other' g hj' hg
      · cases hg
    · cases hk
  · rcases hcases hj with hj | ⟨rfl, rfl⟩
    · exact h.shared j other f n hj hn
    · cases hn
  · rw [h.count, List.getElem?_concat_length]

/-- **The step of a span that starts**: it takes over the options of its context. -/
theorem Sim.start (h : Sim objects s l) {context : Option ℕ} {kind mlApp : Str} {name : Option Str}
    (hkeep : (SpanRecord.registered kind mlApp name).TagsKeep (objectOf objects)
      ((context.bind (s.contexts[·]?)).getD {}).tags
      ((context.bind (s.contexts[·]?)).getD {}).prompt) :
    ∃ l', l.step (objectOf objects) (.start context kind mlApp name) = some l' ∧
      Sim objects (s.registerLLMObsSpan context kind mlApp name) l' := by
  have hcontext : (context.bind (l.contexts[·]?)).getD {} =
      (context.bind (s.contexts[·]?)).getD {} := by rw [h.contexts]
  unfold Tagger.registerLLMObsSpan
  dsimp only [Ledger.step]
  rw [hcontext]
  by_cases hkind : kind = []
  · rw [if_pos hkind, if_pos hkind]
    exact ⟨l, rfl, h⟩
  · rw [if_neg hkind, if_neg hkind]
    refine ⟨_, rfl, ?_⟩
    have hat := h.append kind mlApp name
    obtain ⟨r₁, hr₁, h₁⟩ := hat.withTags hkeep.1
    obtain ⟨span₂, hsame₂, h₂⟩ := h₁.withCostTags ((context.bind (s.contexts[·]?)).getD {}).costTags
    obtain ⟨span₃, hsame₃, h₃⟩ := h₂.withName ((context.bind (s.contexts[·]?)).getD {}).name
    have hspec := kind_taggedBy (.registered kind mlApp name)
      ((context.bind (s.contexts[·]?)).getD {}).tags
    obtain ⟨span₄, h₄⟩ := h₃.withPrompt fun p hp hvalid =>
      keeps_of_same hsame₃ (keeps_of_same hsame₂ (hkeep.2 p hp (by
        rw [hsame₃.spanKind, hsame₃.mlApp, hsame₂.spanKind, hsame₂.mlApp, hspec.1, hspec.2]
          at hvalid
        exact hvalid)))
    have hsim := h₄.sim
    rw [Ledger.put_put, Ledger.put_put, Ledger.put_put, hr₁] at hsim
    have hput : ∀ r' : Recorded, Ledger.put { l with spans := l.spans ++
        [{ spanKind := kind, mlApp := mlApp, name := name.filter (· ≠ []) }] } s.spans.length r' =
        { l with spans := l.spans ++ [r'] } := by
      simp [Ledger.put, h.count]
    rw [hput] at hsim
    exact hsim

theorem Sim.finish (h : Sim objects s l) (i : ℕ) :
    ∃ l', l.step (objectOf objects) (.finish i) = some l' ∧ Sim objects (s.finish i) l' := by
  unfold Tagger.finish
  dsimp only [Ledger.step]
  cases hspan : s.spans[i]? with
  | none =>
    have hnone : l.spans[i]? = none := by
      rw [List.getElem?_eq_none_iff] at hspan ⊢
      rwa [← h.count]
    rw [hnone]
    exact ⟨l, rfl, h⟩
  | some span =>
    obtain ⟨r, hat⟩ := h.at_of_span hspan
    have hmatches := hat.matches
    rw [hat.recorded]
    have hdone : Matches s.heap { span with finished := true } { r with finished := true } :=
      ⟨hmatches.spanKind, hmatches.mlApp, hmatches.name, rfl, hmatches.costTags, hmatches.records⟩
    exact ⟨_, rfl, (hat.set hdone (fun f k hk => Or.inl hk)
      fun f n => h.shared i span f n hspan).sim⟩

theorem Sim.annotate (h : Sim objects s l) {softFail : Bool}
    (hmeets : s.Meets (.annotate i options softFail)) :
    ∃ l', l.step (objectOf objects) (.annotate i options softFail) = some l' ∧
      Sim objects (s.annotate i options softFail) l' := by
  dsimp only [Ledger.step]
  cases hspan : s.spans[i]? with
  | none =>
    have hnone : l.spans[i]? = none := by
      rw [List.getElem?_eq_none_iff] at hspan ⊢
      rwa [← h.count]
    have hstay : s.annotate i options softFail = s := by
      unfold Tagger.annotate
      rw [hspan]
    rw [hnone, hstay]
    exact ⟨l, rfl, h⟩
  | some span =>
    obtain ⟨r, hat⟩ := h.at_of_span hspan
    rw [hat.recorded]
    refine ⟨_, rfl, ?_⟩
    cases hfinished : span.finished with
    | true =>
      have hstay : s.annotate i options softFail = s := by
        unfold Tagger.annotate
        rw [hspan]
        exact if_pos hfinished
      have hsame : r.annotate (objectOf objects) options softFail = r :=
        if_pos (hat.matches.finished ▸ hfinished)
      have hput : { l with spans := l.spans.set i r } = l := Ledger.put_self hat.recorded
      rw [hstay, hsame, hput]
      exact h
    | false =>
      have hboth := hmeets span hspan hfinished
      simp only [h.read_given] at hboth
      obtain ⟨span', h'⟩ := hat.annotate hfinished hboth.1 hboth.2
      exact h'.sim

end Steps

/-! ## Main results -/

theorem sim_step {objects : List Object} {s s' : Tagger} {l : Ledger} {ev : TaggerEvent}
    (h : Sim objects s l) (hmeets : s.Meets ev) (hstep : s.step ev = some s') :
    ∃ l', l.step (objectOf objects) ev = some l' ∧ Sim objects s' l' := by
  cases ev with
  | annotationContext current options =>
    cases hstep
    refine ⟨_, rfl, h.given, ?_, h.count, h.spans, h.owned, h.shared⟩
    show s.contexts ++ _ = l.contexts ++ _
    rw [h.contexts]
  | start context kind mlApp name =>
    cases hstep
    have hobject : (fun n => s.heap.read (.given n)) = objectOf objects :=
      funext fun n => h.read_given n
    refine h.start ?_
    rw [← hobject]
    exact hmeets
  | annotate i options softFail =>
    cases hstep
    exact h.annotate hmeets
  | finish i =>
    cases hstep
    exact h.finish i

theorem sim_run {objects : List Object} {s s' : Tagger} {l : Ledger} {events : List TaggerEvent}
    (h : Sim objects s l) (hmeets : Run.Every Tagger.step Tagger.Meets s events)
    (hrun : Run.exec Tagger.step s events = some s') :
    ∃ l', Run.exec (Ledger.step (objectOf objects)) l events = some l' ∧ Sim objects s' l' := by
  induction events generalizing s l with
  | nil =>
    cases hrun
    exact ⟨l, rfl, h⟩
  | cons ev events ih =>
    obtain ⟨u, hstep, hrest⟩ := Run.exec_cons_eq_some.mp hrun
    obtain ⟨m, hm, hsim⟩ := sim_step h hmeets.1 hstep
    obtain ⟨l', hl', hsim'⟩ := ih hsim (hmeets.2 u hstep) hrest
    exact ⟨l', Run.exec_cons_eq_some.mpr ⟨m, hm, hl'⟩, hsim'⟩

theorem sim_init (objects : List Object) : Sim objects ⟨⟨objects, []⟩, [], []⟩ {} := by
  refine ⟨rfl, rfl, rfl, fun i span h => ?_, fun i span f k h => ?_, fun i span f n h => ?_⟩
  · cases h
  · cases h
  · cases h

/-- **The records of a span are what was said of it.**  In every run in which no tags and no
metadata are merged into an object of the caller, unless they add nothing there, each record of a
span is the merge, in order, of the options of its context when it started and of its own
annotations, and the objects of the caller, which the contexts have too, are as they were. -/
theorem isolated_of_merges {objects : List Object} {events : List TaggerEvent} {s : Tagger}
    (hmeets : Run.Every Tagger.step Tagger.Meets ⟨⟨objects, []⟩, [], []⟩ events)
    (hrun : Run.exec Tagger.step ⟨⟨objects, []⟩, [], []⟩ events = some s) :
    ∃ l, Run.exec (Ledger.step (objectOf objects)) {} events = some l ∧ Isolated objects s l := by
  obtain ⟨l, hl, hsim⟩ := sim_run (sim_init objects) hmeets hrun
  refine ⟨l, hl, hsim.given, hsim.count, fun i span hspan => ?_⟩
  obtain ⟨r, hr, hmatches⟩ := hsim.spans i span hspan
  exact ⟨r, hr, hmatches.records⟩

/-- Two objects of a caller. -/
def callerObjects : List Object :=
  [.ofEntries [(lit "team", .str (lit "ml"))], .ofEntries [(lit "user", .str (lit "alice"))]]

/-- A context with tags. -/
def enterContext : TaggerEvent := .annotationContext none { tags := some (some 0) }

/-- A span that starts in it. -/
def startTask : TaggerEvent := .start (some 0) (lit "task") (lit "shop") none

/-- A span of a context that is annotated with metadata, and with the tags of the context again. -/
def taskEvents : List TaggerEvent :=
  [enterContext, startTask, .annotate 0 { metadata := some 1 } false,
    .annotate 0 { tags := some 0 } false]

/-- `isolated_of_merges` at a run. -/
theorem isolated_taskEvents : ∃ s l, Run.exec Tagger.step ⟨⟨callerObjects, []⟩, [], []⟩ taskEvents =
    some s ∧ Run.exec (Ledger.step (objectOf callerObjects)) {} taskEvents = some l ∧
    Isolated callerObjects s l := by
  have hmeets : Run.Every Tagger.step Tagger.Meets ⟨⟨callerObjects, []⟩, [], []⟩ taskEvents := by
    refine ⟨trivial, fun _ h => ?_⟩
    cases h
    refine ⟨⟨fun n _ m hm => ?_, fun p hp _ => ?_⟩, fun _ h => ?_⟩
    · cases hm
    · cases hp
    cases h
    refine ⟨fun span hspan _ => ?_, fun _ h => ?_⟩
    · obtain rfl := some.inj hspan
      refine ⟨fun n _ m hm => ?_, fun _ => ⟨fun n hn => ?_, fun p hp => ?_⟩⟩
      · cases hm
      · cases hn
      · cases hp
    cases h
    refine ⟨fun span hspan _ => ?_, fun _ _ => trivial⟩
    obtain rfl := some.inj hspan
    refine ⟨fun n hn => ?_, fun _ => ⟨fun n hn m hm => ?_, fun p hp => ?_⟩⟩
    · cases hn
    · obtain rfl := some.inj hn
      obtain rfl := Ref.given.inj (some.inj hm)
      rfl
    · cases hp
  obtain ⟨l, hl, hisolated⟩ := isolated_of_merges hmeets rfl
  exact ⟨_, l, rfl, hl, hisolated⟩

/-- **The tags of one span become those of another, and of the context.** -/
theorem not_isolated_context : ∃ s l, Run.exec Tagger.step ⟨⟨callerObjects, []⟩, [], []⟩
      [enterContext, startTask, startTask, .annotate 0 { tags := some 1 } false] = some s ∧
    Run.exec (Ledger.step (objectOf callerObjects)) {}
      [enterContext, startTask, startTask, .annotate 0 { tags := some 1 } false] = some l ∧
    ¬ Isolated callerObjects s l := by
  refine ⟨_, _, rfl, rfl, fun h => ?_⟩
  have hkeys := congrArg (List.map fun o : Object => o.entries.length) h.objects
  exact absurd hkeys (by decide)

end DdTrace.Llmobs
