import DdTrace.Library.JsonReader
import DdTrace.Library.OrderedMap
import DdTrace.Library.Run

/-!
# Converse responses of Bedrock, whole and streamed

`datadog-plugin-aws-sdk/src/services/bedrockruntime/utils.js` tells what a model answered, from a
complete Converse response (`extractTextAndResponseReasonConverse`) and from the events of a
ConverseStream response (`extractTextAndResponseReasonConverseFromStream`).  The second rebuilds the
content blocks in a map by their index and hands them to the extractor of the first.

`JSON.parse` is a parameter.  All that is asked of it is that it throws for the empty text, which is
what a tool without arguments is streamed as.

## The argument

The events of different blocks never touch the same entry of the map
(`OrderedMap.get?_foldl_alter`), so that each entry is what the events of its block make of it
(`rebuilt_of_splits`), whatever the interleaving.  Sorted by index the entries are the blocks of the
message, except that an empty text may have left no entry; and such a text adds nothing to the
message (`foldl_addBlock`).

* `Splits`: the events that a block is split into.
* `Streams`: the events of a response.
* `fromStream_eq`: both extractors give the same generation.
-/

namespace DdTrace.Plugins.Converse

open Library List Option

/-! ## Content blocks -/

/-- A call of a tool, without the members that are not there. -/
structure ToolUse where
  toolUseId : Option Str
  name : Option Str
  input : Option Json

/-- What `Object.keys` shows of a tagged union, and the first entry of its `$unknown`. -/
structure Keys where
  first : Option Str
  unknown : Option Str

def getContentBlockType (keys : Keys) : Str :=
  if keys.first = some (lit "$unknown") then keys.unknown.getD (lit "unknown")
  else keys.first.getD (lit "unknown")

structure ToolResultItem where
  text : Option Str
  json : Option Json
  keys : Keys

structure ToolResult where
  toolUseId : Option Str
  content : List ToolResultItem

/-- A member of `content` that is an object. -/
structure ContentBlock where
  text : Option Str
  toolUse : Option ToolUse
  toolResult : Option ToolResult
  keys : Keys

structure ToolCall where
  name : Str
  arguments : Json
  toolId : Str
  type : Str

structure ResultMessage where
  name : Str
  result : Str
  toolId : Str
  type : Str

/-- A message, without the members that are not there. -/
structure Message where
  role : Str
  content : Option Str
  toolCalls : Option (List ToolCall)
  toolResults : Option (List ResultMessage)

/-- `value ?? otherwise` -/
def nullish (value : Option Json) (otherwise : Json) : Json :=
  match value with
  | none => otherwise
  | some .null => otherwise
  | some v => v

def buildToolCall (t : ToolUse) : ToolCall where
  name := t.name.getD []
  arguments := nullish t.input (.obj [])
  toolId := t.toolUseId.getD []
  type := lit "toolUse"

def resolveToolResultItem (item : ToolResultItem) : Str :=
  match item.text, item.json with
  | some text, _ => text
  | none, some .null | none, none =>
    lit "[Unsupported content type(s): " ++ getContentBlockType item.keys ++ lit "]"
  | none, some json => json.stringify

def buildToolResult (r : ToolResult) : ResultMessage where
  name := []
  result := r.content.flatMap resolveToolResultItem
  toolId := r.toolUseId.getD []
  type := lit "tool_result"

/-- The variables of the loop of `extractMessagesFromConverseContent`. -/
structure Contents where
  content : Str
  toolCalls : List ToolCall
  toolResults : List ResultMessage

/-- The body of that loop; a member that is no object is skipped. -/
def addBlock (c : Contents) : Option ContentBlock → Contents
  | none => c
  | some block =>
    match block.text, block.toolUse, block.toolResult with
    | some text, _, _ => { c with content := c.content ++ text }
    | none, some toolUse, _ => { c with toolCalls := c.toolCalls ++ [buildToolCall toolUse] }
    | none, none, some toolResult =>
      { c with toolResults := c.toolResults ++ [buildToolResult toolResult] }
    | none, none, none =>
      { c with
        content := c.content ++ lit "[Unsupported content type: " ++
          getContentBlockType block.keys ++ lit "]" }

/-- A list that is set as a member only when it holds something. -/
def present {α : Type*} : List α → Option (List α)
  | [] => none
  | x :: l => some (x :: l)

/-- What follows the loop. -/
def toMessage (role : Str) (c : Contents) : Option Message :=
  if c.content = [] ∧ c.toolCalls.length = 0 ∧ c.toolResults.length = 0 then none
  else some ⟨role, present c.content, present c.toolCalls, present c.toolResults⟩

def extractMessagesFromConverseContent (role : Str) (contentBlocks : List (Option ContentBlock)) :
    Option Message :=
  toMessage role (contentBlocks.foldl addBlock ⟨[], [], []⟩)

def toOutputMessages (role : Str) (contentBlocks : List (Option ContentBlock)) : List Message :=
  match extractMessagesFromConverseContent role contentBlocks with
  | some message => [message]
  | none => [⟨role, some [], none, none⟩]

/-! ## Generations -/

/-- The `usage` of a response; a count that is `null` or not there is `none`. -/
structure ConverseUsage where
  inputTokens : Option ℕ
  outputTokens : Option ℕ
  cacheReadInputTokens : Option ℕ
  cacheReadInputTokenCount : Option ℕ
  cacheWriteInputTokens : Option ℕ
  cacheWriteInputTokenCount : Option ℕ

structure Usage where
  inputTokens : Option ℕ
  outputTokens : Option ℕ
  cacheReadTokens : Option ℕ
  cacheWriteTokens : Option ℕ

def ConverseUsage.none : ConverseUsage :=
  ⟨Option.none, Option.none, Option.none, Option.none, Option.none, Option.none⟩

def buildUsage (usage : ConverseUsage) : Usage where
  inputTokens := usage.inputTokens
  outputTokens := usage.outputTokens
  cacheReadTokens := usage.cacheReadInputTokens.or usage.cacheReadInputTokenCount
  cacheWriteTokens := usage.cacheWriteInputTokens.or usage.cacheWriteInputTokenCount

/-- The `Generation` of a Converse response: its `message` is empty and it has no `choiceId`. -/
structure Generation where
  finishReason : Str
  role : Str
  usage : Usage
  messages : List Message

/-- `value || otherwise` of a text; one that is not there is empty here. -/
def orElse (value otherwise : Str) : Str := if value = [] then otherwise else value

/-- A complete response. -/
structure Response where
  role : Str
  content : List (Option ContentBlock)
  stopReason : Str
  usage : Option ConverseUsage

def extractTextAndResponseReasonConverse (response : Response) : Generation :=
  let role := orElse response.role (lit "assistant")
  { role
    finishReason := orElse response.stopReason []
    usage := buildUsage (response.usage.getD .none)
    messages := toOutputMessages role response.content }

/-! ## Events -/

inductive Delta where
  | text (text : Str)
  | toolUse (input : Str)
  | other

/-- An event of the stream: a tagged union.  A text that is not there is empty. -/
inductive Chunk where
  | messageStart (role : Str)
  /-- The `toolUseId` and `name` of `start.toolUse`, where the block starts with one. -/
  | contentBlockStart (contentBlockIndex : ℕ) (toolUse : Option (Option Str × Option Str))
  | contentBlockDelta (contentBlockIndex : ℕ) (delta : Delta)
  | contentBlockStop (contentBlockIndex : ℕ)
  | messageStop (stopReason : Str)
  | metadata (usage : Option ConverseUsage)

/-- The tool use of a block that is being rebuilt. -/
structure PartialToolUse where
  toolUseId : Option Str
  name : Option Str
  inputStr : Str

/-- A block that is being rebuilt. -/
structure PartialBlock where
  text : Option Str
  toolUse : Option PartialToolUse

/-- The variables of the loop over the events. -/
structure State where
  role : Str
  stopReason : Str
  usage : ConverseUsage
  blocksByIdx : OrderedMap ℕ PartialBlock

def State.init : State := ⟨lit "assistant", [], .none, .empty⟩

/-- The delta of a text. -/
def addText (text : Str) (block : Option PartialBlock) : PartialBlock :=
  let block := block.getD ⟨none, none⟩
  { block with text := some (block.text.getD [] ++ text) }

/-- The delta of an input. -/
def addInput (input : Str) (block : Option PartialBlock) : PartialBlock :=
  let block := block.getD ⟨none, some ⟨none, none, []⟩⟩
  let toolUse := block.toolUse.getD ⟨none, none, []⟩
  { block with toolUse := some { toolUse with inputStr := toolUse.inputStr ++ input } }

/-- The body of the loop over the events. -/
def step (s : State) : Chunk → State
  | .messageStart role => if role = [] then s else { s with role }
  | .messageStop stopReason => if stopReason = [] then s else { s with stopReason }
  | .metadata (some usage) => { s with usage }
  | .metadata none => s
  | .contentBlockStart index (some (toolUseId, name)) =>
    { s with blocksByIdx := s.blocksByIdx.set index ⟨none, some ⟨toolUseId, name, []⟩⟩ }
  | .contentBlockStart _ none => s
  | .contentBlockDelta index (.text text) =>
    { s with blocksByIdx := s.blocksByIdx.set index (addText text (s.blocksByIdx.get? index)) }
  | .contentBlockDelta index (.toolUse input) =>
    { s with blocksByIdx := s.blocksByIdx.set index (addInput input (s.blocksByIdx.get? index)) }
  | .contentBlockDelta _ .other => s
  | .contentBlockStop _ => s

section

-- `JSON.parse`, which gives nothing where it throws.
variable (parse : Str → Option Json)

def parseToolInput (inputStr : Str) : Json := (parse inputStr).getD (.obj [])

/-- A rebuilt block with its input read.  Which of its keys came first is never asked. -/
def toContentBlock (block : PartialBlock) : ContentBlock where
  text := block.text
  toolUse := block.toolUse.map fun t =>
    ⟨t.toolUseId, t.name, some (parseToolInput parse t.inputStr)⟩
  toolResult := none
  keys := ⟨if block.text.isSome then some (lit "text") else some (lit "toolUse"), none⟩

/-- The blocks by their index. -/
def contentBlocks (blocksByIdx : OrderedMap ℕ PartialBlock) : List (Option ContentBlock) :=
  (blocksByIdx.keys.mergeSort fun a b => decide (a ≤ b)).map fun i =>
    (blocksByIdx.get? i).map (toContentBlock parse)

def extractTextAndResponseReasonConverseFromStream (chunks : List Chunk) : Generation :=
  let s := chunks.foldl step .init
  { role := s.role
    finishReason := s.stopReason
    usage := buildUsage s.usage
    messages := toOutputMessages s.role (contentBlocks parse s.blocksByIdx) }

/-! ## How a response is streamed -/

/-- A block of an answer. -/
inductive Block where
  | text (text : Str)
  | toolUse (toolUse : ToolUse)

/-- The block as it stands in a complete response. -/
def Block.content : Block → ContentBlock
  | .text s => ⟨some s, none, none, ⟨some (lit "text"), none⟩⟩
  | .toolUse t => ⟨none, some t, none, ⟨some (lit "toolUse"), none⟩⟩

/-- What concerns a block in an event. -/
inductive BlockEvent where
  | start (toolUseId name : Option Str)
  | text (text : Str)
  | input (input : Str)

/-- The block an event concerns, and what it says of it. -/
def Chunk.blockEvent? : Chunk → Option (ℕ × BlockEvent)
  | .contentBlockStart index (some (toolUseId, name)) => some (index, .start toolUseId name)
  | .contentBlockDelta index (.text text) => some (index, .text text)
  | .contentBlockDelta index (.toolUse input) => some (index, .input input)
  | _ => none

def Chunk.role? : Chunk → Option Str
  | .messageStart role => if role = [] then none else some role
  | _ => none

def Chunk.stopReason? : Chunk → Option Str
  | .messageStop stopReason => if stopReason = [] then none else some stopReason
  | _ => none

def Chunk.usage? : Chunk → Option ConverseUsage
  | .metadata usage => usage
  | _ => none

/-- The text that the input of a tool is streamed as: its JSON, or nothing where the tool takes
nothing. -/
def Spells (text : Str) (input : Option Json) : Prop :=
  (∃ v, input = some v ∧ parse text = some v) ∨ text = [] ∧ (input = none ∨ input = some (.obj []))

/-- The events that a block is split into, at any places.  The start of a tool use says its name and
its id, and may be missing where there is neither. -/
inductive Splits : Block → List BlockEvent → Prop where
  | text (parts : List Str) : Splits (Block.text parts.flatten) (parts.map BlockEvent.text)
  | toolUse (toolUseId name : Option Str) (parts : List Str) {input : Option Json}
      (h : Spells parse parts.flatten input) :
      Splits (Block.toolUse ⟨toolUseId, name, input⟩) (.start toolUseId name :: parts.map .input)
  | bare (part : Str) (parts : List Str) {input : Option Json}
      (h : Spells parse (part ++ parts.flatten) input) :
      Splits (Block.toolUse ⟨none, none, input⟩) (.input part :: parts.map .input)

/-- A text as a list: nothing where it is empty. -/
def named (s : Str) : List Str := if s = [] then [] else [s]

/-- The events are those of the message: of each block some events it is split into, in any
interleaving, and the role, the reason and the usage once each where they are there. -/
structure Streams (role : Str) (content : List Block) (stopReason : Str)
    (usage : Option ConverseUsage) (chunks : List Chunk) : Prop where
  roles : chunks.filterMap Chunk.role? = named role
  stopReasons : chunks.filterMap Chunk.stopReason? = named stopReason
  usages : chunks.filterMap Chunk.usage? = usage.toList
  blocks : ∀ i b, content[i]? = some b →
    Splits parse b (OrderedMap.addressed i (chunks.filterMap Chunk.blockEvent?))
  others : ∀ i, content[i]? = none →
    OrderedMap.addressed i (chunks.filterMap Chunk.blockEvent?) = []

end

/-! ## The rebuilt blocks -/

def BlockEvent.apply : BlockEvent → Option PartialBlock → PartialBlock
  | .start toolUseId name, _ => ⟨none, some ⟨toolUseId, name, []⟩⟩
  | .text s, block => addText s block
  | .input s, block => addInput s block

/-- An event changes what it says something of. -/
theorem step_eq (s : State) (c : Chunk) : step s c =
      ⟨c.role?.elim s.role id, c.stopReason?.elim s.stopReason id, c.usage?.elim s.usage id,
        c.blockEvent?.elim s.blocksByIdx fun e =>
          s.blocksByIdx.set e.1 (e.2.apply (s.blocksByIdx.get? e.1))⟩ := by
  cases c with
  | messageStart role =>
    by_cases hrole : role = []
    all_goals simp [step, Chunk.role?, Chunk.stopReason?, Chunk.usage?, Chunk.blockEvent?, hrole]
  | messageStop stopReason =>
    by_cases hreason : stopReason = []
    all_goals simp [step, Chunk.role?, Chunk.stopReason?, Chunk.usage?, Chunk.blockEvent?, hreason]
  | metadata usage => cases usage <;> rfl
  | contentBlockStart index toolUse => rcases toolUse with _ | ⟨toolUseId, name⟩ <;> rfl
  | contentBlockDelta index delta => cases delta <;> rfl
  | contentBlockStop index => rfl

variable {parse : Str → Option Json}

/-- Deltas of a text on top of a text. -/
theorem foldl_addText (parts : List Str) (text : Str) :
    (parts.map BlockEvent.text).foldl (fun o e => some (e.apply o)) (some ⟨some text, none⟩) =
      some ⟨some (text ++ parts.flatten), none⟩ := by
  induction parts generalizing text with
  | nil => rw [flatten_nil, append_nil, map_nil, foldl_nil]
  | cons part parts ih =>
    rw [map_cons, flatten_cons, ← append_assoc]
    exact ih (text ++ part)

/-- Deltas of an input on top of an input. -/
theorem foldl_addInput (toolUseId name : Option Str) (parts : List Str) (inputStr : Str) :
    (parts.map BlockEvent.input).foldl (fun o e => some (e.apply o))
        (some ⟨none, some ⟨toolUseId, name, inputStr⟩⟩) =
      some ⟨none, some ⟨toolUseId, name, inputStr ++ parts.flatten⟩⟩ := by
  induction parts generalizing inputStr with
  | nil => rw [flatten_nil, append_nil, map_nil, foldl_nil]
  | cons part parts ih =>
    rw [map_cons, flatten_cons, ← append_assoc]
    exact ih (inputStr ++ part)

/-- What is rebuilt of a block: all of it, or nothing of an empty text. -/
inductive Rebuilds (parse : Str → Option Json) : Block → Option PartialBlock → Prop where
  | text (text : Str) : Rebuilds parse (.text text) (some ⟨some text, none⟩)
  | empty : Rebuilds parse (.text []) none
  | toolUse {toolUseId name : Option Str} {inputStr : Str} {input : Option Json}
      (h : Spells parse inputStr input) :
      Rebuilds parse (.toolUse ⟨toolUseId, name, input⟩)
        (some ⟨none, some ⟨toolUseId, name, inputStr⟩⟩)

/-- **The events of a block rebuild it.** -/
theorem rebuilt_of_splits {b : Block} {events : List BlockEvent} (h : Splits parse b events) :
    Rebuilds parse b (events.foldl (fun o e => some (e.apply o)) none) := by
  cases h with
  | text parts =>
    cases parts with
    | nil => exact .empty
    | cons part parts =>
      have hfold := foldl_addText parts part
      refine Eq.mpr (congrArg _ hfold) ?_
      exact .text _
  | toolUse toolUseId name parts hspells =>
    have hfold := foldl_addInput toolUseId name parts []
    refine Eq.mpr (congrArg _ hfold) ?_
    exact .toolUse hspells
  | bare part parts hspells =>
    have hfold := foldl_addInput none none parts part
    refine Eq.mpr (congrArg _ hfold) ?_
    exact .toolUse hspells

/-- The input that is read is the input of the block, or stands for the same arguments. -/
theorem nullish_parseToolInput (hempty : parse [] = none) {text : Str} {input : Option Json}
    (h : Spells parse text input) :
    nullish (some (parseToolInput parse text)) (.obj []) = nullish input (.obj []) := by
  rcases h with ⟨v, rfl, hv⟩ | ⟨rfl, rfl | rfl⟩
  · rw [parseToolInput, hv]
    rfl
  all_goals
    rw [parseToolInput, hempty]
    rfl

/-- A block and what is rebuilt of it add the same to the message. -/
theorem addBlock_rebuilt (hempty : parse [] = none) {b : Block} {o : Option PartialBlock}
    (h : Rebuilds parse b o) (c : Contents) :
    addBlock c (some b.content) = addBlock c (o.map (toContentBlock parse)) := by
  cases h with
  | text text => rfl
  | empty =>
    show { c with content := c.content ++ [] } = c
    rw [append_nil]
  | toolUse hspells =>
    have hargs := nullish_parseToolInput hempty hspells
    simp only [Block.content, addBlock, map_some, toContentBlock, buildToolCall, hargs]

theorem foldl_addBlock (hempty : parse [] = none) {content : List Block}
    {rebuilt : List (Option PartialBlock)} (h : List.Forall₂ (Rebuilds parse) content rebuilt)
    (c : Contents) :
    (content.map fun b => some b.content).foldl addBlock c =
      (rebuilt.map fun o => o.map (toContentBlock parse)).foldl addBlock c := by
  induction h generalizing c with
  | nil => rfl
  | cons hb _ ih =>
    rw [map_cons, map_cons, foldl_cons, foldl_cons, ih, addBlock_rebuilt hempty hb]

/-- What is not there adds nothing. -/
theorem foldl_addBlock_filter (l : List (Option ContentBlock)) (c : Contents) :
    (l.filter Option.isSome).foldl addBlock c = l.foldl addBlock c := by
  induction l generalizing c with
  | nil => rfl
  | cons o l ih =>
    cases o with
    | none => exact ih c
    | some b => exact ih (addBlock c (some b))

/-! ## Sorted by index -/

/-- The keys in order, where all are below a bound. -/
theorem mergeSort_keys (m : OrderedMap ℕ PartialBlock) {n : ℕ} (h : ∀ i ∈ m.keys, i < n) :
    (m.keys.mergeSort fun a b => decide (a ≤ b)) = (List.range n).filter fun i => m.has i := by
  have hperm : (m.keys.mergeSort fun a b => decide (a ≤ b)).Perm
      ((List.range n).filter fun i => m.has i) := by
    refine (mergeSort_perm _ _).trans ?_
    refine (perm_ext_iff_of_nodup m.nodup_keys (nodup_range.filter _)).mpr ?_
    intro i
    rw [mem_filter, mem_range, OrderedMap.has_eq_true_iff]
    exact ⟨fun hi => ⟨h i hi, hi⟩, fun hi => hi.2⟩
  have hrange : ((List.range n).filter fun i => m.has i).Pairwise (· ≤ ·) :=
    (pairwise_lt_range.imp Nat.le_of_lt).filter _
  exact hperm.eq_of_pairwise' (pairwise_mergeSort' _ _) hrange

/-- The rebuilt blocks are those of the indices that have one, in the order of the indices. -/
theorem contentBlocks_eq (m : OrderedMap ℕ PartialBlock) {n : ℕ} (h : ∀ i ∈ m.keys, i < n) :
    contentBlocks parse m =
      ((List.range n).map fun i => (m.get? i).map (toContentBlock parse)).filter Option.isSome := by
  rw [contentBlocks, mergeSort_keys m h, List.filter_map]
  congr 1
  refine filter_congr fun i _ => ?_
  rw [Function.comp_apply, isSome_map]
  rfl

/-! ## The generation -/

variable {role stopReason : Str} {content : List Block} {usage : Option ConverseUsage}
  {chunks : List Chunk}

/-- The block of an index, once all events are in. -/
theorem get?_foldl (chunks : List Chunk) (i : ℕ) : (chunks.foldl step .init).blocksByIdx.get? i =
      (OrderedMap.addressed i (chunks.filterMap Chunk.blockEvent?)).foldl
        (fun o e => some (e.apply o)) none := by
  have hview := Run.foldl_view (f := step) State.blocksByIdx Chunk.blockEvent?
    (fun m e => m.set e.1 (e.2.apply (m.get? e.1))) (fun s c => by rw [step_eq]) State.init chunks
  rw [hview, OrderedMap.get?_foldl_alter (f := BlockEvent.apply)]
  rfl

theorem Streams.rebuilds (h : Streams parse role content stopReason usage chunks) :
    List.Forall₂ (Rebuilds parse) content
      ((List.range content.length).map (chunks.foldl step .init).blocksByIdx.get?) := by
  rw [List.forall₂_iff_get]
  refine ⟨by simp, fun i hi hi' => ?_⟩
  have hsplits := h.blocks i content[i] (getElem?_eq_getElem hi)
  have hrebuilt := rebuilt_of_splits hsplits
  rw [← get?_foldl] at hrebuilt
  simpa using hrebuilt

theorem Streams.lt_length (h : Streams parse role content stopReason usage chunks) :
    ∀ i ∈ (chunks.foldl step .init).blocksByIdx.keys, i < content.length := by
  intro i hi
  by_contra hlt
  have hnone : content[i]? = none := getElem?_eq_none (by omega)
  have hget := get?_foldl chunks i
  rw [h.others i hnone, foldl_nil, OrderedMap.get?_eq_none_iff] at hget
  exact hget hi

/-- A text that is said once, or not at all where it is empty. -/
theorem foldl_named (s start : Str) : (named s).foldl (fun _ r => id r) start = orElse s start := by
  unfold named orElse
  split <;> rfl

/-- **Streamed or not, the generation is the same.**  The role, the reason and the usage are those
of the response, and so are the messages: the text, and each tool call with its name, its id and its
arguments. -/
theorem fromStream_eq (hempty : parse [] = none)
    (h : Streams parse role content stopReason usage chunks) :
    extractTextAndResponseReasonConverseFromStream parse chunks =
      extractTextAndResponseReasonConverse
        ⟨role, content.map fun b => some b.content, stopReason, usage⟩ := by
  have hrole : (chunks.foldl step .init).role = orElse role (lit "assistant") := by
    rw [Run.foldl_view State.role Chunk.role? (fun _ r => id r)
      (fun s c => by rw [step_eq]), h.roles, foldl_named]
    rfl
  have hreason : (chunks.foldl step .init).stopReason = orElse stopReason [] := by
    rw [Run.foldl_view State.stopReason Chunk.stopReason? (fun _ r => id r)
      (fun s c => by rw [step_eq]), h.stopReasons, foldl_named]
    rfl
  have husage : (chunks.foldl step .init).usage = usage.getD .none := by
    rw [Run.foldl_view State.usage Chunk.usage? (fun _ r => id r)
      (fun s c => by rw [step_eq]), h.usages]
    cases usage <;> rfl
  have hfold : (contentBlocks parse (chunks.foldl step .init).blocksByIdx).foldl addBlock
      ⟨[], [], []⟩ = (content.map fun b => some b.content).foldl addBlock ⟨[], [], []⟩ := by
    rw [contentBlocks_eq _ h.lt_length, foldl_addBlock_filter, foldl_addBlock hempty h.rebuilds,
      List.map_map]
    rfl
  simp only [extractTextAndResponseReasonConverseFromStream, extractTextAndResponseReasonConverse,
    hrole, hreason, husage, toOutputMessages, extractMessagesFromConverseContent, hfold]

/-- A text and a tool that takes nothing, with their events mixed. -/
def mixedChunks : List Chunk :=
  [.messageStart (lit "assistant"), .contentBlockStart 1 (some (some (lit "t"), some (lit "now"))),
    .contentBlockDelta 0 (.text (lit "h")), .contentBlockDelta 1 (.toolUse []),
    .contentBlockDelta 0 (.text (lit "i")), .contentBlockStop 0, .contentBlockStop 1,
    .messageStop (lit "tool_use"), .metadata none]

def mixedContent : List Block :=
  [.text (lit "hi"), .toolUse ⟨some (lit "t"), some (lit "now"), some (.obj [])⟩]

theorem fromStream_eq_mixed :
    extractTextAndResponseReasonConverseFromStream Json.parse mixedChunks =
      extractTextAndResponseReasonConverse
        ⟨lit "assistant", mixedContent.map fun b => some b.content, lit "tool_use", none⟩ := by
  refine fromStream_eq (by rfl) ⟨by decide, by decide, by rfl, ?_, ?_⟩
  · rintro (_ | _ | i) b hb
    · obtain rfl := some.inj hb
      exact .text [lit "h", lit "i"]
    · obtain rfl := some.inj hb
      exact .toolUse _ _ [[]] (.inr ⟨rfl, .inr rfl⟩)
    · exact absurd hb.symm (some_ne_none _)
  · rintro (_ | _ | i) hi
    · exact absurd hi (some_ne_none _)
    · exact absurd hi (some_ne_none _)
    · rfl

end DdTrace.Plugins.Converse
