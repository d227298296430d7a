import DdTrace.Library.Text

/-!
# Chat completions of OpenAI, put together from their stream

`datadog-plugin-openai/src/stream-helpers.js` makes one response of the chunks of a stream.
`constructResponseFromStreamedChunks` keeps the first entry of each choice as the choice and hands
the later ones to a callback; the callback for chat completions appends the text, and rebuilds the
list of tool calls from each entry that has one.  The objects of the chunks are changed in place,
which no other part of the code sees.

## Position and index

A delta of a tool call says in its `index` which tool call it belongs to.  The callback does not
read it: it takes the delta at a position of the list as one of the tool call that has that position
so far, and a list that is shorter than the one before drops the tool calls behind its end.  With
one tool call at a time both come to the same as long as that tool call is the first of the choice;
with parallel tool calls they do not.

`Placed` says what of the deltas is needed for a tool call to come out whole: one that carries its
id and its name opens a position, the lists after it all reach that position, and what stands there
from then on spells its arguments.  The usage, too, is that of the last chunk and of no other.

* `getElem?_merged`: the entries of the list of tool calls, for all sequences of lists.
* `exists_holds`: what is kept of every choice after any sequence of entries; the code does not
  throw.
* `reconstructed_iff`: the response is the completion just where every tool call is placed and the
  last chunk carries the usage.
-/

namespace DdTrace.Plugins.OpenaiStream

open Library List Option

/-! ## The code -/

/-- A tool call of a chunk, or as it has been put together: `function.name` and
`function.arguments` stand beside the other members. -/
structure ToolCall where
  index : ℕ
  id : Option Str
  name : Option Str
  arguments : Str
  deriving DecidableEq

structure ChatDelta where
  content : Option Str
  toolCalls : Option (List ToolCall)
  deriving DecidableEq

structure StreamChoice where
  index : ℕ
  finishReason : Option Str
  delta : Option ChatDelta
  deriving DecidableEq

/-- A chunk; what a usage is does not matter. -/
structure StreamChunk (υ : Type) where
  choices : List StreamChoice
  usage : Option υ

/-- The response body.  A hole of the array is `none`. -/
structure StreamResponseBody (υ : Type) where
  choices : List (Option StreamChoice)
  usage : Option υ

/-- A text that is there and not empty. -/
def truthy (s : Option Str) : Bool := s.any (· ≠ [])

/-- `array[i] = choice` -/
def assign (choices : List (Option StreamChoice)) (i : ℕ) (choice : StreamChoice) :
    List (Option StreamChoice) :=
  if i < choices.length then choices.set i (some choice)
  else choices ++ List.replicate (i - choices.length) none ++ [some choice]

section

-- The callback, which changes the existing choice and may throw.
variable (onChoice : StreamChoice → StreamChoice → Option StreamChoice)

/-- What is done with the choice that exists already. -/
def mergeChoice (choice oldChoice : StreamChoice) : Option StreamChoice :=
  onChoice choice (if truthy oldChoice.finishReason then oldChoice
    else { oldChoice with finishReason := choice.finishReason })

/-- The body of the inner loop. -/
def addChoice (choices : List (Option StreamChoice)) (choice : StreamChoice) :
    Option (List (Option StreamChoice)) :=
  match choices.findIdx? fun c => c.any fun c => c.index == choice.index with
  | none => some (assign choices choice.index choice)
  | some i =>
    choices[i]?.join.bind fun oldChoice =>
      (mergeChoice onChoice choice oldChoice).map fun merged => choices.set i (some merged)

/-- The body of the outer loop. -/
def addChunk {υ : Type} (body : StreamResponseBody υ) (chunk : StreamChunk υ) :
    Option (StreamResponseBody υ) :=
  (chunk.choices.foldlM (addChoice onChoice) body.choices).map fun choices =>
    ⟨choices, chunk.usage⟩

def constructResponseFromStreamedChunks {υ : Type} (chunks : List (StreamChunk υ)) (n : ℕ) :
    Option (StreamResponseBody υ) :=
  chunks.foldlM (addChunk onChoice) ⟨List.replicate n none, chunks.head?.bind StreamChunk.usage⟩

end

/-- The list of tool calls that is made of the old one and of the list of an entry. -/
def mergeTools (oldTools : Option (List ToolCall)) (tools : List ToolCall) : List ToolCall :=
  tools.mapIdx fun toolIdx newTool =>
    match (oldTools.getD [])[toolIdx]? with
    | some oldTool => { oldTool with arguments := oldTool.arguments ++ newTool.arguments }
    | none => newTool

/-- The content of the old delta with the one of the new delta. -/
def mergeContent (content oldContent : Option Str) : Option Str :=
  if truthy content then
    if truthy oldContent then some (oldContent.getD [] ++ content.getD []) else content
  else oldContent

/-- The callback for chat completions.  It throws where it would read the delta of a choice that has
none. -/
def onChatChoice (choice oldChoice : StreamChoice) : Option StreamChoice :=
  match choice.delta, oldChoice.delta with
  | none, _ => some oldChoice
  | some delta, none =>
    if truthy delta.content || delta.toolCalls.isSome then none else some oldChoice
  | some delta, some oldDelta =>
    some
      { oldChoice with
        delta := some
          { content := mergeContent delta.content oldDelta.content
            toolCalls :=
              match delta.toolCalls with
              | none => oldDelta.toolCalls
              | some tools => some (mergeTools oldDelta.toolCalls tools) } }

def constructChatCompletionResponseFromStreamedChunks {υ : Type} (chunks : List (StreamChunk υ))
    (n : ℕ) : Option (StreamResponseBody υ) :=
  constructResponseFromStreamedChunks onChatChoice chunks n

/-! ## Completions and their streams -/

structure Tool where
  id : Str
  name : Str
  arguments : Str

structure Choice where
  content : Str
  finishReason : Str
  toolCalls : List Tool

/-- A chat completion; the index of a choice or of a tool call is its place in the list. -/
structure Completion (υ : Type) where
  choices : List Choice
  usage : Option υ

/-- The entries of the choice with the index. -/
def entriesAt (i : ℕ) (entries : List StreamChoice) : List StreamChoice :=
  entries.filter fun c => c.index == i

def contentOf (c : StreamChoice) : Str := (c.delta.bind ChatDelta.content).getD []

def toolCallsOf (c : StreamChoice) : Option (List ToolCall) := c.delta.bind ChatDelta.toolCalls

/-- The finish reason of an entry that has one. -/
def reasonOf (c : StreamChoice) : Option Str := c.finishReason.filter (· ≠ [])

/-- The lists of tool calls of some entries. -/
def listsOf (entries : List StreamChoice) : List (List ToolCall) := entries.filterMap toolCallsOf

/-- The entries of one choice are the choice in parts. -/
structure Splits (c : Choice) (entries : List StreamChoice) : Prop where
  delta : ∀ e ∈ entries, e.delta.isSome = true
  content : entries.flatMap contentOf = c.content
  reason : entries.filterMap reasonOf = [c.finishReason]
  /-- A delta belongs to the tool call of its index, and tells its id and its name or leaves them
  out. -/
  own : ∀ l ∈ listsOf entries, ∀ d ∈ l, ∃ t, c.toolCalls[d.index]? = some t ∧
    (d.id = none ∨ d.id = some t.id) ∧ (d.name = none ∨ d.name = some t.name)
  told : ∀ k t, c.toolCalls[k]? = some t →
    ∃ l ∈ listsOf entries, ∃ d ∈ l, d.index = k ∧ d.id = some t.id ∧ d.name = some t.name
  /-- The deltas of a tool call spell its arguments. -/
  arguments : ∀ k t, c.toolCalls[k]? = some t →
    ((listsOf entries).flatten.filter fun d => d.index == k).flatMap ToolCall.arguments =
      t.arguments

/-- The chunks are the completion in parts: any of its choices in a chunk, and of each any of its
tool calls.  One chunk carries the usage. -/
structure Streams {υ : Type} (completion : Completion υ) (chunks : List (StreamChunk υ)) :
    Prop where
  choices : ∀ i c, completion.choices[i]? = some c →
    Splits c (entriesAt i (chunks.flatMap StreamChunk.choices))
  others : ∀ e ∈ chunks.flatMap StreamChunk.choices, e.index < completion.choices.length
  usage : chunks.filterMap StreamChunk.usage = completion.usage.toList

/-- The response has of a choice the text, the finish reason and every tool call. -/
structure HasChoice (c : Choice) (r : StreamChoice) : Prop where
  content : contentOf r = c.content
  finishReason : r.finishReason = some c.finishReason
  toolCalls : ∀ t ∈ c.toolCalls, ∃ e ∈ (toolCallsOf r).getD [],
    e.id = some t.id ∧ e.name = some t.name ∧ e.arguments = t.arguments

structure Reconstructs {υ : Type} (completion : Completion υ) (body : StreamResponseBody υ) :
    Prop where
  choices : ∀ (i : ℕ) (c : Choice), completion.choices[i]? = some c →
    ∃ r : StreamChoice, body.choices[i]? = some (some r) ∧ HasChoice c r
  usage : body.usage = completion.usage

/-- The arguments that stand at the position in the lists. -/
def spelled (k : ℕ) (lists : List (List ToolCall)) : Str :=
  lists.flatMap fun l => (l[k]?.map ToolCall.arguments).getD []

/-- The delta stands at the position in one of the lists, where it opens it: the list before is not
longer.  The lists after it all reach the position, and what stands there from the delta on spells
the text. -/
structure Opens (lists : List (List ToolCall)) (k : ℕ) (d : ToolCall) (text : Str) : Prop where
  opens : ∃ before l after, lists = before ++ l :: after ∧ l[k]? = some d ∧
    (∀ b ∈ before.getLast?, b.length ≤ k) ∧ (∀ a ∈ after, k < a.length) ∧
      d.arguments ++ spelled k after = text

/-- A delta that carries the id and the name of the tool call opens a position, and its arguments
stand there. -/
def Placed (lists : List (List ToolCall)) (t : Tool) : Prop :=
  ∃ k d, Opens lists k d t.arguments ∧ d.id = some t.id ∧ d.name = some t.name

/-- Each tool call of each choice is placed, and the last chunk carries the usage if one does. -/
structure InPlace {υ : Type} (completion : Completion υ) (chunks : List (StreamChunk υ)) :
    Prop where
  toolCalls : ∀ i c, completion.choices[i]? = some c → ∀ t ∈ c.toolCalls,
    Placed (listsOf (entriesAt i (chunks.flatMap StreamChunk.choices))) t
  usage : (∃ chunk ∈ chunks, chunk.usage.isSome = true) →
    ∃ chunk ∈ chunks.getLast?, chunk.usage.isSome = true

/-! ## The list of tool calls -/

theorem length_mergeTools (old : Option (List ToolCall)) (tools : List ToolCall) :
    (mergeTools old tools).length = tools.length := length_mapIdx

theorem getElem?_mergeTools (old : Option (List ToolCall)) (tools : List ToolCall) (k : ℕ) :
    (mergeTools old tools)[k]? = tools[k]?.map fun newTool =>
      ((old.getD [])[k]?.map fun oldTool =>
        { oldTool with arguments := oldTool.arguments ++ newTool.arguments }).getD newTool := by
  rw [mergeTools, getElem?_mapIdx]
  cases (old.getD [])[k]? <;> rfl

/-- The lists merged one after the other. -/
def merged (lists : List (List ToolCall)) : Option (List ToolCall) :=
  lists.foldl (fun old tools => some (mergeTools old tools)) none

variable (lists : List (List ToolCall))

theorem merged_concat (tools : List ToolCall) :
    merged (lists ++ [tools]) = some (mergeTools (merged lists) tools) := by
  rw [merged, foldl_append]
  rfl

/-- The merged list is as long as the last one. -/
theorem length_merged : ((merged lists).getD []).length = (lists.getLast?.getD []).length := by
  induction lists using List.reverseRecOn with
  | nil => rfl
  | append_singleton lists tools _ =>
    rw [merged_concat, getLast?_concat]
    exact length_mergeTools _ _

theorem spelled_concat (k : ℕ) (lists : List (List ToolCall)) (l : List ToolCall) :
    spelled k (lists ++ [l]) = spelled k lists ++ (l[k]?.map ToolCall.arguments).getD [] := by
  rw [spelled, flatMap_append, flatMap_singleton]
  rfl

/-- **The merged list.**  At a position stands what opened it, with the arguments of that position
since. -/
theorem getElem?_merged (k : ℕ) (e : ToolCall) : ((merged lists).getD [])[k]? = some e ↔
      ∃ d, Opens lists k d e.arguments ∧ e = { d with arguments := e.arguments } := by
  induction lists using List.reverseRecOn generalizing e with
  | nil =>
    constructor
    · exact fun h => absurd h.symm (some_ne_none e)
    · rintro ⟨d, ⟨before, l, after, hlists, -⟩, -⟩
      exact absurd hlists.symm (append_ne_nil_of_right_ne_nil _ (cons_ne_nil _ _))
  | append_singleton lists tools ih =>
    rw [merged_concat, getD_some, getElem?_mergeTools, map_eq_some_iff]
    constructor
    · rintro ⟨d, hd, he⟩
      have hlt := (List.getElem?_eq_some_iff.mp hd).1
      rcases hold : ((merged lists).getD [])[k]? with _ | o
      · -- The list before does not reach the position.
        have hlength := List.getElem?_eq_none_iff.mp hold
        rw [length_merged] at hlength
        rw [hold] at he
        obtain rfl : d = e := he
        refine ⟨d, ⟨lists, tools, [], rfl, hd, ?_, fun a ha => absurd ha not_mem_nil, ?_⟩, rfl⟩
        · intro b hb
          rw [hb] at hlength
          exact hlength
        · exact append_nil _
      · obtain ⟨d', ⟨before, l, after, rfl, hl, hbefore, hafter, htext⟩, ho⟩ := (ih o).mp hold
        rw [hold] at he
        have heq : { o with arguments := o.arguments ++ d.arguments } = e := he
        refine ⟨d', ⟨before, l, after ++ [tools], by simp, hl, hbefore, ?_, ?_⟩, ?_⟩
        · intro a ha
          rcases mem_append.mp ha with ha | ha
          · exact hafter a ha
          · rw [mem_singleton.mp ha]
            exact hlt
        · rw [spelled_concat, hd, ← append_assoc, htext, ← heq]
          rfl
        · rw [← heq, ho]
    · rintro ⟨d, ⟨before, l, after, hlists, hl, hbefore, hafter, htext⟩, he⟩
      rcases eq_nil_or_concat after with rfl | ⟨after, last, rfl⟩
      · -- The position is opened by the last list.
        obtain ⟨rfl, htools⟩ := append_inj' hlists rfl
        obtain rfl : tools = l := singleton_inj.mp htools
        have hold : ((merged lists).getD [])[k]? = none := by
          rw [List.getElem?_eq_none_iff, length_merged]
          rcases hlast : lists.getLast? with _ | b
          · exact Nat.zero_le k
          · exact hbefore b hlast
        refine ⟨d, hl, ?_⟩
        rw [hold, he, ← htext, spelled, flatMap_nil, append_nil]
        rfl
      · rw [concat_eq_append] at hlists hafter htext
        have hconcat : lists ++ [tools] = (before ++ l :: after) ++ [last] := by
          rw [hlists]
          simp
        obtain ⟨rfl, htools⟩ := append_inj' hconcat rfl
        obtain rfl : tools = last := singleton_inj.mp htools
        have hlt := hafter tools (mem_append_right _ (mem_singleton.mpr rfl))
        have hget : tools[k]? = some tools[k] := getElem?_eq_getElem hlt
        rw [spelled_concat, hget, ← append_assoc] at htext
        have hold : ((merged (before ++ l :: after)).getD [])[k]? =
            some { d with arguments := d.arguments ++ spelled k after } :=
          (ih _).mpr ⟨d, ⟨before, l, after, rfl, hl, hbefore,
            (forall_mem_append.mp hafter).1, rfl⟩, rfl⟩
        refine ⟨tools[k], hget, ?_⟩
        rw [hold, he, ← htext]
        rfl

/-! ## One choice -/

/-- What is kept of the entries of a choice. -/
structure Merged (entries : List StreamChoice) (r : StreamChoice) : Prop where
  delta : r.delta.isSome = true
  content : contentOf r = entries.flatMap contentOf
  reason : reasonOf r = (entries.filterMap reasonOf).head?
  toolCalls : toolCallsOf r = merged (listsOf entries)

theorem mergeTools_none (tools : List ToolCall) : mergeTools none tools = tools := by
  refine ext_getElem? fun k => ?_
  rw [getElem?_mergeTools]
  exact Option.map_id'

variable {entries : List StreamChoice} {r : StreamChoice} {choices : List (Option StreamChoice)}
  {e : StreamChoice}

/-- The first entry is kept as it is. -/
theorem Merged.first (hdelta : e.delta.isSome = true) : Merged [e] e where
  delta := hdelta
  content := (append_nil _).symm
  reason := by
    rw [filterMap_cons]
    cases reasonOf e <;> rfl
  toolCalls := by
    rw [listsOf, filterMap_cons]
    rcases toolCallsOf e with _ | tools
    · rfl
    · show some tools = some (mergeTools none tools)
      rw [mergeTools_none]

theorem truthy_eq_false_iff {s : Option Str} : truthy s = false ↔ s.getD [] = [] := by
  rcases s with _ | s
  · simp [truthy]
  · simp [truthy]

theorem getD_mergeContent (content old : Option Str) :
    (mergeContent content old).getD [] = old.getD [] ++ content.getD [] := by
  unfold mergeContent
  by_cases hcontent : truthy content = true
  · rw [if_pos hcontent]
    by_cases hold : truthy old = true
    · rw [if_pos hold]
      rfl
    · rw [if_neg hold, truthy_eq_false_iff.mp (Bool.eq_false_iff.mpr hold), List.nil_append]
  · rw [if_neg hcontent, truthy_eq_false_iff.mp (Bool.eq_false_iff.mpr hcontent), append_nil]

theorem reasonOf_eq_none_iff {c : StreamChoice} :
    reasonOf c = none ↔ truthy c.finishReason = false := by
  unfold reasonOf truthy
  cases c.finishReason with
  | none => simp
  | some s => by_cases hs : s = [] <;> simp [hs]

/-- **A later entry is merged**, and nothing throws. -/
theorem Merged.step (h : Merged entries r) (hdelta : e.delta.isSome = true) :
    ∃ r', mergeChoice onChatChoice e r = some r' ∧ r'.index = r.index ∧
      Merged (entries ++ [e]) r' := by
  obtain ⟨d, hd⟩ := isSome_iff_exists.mp hdelta
  obtain ⟨old, hold⟩ := isSome_iff_exists.mp h.delta
  have hcontent : old.content.getD [] = entries.flatMap contentOf := by
    rw [← h.content, contentOf, hold]
    rfl
  have htools : old.toolCalls = merged (listsOf entries) := by
    rw [← h.toolCalls, toolCallsOf, hold]
    rfl
  -- The choice as the callback gets it.
  let kept := if truthy r.finishReason then r else { r with finishReason := e.finishReason }
  have hkept : kept.delta = some old ∧ kept.index = r.index ∧
      reasonOf kept = (reasonOf r).or (reasonOf e) := by
    by_cases hreason : truthy r.finishReason = true
    · have hsome : reasonOf r ≠ none := fun hnone => by
        rw [reasonOf_eq_none_iff.mp hnone] at hreason
        exact Bool.false_ne_true hreason
      obtain ⟨s, hs⟩ := ne_none_iff_exists'.mp hsome
      simp [kept, hreason, hold, hs]
    · have hnone : reasonOf r = none := reasonOf_eq_none_iff.mpr (Bool.eq_false_iff.mpr hreason)
      simp only [kept, hreason, Bool.false_eq_true, if_false, hnone, none_or]
      exact ⟨hold, trivial, rfl⟩
  obtain ⟨hkeptDelta, hindex, hkeptReason⟩ := hkept
  let tools := match d.toolCalls with
    | none => old.toolCalls
    | some tools => some (mergeTools old.toolCalls tools)
  refine ⟨{ kept with delta := some ⟨mergeContent d.content old.content, tools⟩ }, ?_, hindex, ?_⟩
  · show onChatChoice e kept = _
    rw [onChatChoice, hd, hkeptDelta]
  refine ⟨rfl, ?_, ?_, ?_⟩
  · show (mergeContent d.content old.content).getD [] = _
    rw [getD_mergeContent, hcontent, flatMap_append, flatMap_singleton, contentOf, hd]
    rfl
  · show reasonOf kept = _
    rw [hkeptReason, h.reason, filterMap_append, head?_append]
    rw [filterMap_cons]
    cases reasonOf e <;> rfl
  · show tools = _
    have hlists : listsOf (entries ++ [e]) = listsOf entries ++ d.toolCalls.toList := by
      rw [listsOf, filterMap_append, filterMap_cons, filterMap_nil, toolCallsOf, hd, bind_some]
      cases d.toolCalls <;> rfl
    rw [hlists]
    rcases htool : d.toolCalls with _ | new
    · simp only [tools, htool, toList_none, append_nil]
      exact htools
    · simp only [tools, htool, toList_some]
      rw [merged_concat, htools]

/-! ## All choices -/

/-- The choice that the array has at the index. -/
def choiceAt (choices : List (Option StreamChoice)) (i : ℕ) : Option StreamChoice :=
  choices[i]?.join

theorem choiceAt_assign (choices : List (Option StreamChoice)) (i j : ℕ) (c : StreamChoice) :
    choiceAt (assign choices i c) j = if j = i then some c else choiceAt choices j := by
  unfold choiceAt assign
  by_cases hlt : i < choices.length
  · rw [if_pos hlt, getElem?_set]
    by_cases hj : j = i
    · subst hj
      simp [hlt]
    · rw [if_neg (Ne.symm hj), if_neg hj]
  · rw [if_neg hlt, append_assoc]
    by_cases hj : j = i
    · subst hj
      rw [getElem?_append_right (by omega)]
      simp
    · rw [if_neg hj]
      by_cases hjlt : j < choices.length
      · rw [getElem?_append_left hjlt]
      · rw [getElem?_append_right (by omega), getElem?_eq_none (l := choices) (by omega)]
        by_cases hji : j < i
        · rw [getElem?_append_left (by simp; omega), getElem?_replicate]
          rw [if_pos (by omega)]
          rfl
        · rw [getElem?_eq_none (by simp; omega)]

theorem choiceAt_set {i : ℕ} (hlt : i < choices.length) (j : ℕ) (c : StreamChoice) :
    choiceAt (choices.set i (some c)) j = if j = i then some c else choiceAt choices j := by
  have hassign := choiceAt_assign choices i j c
  rwa [assign, if_pos hlt] at hassign

/-- What is kept of the entries so far: at each index the choice of its entries. -/
def Holds (entries : List StreamChoice) (choices : List (Option StreamChoice)) : Prop :=
  ∀ i, entriesAt i entries = [] ∧ choiceAt choices i = none ∨
    ∃ r, choiceAt choices i = some r ∧ r.index = i ∧ Merged (entriesAt i entries) r

/-- The search for the choice of an entry looks at its index only. -/
theorem findIdx?_eq (h : Holds entries choices) (i : ℕ) :
    (choices.findIdx? fun c => c.any fun c => c.index == i) =
      (choiceAt choices i).map fun _ => i := by
  have hindex : ∀ j (hj : j < choices.length), (choices[j].any fun c => c.index == i) = true →
      j = i ∧ (choiceAt choices i).isSome = true := by
    intro j hj hany
    rcases hc : choices[j] with _ | c
    · rw [hc] at hany
      exact absurd hany Bool.false_ne_true
    · have hat : choiceAt choices j = some c := by
        rw [choiceAt, getElem?_eq_getElem hj, hc]
        rfl
      rw [hc] at hany
      have hci : c.index = i := beq_iff_eq.mp hany
      rcases h j with ⟨-, hnone⟩ | ⟨r, hr, hrj, -⟩
      · rw [hat] at hnone
        cases hnone
      · obtain rfl : c = r := some.inj (hat.symm.trans hr)
        obtain rfl : i = j := hci.symm.trans hrj
        rw [hat]
        exact ⟨rfl, rfl⟩
  rcases hat : choiceAt choices i with _ | r
  · refine findIdx?_eq_none_iff.mpr fun c hc => Bool.eq_false_iff.mpr fun hany => ?_
    obtain ⟨j, hj, rfl⟩ := getElem_of_mem hc
    have hsome := (hindex j hj hany).2
    rw [hat] at hsome
    exact Bool.false_ne_true hsome
  · have hget : choices[i]? = some (some r) := join_eq_some_iff.mp hat
    obtain ⟨hlt, hi⟩ := List.getElem?_eq_some_iff.mp hget
    refine findIdx?_eq_some_iff_getElem.mpr ⟨hlt, ?_, fun j hj hany => ?_⟩
    · rcases h i with ⟨-, hnone⟩ | ⟨r', hr', hindex', -⟩
      · rw [hat] at hnone
        cases hnone
      · obtain rfl : r = r' := some.inj (hat.symm.trans hr')
        rw [hi]
        exact beq_iff_eq.mpr hindex'
    · exact absurd (hindex j (hj.trans hlt) hany).1 (Nat.ne_of_lt hj)

theorem entriesAt_concat (i : ℕ) (entries : List StreamChoice) (e : StreamChoice) :
    entriesAt i (entries ++ [e]) =
      if e.index = i then entriesAt i entries ++ [e] else entriesAt i entries := by
  rw [entriesAt, filter_append]
  by_cases he : e.index = i
  · rw [if_pos he, filter_cons, if_pos (beq_iff_eq.mpr he)]
    rfl
  · rw [if_neg he, filter_cons, if_neg fun h => he (beq_iff_eq.mp h)]
    exact append_nil _

/-- **One entry.**  It is merged into the choice of its index, and no other choice changes. -/
theorem Holds.step (h : Holds entries choices) (hdelta : e.delta.isSome = true) :
    ∃ choices', addChoice onChatChoice choices e = some choices' ∧
      Holds (entries ++ [e]) choices' := by
  have hfind := findIdx?_eq h e.index
  rcases h e.index with ⟨hentries, hnone⟩ | ⟨r, hr, hindex, hmerged⟩
  · rw [hnone, map_none] at hfind
    refine ⟨assign choices e.index e, by rw [addChoice, hfind], fun i => ?_⟩
    rw [choiceAt_assign, entriesAt_concat]
    by_cases hi : e.index = i
    · subst hi
      rw [if_pos rfl, if_pos rfl, hentries]
      exact .inr ⟨e, rfl, rfl, Merged.first hdelta⟩
    · rw [if_neg hi, if_neg (Ne.symm hi)]
      exact h i
  · rw [hr] at hfind
    obtain ⟨r', hmerge, hindex', hmerged'⟩ := hmerged.step hdelta
    have hlt : e.index < choices.length :=
      (List.getElem?_eq_some_iff.mp (join_eq_some_iff.mp hr)).1
    refine ⟨choices.set e.index (some r'), ?_, fun i => ?_⟩
    · rw [addChoice, hfind]
      show (choiceAt choices e.index).bind _ = _
      rw [hr, bind_some, hmerge]
      rfl
    · rw [choiceAt_set hlt, entriesAt_concat]
      by_cases hi : e.index = i
      · subst hi
        rw [if_pos rfl, if_pos rfl]
        exact .inr ⟨r', rfl, hindex'.trans hindex, hmerged'⟩
      · rw [if_neg hi, if_neg (Ne.symm hi)]
        exact h i

/-- Some entries, of one chunk or of several. -/
theorem Holds.run (h : Holds entries choices) (es : List StreamChoice)
    (hdelta : ∀ e ∈ es, e.delta.isSome = true) :
    ∃ choices', es.foldlM (addChoice onChatChoice) choices = some choices' ∧
      Holds (entries ++ es) choices' := by
  induction es generalizing entries choices with
  | nil => exact ⟨choices, rfl, by rwa [append_nil]⟩
  | cons e es ih =>
    obtain ⟨choices', hstep, h'⟩ := h.step (hdelta e mem_cons_self)
    obtain ⟨choices'', hrun, h''⟩ := ih h' (forall_mem_cons.mp hdelta).2
    refine ⟨choices'', ?_, by rwa [append_cons]⟩
    rw [foldlM_cons, hstep]
    exact hrun

theorem holds_replicate (n : ℕ) : Holds [] (List.replicate n none) := by
  intro i
  refine .inl ⟨rfl, ?_⟩
  rw [choiceAt, getElem?_replicate]
  split <;> rfl

variable {υ : Type} {completion : Completion υ} {chunks : List (StreamChunk υ)}

/-- **All chunks.**  Nothing throws, every choice is what its entries make of it, and the usage is
that of the last chunk. -/
theorem exists_holds (n : ℕ) (chunks : List (StreamChunk υ))
    (hdelta : ∀ e ∈ chunks.flatMap StreamChunk.choices, e.delta.isSome = true) :
    ∃ body, constructChatCompletionResponseFromStreamedChunks chunks n = some body ∧
      Holds (chunks.flatMap StreamChunk.choices) body.choices ∧
      body.usage = chunks.getLast?.bind StreamChunk.usage := by
  have hrun : ∀ (cs : List (StreamChunk υ)) (entries : List StreamChoice)
      (body : StreamResponseBody υ), Holds entries body.choices →
      (∀ e ∈ cs.flatMap StreamChunk.choices, e.delta.isSome = true) →
      ∃ body', cs.foldlM (addChunk onChatChoice) body = some body' ∧
        Holds (entries ++ cs.flatMap StreamChunk.choices) body'.choices ∧
        body'.usage = (cs.getLast?.map StreamChunk.usage).getD body.usage := by
    intro cs
    induction cs with
    | nil =>
      intro entries body h _
      exact ⟨body, rfl, by rwa [flatMap_nil, append_nil], rfl⟩
    | cons chunk cs ih =>
      intro entries body h hdelta
      obtain ⟨choices, hchunk, h'⟩ := h.run chunk.choices fun e he =>
        hdelta e (mem_append_left _ he)
      obtain ⟨body', hcs, h'', husage⟩ := ih _ ⟨choices, chunk.usage⟩ h' fun e he =>
        hdelta e (mem_append_right _ he)
      refine ⟨body', ?_, by rwa [flatMap_cons, ← append_assoc], ?_⟩
      · rw [foldlM_cons, addChunk, hchunk]
        exact hcs
      · rw [husage, getLast?_cons]
        cases cs.getLast? <;> rfl
  obtain ⟨body, hbody, h, husage⟩ := hrun chunks []
    ⟨List.replicate n none, chunks.head?.bind StreamChunk.usage⟩ (holds_replicate n) hdelta
  refine ⟨body, hbody, h, husage.trans ?_⟩
  rcases chunks with _ | ⟨chunk, chunks⟩
  · rfl
  · rfl

/-! ## The completion -/

theorem Streams.delta (h : Streams completion chunks) :
    ∀ e ∈ chunks.flatMap StreamChunk.choices, e.delta.isSome = true := by
  intro e he
  have hlt := h.others e he
  refine (h.choices e.index _ (getElem?_eq_getElem hlt)).delta e ?_
  exact mem_filter.mpr ⟨he, beq_iff_eq.mpr rfl⟩

/-- The tool calls come out whole just where they are placed. -/
theorem hasTool_iff (h : Merged entries r) (t : Tool) :
    (∃ e ∈ (toolCallsOf r).getD [], e.id = some t.id ∧ e.name = some t.name ∧
      e.arguments = t.arguments) ↔ Placed (listsOf entries) t := by
  rw [h.toolCalls]
  constructor
  · rintro ⟨e, he, hid, hname, harguments⟩
    obtain ⟨k, hk, rfl⟩ := getElem_of_mem he
    obtain ⟨d, hopens, hd⟩ := (getElem?_merged _ k _).mp (getElem?_eq_getElem hk)
    rw [harguments] at hopens hd
    rw [hd] at hid hname
    exact ⟨k, d, hopens, hid, hname⟩
  · rintro ⟨k, d, hopens, hid, hname⟩
    have hget := (getElem?_merged (listsOf entries) k { d with arguments := t.arguments }).mpr
      ⟨d, hopens, rfl⟩
    exact ⟨_, mem_of_getElem? hget, hid, hname, rfl⟩

theorem Splits.finishReason {c : Choice} (h : Splits c entries)
    (hmerged : Merged entries r) : r.finishReason = some c.finishReason := by
  have hreason := hmerged.reason
  rw [h.reason, head?_cons, reasonOf, filter_eq_some_iff] at hreason
  exact hreason.1

theorem Splits.ne_nil {c : Choice} (h : Splits c entries) :
    entries ≠ [] := by
  rintro rfl
  exact absurd h.reason.symm (cons_ne_nil _ _)

/-- The choice of a body, for one that is a part of the completion. -/
theorem hasChoice_iff {c : Choice} (h : Splits c entries) (hmerged : Merged entries r) :
    HasChoice c r ↔ ∀ t ∈ c.toolCalls, Placed (listsOf entries) t := by
  constructor
  · exact fun hr t ht => (hasTool_iff hmerged t).mp (hr.toolCalls t ht)
  · exact fun hplaced => ⟨hmerged.content.trans h.content, h.finishReason hmerged,
      fun t ht => (hasTool_iff hmerged t).mpr (hplaced t ht)⟩

/-- One chunk carries the usage, and the last chunk decides. -/
theorem usage_iff (h : chunks.filterMap StreamChunk.usage = completion.usage.toList) :
    chunks.getLast?.bind StreamChunk.usage = completion.usage ↔
      ((∃ chunk ∈ chunks, chunk.usage.isSome = true) →
        ∃ chunk ∈ chunks.getLast?, chunk.usage.isSome = true) := by
  rcases husage : completion.usage with _ | u
  · rw [husage] at h
    have hnone : ∀ chunk ∈ chunks, chunk.usage = none := filterMap_eq_nil_iff.mp h
    refine iff_of_true ?_ ?_
    · rcases hlast : chunks.getLast? with _ | last
      · rfl
      · exact hnone last (mem_of_getLast? hlast)
    · rintro ⟨chunk, hchunk, hsome⟩
      rw [hnone chunk hchunk] at hsome
      exact absurd hsome Bool.false_ne_true
  · rw [husage] at h
    have hmem : ∀ chunk ∈ chunks, ∀ v, chunk.usage = some v → v = u := by
      intro chunk hchunk v hv
      have hv' : v ∈ chunks.filterMap StreamChunk.usage :=
        mem_filterMap.mpr ⟨chunk, hchunk, hv⟩
      rw [h] at hv'
      exact mem_singleton.mp hv'
    constructor
    · rintro hlast -
      obtain ⟨last, hget, hu⟩ := bind_eq_some_iff.mp hlast
      exact ⟨last, hget, by rw [hu]; rfl⟩
    · intro hlast
      have hcarried : u ∈ chunks.filterMap StreamChunk.usage := by
        rw [h]
        exact mem_singleton.mpr rfl
      obtain ⟨chunk, hchunk, hu⟩ := mem_filterMap.mp hcarried
      obtain ⟨last, hget, hsome⟩ := hlast ⟨chunk, hchunk, by rw [hu]; rfl⟩
      obtain ⟨v, hv⟩ := isSome_iff_exists.mp hsome
      obtain rfl := hmem last (mem_of_getLast? hget) v hv
      exact bind_eq_some_iff.mpr ⟨last, hget, hv⟩

/-- **When the response is the completion.**  For every completion and every stream of it nothing
throws, and the response has the text, the finish reason and every tool call of each choice and the
usage just where every tool call is placed and the last chunk carries the usage. -/
theorem reconstructed_iff (h : Streams completion chunks) (n : ℕ) :
    (∃ body, constructChatCompletionResponseFromStreamedChunks chunks n = some body ∧
      Reconstructs completion body) ↔ InPlace completion chunks := by
  obtain ⟨body, hbody, hholds, husage⟩ := exists_holds n chunks h.delta
  have hchoice : ∀ i c, completion.choices[i]? = some c →
      ∃ r : StreamChoice, body.choices[i]? = some (some r) ∧
        Merged (entriesAt i (chunks.flatMap StreamChunk.choices)) r := by
    intro i c hc
    rcases hholds i with ⟨hnil, -⟩ | ⟨r, hr, -, hmerged⟩
    · exact absurd hnil (h.choices i c hc).ne_nil
    · exact ⟨r, join_eq_some_iff.mp hr, hmerged⟩
  constructor
  · rintro ⟨body', hbody', hreconstructs⟩
    obtain rfl : body = body' := some.inj (hbody.symm.trans hbody')
    refine ⟨fun i c hc => ?_, ?_⟩
    · obtain ⟨r, hr, hmerged⟩ := hchoice i c hc
      obtain ⟨r', hr', hhas⟩ := hreconstructs.choices i c hc
      obtain rfl : r = r' := some.inj (some.inj (hr.symm.trans hr'))
      exact (hasChoice_iff (h.choices i c hc) hmerged).mp hhas
    · exact (usage_iff h.usage).mp (husage.symm.trans hreconstructs.usage)
  · intro hplace
    refine ⟨body, hbody, fun i c hc => ?_, husage.trans ((usage_iff h.usage).mpr hplace.usage)⟩
    obtain ⟨r, hr, hmerged⟩ := hchoice i c hc
    exact ⟨r, hr, (hasChoice_iff (h.choices i c hc) hmerged).mpr (hplace.toolCalls i c hc)⟩

/-! ## Parallel tool calls -/

/-- Two tool calls of one choice. -/
def twoTools : Completion Unit :=
  ⟨[⟨[], lit "tool_calls", [⟨lit "a", lit "f", lit "1"⟩, ⟨lit "b", lit "g", lit "2"⟩]⟩], some ()⟩

def firstTool : ToolCall := ⟨0, some (lit "a"), some (lit "f"), lit "1"⟩

def secondTool : ToolCall := ⟨1, some (lit "b"), some (lit "g"), lit "2"⟩

/-- One tool call after the other. -/
def inTurn : List (StreamChunk Unit) :=
  [⟨[⟨0, none, some ⟨none, some [firstTool]⟩⟩], none⟩,
    ⟨[⟨0, some (lit "tool_calls"), some ⟨none, some [secondTool]⟩⟩], some ()⟩]

/-- Both at once. -/
def atOnce : List (StreamChunk Unit) :=
  [⟨[⟨0, some (lit "tool_calls"), some ⟨none, some [firstTool, secondTool]⟩⟩], some ()⟩]

theorem splits_twoTools (hdelta : ∀ e ∈ entries, e.delta.isSome = true)
    (hcontent : entries.flatMap contentOf = [])
    (hreason : entries.filterMap reasonOf = [lit "tool_calls"])
    (hlists : (listsOf entries).flatten = [firstTool, secondTool]) :
    Splits ⟨[], lit "tool_calls", [⟨lit "a", lit "f", lit "1"⟩, ⟨lit "b", lit "g", lit "2"⟩]⟩
      entries where
  delta := hdelta
  content := hcontent
  reason := hreason
  own := by
    intro l hl d hd
    have hmem : d ∈ (listsOf entries).flatten := mem_flatten.mpr ⟨l, hl, hd⟩
    rw [hlists] at hmem
    rcases mem_pair.mp hmem with rfl | rfl
    all_goals exact ⟨_, rfl, .inr rfl, .inr rfl⟩
  told := by
    have hmem : ∀ d ∈ [firstTool, secondTool], ∃ l ∈ listsOf entries, d ∈ l := by
      intro d hd
      rw [← hlists] at hd
      exact mem_flatten.mp hd
    rintro (_ | _ | k) t ht
    · obtain rfl := some.inj ht
      obtain ⟨l, hl, hd⟩ := hmem firstTool (by simp)
      exact ⟨l, hl, firstTool, hd, rfl, rfl, rfl⟩
    · obtain rfl := some.inj ht
      obtain ⟨l, hl, hd⟩ := hmem secondTool (by simp)
      exact ⟨l, hl, secondTool, hd, rfl, rfl, rfl⟩
    · exact absurd ht.symm (some_ne_none _)
  arguments := by
    rw [hlists]
    rintro (_ | _ | k) t ht
    · obtain rfl := some.inj ht
      decide
    · obtain rfl := some.inj ht
      decide
    · exact absurd ht.symm (some_ne_none _)

theorem streams_inTurn : Streams twoTools inTurn where
  choices := by
    rintro (_ | i) c hc
    · obtain rfl := some.inj hc
      exact splits_twoTools (by decide) (by decide) (by decide) (by decide)
    · exact absurd hc.symm (some_ne_none _)
  others := by decide
  usage := rfl

theorem streams_atOnce : Streams twoTools atOnce where
  choices := by
    rintro (_ | i) c hc
    · obtain rfl := some.inj hc
      exact splits_twoTools (by decide) (by decide) (by decide) (by decide)
    · exact absurd hc.symm (some_ne_none _)
  others := by decide
  usage := rfl

theorem reconstructed_iff_atOnce :
    (∃ body, constructChatCompletionResponseFromStreamedChunks atOnce 1 = some body ∧
      Reconstructs twoTools body) ↔ InPlace twoTools atOnce :=
  reconstructed_iff streams_atOnce 1

/-- One tool call after the other: the second is added to the arguments of the first. -/
theorem not_reconstructed_inTurn :
    ¬ ∀ (completion : Completion Unit) (chunks : List (StreamChunk Unit)) (n : ℕ),
      Streams completion chunks →
        ∃ body, constructChatCompletionResponseFromStreamedChunks chunks n = some body ∧
          Reconstructs completion body := by
  intro h
  obtain ⟨body, hbody, hreconstructs⟩ := h twoTools inTurn 1 streams_inTurn
  have hcode : constructChatCompletionResponseFromStreamedChunks inTurn 1 =
      some ⟨[some ⟨0, some (lit "tool_calls"),
        some ⟨none, some [{ firstTool with arguments := lit "12" }]⟩⟩], some ()⟩ := by rfl
  obtain rfl := some.inj (hcode.symm.trans hbody)
  obtain ⟨r, hr, hhas⟩ := hreconstructs.choices 0 _ rfl
  obtain rfl := some.inj (some.inj hr)
  obtain ⟨e, he, hid, -⟩ := hhas.toolCalls ⟨lit "b", lit "g", lit "2"⟩ (by simp)
  obtain rfl := mem_singleton.mp he
  exact absurd hid (by decide)

end DdTrace.Plugins.OpenaiStream
