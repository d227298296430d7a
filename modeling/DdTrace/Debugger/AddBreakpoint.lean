import DdTrace.Debugger.Condition

/-!
# What `addBreakpoint` makes of a probe

`addBreakpoint` of `debugger/devtools_client/breakpoints.js` prepares a probe before it sets the
breakpoint: it compiles the template and the condition, fills in the capture limits and compiles the
captured expressions.  It writes all this into the probe object that it reads from, and the same
object is given to it again when the probe is re-evaluated, after a failure or because a better
script was loaded.

* `Probe.process`: one pass, which may stop at any of its throws.
* `Probe.used`: what a hit of the breakpoint reads from the probe; `Probe.derived`: what the probe as
  it was received asks for.
* `used_iff_derived`: **the two are the same after the last of any number of passes exactly when
  there was one pass, or the template needs no evaluation**.

The slip is in the template.  The first pass replaces `template` by the source of its segments and
deletes the segments; the second finds no segments, takes the template for plain text, and the source
becomes the message.  The rest is prepared from fields that are not written, or is filled in only
where it is missing.
-/

namespace DdTrace.Debugger

open Library

/-! ## Probes -/

/-- `capture` -/
structure Capture where
  maxReferenceDepth : Option ℕ
  maxCollectionSize : Option ℕ
  maxFieldCount : Option ℕ
  maxLength : Option ℕ
  deriving DecidableEq

/-- The limits of one captured expression. -/
structure CaptureLimits where
  maxReferenceDepth : ℕ
  maxCollectionSize : ℕ
  maxFieldCount : ℕ
  maxLength : ℕ
  deriving DecidableEq

/-- `snapshot/constants.js` -/
def defaultLimits : CaptureLimits where
  maxReferenceDepth := 3
  maxCollectionSize := 100
  maxFieldCount := 20
  maxLength := 255

structure CaptureExpression where
  name : Str
  json : Json
  capture : Option Capture

structure CompiledCaptureExpression where
  name : Str
  expression : Code
  limits : CaptureLimits

/-- A probe as it is received, by what the preparation reads: `whenJson` is `when?.json`. -/
structure ReceivedProbe where
  template : Str
  segments : Option (List Json)
  whenJson : Option Json
  captureSnapshot : Bool
  capture : Option Capture
  captureExpressions : List CaptureExpression

/-- The probe object, with the fields that the preparation adds. -/
structure Probe extends ReceivedProbe where
  templateRequiresEvaluation : Bool := false
  scriptId : Option Str := none
  condition : Option Code := none
  compiledCaptureExpressions : Option (List CompiledCaptureExpression) := none

/-- What a pass finds: the script that matches the file, and the position in it where that is asked
for, if there is one. -/
structure Surroundings where
  script : Option Str
  sourceMap : Bool
  position : Option (ℕ × ℕ)
  deriving DecidableEq

namespace Probe

/-- The template.  A throw of `templateRequiresEvaluation` comes before the first write, one of
`compileSegments` before the segments are deleted. -/
def processTemplate (p : Probe) : Probe × Bool :=
  match p.segments with
  | none => ({ p with templateRequiresEvaluation := false }, true)
  | some segments =>
    match Debugger.templateRequiresEvaluation segments with
    | none => (p, false)
    | some false => ({ p with templateRequiresEvaluation := false, segments := none }, true)
    | some true =>
      match compileSegments segments with
      | none => ({ p with templateRequiresEvaluation := true }, false)
      | some source =>
        ({ p with templateRequiresEvaluation := true, template := source, segments := none }, true)

/-- The script, and the position in it. -/
def processLocation (at_ : Surroundings) (p : Probe) : Probe × Bool :=
  match at_.script with
  | none => (p, false)
  | some scriptId =>
    ({ p with scriptId := some scriptId }, !at_.sourceMap || at_.position.isSome)

/-- A value that `&&` stops at. -/
def isFalsy : Json → Bool
  | .null => true
  | .bool b => !b
  | .num n => n.text == lit "0"
  | .str s => s.isEmpty
  | _ => false

/-- `when?.json && compile(when.json)`, where what is falsy stays what it is. -/
def conditionOf : Option Json → Option (Option Code)
  | none => some none
  | some json =>
    if isFalsy json then
      match json with
      | .str _ => some (some (.source []))
      | json => (compile json).map some
    else (compile json).map some

def processCondition (p : Probe) : Probe × Bool :=
  match conditionOf p.whenJson with
  | none => (p, false)
  | some condition => ({ p with condition := condition }, true)

/-- The limits with the defaults where there are none. -/
def fill (capture : Option Capture) (default : CaptureLimits) : CaptureLimits where
  maxReferenceDepth := (capture.bind Capture.maxReferenceDepth).getD default.maxReferenceDepth
  maxCollectionSize := (capture.bind Capture.maxCollectionSize).getD default.maxCollectionSize
  maxFieldCount := (capture.bind Capture.maxFieldCount).getD default.maxFieldCount
  maxLength := (capture.bind Capture.maxLength).getD default.maxLength

/-- Limits as the `capture` of a probe. -/
def captureOf (limits : CaptureLimits) : Capture where
  maxReferenceDepth := some limits.maxReferenceDepth
  maxCollectionSize := some limits.maxCollectionSize
  maxFieldCount := some limits.maxFieldCount
  maxLength := some limits.maxLength

def processCapture (p : Probe) : Probe :=
  if p.captureSnapshot then { p with capture := some (captureOf (fill p.capture defaultLimits)) }
  else p

/-- The captured expressions, up to the first that does not compile. -/
def compileExpressions (capture : Option Capture) :
    List CaptureExpression → List CompiledCaptureExpression × Bool
  | [] => ([], true)
  | e :: es =>
    match compile e.json with
    | none => ([], false)
    | some expression =>
      let rest := compileExpressions capture es
      (⟨e.name, expression, fill e.capture (fill capture defaultLimits)⟩ :: rest.1, rest.2)

def processExpressions (p : Probe) : Probe × Bool :=
  if p.captureExpressions.isEmpty then (p, true)
  else
    let compiled := compileExpressions p.capture p.captureExpressions
    ({ p with compiledCaptureExpressions := some compiled.1 }, compiled.2)

/-- Go on if nothing has been thrown. -/
def andThen (r : Probe × Bool) (f : Probe → Probe × Bool) : Probe × Bool :=
  if r.2 then f r.1 else r

/-- `addBreakpoint`, up to where the breakpoint is set: the probe afterwards, and whether it came so
far. -/
def process (p : Probe) (found : Surroundings) : Probe × Bool :=
  andThen (andThen (andThen p.processTemplate (processLocation found)) processCondition) fun p =>
    processExpressions (processCapture p)

/-- Any number of passes over one probe, and how the last one ended. -/
def passes (r : Probe × Bool) (found : List Surroundings) : Probe × Bool :=
  found.foldl (fun r found => r.1.process found) r

/-! ## What a probe is used with -/

/-- A log message: a text, or source whose value is the list of its parts. -/
inductive Message where
  | text (s : Str)
  | evaluated (source : Str)
  deriving DecidableEq

/-- What a hit reads from a probe. -/
structure Settings where
  message : Message
  condition : Option Code
  capture : Option Capture
  expressions : Option (List CompiledCaptureExpression)

/-- The settings in the probe object. -/
def used (p : Probe) : Settings where
  message := if p.templateRequiresEvaluation then .evaluated p.template else .text p.template
  condition := p.condition
  capture := p.capture
  expressions := p.compiledCaptureExpressions

end Probe

namespace ReceivedProbe

open Probe

/-- The object of a probe that has just been received. -/
def probe (r : ReceivedProbe) : Probe := { r with }

/-- The template has a segment that is an expression. -/
def requiresEvaluation (r : ReceivedProbe) : Bool :=
  (r.segments.bind Debugger.templateRequiresEvaluation).getD false

/-- The capture limits that the probe asks for. -/
def derivedCapture (r : ReceivedProbe) : Option Capture :=
  if r.captureSnapshot then some (captureOf (fill r.capture defaultLimits)) else r.capture

/-- The settings that the probe asks for, where it compiles. -/
def derived (r : ReceivedProbe) : Settings where
  message :=
    if r.requiresEvaluation then .evaluated ((r.segments.bind compileSegments).getD [])
    else .text r.template
  condition := (conditionOf r.whenJson).getD none
  capture := r.derivedCapture
  expressions :=
    if r.captureExpressions.isEmpty then none
    else some (compileExpressions r.derivedCapture r.captureExpressions).1

end ReceivedProbe

namespace Probe

/-! ## One pass -/

/-- What no pass changes: the fields that are only read, and the limits that will be used. -/
structure Agrees (r : ReceivedProbe) (p : Probe) : Prop where
  whenJson : p.whenJson = r.whenJson
  captureSnapshot : p.captureSnapshot = r.captureSnapshot
  captureExpressions : p.captureExpressions = r.captureExpressions
  capture : p.derivedCapture = r.derivedCapture
  compiled : p.captureExpressions = [] → p.compiledCaptureExpressions = none

variable {r : ReceivedProbe} {p : Probe} {found : Surroundings}

theorem agrees_probe (r : ReceivedProbe) : Agrees r r.probe := ⟨rfl, rfl, rfl, rfl, fun _ => rfl⟩

theorem agrees_processTemplate (h : Agrees r p) : Agrees r p.processTemplate.1 := by
  have hsame : ∀ segments template required,
      Agrees r { p with segments := segments, template := template,
                        templateRequiresEvaluation := required } := fun _ _ _ =>
    ⟨h.whenJson, h.captureSnapshot, h.captureExpressions, h.capture, h.compiled⟩
  unfold processTemplate
  split
  · exact hsame _ _ _
  · split
    · exact h
    · exact hsame _ _ _
    · split
      · exact hsame _ _ _
      · exact hsame _ _ _

/-- The fields that come of the template are the same. -/
structure SameTemplate (p q : Probe) : Prop where
  segments : q.segments = p.segments
  template : q.template = p.template
  required : q.templateRequiresEvaluation = p.templateRequiresEvaluation

theorem SameTemplate.refl (p : Probe) : SameTemplate p p := ⟨rfl, rfl, rfl⟩

variable {q : Probe}

theorem SameTemplate.trans {s : Probe} (h : SameTemplate p q) (h' : SameTemplate q s) :
    SameTemplate p s :=
  ⟨h'.segments.trans h.segments, h'.template.trans h.template, h'.required.trans h.required⟩

theorem processLocation_spec (h : Agrees r p) (found : Surroundings) :
    Agrees r (processLocation found p).1 ∧ SameTemplate p (processLocation found p).1 := by
  unfold processLocation
  split
  · exact ⟨h, .refl p⟩
  · exact ⟨⟨h.whenJson, h.captureSnapshot, h.captureExpressions, h.capture, h.compiled⟩,
      ⟨rfl, rfl, rfl⟩⟩

theorem processCondition_spec (h : Agrees r p) :
    Agrees r p.processCondition.1 ∧ SameTemplate p p.processCondition.1 ∧
      (p.processCondition.2 = true → p.processCondition.1.condition = r.derived.condition) := by
  have hwhen : r.derived.condition = (conditionOf p.whenJson).getD none := by
    rw [h.whenJson]
    rfl
  unfold processCondition
  split
  · exact ⟨h, .refl p, fun hfalse => by cases hfalse⟩
  · next condition hcondition =>
    refine ⟨⟨h.whenJson, h.captureSnapshot, h.captureExpressions, h.capture, h.compiled⟩,
      ⟨rfl, rfl, rfl⟩, fun _ => ?_⟩
    rw [hwhen, hcondition]
    rfl

/-- The limits are filled in once. -/
theorem processCapture_spec (h : Agrees r p) :
    Agrees r p.processCapture ∧ SameTemplate p p.processCapture ∧
      p.processCapture.capture = r.derivedCapture ∧ p.processCapture.condition = p.condition := by
  unfold processCapture
  split
  · next hsnapshot =>
    have hcapture := h.capture
    rw [ReceivedProbe.derivedCapture, if_pos hsnapshot] at hcapture
    refine ⟨⟨h.whenJson, h.captureSnapshot, h.captureExpressions, ?_, h.compiled⟩,
      ⟨rfl, rfl, rfl⟩, hcapture, rfl⟩
    rw [ReceivedProbe.derivedCapture, if_pos hsnapshot]
    exact hcapture
  · next hsnapshot =>
    have hcapture := h.capture
    rw [ReceivedProbe.derivedCapture, if_neg hsnapshot] at hcapture
    exact ⟨h, .refl p, hcapture, rfl⟩

theorem processExpressions_spec (h : Agrees r p) (hcapture : p.capture = r.derivedCapture) :
    Agrees r p.processExpressions.1 ∧ SameTemplate p p.processExpressions.1 ∧
      p.processExpressions.1.capture = r.derivedCapture ∧
      p.processExpressions.1.condition = p.condition ∧
      p.processExpressions.1.compiledCaptureExpressions = r.derived.expressions := by
  have hderived : r.derived.expressions = if p.captureExpressions.isEmpty then none
      else some (compileExpressions p.capture p.captureExpressions).1 := by
    rw [h.captureExpressions, hcapture]
    rfl
  rw [hderived]
  unfold processExpressions
  split
  · next hempty =>
    exact ⟨h, .refl p, hcapture, rfl, h.compiled (List.isEmpty_iff.mp hempty)⟩
  · next hsome =>
    refine ⟨⟨h.whenJson, h.captureSnapshot, h.captureExpressions, h.capture, fun hempty => ?_⟩,
      ⟨rfl, rfl, rfl⟩, hcapture, rfl, rfl⟩
    exact absurd (List.isEmpty_iff.mpr hempty) hsome

/-- **One pass.**  It leaves what the first step has made of the template, and when it is not
stopped, all else is as the probe asks. -/
theorem process_spec (h : Agrees r p) (found : Surroundings) :
    Agrees r (p.process found).1 ∧ SameTemplate p.processTemplate.1 (p.process found).1 ∧
      ((p.process found).2 = true → p.processTemplate.2 = true ∧
        (p.process found).1.condition = r.derived.condition ∧
        (p.process found).1.capture = r.derived.capture ∧
        (p.process found).1.compiledCaptureExpressions = r.derived.expressions) := by
  have htemplate := agrees_processTemplate h
  unfold process andThen
  by_cases h1 : p.processTemplate.2 = true
  · rw [if_pos h1]
    obtain ⟨hlocation, hsame⟩ := processLocation_spec htemplate found
    by_cases h2 : (processLocation found p.processTemplate.1).2 = true
    · rw [if_pos h2]
      obtain ⟨hcond, hsame', hcondition⟩ := processCondition_spec hlocation
      by_cases h3 : (processLocation found p.processTemplate.1).1.processCondition.2 = true
      · rw [if_pos h3]
        obtain ⟨hcap, hsame'', hcapture, hkept⟩ := processCapture_spec hcond
        obtain ⟨hexpr, hsame3, hcapture', hkept', hcompiled⟩ :=
          processExpressions_spec hcap hcapture
        exact ⟨hexpr, hsame.trans (hsame'.trans (hsame''.trans hsame3)), fun _ =>
          ⟨h1, hkept'.trans (hkept.trans (hcondition h3)), hcapture', hcompiled⟩⟩
      · rw [if_neg h3]
        exact ⟨hcond, hsame.trans hsame', fun h => absurd h h3⟩
    · rw [if_neg h2]
      rw [if_neg h2]
      exact ⟨hlocation, hsame, fun h => absurd h h2⟩
  · rw [if_neg h1]
    rw [if_neg h1]
    rw [if_neg h1]
    exact ⟨htemplate, .refl _, fun h => absurd h h1⟩

/-! ## The template over several passes -/

/-- Nothing has been made of the template yet. -/
def Fresh (r : ReceivedProbe) (p : Probe) : Prop :=
  p.segments = r.segments ∧ p.template = r.template

/-- The text that the first pass leaves as the template. -/
def spentTemplate (r : ReceivedProbe) : Str :=
  if r.requiresEvaluation then (r.segments.bind compileSegments).getD [] else r.template

/-- The template has been processed: its segments are gone. -/
def Spent (r : ReceivedProbe) (p : Probe) : Prop :=
  p.segments = none ∧ p.template = spentTemplate r

theorem Fresh.of_same (h : Fresh r p) (hsame : SameTemplate p q) : Fresh r q :=
  ⟨hsame.segments.trans h.1, hsame.template.trans h.2⟩

theorem Spent.of_same (h : Spent r p) (hsame : SameTemplate p q) : Spent r q :=
  ⟨hsame.segments.trans h.1, hsame.template.trans h.2⟩

/-- The message of the settings, by the fields that come of the template. -/
theorem message_of_same (h : SameTemplate p q) : q.used.message = p.used.message := by
  rw [used, used, h.required, h.template]

/-- The first time, the message is what the probe asks for. -/
theorem processTemplate_of_fresh (h : Fresh r p) (hdone : p.processTemplate.2 = true) :
    Spent r p.processTemplate.1 ∧ p.processTemplate.1.used.message = r.derived.message := by
  obtain ⟨hsegments, htemplate⟩ := h
  unfold processTemplate at hdone ⊢
  rw [hsegments] at hdone ⊢
  cases hr : r.segments with
  | none =>
    have hrequired : r.requiresEvaluation = false := by
      rw [ReceivedProbe.requiresEvaluation, hr]
      rfl
    refine ⟨⟨hsegments.trans hr, ?_⟩, ?_⟩
    · rw [spentTemplate, hrequired]
      exact htemplate
    · rw [ReceivedProbe.derived, hrequired]
      exact congrArg Message.text htemplate
  | some segments =>
    rw [hr] at hdone
    dsimp only at hdone ⊢
    cases ht : Debugger.templateRequiresEvaluation segments with
    | none =>
      rw [ht] at hdone
      cases hdone
    | some required =>
      have hrequired : r.requiresEvaluation = required := by
        rw [ReceivedProbe.requiresEvaluation, hr, Option.bind_some, ht]
        rfl
      rw [ht] at hdone
      cases required with
      | false =>
        refine ⟨⟨rfl, ?_⟩, ?_⟩
        · rw [spentTemplate, hrequired]
          exact htemplate
        · rw [ReceivedProbe.derived, hrequired]
          exact congrArg Message.text htemplate
      | true =>
        cases hc : compileSegments segments with
        | none =>
          rw [hc] at hdone
          cases hdone
        | some source =>
          refine ⟨⟨rfl, ?_⟩, ?_⟩
          · rw [spentTemplate, hrequired, hr, Option.bind_some, hc]
            rfl
          · rw [ReceivedProbe.derived, hrequired, hr, Option.bind_some, hc]
            rfl

/-- A template that cannot be processed stays as it is. -/
theorem fresh_of_stopped (h : Fresh r p) (hstop : p.processTemplate.2 = false) :
    Fresh r p.processTemplate.1 := by
  unfold processTemplate at hstop ⊢
  split at hstop
  · cases hstop
  · split at hstop
    · exact h
    · cases hstop
    · split at hstop
      · exact h
      · cases hstop

/-- Whether the template can be processed depends on the segments alone. -/
theorem processTemplate_snd (h : q.segments = p.segments) :
    q.processTemplate.2 = p.processTemplate.2 := by
  unfold processTemplate
  rw [h]
  split
  · rfl
  · split
    · rfl
    · rfl
    · split <;> rfl

/-- From the second time on, the message is the text that was left. -/
theorem processTemplate_of_spent (h : Spent r p) :
    p.processTemplate.2 = true ∧ Spent r p.processTemplate.1 ∧
      p.processTemplate.1.used.message = .text (spentTemplate r) := by
  obtain ⟨hsegments, htemplate⟩ := h
  unfold processTemplate
  rw [hsegments]
  exact ⟨rfl, ⟨hsegments, htemplate⟩, congrArg Message.text htemplate⟩

/-! ## Any number of passes -/

theorem passes_of_spent {found : List Surroundings} {b : Bool} (hagrees : Agrees r p)
    (hspent : Spent r p) (hfound : found ≠ []) (hdone : (passes (p, b) found).2 = true) :
    (passes (p, b) found).1.used = { r.derived with message := .text (spentTemplate r) } := by
  induction found generalizing p b with
  | nil => exact absurd rfl hfound
  | cons f rest ih =>
    obtain ⟨hagrees', hsame, hused⟩ := process_spec hagrees f
    obtain ⟨-, hspent', hmessage⟩ := processTemplate_of_spent hspent
    by_cases hrest : rest = []
    · subst hrest
      obtain ⟨-, hcondition, hcapture, hexpressions⟩ := hused hdone
      have hmessage' := (message_of_same hsame).trans hmessage
      show (p.process f).1.used = ⟨.text (spentTemplate r), r.derived.condition, r.derived.capture,
        r.derived.expressions⟩
      rw [← hcondition, ← hcapture, ← hexpressions, ← hmessage']
      rfl
    · exact ih hagrees' (hspent'.of_same hsame) hrest hdone

theorem passes_of_stopped {found : List Surroundings} (hagrees : Agrees r p) (hfresh : Fresh r p)
    (hstop : p.processTemplate.2 = false) : (passes (p, false) found).2 = false := by
  induction found generalizing p with
  | nil => rfl
  | cons f rest ih =>
    obtain ⟨hagrees', hsame, hused⟩ := process_spec hagrees f
    have hfresh' := (fresh_of_stopped hfresh hstop).of_same hsame
    have hstop' : (p.process f).1.processTemplate.2 = false := by
      rw [processTemplate_snd (hfresh'.1.trans hfresh.1.symm), hstop]
    have hnot : (p.process f).2 = false := by
      rw [Bool.eq_false_iff]
      intro hdone
      rw [(hused hdone).1] at hstop
      cases hstop
    show (passes (p.process f) rest).2 = false
    rw [show p.process f = ((p.process f).1, false) from Prod.ext rfl hnot]
    exact ih hagrees' hfresh' hstop'

/-- **Re-evaluation and the template.**  When the last of any number of passes is not stopped, the
probe is used as it asks for exactly when that was the only pass, or the template is plain text. -/
theorem used_iff_derived (r : ReceivedProbe) {found : List Surroundings}
    (hdone : (passes (r.probe, false) found).2 = true) :
    (passes (r.probe, false) found).1.used = r.derived ↔
      found.length = 1 ∨ r.requiresEvaluation = false := by
  rcases found with _ | ⟨f, rest⟩
  · cases hdone
  · have hagrees := agrees_probe r
    have hfresh : Fresh r r.probe := ⟨rfl, rfl⟩
    cases htemplate : r.probe.processTemplate.2 with
    | false =>
      rw [passes_of_stopped hagrees hfresh htemplate] at hdone
      cases hdone
    | true =>
      obtain ⟨hspent, hmessage⟩ := processTemplate_of_fresh hfresh htemplate
      obtain ⟨hagrees', hsame, hused⟩ := process_spec hagrees f
      by_cases hrest : rest = []
      · subst hrest
        obtain ⟨-, hcondition, hcapture, hexpressions⟩ := hused hdone
        refine iff_of_true ?_ (Or.inl rfl)
        have hmessage' := (message_of_same hsame).trans hmessage
        rw [show r.derived = ⟨r.derived.message, r.derived.condition, r.derived.capture,
          r.derived.expressions⟩ from rfl, ← hcondition, ← hcapture, ← hexpressions, ← hmessage']
        rfl
      · have hlater : (passes (r.probe, false) (f :: rest)).1.used =
            { r.derived with message := .text (spentTemplate r) } := by
          show (passes ((r.probe.process f).1, (r.probe.process f).2) rest).1.used = _
          exact passes_of_spent hagrees' (hspent.of_same hsame) hrest hdone
        have hlength : (f :: rest).length ≠ 1 := by
          simpa using hrest
        rw [hlater]
        constructor
        · intro h
          right
          have hmessage := congrArg Settings.message h
          by_contra hrequired
          rw [Bool.not_eq_false] at hrequired
          rw [ReceivedProbe.derived, hrequired] at hmessage
          cases hmessage
        · rintro (h | hrequired)
          · exact absurd h hlength
          · rw [ReceivedProbe.derived, spentTemplate, hrequired]
            rfl

/-- A probe whose template is the value of `x`. -/
def valueProbe : ReceivedProbe where
  template := lit "\x7bx\x7d"
  segments := some [.obj [(lit "dsl", .str (lit "x")),
    (lit "json", .obj [(lit "ref", .str (lit "x"))])]]
  whenJson := none
  captureSnapshot := false
  capture := none
  captureExpressions := []

/-- The script is found, without a source map. -/
def foundAt (scriptId : Str) : Surroundings := ⟨some scriptId, false, none⟩

/-- One pass is enough for its message to be evaluated. -/
theorem used_valueProbe :
    (passes (valueProbe.probe, false) [foundAt (lit "7")]).1.used = valueProbe.derived :=
  (used_iff_derived valueProbe (by decide +kernel)).mpr (Or.inl rfl)

/-- After a pass without a script and one with it, the source is the message. -/
theorem not_derived :
    (passes (valueProbe.probe, false) [⟨none, false, none⟩, foundAt (lit "7")]).2 = true ∧
      (passes (valueProbe.probe, false) [⟨none, false, none⟩, foundAt (lit "7")]).1.used.message =
        .text (lit "[" ++ segmentHead ++ lit "x" ++ segmentMiddle ++ lit "\"x\"" ++ segmentTail ++
          lit "]") ∧
      (passes (valueProbe.probe, false) [⟨none, false, none⟩, foundAt (lit "7")]).1.used ≠
        valueProbe.derived := by
  have hmessage : (passes (valueProbe.probe, false)
      [⟨none, false, none⟩, foundAt (lit "7")]).1.used.message = .text (lit "[" ++ segmentHead ++
        lit "x" ++ segmentMiddle ++ lit "\"x\"" ++ segmentTail ++ lit "]") := by
    decide +kernel
  have hrequired : valueProbe.requiresEvaluation = true := by decide +kernel
  refine ⟨by decide +kernel, hmessage, fun h => ?_⟩
  rw [h, ReceivedProbe.derived] at hmessage
  cases hmessage

end Probe
end DdTrace.Debugger
