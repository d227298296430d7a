import DdTrace.Tracing.SpanFormat

/-!
# What a span is formatted to

Two questions are asked of `format`: when it throws, and what it makes.

It throws where a question to a tag does.  Whether one round of the loop over the tags throws depends
on the tag alone (`TagReads`), and not on what the rounds before it have made; so the loop throws
just where one of the tags does (`isSome_foldlM_iff`).  `isSome_format_iff` is this for the whole of
`format`: besides the loop there are the tags of the trace, and the question of the service's name for
`toLowerCase`, which no type but a string has to answer.

What it makes is `WellFormed`: texts in `meta`, numbers in `metrics`, all cut to their length with
three dots behind them.  Every write keeps this.

* `wellFormed_of_format`: both, and what `normalizeSpan` makes of it for the encoders.
* `not_asClaimed`: a service name that is a number throws, and a `Buffer` is a text in `metrics`.
-/

namespace DdTrace.SpanFormat

open Library Str Formatted List Option

variable {env : Env} {span : Span}

/-! ## When it throws -/

/-- The object answers the questions of `addMixedTag`, and `entries` is so where its entries are
asked for. -/
def ObjectView.Reads (o : ObjectView) (entries : Prop) : Prop :=
  ∃ isPrinted, o.isPrinted = some isPrinted ∧ (isPrinted = true → o.toString.isSome = true) ∧
    (isPrinted = false → ∃ isArray, o.isArray = some isArray ∧ (isArray = false → entries))

/-- The value answers the questions of `addMixedTag`. -/
def Value.Reads (env : Env) (entries : ObjectView → Prop) : Value → Prop
  | .object ref => (env.objects ref).Reads (entries (env.objects ref))
  | _ => True

def NestedReads (env : Env) (value : Value) : Prop := value.Reads env fun _ => True

def MixedReads (env : Env) (value : Value) : Prop :=
  value.Reads env fun o => ∃ entries, o.entries = some entries ∧ ∀ e ∈ entries, NestedReads env e.2

/-- The value is not asked for its text, or has one. -/
def NullishOrText (env : Env) (value : Value) : Prop :=
  value.isNullish = true ∨ (value.toText env).isSome = true

/-- The object answers the questions of `extractError`. -/
def ObjectView.ErrorReads (env : Env) (o : ObjectView) : Prop :=
  ∃ isError, o.isError = some isError ∧ (isError = true →
    (∃ message, o.messageOrCode = some message ∧ NullishOrText env message) ∧
    (∃ name, o.name = some name ∧ NullishOrText env name) ∧
    ∃ stack, o.stack = some stack ∧ NullishOrText env stack)

def Value.ErrorReads (env : Env) : Value → Prop
  | .object ref => (env.objects ref).ErrorReads env
  | _ => True

/-- **One tag** answers what it is asked. -/
def TagReads (env : Env) (span : Span) (e : Str × Value) : Prop :=
  if e.1 = lit "service.name" then True
  else if e.1 = lit "span.type" then True
  else if e.1 = lit "resource.name" then True
  else if e.1 = lit "http.status_code" then
    e.2.truthy = true → (e.2.toText env).isSome = true
  else if e.1 = lit "analytics.event" then True
  else if e.1 = HOSTNAME_KEY ∨ e.1 = MEASURED then True
  else if e.1 = lit "error" then span.name ≠ lit "fs.operation" → e.2.ErrorReads env
  else if e.1 = ERROR_TYPE ∨ e.1 = ERROR_MESSAGE ∨ e.1 = ERROR_STACK then
    span.name ≠ lit "fs.operation" → NullishOrText env e.2
  else MixedReads env e.2

/-- **What is asked of the tags of a span**: the name of the service is nothing, a string or an
object with `toLowerCase`, and the tags of the trace and those the loop runs over answer what they
are asked. -/
structure Readable (env : Env) (span : Span) : Prop where
  chunk : ∀ tags, span.chunkTags = some tags → ∀ e ∈ tags.entries, MixedReads env e.2
  tags : ∃ serviceLower, serviceNameLower env span = some serviceLower ∧
    ∀ e ∈ (loopTags span serviceLower).entries, TagReads env span e

theorem isSome_foldlM_iff {α β : Type} {step : β → α → Option β} {P : α → Prop}
    (h : ∀ b a, (step b a).isSome = true ↔ P a) (b : β) (l : List α) :
    (l.foldlM step b).isSome = true ↔ ∀ a ∈ l, P a := by
  induction l generalizing b with
  | nil => exact ⟨fun _ a ha => absurd ha not_mem_nil, fun _ => rfl⟩
  | cons a l ih =>
    rw [foldlM_cons, forall_mem_cons]
    cases hstep : step b a with
    | none =>
      have hnot : ¬P a := by
        rw [← h b a, hstep]
        exact Bool.false_ne_true
      exact ⟨fun hsome => absurd hsome Bool.false_ne_true, fun hand => absurd hand.1 hnot⟩
    | some b' =>
      have ha : P a := by
        rw [← h b a, hstep]
        rfl
      exact (ih b').trans ⟨fun hl => ⟨ha, hl⟩, And.right⟩

theorem isSome_addMixedTagWith {addEntries : ObjectView → Option Formatted}
    {entries : ObjectView → Prop} (h : ∀ o, (addEntries o).isSome = true ↔ entries o)
    (f : Formatted) (key : Str) (value : Value) :
    (addMixedTagWith env addEntries f key value).isSome = true ↔ value.Reads env entries := by
  cases value with
  | object ref =>
    show (Option.bind _ _).isSome = true ↔ ObjectView.Reads _ _
    unfold ObjectView.Reads
    cases hprinted : (env.objects ref).isPrinted with
    | none => simp
    | some isPrinted =>
      cases isPrinted with
      | true => simp
      | false =>
        cases harray : (env.objects ref).isArray with
        | none => simp
        | some isArray =>
          cases isArray with
          | true => simp
          | false => simp [h]
  | undefined | null | boolean b | number d | string s => exact ⟨fun _ => trivial, fun _ => rfl⟩
  | bigint n | symbol text => exact ⟨fun _ => trivial, fun _ => rfl⟩

theorem isSome_addMixedTag (f : Formatted) (key : Str) (value : Value) :
    (addMixedTag env f key value).isSome = true ↔ MixedReads env value := by
  refine isSome_addMixedTagWith (fun o => ?_) f key value
  cases hentries : o.entries with
  | none => simp
  | some entries =>
    rw [bind_some, isSome_foldlM_iff fun f e =>
      isSome_addMixedTagWith (fun _ => ⟨fun _ => trivial, fun _ => rfl⟩) f _ e.2]
    exact ⟨fun h => ⟨entries, rfl, h⟩, fun ⟨_, heq, h⟩ => by rwa [← some.inj heq] at h⟩

theorem isSome_writeUnlessNull (f : Formatted) (key : Str) (value : Value) :
    (writeUnlessNull env f key value).isSome = true ↔ NullishOrText env value := by
  unfold writeUnlessNull NullishOrText writeErrorMeta
  cases value.isNullish with
  | true => simp
  | false => simp

/-- A question, and then a write that may ask another one. -/
theorem isSome_bind_iff {α β : Type} {o : Option α} {k : α → Option β} {P : α → Prop}
    (h : ∀ a, (k a).isSome = true ↔ P a) :
    (o.bind k).isSome = true ↔ ∃ a, o = some a ∧ P a := by
  cases o with
  | none => simp
  | some a => simp [h]

theorem isSome_extractError (f : Formatted) (value : Value) :
    (extractError env f value).isSome = true ↔ value.ErrorReads env := by
  unfold extractError
  cases value with
  | object ref =>
    refine isSome_bind_iff fun isError => ?_
    cases isError with
    | false => simp
    | true =>
      rw [if_pos rfl]
      -- The message, the name and the stack are asked for and written one after the other.
      have hstack : ∀ f : Formatted, ((env.objects ref).stack.bind fun stack =>
          writeUnlessNull env f ERROR_STACK stack).isSome = true ↔
            ∃ stack, (env.objects ref).stack = some stack ∧ NullishOrText env stack :=
        fun f => isSome_bind_iff fun stack => isSome_writeUnlessNull f _ stack
      have hwrite : ∀ {P : Prop} {k : Formatted → Option Formatted},
          (∀ f, (k f).isSome = true ↔ P) → ∀ (f : Formatted) (key : Str) (value : Value),
            ((writeUnlessNull env f key value).bind k).isSome = true ↔
              NullishOrText env value ∧ P := by
        intro P k hk f key value
        rw [isSome_bind_iff hk, ← isSome_writeUnlessNull f key value, isSome_iff_exists]
        exact ⟨fun ⟨a, ha, hp⟩ => ⟨⟨a, ha⟩, hp⟩, fun ⟨⟨a, ha⟩, hp⟩ => ⟨a, ha, hp⟩⟩
      have hname : ∀ f : Formatted, ((env.objects ref).name.bind fun name =>
          (writeUnlessNull env f ERROR_TYPE name).bind fun f =>
            (env.objects ref).stack.bind fun stack =>
              writeUnlessNull env f ERROR_STACK stack).isSome = true ↔
            (∃ name, (env.objects ref).name = some name ∧ NullishOrText env name) ∧
              ∃ stack, (env.objects ref).stack = some stack ∧ NullishOrText env stack := by
        intro f
        rw [isSome_bind_iff fun name => hwrite hstack f ERROR_TYPE name]
        exact ⟨fun ⟨name, hn, ht, hs⟩ => ⟨⟨name, hn, ht⟩, hs⟩,
          fun ⟨⟨name, hn, ht⟩, hs⟩ => ⟨name, hn, ht, hs⟩⟩
      rw [isSome_bind_iff fun message => hwrite hname _ ERROR_MESSAGE message]
      exact ⟨fun ⟨message, hm, ht, h⟩ _ => ⟨⟨message, hm, ht⟩, h⟩, fun h =>
        have ⟨⟨message, hm, ht⟩, h⟩ := h rfl
        ⟨message, hm, ht, h⟩⟩
  | undefined | null | symbol text => exact ⟨fun _ => trivial, fun _ => rfl⟩
  | boolean b | number d | string s => exact ⟨fun _ => trivial, fun _ => by split <;> rfl⟩
  | bigint n => exact ⟨fun _ => trivial, fun _ => by split <;> rfl⟩

/-- **One round of the loop** throws by what its tag is, whatever the rounds before it have made. -/
theorem isSome_extractTag (f : Formatted) (e : Str × Value) :
    (extractTag env span f e).isSome = true ↔ TagReads env span e := by
  unfold extractTag TagReads
  split_ifs with h₁ h₂ h₃ h₄ ht he h₅ h₆ h₇ hfs h₈ hfs
  · simp
  · simp
  · simp
  · simp [ht]
  · simp [ht]
  · simp [ht]
  · simp
  · simp
  · simp [hfs]
  · rw [isSome_extractError]
    exact ⟨fun h _ => h, fun h => h hfs⟩
  · simp [hfs]
  · rw [isSome_writeUnlessNull]
    exact ⟨fun h _ => h, fun h => h hfs⟩
  · rw [isSome_writeUnlessNull]
    exact ⟨fun h _ => h, fun h => h hfs⟩
  · exact isSome_addMixedTag f e.1 e.2

theorem isSome_extractChunkTags (f : Formatted) : (extractChunkTags env span f).isSome = true ↔
      ∀ tags, span.chunkTags = some tags → ∀ e ∈ tags.entries, MixedReads env e.2 := by
  unfold extractChunkTags
  cases span.chunkTags with
  | none => simp
  | some tags =>
    rw [isSome_foldlM_iff fun f e => isSome_addMixedTag f e.1 e.2]
    exact ⟨fun h _ heq => some.inj heq ▸ h, fun h => h tags rfl⟩

/-- **`format` does not throw** just where the tags answer what they are asked. -/
theorem isSome_format_iff (env : Env) (span : Span) :
    (format env span).isSome = true ↔ Readable env span := by
  have htags : ∀ f, (extractTags env span f).isSome = true ↔
      ∃ serviceLower, serviceNameLower env span = some serviceLower ∧
        ∀ e ∈ (loopTags span serviceLower).entries, TagReads env span e := by
    intro f
    refine isSome_bind_iff fun serviceLower => ?_
    rw [isSome_map, isSome_foldlM_iff isSome_extractTag]
  unfold format
  rw [isSome_bind_iff htags]
  constructor
  · rintro ⟨f, hf, h⟩
    exact ⟨(isSome_extractChunkTags _).mp (isSome_iff_exists.mpr ⟨f, hf⟩), h⟩
  · rintro ⟨hchunk, h⟩
    obtain ⟨f, hf⟩ := isSome_iff_exists.mp ((isSome_extractChunkTags _).mpr hchunk)
    exact ⟨f, hf, h⟩

/-! ## What it makes -/

/-- At most `n` characters, or `n` with the dots that stand for the others. -/
def Cut (n : ℕ) (s : Str) : Prop :=
  s.length ≤ n ∨ ∃ t : Str, t.length = n ∧ s = t ++ Encode.ellipsis

theorem cut_truncateText (n : ℕ) (s : Str) : Cut n (Encode.truncateText n s) := by
  unfold Encode.truncateText
  split
  · next h => exact Or.inr ⟨s.take n, length_take_of_le h.le, rfl⟩
  · next h => exact Or.inl (Nat.not_lt.mp h)

/-- The value is what a `Buffer` or a `URL` is printed as. -/
def IsPrinted (env : Env) (value : Value) : Prop :=
  ∃ ref, (env.objects ref).isPrinted = some true ∧ (env.objects ref).toString = some value

def IsNumber (value : Value) : Prop := ∃ d, value = .number d

/-- An entry of `meta`. -/
def MetaEntry (key : Str) (value : Value) : Prop :=
  Cut MAX_META_KEY_LENGTH key ∧ ∃ s, value = .string s ∧ Cut MAX_META_VALUE_LENGTH s

/-- An entry of `metrics`. -/
def MetricEntry (env : Env) (key : Str) (value : Value) : Prop :=
  Cut MAX_METRIC_KEY_LENGTH key ∧ (IsNumber value ∨ IsPrinted env value)

/-- Nothing, or a text of the length of a value. -/
def TextField (value : Value) : Prop :=
  value = .undefined ∨ ∃ s, value = .string s ∧ Cut MAX_META_VALUE_LENGTH s

/-- **What a span is formatted to**, by design. -/
structure WellFormed (env : Env) (f : Formatted) : Prop where
  name : ∃ s, f.name = .string s
  resource : ∃ s, f.resource = .string s
  service : TextField f.service
  type : TextField f.type
  «meta» : ∀ key value, f.meta.get? key = some value → MetaEntry key value
  metrics : ∀ key value, f.metrics.get? key = some value → MetricEntry env key value

variable {f : Formatted} {key : Str} {value : Value}

/-- What is assigned joins the entries, unless the key is `__proto__`. -/
theorem get?_assign {object : OrderedMap Str Value} {key' : Str} {value' : Value}
    (h : (assign object key value).get? key' = some value') :
    key' = key ∧ value' = value ∨ object.get? key' = some value' := by
  unfold assign at h
  split at h
  · exact Or.inr h
  · rw [OrderedMap.get?_set] at h
    split at h
    · next heq => exact Or.inl ⟨heq, (some.inj h).symm⟩
    · exact Or.inr h

theorem textField_stringOr {old : Value} (h : TextField old) : TextField (stringOr value old) := by
  cases value with
  | string s => exact Or.inr ⟨_, rfl, cut_truncateText _ s⟩
  | undefined => exact h
  | null => exact h
  | boolean b => exact h
  | number d => exact h
  | bigint n => exact h
  | symbol text => exact h
  | object ref => exact h

namespace WellFormed

variable {f : Formatted}

variable {key : Str} {value : Value} {f' : Formatted}

theorem setMeta (h : WellFormed env f) (hkey : Cut MAX_META_KEY_LENGTH key) (s : Str) :
    WellFormed env (f.setMeta key s) := by
  refine ⟨h.name, h.resource, h.service, h.type, fun key' value hget => ?_, h.metrics⟩
  rcases get?_assign hget with ⟨rfl, rfl⟩ | hget
  · exact ⟨hkey, _, rfl, cut_truncateText _ s⟩
  · exact h.meta key' value hget

theorem setMetric (h : WellFormed env f) (hentry : MetricEntry env key value) :
    WellFormed env (f.setMetric key value) := by
  refine ⟨h.name, h.resource, h.service, h.type, h.meta, fun key' value' hget => ?_⟩
  rcases get?_assign hget with ⟨rfl, rfl⟩ | hget
  · exact hentry
  · exact h.metrics key' value' hget

theorem setNumber (h : WellFormed env f) {key : String} (hkey : Cut MAX_METRIC_KEY_LENGTH (lit key))
    (value : Option Binary64) : WellFormed env (f.setNumber key value) := by
  cases value with
  | none => exact h
  | some d => exact h.setMetric ⟨hkey, Or.inl ⟨d, rfl⟩⟩

theorem setText (h : WellFormed env f) (hkey : Cut MAX_META_KEY_LENGTH key)
    (text : Option Str) : WellFormed env (f.setText key text) := by
  cases text with
  | none => exact h
  | some s => exact h.setMeta hkey s

theorem setError (h : WellFormed env f) (error : ℕ) : WellFormed env { f with error := error } :=
  ⟨h.name, h.resource, h.service, h.type, h.meta, h.metrics⟩

theorem addMixedTagWith (h : WellFormed env f) {addEntries : ObjectView → Option Formatted}
    (hentries : ∀ o f', addEntries o = some f' → WellFormed env f') (hf : addMixedTagWith env addEntries f key value = some f') :
    WellFormed env f' := by
  have hkey := cut_truncateText MAX_METRIC_KEY_LENGTH key
  cases value with
  | string s =>
    rw [← some.inj hf]
    exact h.setMeta (cut_truncateText _ key) s
  | number d =>
    rw [← some.inj hf]
    split
    · exact h
    · exact h.setMetric ⟨hkey, Or.inl ⟨d, rfl⟩⟩
  | boolean b =>
    rw [← some.inj hf]
    cases b with
    | true | false => exact h.setMetric ⟨hkey, Or.inl ⟨_, rfl⟩⟩
  | object ref =>
    obtain ⟨isPrinted, hprinted, hf⟩ := bind_eq_some_iff.mp hf
    cases isPrinted with
    | true =>
      obtain ⟨text, htext, rfl⟩ := map_eq_some_iff.mp hf
      exact h.setMetric ⟨hkey, Or.inr ⟨ref, hprinted, htext⟩⟩
    | false =>
      obtain ⟨isArray, -, hf⟩ := bind_eq_some_iff.mp hf
      cases isArray with
      | true =>
        rw [← some.inj hf]
        exact h
      | false => exact hentries _ f' hf
  | undefined | null | bigint n | symbol text => exact some.inj hf ▸ h

/-- A fold of rounds that keep what is well formed. -/
theorem foldlM {α : Type} {step : Formatted → α → Option Formatted}
    (hstep : ∀ f a f', WellFormed env f → step f a = some f' → WellFormed env f')
    (h : WellFormed env f) {l : List α} (hf : l.foldlM step f = some f') :
    WellFormed env f' := by
  induction l generalizing f with
  | nil => exact some.inj hf ▸ h
  | cons a l ih =>
    obtain ⟨f₁, hf₁, hf⟩ := bind_eq_some_iff.mp hf
    exact ih (hstep f a f₁ h hf₁) hf

theorem addMixedTag (h : WellFormed env f) (hf : addMixedTag env f key value = some f') :
    WellFormed env f' := by
  refine h.addMixedTagWith (fun o f₁ hf₁ => ?_) hf
  obtain ⟨entries, -, hf₁⟩ := bind_eq_some_iff.mp hf₁
  refine h.foldlM (fun f₂ e f₃ h₂ hf₃ => ?_) hf₁
  exact h₂.addMixedTagWith (fun o f₄ hf₄ => some.inj hf₄ ▸ h₂) hf₃

theorem writeUnlessNull (h : WellFormed env f) (hkey : Cut MAX_META_KEY_LENGTH key)
    (hf : writeUnlessNull env f key value = some f') :
    WellFormed env f' := by
  unfold SpanFormat.writeUnlessNull at hf
  split at hf
  · exact some.inj hf ▸ h
  · obtain ⟨text, -, rfl⟩ := map_eq_some_iff.mp hf
    exact h.setMeta hkey text

end WellFormed

/-- The keys that the code has of its own are short enough. -/
theorem cut_lit {n : ℕ} (h : key.length ≤ n) : Cut n key := Or.inl h

theorem wellFormed_extractError {f' : Formatted} (h : WellFormed env f) {error : Value}
    (hf : extractError env f error = some f') : WellFormed env f' := by
  unfold extractError at hf
  split at hf
  · have h₁ := h.setError 1
    cases error with
    | object ref =>
      obtain ⟨isError, -, hf⟩ := bind_eq_some_iff.mp hf
      cases isError with
      | false => exact some.inj hf ▸ h₁
      | true =>
        obtain ⟨message, -, hf⟩ := bind_eq_some_iff.mp hf
        obtain ⟨f₂, hf₂, hf⟩ := bind_eq_some_iff.mp hf
        obtain ⟨name, -, hf⟩ := bind_eq_some_iff.mp hf
        obtain ⟨f₃, hf₃, hf⟩ := bind_eq_some_iff.mp hf
        obtain ⟨stack, -, hf⟩ := bind_eq_some_iff.mp hf
        have h₂ := h₁.writeUnlessNull (cut_lit (by decide)) hf₂
        have h₃ := h₂.writeUnlessNull (cut_lit (by decide)) hf₃
        exact h₃.writeUnlessNull (cut_lit (by decide)) hf
    | undefined | null | boolean b | number d | string s | bigint n => exact some.inj hf ▸ h₁
    | symbol text => exact some.inj hf ▸ h₁
  · exact some.inj hf ▸ h

theorem cut_errorKey (h : key = ERROR_TYPE ∨ key = ERROR_MESSAGE ∨ key = ERROR_STACK) :
    Cut MAX_META_KEY_LENGTH key := by
  rcases h with rfl | rfl | rfl
  all_goals exact cut_lit (by decide)

theorem isNumber_ofBool (b : Bool) : IsNumber (Value.ofBool b) := by
  cases b with
  | true | false => exact ⟨_, rfl⟩

theorem wellFormed_extractTag {f' : Formatted} (h : WellFormed env f) {e : Str × Value}
    (hf : extractTag env span f e = some f') : WellFormed env f' := by
  unfold extractTag at hf
  split_ifs at hf with h₁ h₂ h₃ h₄ ht he h₅ h₆ h₇ hfs h₈ hfs hignore
  · rw [← some.inj hf]
    exact ⟨h.name, h.resource, textField_stringOr h.service, h.type, h.meta, h.metrics⟩
  · rw [← some.inj hf]
    exact ⟨h.name, h.resource, h.service, textField_stringOr h.type, h.meta, h.metrics⟩
  · rw [← some.inj hf]
    have hresource : ∃ s, stringOr e.2 f.resource = .string s := by
      cases e.2 with
      | string s => exact ⟨_, rfl⟩
      | undefined | null | boolean b | number d | bigint n | symbol text => exact h.resource
      | object ref => exact h.resource
    exact ⟨h.name, hresource, h.service, h.type, h.meta, h.metrics⟩
  · obtain ⟨text, -, rfl⟩ := map_eq_some_iff.mp hf
    exact h.setMeta (cut_lit (h₄ ▸ by decide)) text
  · rw [← some.inj hf]
    exact h.setMeta (cut_lit (h₄ ▸ by decide)) []
  · exact some.inj hf ▸ h
  · rw [← some.inj hf]
    exact h.setMetric ⟨cut_lit (by decide), Or.inl (isNumber_ofBool _)⟩
  · rw [← some.inj hf]
    refine h.setMetric ⟨cut_lit ?_, Or.inl (isNumber_ofBool _)⟩
    rcases h₆ with h₆ | h₆
    · rw [h₆]
      decide
    · rw [h₆]
      decide
  · exact some.inj hf ▸ h
  · exact wellFormed_extractError h hf
  · exact some.inj hf ▸ h
  · exact h.writeUnlessNull (cut_errorKey h₈) hf
  · exact (h.setError 1).writeUnlessNull (cut_errorKey h₈) hf
  · exact h.addMixedTag hf

theorem wellFormed_extractTrailingTags (h : WellFormed env f) (span : Span) :
    WellFormed env (extractTrailingTags span f) := by
  have hsampling : WellFormed env (setSingleSpanIngestionTags f span.spanSampling) := by
    cases span.spanSampling with
    | none => exact h
    | some options =>
      exact ((h.setMetric ⟨cut_lit (by decide), Or.inl ⟨_, rfl⟩⟩).setNumber (cut_lit (by decide))
        options.sampleRate).setNumber (cut_lit (by decide)) options.maxPerSecond
  refine WellFormed.setText (WellFormed.setText (WellFormed.setNumber (WellFormed.setMetric
    (WellFormed.setMeta hsampling ?_ _) ?_) ?_ _) ?_ _) ?_ _
  · exact cut_lit (by decide)
  · exact ⟨cut_lit (by decide), Or.inl ⟨_, rfl⟩⟩
  all_goals exact cut_lit (by decide)

theorem wellFormed_extractTags {f' : Formatted} (h : WellFormed env f)
    (hf : extractTags env span f = some f') : WellFormed env f' := by
  obtain ⟨serviceLower, -, hf⟩ := bind_eq_some_iff.mp hf
  obtain ⟨f₁, hf₁, rfl⟩ := map_eq_some_iff.mp hf
  refine wellFormed_extractTrailingTags ?_ span
  refine WellFormed.foldlM (fun f e f' h hf => wellFormed_extractTag h hf) ?_ hf₁
  split
  · exact h.setMetric ⟨cut_lit (by decide), Or.inl ⟨_, rfl⟩⟩
  · exact h

theorem wellFormed_extractRootTags (h : WellFormed env f) :
    WellFormed env (extractRootTags span f) := by
  unfold extractRootTags
  split
  · exact (((h.setNumber (cut_lit (by decide)) _).setNumber (cut_lit (by decide)) _).setNumber
      (cut_lit (by decide)) _).setMetric ⟨cut_lit (by decide), Or.inl ⟨_, rfl⟩⟩
  · exact h

theorem wellFormed_formatSpan (env : Env) (span : Span) : WellFormed env (formatSpan span) :=
  ⟨⟨_, rfl⟩, ⟨_, rfl⟩, Or.inl rfl, Or.inl rfl, fun _ _ h => (by cases h),
    fun _ _ h => (by cases h)⟩

theorem wellFormed_format (hf : format env span = some f) : WellFormed env f := by
  obtain ⟨f₁, hf₁, hf⟩ := bind_eq_some_iff.mp hf
  refine wellFormed_extractTags ?_ hf
  have hlinks : Cut MAX_META_KEY_LENGTH (lit "_dd.span_links") := cut_lit (by decide)
  have hprocess : Cut MAX_META_KEY_LENGTH (lit "_dd.tags.process") := cut_lit (by decide)
  have h : WellFormed env (extractRootTags span
      ((formatSpan span).setText (lit "_dd.span_links") span.links)) :=
    wellFormed_extractRootTags ((wellFormed_formatSpan env span).setText hlinks span.links)
  unfold extractChunkTags at hf₁
  split at hf₁
  · exact some.inj hf₁ ▸ h
  · refine WellFormed.foldlM (fun f e f' h hf => h.addMixedTag hf) ?_ hf₁
    exact h.setText hprocess span.tagForFirstSpanInChunk

/-! ## What the encoders make of it -/

/-- A text that is there and has at most `n` characters. -/
def Present (n : ℕ) (t : Encode.Text) : Prop := ∃ s, t = .str s ∧ s ≠ [] ∧ s.length ≤ n

/-- **The fields that every encoder writes** are texts; a type need not be there. -/
structure Normalized (span : Encode.Span) : Prop where
  name : Present Encode.MAX_NAME_LENGTH span.name
  service : Present Encode.MAX_SERVICE_LENGTH span.service
  resource : ∃ s, span.resource = .str s ∧ s ≠ []
  type : span.type = .undefined ∨ ∃ s, span.type = .str s ∧ s.length ≤ Encode.MAX_TYPE_LENGTH

theorem present_cut {n : ℕ} (hn : 0 < n) {s : Str} (hs : s ≠ []) :
    Present n ((Encode.Text.str s).cut n) := by
  unfold Encode.Text.cut
  dsimp only
  split
  · refine ⟨_, rfl, ?_, length_take_le n s⟩
    rw [ne_eq, take_eq_nil_iff, not_or]
    exact ⟨hn.ne', hs⟩
  · next h => exact ⟨s, rfl, hs, Nat.not_lt.mp h⟩

/-- A text, or the default where it is nothing or empty. -/
theorem present_default {n : ℕ} (hn : 0 < n) (hvalue : TextField value)
    {default : Str} (hdefault : default ≠ []) :
    Present n ((if value.asText.truthy then value.asText else .str default).cut n) := by
  rcases hvalue with rfl | ⟨s, rfl, -⟩
  · exact present_cut hn hdefault
  · cases s with
    | nil => exact present_cut hn hdefault
    | cons u s => exact present_cut hn (cons_ne_nil u s)

theorem normalized_write (h : WellFormed env f) (span : Encode.Span) :
    Normalized (Encode.normalizeSpan (f.write span)) := by
  have hname : Present Encode.MAX_NAME_LENGTH (Encode.normalizeSpan (f.write span)).name := by
    obtain ⟨s, hs⟩ := h.name
    show Present _ (Encode.Text.cut _ (if f.name.asText.truthy then f.name.asText else _))
    rw [hs]
    cases s with
    | nil => exact present_cut (by decide) (by decide)
    | cons u s => exact present_cut (by decide) (cons_ne_nil u s)
  refine ⟨hname, ?_, ?_, ?_⟩
  · exact present_default (by decide) h.service (by decide)
  · obtain ⟨s, hs⟩ := h.resource
    show ∃ t, (if f.resource.asText.truthy then f.resource.asText else _) = _ ∧ _
    rw [hs]
    cases s with
    | nil =>
      obtain ⟨t, ht, hne, -⟩ := hname
      exact ⟨t, ht, hne⟩
    | cons u s => exact ⟨u :: s, rfl, cons_ne_nil u s⟩
  · show Encode.Text.cut _ f.type.asText = .undefined ∨ ∃ s, Encode.Text.cut _ f.type.asText = _ ∧ _
    rcases h.type with htype | ⟨s, htype, -⟩
    · rw [htype]
      exact Or.inl rfl
    · rw [htype]
      refine Or.inr ?_
      show ∃ t, Encode.Text.cut Encode.MAX_TYPE_LENGTH (.str s) = _ ∧ _
      unfold Encode.Text.cut
      dsimp only
      split
      · exact ⟨_, rfl, length_take_le _ s⟩
      · next hlt => exact ⟨s, rfl, Nat.not_lt.mp hlt⟩

/-- **The format of every span**: it does not throw where the tags answer what they are asked, what
it makes is well formed, and the encoders find texts in its fields. -/
theorem wellFormed_of_format (env : Env) (span : Span) :
    (Readable env span → (format env span).isSome = true) ∧ ∀ f, format env span = some f →
        WellFormed env f ∧ ∀ base, Normalized (Encode.normalizeSpan (f.write base)) :=
  ⟨(isSome_format_iff env span).mpr, fun _ hf =>
    ⟨wellFormed_format hf, normalized_write (wellFormed_format hf)⟩⟩

/-! ## Three tags -/

/-- An object without properties, and a `Buffer` of the text `hello`. -/
def twoObjects : Env where
  objects ref :=
    { text := some (lit "[object Object]")
      toLowerCase := none
      isNodeBuffer := some (decide (ref = 1))
      isUrl := some false
      toString := some (.string (lit "hello"))
      isArray := some false
      entries := some []
      instanceofError := some false
      message := some .undefined
      code := some .undefined
      name := some .undefined
      stack := some .undefined }
  numberText _ := lit "5"
  toLowerCase := id

/-- A span with some tags. -/
def taggedSpan (tags : List (Str × Value)) : Span :=
  ⟨lit "operation", .ofEntries tags, false, lit "web", none, false, none, none, none, none, none,
    none, .ofBits 0, none, none, none⟩

theorem wellFormed_of_format_error :
    (format twoObjects (taggedSpan [(lit "service.name", .string (lit "web")),
      (lit "error", .object 0), (lit "error.type", .number (.ofBits 0x4014000000000000))])).isSome = true := by
  refine (wellFormed_of_format _ _).1 ⟨fun tags htags => (by cases htags), _, rfl, ?_⟩
  have htags : ∀ e ∈ [(lit "service.name", Value.string (lit "web")), (lit "error", .object 0),
      (lit "error.type", .number (.ofBits 0x4014000000000000))], TagReads twoObjects (taggedSpan []) e := by
    rw [forall_mem_cons, forall_mem_cons, forall_mem_singleton]
    refine ⟨trivial, fun _ => ⟨false, rfl, fun h => (by cases h)⟩, fun _ => Or.inr rfl⟩
  exact htags

/-- What a tag map is to be formatted to, whatever its values. -/
structure AsClaimed (f : Formatted) : Prop where
  fields : ∀ value ∈ [f.name, f.resource, f.service, f.type], ∃ s, value = .string s
  «meta» : ∀ key value, f.meta.get? key = some value → key.length ≤ MAX_META_KEY_LENGTH ∧
    ∃ s, value = .string s ∧ s.length ≤ MAX_META_VALUE_LENGTH
  metrics : ∀ key value, f.metrics.get? key = some value → key.length ≤ MAX_METRIC_KEY_LENGTH ∧
    ∃ d, value = .number d ∧ (d.isFinite = true ∨ d.isNaN = true)

/-- **A service name that is a number** throws, and a `Buffer` is a text among the metrics. -/
theorem not_asClaimed : (¬∀ (env : Env) (span : Span), (format env span).isSome = true) ∧
      ¬∀ (env : Env) (span : Span) (f : Formatted), format env span = some f → AsClaimed f := by
  constructor
  · intro h
    have hsome := h twoObjects (taggedSpan [(lit "service.name", .number (.ofBits 0x4014000000000000))])
    revert hsome
    decide
  · intro h
    have hclaimed := h twoObjects (taggedSpan [(lit "service.name", .string (lit "web")),
      (lit "span.type", .string (lit "web")), (lit "payload", .object 1)]) _ rfl
    obtain ⟨-, d, hd, -⟩ := hclaimed.metrics (lit "payload") (.string (lit "hello")) (by decide)
    cases hd

end DdTrace.SpanFormat
