import DdTrace.Library.Unicode

/-!
# JSON texts by their grammar

A JSON text is built here from the rules of its grammar, white space included: what can be
built is a JSON text, and every JSON text can be built.  A parser that works on the raw text can
then be followed through the rules, and a text that was edited is shown to be a JSON text again
by saying which rules build it.

Much that works on raw JSON looks only at the quotes and at the braces.  `Forest` is the view
such code has of a text: units that mean nothing to it, strings, and objects with what they hold.
Each phrase of the grammar stands for one forest (`Phrase.forest`), and its text is the text of
the forest.

* `Phrase`: the grammar, one constructor a rule; `Document` is a value between white space.
* `Document.text_array`: texts with commas between them, in brackets, are a text again.
* `Phrase.Replaced`: some objects that lie deep enough are replaced by one given object.  No
  rule of the relation looks inside a replaced object, so that the replaced ones are disjoint.
* `Phrase.exists_replaced`: where the forest of a phrase is edited in this way, the outcome is
  the forest of a phrase that is edited in this way.
-/

namespace Library.JsonSyntax

/-! ## Units and strings -/

/-- An ASCII unit that is neither a quote nor a brace. -/
abbrev Neutral := {c : UInt16 // c.toNat < 0x80 ∧ c ≠ unit '"' ∧ c ≠ unit '{' ∧ c ≠ unit '}'}

/-- A hexadecimal digit. -/
abbrev HexDigit := {c : UInt16 // (Str.digit? 16 c).isSome = true}

/-- What a string is made of: a unit that stands for itself, an escaped one, or a unit given by
its number. -/
inductive Chunk where
  | plain (c : UInt16) (h : c ≠ unit '"' ∧ c ≠ unit '\\' ∧ 0x20 ≤ c.toNat)
  | escape (c : UInt16) (h : includes (lit "\"\\/bfnrt") c = true)
  | number (a b c d : HexDigit)

def Chunk.text : Chunk → Str
  | .plain c _ => [c]
  | .escape c _ => [unit '\\', c]
  | .number a b c d => [unit '\\', unit 'u', a.1, b.1, c.1, d.1]

/-- What stands between the quotes of a string. -/
abbrev Body := List Chunk

def Body.text (s : Body) : Str := s.flatMap Chunk.text

/-! ## Forests -/

/-- A text as it looks to code that knows quotes and braces only. -/
inductive Forest where
  | nil
  | unit (c : Neutral) (rest : Forest)
  | text (s : Body) (rest : Forest)
  | braces (inside rest : Forest)

namespace Forest

/-- The text that a forest is the view of. -/
def render : Forest → Str
  | .nil => []
  | .unit c rest => c.1 :: rest.render
  | .text s rest => Library.unit '"' :: (s.text ++ Library.unit '"' :: rest.render)
  | .braces inside rest =>
    Library.unit '{' :: (inside.render ++ Library.unit '}' :: rest.render)

def append : Forest → Forest → Forest
  | .nil, g => g
  | .unit c rest, g => .unit c (rest.append g)
  | .text s rest, g => .text s (rest.append g)
  | .braces inside rest, g => .braces inside (rest.append g)

instance : Append Forest := ⟨append⟩

@[simp] theorem nil_append (g : Forest) : nil ++ g = g := rfl

@[simp] theorem unit_append (c : Neutral) (f g : Forest) : unit c f ++ g = unit c (f ++ g) := rfl

@[simp] theorem text_append (s : Body) (f g : Forest) : text s f ++ g = text s (f ++ g) := rfl

@[simp] theorem braces_append (i f g : Forest) : braces i f ++ g = braces i (f ++ g) := rfl

@[simp] theorem render_append (f g : Forest) : (f ++ g).render = f.render ++ g.render := by
  induction f with
  | nil => rfl
  | unit c f ih | text s f ih | braces i f _ ih => simp [render, ih]

/-- The number of objects. -/
def count : Forest → ℕ
  | .nil => 0
  | .unit _ rest => rest.count
  | .text _ rest => rest.count
  | .braces inside rest => 1 + inside.count + rest.count

@[simp] theorem count_append (f g : Forest) : (f ++ g).count = f.count + g.count := by
  induction f with
  | nil => exact (Nat.zero_add _).symm
  | unit c f ih => exact ih
  | text s f ih => exact ih
  | braces i f _ ih =>
    rw [braces_append, count, count]
    omega

/-- Units one after the other. -/
def ofUnits : List Neutral → Forest
  | [] => .nil
  | c :: l => .unit c (ofUnits l)

@[simp] theorem count_ofUnits (l : List Neutral) : (ofUnits l).count = 0 := by
  induction l with
  | nil => rfl
  | cons c l ih => exact ih

/-- `g` is `f` with some objects replaced by the object that holds `small`: only objects that
lie in at least `least` others, where `f` itself lies in `depth`. -/
inductive Replaced (small : Forest) (least : ℕ) : ℕ → Forest → Forest → Prop where
  | nil {depth} : Replaced small least depth .nil .nil
  | unit {depth} (c : Neutral) {f g} (h : Replaced small least depth f g) :
      Replaced small least depth (.unit c f) (.unit c g)
  | text {depth} (s : Body) {f g} (h : Replaced small least depth f g) :
      Replaced small least depth (.text s f) (.text s g)
  | braces {depth i j f g} (hi : Replaced small least (depth + 1) i j)
      (h : Replaced small least depth f g) :
      Replaced small least depth (.braces i f) (.braces j g)
  | replace {depth} (i : Forest) {f g} (hd : least ≤ depth) (h : Replaced small least depth f g) :
      Replaced small least depth (.braces i f) (.braces small g)

variable {small : Forest} {least depth : ℕ} {f g : Forest}

/-- Without objects there is nothing to replace. -/
theorem Replaced.eq_of_count (h : Replaced small least depth f g) (hf : f.count = 0) : g = f := by
  induction h with
  | nil => rfl
  | unit c _ ih => rw [ih hf]
  | text s _ ih => rw [ih hf]
  | braces _ _ _ _ | replace i _ _ _ =>
    rw [count] at hf
    omega

/-- What comes first and what comes next are edited on their own. -/
theorem Replaced.of_append {f₁ f₂ : Forest} (h : Replaced small least depth (f₁ ++ f₂) g) :
    ∃ g₁ g₂, g = g₁ ++ g₂ ∧ Replaced small least depth f₁ g₁ ∧
      Replaced small least depth f₂ g₂ := by
  induction f₁ generalizing g with
  | nil => exact ⟨.nil, g, rfl, .nil, h⟩
  | unit c f₁ ih =>
    cases h with
    | unit _ h =>
      obtain ⟨g₁, g₂, rfl, h₁, h₂⟩ := ih h
      exact ⟨.unit c g₁, g₂, rfl, h₁.unit c, h₂⟩
  | text s f₁ ih =>
    cases h with
    | text _ h =>
      obtain ⟨g₁, g₂, rfl, h₁, h₂⟩ := ih h
      exact ⟨.text s g₁, g₂, rfl, h₁.text s, h₂⟩
  | braces i f₁ _ ih =>
    cases h with
    | braces hi h =>
      obtain ⟨g₁, g₂, rfl, h₁, h₂⟩ := ih h
      exact ⟨.braces _ g₁, g₂, rfl, .braces hi h₁, h₂⟩
    | replace _ hd h =>
      obtain ⟨g₁, g₂, rfl, h₁, h₂⟩ := ih h
      exact ⟨.braces small g₁, g₂, rfl, .replace i hd h₁, h₂⟩

/-- **Doing so twice is doing it once.**  What was put in place of an object holds no other. -/
theorem Replaced.trans {h : Forest} (hsmall : small.count = 0)
    (hfg : Replaced small least depth f g) (hgh : Replaced small least depth g h) :
    Replaced small least depth f h := by
  induction hfg generalizing h with
  | nil => exact hgh
  | unit c _ ih =>
    cases hgh with
    | unit _ hgh => exact .unit c (ih hgh)
  | text s _ ih =>
    cases hgh with
    | text _ hgh => exact .text s (ih hgh)
  | braces _ _ ihi ih =>
    cases hgh with
    | braces hi hgh => exact .braces (ihi hi) (ih hgh)
    | replace _ hd hgh => exact .replace _ hd (ih hgh)
  | replace i hd _ ih =>
    cases hgh with
    | braces hi hgh =>
      rw [hi.eq_of_count hsmall]
      exact .replace i hd (ih hgh)
    | replace _ _ hgh => exact .replace i hd (ih hgh)

/-- Nothing need be replaced. -/
theorem Replaced.refl (small : Forest) (least depth : ℕ) (f : Forest) :
    Replaced small least depth f f := by
  induction f generalizing depth with
  | nil => exact .nil
  | unit c f ih => exact .unit c (ih depth)
  | text s f ih => exact .text s (ih depth)
  | braces i f ihi ih => exact .braces (ihi (depth + 1)) (ih depth)

/-! ## Bytes

Where one part of a forest ends and the next one begins the text has an ASCII unit, so that the
bytes of the parts add up. -/

theorem isHigh_concat (s : Str) {c : UInt16} (hc : c.toNat < 0x80) :
    ∀ u ∈ (s ++ [c]).getLast?, Unicode.isHigh u = false := by
  intro u hu
  rw [List.getLast?_concat] at hu
  obtain rfl := Option.some.inj hu
  unfold Unicode.isHigh
  rw [decide_eq_false (by omega), Bool.false_and]

theorem isHigh_append {s t : Str} (hs : ∀ u ∈ s.getLast?, Unicode.isHigh u = false)
    (ht : ∀ u ∈ t.getLast?, Unicode.isHigh u = false) :
    ∀ u ∈ (s ++ t).getLast?, Unicode.isHigh u = false := by
  intro u hu
  rw [List.getLast?_append, Option.mem_def, Option.or_eq_some_iff] at hu
  rcases hu with hu | ⟨-, hu⟩
  · exact ht u hu
  · exact hs u hu

/-- The text of an object. -/
def objectText (inside : Forest) : Str :=
  (Library.unit '{' :: inside.render) ++ [Library.unit '}']

/-- A string in its quotes. -/
def quotedText (s : Body) : Str := (Library.unit '"' :: s.text) ++ [Library.unit '"']

theorem render_text (s : Body) (f : Forest) : (text s f).render = quotedText s ++ f.render := by
  simp [render, quotedText]

theorem render_braces (i f : Forest) : (braces i f).render = objectText i ++ f.render := by
  simp [render, objectText]

theorem isHigh_quotedText (s : Body) : ∀ u ∈ (quotedText s).getLast?, Unicode.isHigh u = false :=
  isHigh_concat _ (by decide)

theorem isHigh_objectText (i : Forest) : ∀ u ∈ (objectText i).getLast?, Unicode.isHigh u = false :=
  isHigh_concat _ (by decide)

theorem isHigh_render (f : Forest) : ∀ u ∈ f.render.getLast?, Unicode.isHigh u = false := by
  induction f with
  | nil => exact fun _ h => absurd h.symm (Option.some_ne_none _)
  | unit c f ih => exact isHigh_append (s := [c.1]) (isHigh_concat [] c.2.1) ih
  | text s f ih =>
    rw [render_text]
    exact isHigh_append (isHigh_quotedText s) ih
  | braces i f _ ih =>
    rw [render_braces]
    exact isHigh_append (isHigh_objectText i) ih

theorem byteLength_unit (c : Neutral) (f : Forest) :
    Unicode.byteLength (unit c f).render = Unicode.byteLength [c.1] + Unicode.byteLength f.render :=
  Unicode.byteLength_append (s := [c.1]) (isHigh_concat [] c.2.1) f.render

theorem byteLength_text (s : Body) (f : Forest) : Unicode.byteLength (text s f).render =
      Unicode.byteLength (quotedText s) + Unicode.byteLength f.render := by
  rw [render_text, Unicode.byteLength_append (isHigh_quotedText s)]

theorem byteLength_braces (i f : Forest) : Unicode.byteLength (braces i f).render =
      Unicode.byteLength (objectText i) + Unicode.byteLength f.render := by
  rw [render_braces, Unicode.byteLength_append (isHigh_objectText i)]

theorem byteLength_objectText (i : Forest) :
    Unicode.byteLength (objectText i) = Unicode.byteLength i.render + 2 := by
  have hopen : ∀ u ∈ (Library.unit '{' :: i.render).getLast?, Unicode.isHigh u = false :=
    isHigh_append (s := [Library.unit '{']) (isHigh_concat [] (by decide)) (isHigh_render i)
  have hfirst : Unicode.byteLength (Library.unit '{' :: i.render) =
      1 + Unicode.byteLength i.render :=
    Unicode.byteLength_append (s := [Library.unit '{']) (isHigh_concat [] (by decide)) i.render
  have hlast : Unicode.byteLength [Library.unit '}'] = 1 := by decide
  rw [objectText, Unicode.byteLength_append hopen]
  omega

end Forest

/-! ## The grammar -/

inductive Blank where
  | space
  | tab
  | newline
  | carriageReturn

def Blank.unit : Blank → Neutral
  | .space => ⟨0x20, by decide⟩
  | .tab => ⟨0x09, by decide⟩
  | .newline => ⟨0x0A, by decide⟩
  | .carriageReturn => ⟨0x0D, by decide⟩

abbrev Space := List Blank

def Space.forest (ws : Space) : Forest := .ofUnits (ws.map Blank.unit)

inductive Literal where
  | null
  | false
  | true

def Literal.units : Literal → List Neutral
  | .null => [⟨unit 'n', by decide⟩, ⟨unit 'u', by decide⟩, ⟨unit 'l', by decide⟩,
      ⟨unit 'l', by decide⟩]
  | .false => [⟨unit 'f', by decide⟩, ⟨unit 'a', by decide⟩, ⟨unit 'l', by decide⟩,
      ⟨unit 's', by decide⟩, ⟨unit 'e', by decide⟩]
  | .true => [⟨unit 't', by decide⟩, ⟨unit 'r', by decide⟩, ⟨unit 'u', by decide⟩,
      ⟨unit 'e', by decide⟩]

def digitUnit (d : Fin 10) : Neutral :=
  ⟨unit '0' + d.val.toUInt16, by revert d; decide⟩

/-- A number: an integer part that starts with a zero only when it is one, and perhaps a
fraction and an exponent. -/
structure Numeral where
  negative : Bool
  first : Fin 10
  whole : List (Fin 10)
  canonical : first = 0 → whole = []
  fraction : Option (Fin 10 × List (Fin 10))
  /-- `e` or `E`, a sign (`true` for a minus), and the digits. -/
  exponent : Option (Bool × Option Bool × Fin 10 × List (Fin 10))

namespace Numeral

def fractionUnits : Option (Fin 10 × List (Fin 10)) → List Neutral
  | none => []
  | some (d, ds) => ⟨unit '.', by decide⟩ :: digitUnit d :: ds.map digitUnit

def signUnits : Option Bool → List Neutral
  | none => []
  | some false => [⟨unit '+', by decide⟩]
  | some true => [⟨unit '-', by decide⟩]

def exponentUnits : Option (Bool × Option Bool × Fin 10 × List (Fin 10)) → List Neutral
  | none => []
  | some (upper, sign, d, ds) =>
    (if upper then ⟨unit 'E', by decide⟩ else ⟨unit 'e', by decide⟩) ::
      (signUnits sign ++ digitUnit d :: ds.map digitUnit)

def units (n : Numeral) : List Neutral :=
  (if n.negative then [⟨unit '-', by decide⟩] else []) ++ digitUnit n.first ::
    (n.whole.map digitUnit ++ fractionUnits n.fraction ++ exponentUnits n.exponent)

end Numeral

/-- What a phrase of the grammar can be. -/
inductive Category where
  | value
  | elements
  | members

/-- **The grammar.**  `element` and `member` are the last of their list, `elements` and `members`
are followed by others. -/
inductive Phrase : Category → Type where
  | literal (l : Literal) : Phrase .value
  | number (n : Numeral) : Phrase .value
  | string (s : Body) : Phrase .value
  | emptyArray (ws : Space) : Phrase .value
  | array (es : Phrase .elements) : Phrase .value
  | emptyObject (ws : Space) : Phrase .value
  | object (ms : Phrase .members) : Phrase .value
  | element (before : Space) (v : Phrase .value) (after : Space) : Phrase .elements
  | elements (before : Space) (v : Phrase .value) (after : Space) (rest : Phrase .elements) :
      Phrase .elements
  | member (before : Space) (key : Body) (beforeColon afterColon : Space) (v : Phrase .value)
      (after : Space) : Phrase .members
  | members (before : Space) (key : Body) (beforeColon afterColon : Space) (v : Phrase .value)
      (after : Space) (rest : Phrase .members) : Phrase .members

namespace Phrase

/-- A unit of punctuation in front of a forest. -/
def comma (f : Forest) : Forest := .unit ⟨unit ',', by decide⟩ f

def colon (f : Forest) : Forest := .unit ⟨unit ':', by decide⟩ f

/-- A forest between brackets. -/
def brackets (f : Forest) : Forest :=
  .unit ⟨unit '[', by decide⟩ (f ++ .unit ⟨unit ']', by decide⟩ .nil)

/-- How a phrase is written. -/
def forest : {k : Category} → Phrase k → Forest
  | _, .literal l => .ofUnits l.units
  | _, .number n => .ofUnits n.units
  | _, .string s => .text s .nil
  | _, .emptyArray ws => brackets ws.forest
  | _, .array es => brackets es.forest
  | _, .emptyObject ws => .braces ws.forest .nil
  | _, .object ms => .braces ms.forest .nil
  | _, .element before v after => before.forest ++ v.forest ++ after.forest
  | _, .elements before v after rest =>
    before.forest ++ v.forest ++ after.forest ++ comma rest.forest
  | _, .member before key beforeColon afterColon v after =>
    before.forest ++ .text key (beforeColon.forest ++ colon (afterColon.forest ++ v.forest)) ++
      after.forest
  | _, .members before key beforeColon afterColon v after rest =>
    before.forest ++ .text key (beforeColon.forest ++ colon (afterColon.forest ++ v.forest)) ++
      after.forest ++ comma rest.forest

def text {k : Category} (j : Phrase k) : Str := j.forest.render

/-- `w` is `v` with some objects replaced by the object `small`: only objects that lie in at
least `least` others, where `v` itself lies in `depth`. -/
inductive Replaced (small : Phrase .members) (least : ℕ) :
    {k : Category} → ℕ → Phrase k → Phrase k → Prop where
  | literal {depth} (l : Literal) : Replaced small least depth (.literal l) (.literal l)
  | number {depth} (n : Numeral) : Replaced small least depth (.number n) (.number n)
  | string {depth} (s : Body) : Replaced small least depth (.string s) (.string s)
  | emptyArray {depth} (ws : Space) : Replaced small least depth (.emptyArray ws) (.emptyArray ws)
  | array {depth v w} (h : Replaced small least depth v w) :
      Replaced small least depth (.array v) (.array w)
  | emptyObject {depth} (ws : Space) :
      Replaced small least depth (.emptyObject ws) (.emptyObject ws)
  | object {depth v w} (h : Replaced small least (depth + 1) v w) :
      Replaced small least depth (.object v) (.object w)
  | replaceEmpty {depth} (ws : Space) (hd : least ≤ depth) :
      Replaced small least depth (.emptyObject ws) (.object small)
  | replace {depth} (v : Phrase .members) (hd : least ≤ depth) :
      Replaced small least depth (.object v) (.object small)
  | element {depth before after v w} (h : Replaced small least depth v w) :
      Replaced small least depth (.element before v after) (.element before w after)
  | elements {depth before after v w vs ws} (h : Replaced small least depth v w)
      (hs : Replaced small least depth vs ws) :
      Replaced small least depth (.elements before v after vs) (.elements before w after ws)
  | member {depth before key beforeColon afterColon after v w}
      (h : Replaced small least depth v w) :
      Replaced small least depth (.member before key beforeColon afterColon v after)
        (.member before key beforeColon afterColon w after)
  | members {depth before key beforeColon afterColon after v w vs ws}
      (h : Replaced small least depth v w) (hs : Replaced small least depth vs ws) :
      Replaced small least depth (.members before key beforeColon afterColon v after vs)
        (.members before key beforeColon afterColon w after ws)

variable {small : Phrase .members} {least depth : ℕ}

variable {g f : Forest}

theorem exists_brackets {small : Forest} (h : Forest.Replaced small least depth (brackets f) g) :
    ∃ f', Forest.Replaced small least depth f f' ∧ brackets f' = g := by
  cases h with
  | unit _ h =>
    obtain ⟨f', g', rfl, hf, hg⟩ := h.of_append
    rw [hg.eq_of_count rfl]
    exact ⟨f', hf, rfl⟩

theorem count_space (ws : Space) : ws.forest.count = 0 := Forest.count_ofUnits _

/-- White space stays what it is. -/
theorem exists_space {small : Forest} {ws : Space}
    (h : Forest.Replaced small least depth (ws.forest ++ f) g) :
    ∃ f', Forest.Replaced small least depth f f' ∧ ws.forest ++ f' = g := by
  obtain ⟨g₁, g₂, rfl, h₁, h₂⟩ := h.of_append
  rw [h₁.eq_of_count (count_space ws)]
  exact ⟨g₂, h₂, rfl⟩

theorem exists_space_right {small : Forest} {ws : Space}
    (h : Forest.Replaced small least depth (f ++ ws.forest) g) :
    ∃ f', Forest.Replaced small least depth f f' ∧ f' ++ ws.forest = g := by
  obtain ⟨g₁, g₂, rfl, h₁, h₂⟩ := h.of_append
  rw [h₂.eq_of_count (count_space ws)]
  exact ⟨g₁, h₁, rfl⟩

/-- An edit of what stands behind a comma. -/
theorem exists_comma {small : Forest} (h : Forest.Replaced small least depth (comma f) g) :
    ∃ f', Forest.Replaced small least depth f f' ∧ comma f' = g := by
  cases h with
  | unit _ h => exact ⟨_, h, rfl⟩

theorem exists_colon {small : Forest} (h : Forest.Replaced small least depth (colon f) g) :
    ∃ f', Forest.Replaced small least depth f f' ∧ colon f' = g := by
  cases h with
  | unit _ h => exact ⟨_, h, rfl⟩

/-- A value between white space. -/
theorem exists_padded {before after : Space} {small : Forest}
    (h : Forest.Replaced small least depth (before.forest ++ f ++ after.forest) g) :
    ∃ f', Forest.Replaced small least depth f f' ∧ before.forest ++ f' ++ after.forest = g := by
  obtain ⟨g', hg', rfl⟩ := exists_space_right h
  obtain ⟨f', hf', rfl⟩ := exists_space hg'
  exact ⟨f', hf', rfl⟩

/-- What stands behind a key. -/
theorem exists_keyed {key : Body} {beforeColon afterColon : Space} {small : Forest}
    (h : Forest.Replaced small least depth
      (.text key (beforeColon.forest ++ colon (afterColon.forest ++ f))) g) :
    ∃ f', Forest.Replaced small least depth f f' ∧
      .text key (beforeColon.forest ++ colon (afterColon.forest ++ f')) = g := by
  cases h with
  | text _ h =>
    obtain ⟨g', hg', rfl⟩ := exists_space h
    obtain ⟨g'', hg'', rfl⟩ := exists_colon hg'
    obtain ⟨f', hf', rfl⟩ := exists_space hg''
    exact ⟨f', hf', rfl⟩

/-- **An edited forest is an edited phrase.**  Where objects are replaced in the forest of a
phrase, a phrase stands for the outcome, and it is the phrase with objects replaced. -/
theorem exists_replaced {k : Category} (v : Phrase k)
    (h : Forest.Replaced small.forest least depth v.forest g) :
    ∃ w : Phrase k, Replaced small least depth v w ∧ w.forest = g := by
  induction v generalizing depth g with
  | literal l => exact ⟨_, .literal l, (h.eq_of_count (Forest.count_ofUnits _)).symm⟩
  | number n => exact ⟨_, .number n, (h.eq_of_count (Forest.count_ofUnits _)).symm⟩
  | string s => exact ⟨_, .string s, (h.eq_of_count rfl).symm⟩
  | emptyArray ws =>
    obtain ⟨f', hf', rfl⟩ := exists_brackets h
    rw [hf'.eq_of_count (count_space ws)]
    exact ⟨_, .emptyArray ws, rfl⟩
  | array es ih =>
    obtain ⟨f', hf', rfl⟩ := exists_brackets h
    obtain ⟨w, hw, rfl⟩ := ih hf'
    exact ⟨_, hw.array, rfl⟩
  | emptyObject ws =>
    cases h with
    | braces hi h =>
      cases h with
      | nil =>
        rw [hi.eq_of_count (count_space ws)]
        exact ⟨_, .emptyObject ws, rfl⟩
    | replace _ hd h =>
      cases h with
      | nil => exact ⟨_, .replaceEmpty ws hd, rfl⟩
  | object ms ih =>
    cases h with
    | braces hi h =>
      cases h with
      | nil =>
        obtain ⟨w, hw, rfl⟩ := ih hi
        exact ⟨_, hw.object, rfl⟩
    | replace _ hd h =>
      cases h with
      | nil => exact ⟨_, .replace ms hd, rfl⟩
  | element before v after ih =>
    obtain ⟨f', hf', rfl⟩ := exists_padded h
    obtain ⟨w, hw, rfl⟩ := ih hf'
    exact ⟨_, hw.element, rfl⟩
  | elements before v after rest ih ihrest =>
    obtain ⟨g₁, g₂, rfl, h₁, h₂⟩ := h.of_append
    obtain ⟨f', hf', rfl⟩ := exists_padded h₁
    obtain ⟨w, hw, rfl⟩ := ih hf'
    obtain ⟨f'', hf'', rfl⟩ := exists_comma h₂
    obtain ⟨ws, hws, rfl⟩ := ihrest hf''
    exact ⟨_, hw.elements hws, rfl⟩
  | member before key beforeColon afterColon v after ih =>
    obtain ⟨f', hf', rfl⟩ := exists_padded h
    obtain ⟨f'', hf'', rfl⟩ := exists_keyed hf'
    obtain ⟨w, hw, rfl⟩ := ih hf''
    exact ⟨_, hw.member, rfl⟩
  | members before key beforeColon afterColon v after rest ih ihrest =>
    obtain ⟨g₁, g₂, rfl, h₁, h₂⟩ := h.of_append
    obtain ⟨f', hf', rfl⟩ := exists_padded h₁
    obtain ⟨f'', hf'', rfl⟩ := exists_keyed hf'
    obtain ⟨w, hw, rfl⟩ := ih hf''
    obtain ⟨f₂, hf₂, rfl⟩ := exists_comma h₂
    obtain ⟨ws, hws, rfl⟩ := ihrest hf₂
    exact ⟨_, hw.members hws, rfl⟩

end Phrase

/-- A JSON text: a value between white space. -/
structure Document where
  before : Space
  value : Phrase .value
  after : Space

def Document.forest (v : Document) : Forest :=
  v.before.forest ++ v.value.forest ++ v.after.forest

def Document.text (v : Document) : Str := v.forest.render

/-- One JSON text after the other, as the elements of an array. -/
def Document.elements (v : Document) : List Document → Phrase .elements
  | [] => .element v.before v.value v.after
  | w :: ws => .elements v.before v.value v.after (w.elements ws)

/-- The array of some JSON texts, of at least one. -/
def Document.array (v : Document) (ws : List Document) : Document :=
  ⟨[], .array (v.elements ws), []⟩

theorem Document.text_elements (v : Document) (ws : List Document) :
    (v.elements ws).text = Str.join (unit ',') ((v :: ws).map Document.text) := by
  induction ws generalizing v with
  | nil =>
    rw [List.map_singleton, Str.join_singleton]
    rfl
  | cons w ws ih =>
    have hrest := ih w
    rw [List.map_cons, Str.join_cons _ _ (by simp), ← hrest]
    simp [elements, Phrase.text, Phrase.forest, Phrase.comma, Forest.render, Document.text,
      Document.forest]

/-- The text of the array: its elements with commas between them, in brackets. -/
theorem Document.text_array (v : Document) (ws : List Document) : (v.array ws).text =
      (unit '[' :: Str.join (unit ',') ((v :: ws).map Document.text)) ++ [unit ']'] := by
  rw [← v.text_elements ws]
  simp [array, Document.text, Document.forest, Phrase.text, Phrase.forest, Phrase.brackets,
    Space.forest, Forest.ofUnits, Forest.render]

/-- Some objects of the text are replaced. -/
def Document.Replaced (small : Phrase .members) (least : ℕ) (v w : Document) : Prop :=
  w.before = v.before ∧ Phrase.Replaced small least 0 v.value w.value ∧ w.after = v.after

theorem Document.exists_replaced {small : Phrase .members} {least : ℕ} (v : Document) {g : Forest}
    (h : Forest.Replaced small.forest least 0 v.forest g) :
    ∃ w : Document, v.Replaced small least w ∧ w.forest = g := by
  obtain ⟨f', hf', rfl⟩ := Phrase.exists_padded h
  obtain ⟨w, hw, rfl⟩ := Phrase.exists_replaced v.value hf'
  exact ⟨⟨v.before, w, v.after⟩, ⟨rfl, hw, rfl⟩, rfl⟩

end Library.JsonSyntax
