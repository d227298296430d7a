import DdTrace.Library.JsonReader
import DdTrace.Library.Number
import DdTrace.Library.OrderedMap

/-!
# Bodies of downstream responses

`parseBody` of `appsec/downstream_requests.js` reads the body of a response, for the WAF.  The fields
of a form are grouped in a plain object: a name that comes again gets the list of its values.  Whether
it has come before is asked with `key in result`, and that is also true of what the object inherits.

* `formBody`: the grouping, of the pairs that `URLSearchParams` yields.
* `view_addField`: a name that no object inherits is grouped by itself, whatever else is in the body.
* `parseBody_grouped_iff`: **the fields are grouped exactly when none has a name that every object
  inherits**.
-/

namespace DdTrace.Appsec.FormBody

open Library List

/-! ## The code -/

/-- A value, or an item of a list.  What is inherited is known by its name. -/
inductive Item where
  | text (s : Str)
  | inherited (key : Str)

/-- What a property of the object holds. -/
inductive Property where
  | single (item : Item)
  | array (items : List Item)

/-- The properties of `Object.prototype`. -/
def objectPrototype : List Str :=
  [lit "constructor", lit "__defineGetter__", lit "__defineSetter__", lit "hasOwnProperty",
    lit "__lookupGetter__", lit "__lookupSetter__", lit "isPrototypeOf",
    lit "propertyIsEnumerable", lit "toString", lit "valueOf", lit "__proto__",
    lit "toLocaleString"]

def PROTO : Str := lit "__proto__"

/-- The object, with the properties of its own.  Its prototype is `Object.prototype`, until it is
set to an array. -/
structure Result where
  own : OrderedMap Str Property := .empty
  proto : Option (List Item) := none

variable (arrayPrototype : List Str)

/-- What the object inherits under a name.  `arrayPrototype` holds the properties of
`Array.prototype`, of which there are more in each version of the language. -/
def Result.inherited (result : Result) (key : Str) : Option Property :=
  match result.proto with
  | none => if key ∈ objectPrototype then some (.single (.inherited key)) else none
  | some items =>
    if key = PROTO then some (.array items)
    else match (range items.length).find? fun i => decide (Str.natString 10 i = key) with
      | some i => items[i]?.map .single
      | none =>
        if key = lit "length" ∨ key ∈ arrayPrototype ∨ key ∈ objectPrototype then
          some (.single (.inherited key))
        else none

/-- `result[key]`, when `key in result`. -/
def Result.get? (result : Result) (key : Str) : Option Property :=
  (result.own.get? key).or (result.inherited arrayPrototype key)

/-- `result[key] = property`.  Under `__proto__` an array becomes the prototype, and a string is
ignored. -/
def Result.set (result : Result) (key : Str) (property : Property) : Result :=
  if key = PROTO then
    match property with
    | .array items => { result with proto := some items }
    | .single _ => result
  else { result with own := result.own.set key property }

/-- What a name is set to, with one more value. -/
def extend (value : Str) : Option Property → Property
  | some (.array existing) => .array (existing ++ [.text value])
  | some (.single existing) => .array [existing, .text value]
  | none => .single (.text value)

/-- One turn of the loop. -/
def addField (result : Result) (field : Str × Str) : Result :=
  result.set field.1 (extend field.2 (result.get? arrayPrototype field.1))

def formBody (params : List (Str × Str)) : Result := params.foldl (addField arrayPrototype) {}

/-- A body, by its text: `toString('utf8')` of a buffer, `String()` of any other object. -/
inductive Body where
  | string (text : Str)
  | buffer (text : Str)
  | object (text : Str)

def Body.text : Body → Str
  | .string text | .buffer text | .object text => text

def Body.isFalsy : Body → Bool
  | .string text => text.isEmpty
  | .buffer _ | .object _ => false

def extractMimeType (toLowerCase : Str → Str) (contentType : Str) : Str :=
  toLowerCase (Str.trim (contentType.takeWhile fun u => u != unit ';'))

def FORM : Str := lit "application/x-www-form-urlencoded"

inductive Parsed where
  | json (value : Json)
  | form (result : Result)

/-- `parseBody`, where `null` is `none`. -/
def parseBody (urlSearchParams : Str → List (Str × Str)) (toLowerCase : Str → Str)
    (body : Option Body) (contentType : Option Str) : Option Parsed :=
  match body, contentType with
  | some body, some contentType =>
    if body.isFalsy ∨ contentType = [] then none
    else
      let mime := extractMimeType toLowerCase contentType
      if mime = lit "application/json" ∨ mime = lit "text/json" then
        match body with
        | .string text | .buffer text => (Json.parse text).map .json
        | .object _ => none
      else if mime = FORM then some (.form (formBody arrayPrototype (urlSearchParams body.text)))
      else none
  | _, _ => none

/-! ## What the grouping is for -/

/-- The values of a name: one by itself, or a list. -/
def group : List Str → Option Property
  | [] => none
  | [value] => some (.single (.text value))
  | values => some (.array (values.map .text))

/-- **What the grouping is for**: the names of the fields are the properties of the object, each
with all its values in order. -/
def Grouped (result : Result) (params : List (Str × Str)) : Prop :=
  ∀ key, result.own.get? key = group (OrderedMap.addressed key params)

/-! ## Names that no object inherits -/

theorem foldl_extend (value : Str) (values : List Str) :
    values.foldl (fun property value => some (extend value property))
      (some (.single (.text value))) = group (value :: values) := by
  have harray : ∀ (values : List Str) (items : List Item),
      values.foldl (fun property value => some (extend value property)) (some (.array items)) =
        some (.array (items ++ values.map .text)) := by
    intro values
    induction values with
    | nil => exact fun items => by rw [map_nil, append_nil]; rfl
    | cons value values ih =>
      intro items
      rw [foldl_cons, extend, ih, append_assoc]
      rfl
  cases values with
  | nil => rfl
  | cons value' values =>
    rw [foldl_cons, extend, harray]
    rfl

/-- **A name that no object inherits** is grouped by itself. -/
theorem view_addField {result : Result} (hproto : result.proto = none) {field : Str × Str}
    (hfield : field.1 ∉ objectPrototype) : addField arrayPrototype result field =
      { result with own := result.own.set field.1 (extend field.2 (result.own.get? field.1)) } := by
  have hne : field.1 ≠ PROTO := fun he => hfield (he ▸ by decide)
  have hinherited : result.inherited arrayPrototype field.1 = none := by
    rw [Result.inherited, hproto]
    exact if_neg hfield
  have hget : result.get? arrayPrototype field.1 = result.own.get? field.1 := by
    rw [Result.get?, hinherited, Option.or_none]
  rw [addField, hget]
  exact if_neg hne

/-- **A body without such names** is grouped. -/
theorem grouped_formBody {params : List (Str × Str)}
    (h : ∀ field ∈ params, field.1 ∉ objectPrototype) :
    Grouped (formBody arrayPrototype params) params := by
  have hrun : ∀ (params : List (Str × Str)) (result : Result), result.proto = none →
      (∀ field ∈ params, field.1 ∉ objectPrototype) →
      (params.foldl (addField arrayPrototype) result).own =
        params.foldl (fun m e => m.set e.1 (extend e.2 (m.get? e.1))) result.own := by
    intro params
    induction params with
    | nil => exact fun _ _ _ => rfl
    | cons field params ih =>
      intro result hproto hall
      obtain ⟨hfield, hrest⟩ := forall_mem_cons.mp hall
      rw [foldl_cons, view_addField arrayPrototype hproto hfield]
      exact ih _ hproto hrest
  intro key
  rw [formBody, hrun params {} rfl h, OrderedMap.get?_foldl_alter]
  cases OrderedMap.addressed key params with
  | nil => rfl
  | cons value values => exact foldl_extend value values

/-! ## Names that every object inherits -/

/-- A property that does not hold values alone. -/
def Badly (property : Property) : Prop := ∃ key items, property = .array (.inherited key :: items)

variable {key : Str}

/-- No name that is inherited is an index. -/
theorem natString_ne (h : key ∈ objectPrototype) (i : ℕ) : Str.natString 10 i ≠ key := by
  intro he
  have hnondigits : ∀ key ∈ objectPrototype, key.any fun u => !Number.isDigit u := by decide
  obtain ⟨u, hu, hnot⟩ := any_eq_true.mp (hnondigits key h)
  rw [Number.isDigit_of_mem_natString u (he ▸ hu)] at hnot
  cases hnot

theorem inherited_of_mem (result : Result) (h : key ∈ objectPrototype) (hne : key ≠ PROTO) :
    result.inherited arrayPrototype key = some (.single (.inherited key)) := by
  unfold Result.inherited
  cases result.proto with
  | none => exact if_pos h
  | some items =>
    have hfind : ((range items.length).find? fun i => decide (Str.natString 10 i = key)) = none :=
      find?_eq_none.mpr fun i _ => by simp [natString_ne h i]
    simp only [if_neg hne, hfind]
    exact if_pos (.inr (.inr h))

/-- **A name that every object inherits** never gets its values alone. -/
theorem badly_addField {result : Result} (h : key ∈ objectPrototype)
    (hbadly : ∀ property ∈ result.own.get? key, Badly property) (field : Str × Str) :
    ∀ property ∈ (addField arrayPrototype result field).own.get? key, Badly property := by
  unfold addField Result.set
  by_cases hproto : field.1 = PROTO
  · rw [if_pos hproto]
    rcases extend field.2 (result.get? arrayPrototype field.1) with item | items
    · exact hbadly
    · exact hbadly
  · rw [if_neg hproto]
    rw [OrderedMap.get?_set]
    by_cases hkey : key = field.1
    · rw [if_pos hkey, ← hkey, Result.get?,
        inherited_of_mem arrayPrototype result h (hkey ▸ hproto)]
      rintro property ⟨⟩
      cases hown : result.own.get? key with
      | none => exact ⟨key, _, rfl⟩
      | some property =>
        obtain ⟨key', items, rfl⟩ := hbadly property hown
        exact ⟨key', _, rfl⟩
    · rw [if_neg hkey]
      exact hbadly

theorem not_grouped_formBody {params : List (Str × Str)} {field : Str × Str}
    (hmem : field ∈ params) (hfield : field.1 ∈ objectPrototype) :
    ¬Grouped (formBody arrayPrototype params) params := by
  have hbadly : ∀ property ∈ (formBody arrayPrototype params).own.get? field.1, Badly property :=
    foldlRecOn params _ (motive := fun (r : Result) => ∀ property ∈ r.own.get? field.1,
      Badly property) (fun _ h => by cases h) fun _ h e _ => badly_addField arrayPrototype hfield h e
  have hvalue : field.2 ∈ OrderedMap.addressed field.1 params :=
    mem_filterMap.mpr ⟨field, hmem, if_pos rfl⟩
  intro hgrouped
  rw [hgrouped field.1] at hbadly
  match OrderedMap.addressed field.1 params, hvalue, hbadly with
  | [_], _, hbadly | _ :: _ :: _, _, hbadly =>
    obtain ⟨_, _, he⟩ := hbadly _ rfl
    cases he

/-! ## The result -/

variable (urlSearchParams : Str → List (Str × Str)) (toLowerCase : Str → Str)

/-- **The fields of a form are grouped** exactly when none has a name that every object inherits. -/
theorem parseBody_grouped_iff {body : Body} {contentType : Str} (hbody : body.isFalsy = false)
    (htype : contentType ≠ []) (hmime : extractMimeType toLowerCase contentType = FORM) :
    ∃ result, parseBody arrayPrototype urlSearchParams toLowerCase (some body) (some contentType) =
        some (.form result) ∧
      (Grouped result (urlSearchParams body.text) ↔
        ∀ field ∈ urlSearchParams body.text, field.1 ∉ objectPrototype) := by
  refine ⟨formBody arrayPrototype (urlSearchParams body.text), ?_, ?_, ?_⟩
  · have hjson : ¬(FORM = lit "application/json" ∨ FORM = lit "text/json") := by decide
    have hfalsy : ¬(body.isFalsy = true ∨ contentType = []) := by
      rw [hbody]
      exact fun h => h.elim Bool.false_ne_true htype
    simp only [parseBody, if_neg hfalsy, hmime, if_neg hjson]
    rfl
  · intro hgrouped field hmem hfield
    exact not_grouped_formBody arrayPrototype hmem hfield hgrouped
  · exact grouped_formBody arrayPrototype

/-- The body `a=1&a=2`. -/
theorem parseBody_grouped_pair : ∃ result, parseBody [] (fun _ => [(lit "a", lit "1"),
    (lit "a", lit "2")]) id (some (.string (lit "a=1&a=2"))) (some FORM) = some (.form result) ∧
      Grouped result [(lit "a", lit "1"), (lit "a", lit "2")] := by
  obtain ⟨result, hparse, hiff⟩ := parseBody_grouped_iff [] (fun _ => [(lit "a", lit "1"),
    (lit "a", lit "2")]) id (show (Body.string (lit "a=1&a=2")).isFalsy = false by decide)
    (show FORM ≠ [] by decide) (by decide)
  exact ⟨result, hparse, hiff.mpr (by decide)⟩

/-- The value of the body `constructor=x` comes behind the constructor. -/
theorem not_grouped_constructor : ¬∀ (body : Body) (contentType : Str), body.isFalsy = false →
    contentType ≠ [] → extractMimeType id contentType = FORM → ∃ result,
      parseBody [] (fun _ => [(lit "constructor", lit "x")]) id (some body) (some contentType) =
        some (.form result) ∧ Grouped result [(lit "constructor", lit "x")] := by
  intro h
  obtain ⟨result, hparse, hgrouped⟩ := h (.string (lit "constructor=x")) FORM (by decide)
    (by decide) (by decide)
  cases Option.some_inj.mp hparse
  exact not_grouped_formBody [] mem_cons_self (by decide) hgrouped

end DdTrace.Appsec.FormBody
