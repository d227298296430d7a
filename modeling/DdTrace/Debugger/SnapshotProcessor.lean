import DdTrace.Library.Json
import DdTrace.Library.Number
import DdTrace.Library.OrderedMap

/-!
# Redacted values in snapshots

The debugger captures the variables of a stack frame as a graph of remote objects, which
`processRawState` of `snapshot/processor.js` turns into the object that is sent.  What is stored
under a name whose normalized form is one of the redacted identifiers, or in a map under such a
key, is replaced by its type.

`mask` takes from a graph what is stored under redacted names, and leaves a value of the same type:
the one that the inspector tells, the name of the class, the text in front of the body of a class,
and the description of a proxy, which names the type of its target.

* `type_valueRaw`: the type that is sent of a value is told from these alone.
* `valueRaw_mask`, `processProperties_mask`: nothing else of a redacted value is sent.
* `processed_eq_of_mask`: **two captures that differ only in redacted values of the same types give
  the same snapshot, and the same text**.
-/

open Library

namespace DdTrace.Debugger.SnapshotProcessor

open List

/-! ## Captures -/

/-- What a property has besides its value: its name, whether it is a symbol, and the types of its
accessors other than `undefined`. -/
structure PropertyInfo where
  name : Str
  symbol : Bool
  accessors : Option (Bool × Bool)

/-- The sizes that the collector leaves with what it has cut. -/
structure Marks where
  collectionSize : Option Numeral
  tooLarge : Option Numeral

/-- The subtypes whose properties are sent as fields. -/
inductive Subtype where
  | none
  | error
  | proxy
  | promise
  | generator
  deriving DecidableEq

mutual

/-- A remote object with what has been collected of it.  Of a number, `byte` is what a buffer holds
of it; `timeout` says that the time was over before the properties were collected. -/
inductive Remote where
  | undefined
  | string (value : Str)
  | number (description : Str) (byte : UInt8)
  | boolean (value : Bool)
  | symbol (description : Str)
  | bigint (description : Str)
  | function (className description : Str) (timeout : Bool) (properties : Option (List Property))
      (fieldCount : Option Numeral)
  | null
  | regexp (className description : Str)
  | date (className description : Str)
  | object (subtype : Subtype) (className description : Str) (timeout : Bool)
      (properties : Option (List Property)) (fieldCount : Option Numeral)
  | array (className : Str) (timeout : Bool) (elements : Option (List Property)) (marks : Marks)
  | arrayBuffer (className : Str) (timeout : Bool) (bytes : Option (List Property))
  | map (className : Str) (timeout : Bool) (pairs : Option (List Entry)) (marks : Marks)
  | set (className : Str) (timeout : Bool) (values : Option (List Element)) (marks : Marks)
  | unsupported (subtype : Str)
  | other (type : Str)

inductive Property where
  | mk (info : PropertyInfo) (value : Option Remote)

/-- The wrapper of an entry of a map. -/
inductive Entry where
  | timeout
  | unknown
  | pair (keyInfo : PropertyInfo) (key : Remote) (valueInfo : PropertyInfo) (value : Remote)

/-- The wrapper of an element of a set. -/
inductive Element where
  | timeout
  | unknown
  | element (info : PropertyInfo) (value : Remote)

end

/-! ## The source -/

/-- The redacted identifiers, the maximum length of a string, the text of the threshold for large
collections, and what is used of the language: `toLowerCase`, and the time of a date by its
description. -/
structure Settings where
  redactedIdentifiers : List Str
  maxLength : ℕ
  skipThreshold : Str
  toLowerCase : Str → Str
  isoDate : Str → Option Str

variable (S : Settings)

def normalizeName (name : Str) (isSymbol : Bool) : Str :=
  let name := if isSymbol then (name.take (name.length - 1)).drop 7 else name
  (S.toLowerCase name).filter fun u => !includes (lit "-_@$.") u

def isRedacted (name : Str) (isSymbol : Bool) : Bool :=
  includes S.redactedIdentifiers (normalizeName S name isSymbol)

abbrev Members := List (Str × Json)

/-- What is sent of a value: its type, and the other members. -/
structure Snapshot where
  type : Str
  members : Members

def Snapshot.toJson (s : Snapshot) : Json := .obj ((lit "type", .str s.type) :: s.members)

def reason (text : Str) : Str × Json := (lit "notCapturedReason", .str text)

def notCapturedDepth (type : Str) : Snapshot := ⟨type, [reason (lit "depth")]⟩

def notCapturedRedacted (type : Str) : Snapshot := ⟨type, [reason (lit "redactedIdent")]⟩

def notCapturedTimeBudget (type : Str) : Snapshot := ⟨type, [reason (lit "timeout")]⟩

/-- `redact` -/
def redact (info : PropertyInfo) (obj : Snapshot) : Snapshot :=
  if isRedacted S info.name info.symbol then notCapturedRedacted obj.type else obj

/-- `shouldRedactMapValue` -/
def shouldRedactMapValue : Remote → Bool
  | .symbol description => isRedacted S description true
  | .string value => isRedacted S value false
  | _ => false

/-- The type that the inspector tells. -/
def Remote.type : Remote → Str
  | .undefined => lit "undefined"
  | .string _ => lit "string"
  | .number _ _ => lit "number"
  | .boolean _ => lit "boolean"
  | .symbol _ => lit "symbol"
  | .bigint _ => lit "bigint"
  | .function _ _ _ _ _ => lit "function"
  | .other type => type
  | _ => lit "object"

/-- An assignment to a plain object.  That of an object to `__proto__` sets its prototype. -/
def assign (result : Members) (name : Str) (value : Json) : Members :=
  if name = lit "__proto__" then result else OrderedMap.setEntries name value result

/-- The name of a field, without periods. -/
def fieldName (name : Str) : Str := Str.replace (unit '.') (unit '_') name

theorem isMagnitude_natString (n : ℕ) :
    isMagnitude (if (Str.natString 10 n).headD 0 = unit '-' then (Str.natString 10 n).drop 1
      else Str.natString 10 n) = true := by
  have hdigit : ∀ u ∈ Str.natString 10 n, isDecimalDigit u = true := by
    intro u hu
    obtain ⟨hlow, hhigh⟩ := Number.isDigit_iff.mp (Number.isDigit_of_mem_natString u hu)
    unfold isDecimalDigit
    rw [Bool.and_eq_true, decide_eq_true_eq, decide_eq_true_eq]
    exact ⟨UInt16.le_iff_toNat_le.mpr hlow, UInt16.le_iff_toNat_le.mpr hhigh⟩
  obtain ⟨u, s, hs⟩ := exists_cons_of_ne_nil (Str.natString_ne_nil 10 n)
  rw [hs] at hdigit ⊢
  have hu := hdigit u mem_cons_self
  have hsign : u ≠ unit '-' := by
    rintro rfl
    exact absurd hu (by decide)
  rw [headD_cons, if_neg hsign]
  unfold isMagnitude
  rw [dropWhile_eq_nil_iff.mpr hdigit, headD_cons, hu]
  simp [isFraction]

/-- The number of a length. -/
def lengthNumeral (n : ℕ) : Numeral := ⟨Str.natString 10 n, isMagnitude_natString n⟩

/-- `toString` -/
def toString (str : Str) : Snapshot :=
  if str.length ≤ S.maxLength then ⟨lit "string", [(lit "value", .str str)]⟩
  else ⟨lit "string", [(lit "value", .str (str.take S.maxLength)), (lit "truncated", .bool true),
    (lit "size", .num (lengthNumeral str.length))]⟩

/-- What `CLASS_REGEX` finds behind the word `class`, up to the body. -/
def classMatch (description : Str) : Option Str :=
  if (lit "class").isPrefixOf description then
    match description.drop 5 with
    | u :: rest => if Str.isSpace u then some (rest.takeWhile fun u => u ≠ unit '\x7b') else none
    | [] => none
  else none

def classType (header : Str) : Str :=
  if Str.trim header = [] then lit "class" else lit "class " ++ Str.trim header

/-- The type of an object with fields. -/
def objectType (subtype : Subtype) (className description : Str) : Str :=
  match subtype with
  | .proxy => description
  | .generator => lit "generator"
  | _ => className

/-- `setNotCaptureReasonOnCollection` and `setNotCaptureReasonOnTooLargeCollection` -/
def setNotCaptureReasons (marks : Marks) (result : Members) : Members :=
  let result :=
    match marks.collectionSize with
    | none => result
    | some size => assign (assign result (lit "notCapturedReason") (.str (lit "collectionSize")))
        (lit "size") (.num size)
  match marks.tooLarge with
  | none => result
  | some size => assign (assign result (lit "notCapturedReason")
      (.str (lit "Large collection with too many elements (skip threshold: " ++ S.skipThreshold ++
        lit ")"))) (lit "size") (.num size)

/-- What is sent of an object whose contents may not have been collected. -/
def collected {α : Type*} (type : Str) (timeBudgetReached : Bool) (contents : Option α)
    (capture : α → Snapshot) : Snapshot :=
  if timeBudgetReached then notCapturedTimeBudget type
  else
    match contents with
    | none => notCapturedDepth type
    | some contents => capture contents

/-- What is sent of the fields of an object. -/
def withFields (type : Str) (fields : Members) (fieldCount : Option Numeral) : Snapshot :=
  ⟨type, (lit "fields", .obj fields) ::
    match fieldCount with
    | none => []
    | some size => [reason (lit "fieldCount"), (lit "size", .num size)]⟩

/-- The byte of an element of a buffer. -/
def Property.byte : Property → UInt8
  | .mk _ (some (.number _ byte)) => byte
  | _ => 0

/-- What is sent of the bytes of a buffer. -/
def bufferMembers (bytes : List Property) : Members :=
  if bytes.length > S.maxLength then
    [(lit "value", .str (Unicode.decodeLossy ((bytes.take S.maxLength).map Property.byte))),
      (lit "truncated", .bool true), (lit "size", .num (lengthNumeral bytes.length))]
  else [(lit "value", .str (Unicode.decodeLossy (bytes.map Property.byte)))]

def Entry.isTimeout : Entry → Bool
  | .timeout => true
  | _ => false

def Element.isTimeout : Element → Bool
  | .timeout => true
  | _ => false

/-- There are wrappers, and the time was over before any of them was collected. -/
def everyTimeout {α : Type*} (isTimeout : α → Bool) (l : Option (List α)) : Bool :=
  l.any fun l => !l.isEmpty && l.all isTimeout

/-- The accessors of a property. -/
def accessorType : Option (Bool × Bool) → Option Str
  | some (true, true) => some (lit "getter/setter")
  | some (true, false) => some (lit "getter")
  | some (false, true) => some (lit "setter")
  | _ => none

/-- The time of a date, without milliseconds. -/
def dateValue (description : Str) : Str :=
  match S.isoDate description with
  | none => description
  | some iso => iso.take (iso.length - 5) ++ lit "Z"

mutual

/-- `getObjectValue` and the functions that it calls, and what `getPropertyValueRaw` makes of the
other types. -/
def valueRaw : Remote → Snapshot
  | .undefined => ⟨lit "undefined", []⟩
  | .string value => toString S value
  | .number description _ => ⟨lit "number", [(lit "value", .str description)]⟩
  | .boolean value =>
    ⟨lit "boolean", [(lit "value", .str (if value then lit "true" else lit "false"))]⟩
  | .symbol description => ⟨lit "symbol", [(lit "value", .str description)]⟩
  | .bigint description =>
    ⟨lit "bigint", [(lit "value", .str (description.take (description.length - 1)))]⟩
  | .function className description timeout properties fieldCount =>
    let fields := fieldsOf properties
    match classMatch description with
    | some header => ⟨classType header, []⟩
    | none =>
      collected className timeout fields fun fields => withFields className fields fieldCount
  | .null => ⟨lit "null", [(lit "isNull", .bool true)]⟩
  | .regexp className description => ⟨className, [(lit "value", .str description)]⟩
  | .date className description => ⟨className, [(lit "value", .str (dateValue S description))]⟩
  | .object subtype className description timeout properties fieldCount =>
    let type := objectType subtype className description
    collected type timeout (fieldsOf properties) fun fields => withFields type fields fieldCount
  | .array className timeout elements marks =>
    collected className timeout (elementsOf elements) fun elements =>
      ⟨className, setNotCaptureReasons S marks [(lit "elements", .arr elements)]⟩
  | .arrayBuffer className timeout bytes =>
    collected className timeout bytes fun bytes => ⟨className, bufferMembers S bytes⟩
  | .map className timeout pairs marks =>
    collected className timeout (entriesOf pairs) fun entries =>
      if everyTimeout Entry.isTimeout pairs then notCapturedTimeBudget className
      else ⟨className, setNotCaptureReasons S marks [(lit "entries", .arr entries)]⟩
  | .set className timeout values marks =>
    collected className timeout (valuesOf values) fun elements =>
      if everyTimeout Element.isTimeout values then notCapturedTimeBudget className
      else ⟨className, setNotCaptureReasons S marks [(lit "elements", .arr elements)]⟩
  | .unsupported subtype => ⟨subtype, [reason (lit "Unsupported object type")]⟩
  | .other type => ⟨type, [reason (lit "Unsupported property type")]⟩

/-- `getPropertyValue`: the accessors of a property come before its value. -/
def propertyValue : Property → Snapshot
  | .mk info value =>
    let raw := optionValueRaw value
    redact S info <|
      match accessorType info.accessors with
      | some type => ⟨type, []⟩
      | none => raw

def optionValueRaw : Option Remote → Snapshot
  | none => ⟨lit "undefined", []⟩
  | some value => valueRaw value

/-- `processProperties`, with the result so far. -/
def processProperties : List Property → Members → Members
  | [], result => result
  | .mk info value :: props, result => processProperties props
      (assign result (fieldName info.name) (propertyValue (.mk info value)).toJson)

def fieldsOf : Option (List Property) → Option Members
  | none => none
  | some props => some (processProperties props [])

/-- The elements of an array. -/
def processElements : List Property → List Json
  | [] => []
  | element :: elements => (propertyValue element).toJson :: processElements elements

def elementsOf : Option (List Property) → Option (List Json)
  | none => none
  | some elements => some (processElements elements)

/-- The entries of a map. -/
def processEntries : List Entry → List Json
  | [] => []
  | .timeout :: pairs =>
    .arr [.obj [reason (lit "timeout")], .obj [reason (lit "timeout")]] :: processEntries pairs
  | .unknown :: pairs =>
    .arr [.obj [reason (lit "unknown")], .obj [reason (lit "unknown")]] :: processEntries pairs
  | .pair keyInfo key valueInfo value :: pairs =>
    .arr [(redact S keyInfo (valueRaw key)).toJson,
      (if shouldRedactMapValue S key then notCapturedRedacted value.type
        else redact S valueInfo (valueRaw value)).toJson] :: processEntries pairs

def entriesOf : Option (List Entry) → Option (List Json)
  | none => none
  | some pairs => some (processEntries pairs)

/-- The elements of a set. -/
def processValues : List Element → List Json
  | [] => []
  | .timeout :: values => .obj [reason (lit "timeout")] :: processValues values
  | .unknown :: values => .obj [reason (lit "unknown")] :: processValues values
  | .element info value :: values => (redact S info (valueRaw value)).toJson :: processValues values

def valuesOf : Option (List Element) → Option (List Json)
  | none => none
  | some values => some (processValues values)

end

/-- `processRawState` -/
def processRawState (props : List Property) : Members := processProperties S props []

/-- `processRemoteObject` -/
def processRemoteObject (remoteObject : Remote) : Snapshot := valueRaw S remoteObject

/-! ## Masks -/

/-- A value of the same type of which nothing else is known. -/
def Remote.erase : Remote → Remote
  | .undefined => .undefined
  | .string _ => .string []
  | .number _ _ => .number [] 0
  | .boolean _ => .boolean false
  | .symbol _ => .symbol []
  | .bigint _ => .bigint []
  | .function className description _ _ _ => .function className (match classMatch description with
        | some header => lit "class " ++ header
        | none => [])
      false none none
  | .null => .null
  | .regexp className _ => .regexp className []
  | .date className _ => .date className []
  | .object subtype className description _ _ _ =>
    .object subtype className (if subtype = .proxy then description else []) false none none
  | .array className _ _ _ => .array className false none ⟨none, none⟩
  | .arrayBuffer className _ _ => .arrayBuffer className false none
  | .map className _ _ _ => .map className false none ⟨none, none⟩
  | .set className _ _ _ => .set className false none ⟨none, none⟩
  | .unsupported subtype => .unsupported subtype
  | .other type => .other type

mutual

/-- A value without what is stored in it under redacted names. -/
def mask : Remote → Remote
  | .function className description timeout properties fieldCount =>
    .function className description timeout (maskOption properties) fieldCount
  | .object subtype className description timeout properties fieldCount =>
    .object subtype className description timeout (maskOption properties) fieldCount
  | .array className timeout elements marks =>
    .array className timeout (maskOption elements) marks
  | .map className timeout pairs marks => .map className timeout (maskEntriesOption pairs) marks
  | .set className timeout values marks => .set className timeout (maskValuesOption values) marks
  | .undefined => .undefined
  | .string value => .string value
  | .number description byte => .number description byte
  | .boolean value => .boolean value
  | .symbol description => .symbol description
  | .bigint description => .bigint description
  | .null => .null
  | .regexp className description => .regexp className description
  | .date className description => .date className description
  | .arrayBuffer className timeout bytes => .arrayBuffer className timeout bytes
  | .unsupported subtype => .unsupported subtype
  | .other type => .other type

def maskProperty : Property → Property
  | .mk info value => .mk info (if isRedacted S info.name info.symbol then value.map Remote.erase
      else maskValue value)

def maskValue : Option Remote → Option Remote
  | none => none
  | some value => some (mask value)

def maskProperties : List Property → List Property
  | [] => []
  | prop :: props => maskProperty prop :: maskProperties props

def maskOption : Option (List Property) → Option (List Property)
  | none => none
  | some props => some (maskProperties props)

def maskEntries : List Entry → List Entry
  | [] => []
  | .timeout :: pairs => .timeout :: maskEntries pairs
  | .unknown :: pairs => .unknown :: maskEntries pairs
  | .pair keyInfo key valueInfo value :: pairs =>
    .pair keyInfo (mask key) valueInfo
      (if shouldRedactMapValue S key then value.erase else mask value) :: maskEntries pairs

def maskEntriesOption : Option (List Entry) → Option (List Entry)
  | none => none
  | some pairs => some (maskEntries pairs)

def maskValues : List Element → List Element
  | [] => []
  | .timeout :: values => .timeout :: maskValues values
  | .unknown :: values => .unknown :: maskValues values
  | .element info value :: values => .element info (mask value) :: maskValues values

def maskValuesOption : Option (List Element) → Option (List Element)
  | none => none
  | some values => some (maskValues values)

end

variable {S}

/-! ## Types -/

theorem takeWhile_of_classMatch {description header : Str}
    (h : classMatch description = some header) :
    (header.takeWhile fun u => u ≠ unit '\x7b') = header := by
  unfold classMatch at h
  split at h
  · split at h
    · split at h
      · cases h
        rw [takeWhile_takeWhile]
        simp
      · cases h
    · cases h
  · cases h

/-- The text in front of the body of a class is that of a class. -/
theorem classMatch_class {description header : Str} (h : classMatch description = some header) :
    classMatch (lit "class " ++ header) = some header := by
  have hprefix : (lit "class").isPrefixOf (lit "class " ++ header) = true := rfl
  have hdrop : (lit "class " ++ header).drop 5 = unit ' ' :: header := rfl
  have hspace : Str.isSpace (unit ' ') = true := by decide
  unfold classMatch
  rw [if_pos hprefix, hdrop]
  dsimp only
  rw [if_pos hspace, takeWhile_of_classMatch h]

/-- The type that is sent of a value. -/
def Remote.typeName : Remote → Str
  | .undefined => lit "undefined"
  | .string _ => lit "string"
  | .number _ _ => lit "number"
  | .boolean _ => lit "boolean"
  | .symbol _ => lit "symbol"
  | .bigint _ => lit "bigint"
  | .function className description _ _ _ =>
    match classMatch description with
    | some header => classType header
    | none => className
  | .null => lit "null"
  | .regexp className _ => className
  | .date className _ => className
  | .object subtype className description _ _ _ => objectType subtype className description
  | .array className _ _ _ => className
  | .arrayBuffer className _ _ => className
  | .map className _ _ _ => className
  | .set className _ _ _ => className
  | .unsupported subtype => subtype
  | .other type => type

theorem type_collected {α : Type*} {type : Str} {timeout : Bool} {contents : Option α}
    {capture : α → Snapshot} (h : ∀ contents, (capture contents).type = type) :
    (collected type timeout contents capture).type = type := by
  cases timeout
  · cases contents with
    | none => rfl
    | some contents => exact h contents
  · rfl

/-- **The type that is sent** of a value is its name. -/
theorem type_valueRaw (value : Remote) : (valueRaw S value).type = value.typeName := by
  cases value with
  | string value =>
    rw [valueRaw, toString]
    split <;> rfl
  | function className description timeout properties fieldCount =>
    rw [valueRaw, Remote.typeName]
    cases classMatch description with
    | some header => rfl
    | none => exact type_collected fun _ => rfl
  | object subtype className description timeout properties fieldCount =>
    exact type_collected fun _ => rfl
  | array className timeout elements marks | arrayBuffer className timeout bytes =>
    exact type_collected fun _ => rfl
  | map className timeout pairs marks | set className timeout values marks =>
    refine type_collected fun _ => ?_
    split <;> rfl
  | _ =>
    rfl

theorem typeName_erase (value : Remote) : value.erase.typeName = value.typeName := by
  cases value with
  | function className description timeout properties fieldCount =>
    rw [Remote.erase, Remote.typeName, Remote.typeName]
    cases hclass : classMatch description with
    | none => rfl
    | some header =>
      rw [classMatch_class hclass]
  | object subtype className description timeout properties fieldCount => cases subtype <;> rfl
  | _ => rfl

theorem type_erase (value : Remote) : value.erase.type = value.type := by
  cases value <;> rfl

theorem type_optionValueRaw_erase (value : Option Remote) :
    (optionValueRaw S (value.map Remote.erase)).type = (optionValueRaw S value).type := by
  cases value with
  | none => rfl
  | some value =>
    rw [Option.map_some, optionValueRaw, optionValueRaw, type_valueRaw, type_valueRaw,
      typeName_erase]

/-! ## What is sent of a mask -/

theorem shouldRedactMapValue_mask (key : Remote) :
    shouldRedactMapValue S (mask S key) = shouldRedactMapValue S key := by
  cases key <;> rw [mask] <;> rfl

theorem everyTimeout_maskEntriesOption (pairs : Option (List Entry)) :
    everyTimeout Entry.isTimeout (maskEntriesOption S pairs) =
      everyTimeout Entry.isTimeout pairs := by
  have hlist : ∀ l : List Entry, (maskEntries S l).isEmpty = l.isEmpty ∧
      (maskEntries S l).all Entry.isTimeout = l.all Entry.isTimeout := by
    intro l
    induction l with
    | nil => exact ⟨rfl, rfl⟩
    | cons entry l ih =>
      cases entry <;> rw [maskEntries, all_cons, all_cons, ih.2] <;> exact ⟨rfl, rfl⟩
  cases pairs with
  | none => rfl
  | some pairs =>
    simp only [maskEntriesOption, everyTimeout, Option.any_some, hlist]

theorem everyTimeout_maskValuesOption (values : Option (List Element)) :
    everyTimeout Element.isTimeout (maskValuesOption S values) =
      everyTimeout Element.isTimeout values := by
  have hlist : ∀ l : List Element, (maskValues S l).isEmpty = l.isEmpty ∧
      (maskValues S l).all Element.isTimeout = l.all Element.isTimeout := by
    intro l
    induction l with
    | nil => exact ⟨rfl, rfl⟩
    | cons element l ih =>
      cases element <;> rw [maskValues, all_cons, all_cons, ih.2] <;> exact ⟨rfl, rfl⟩
  cases values with
  | none => rfl
  | some values =>
    simp only [maskValuesOption, everyTimeout, Option.any_some, hlist]

mutual

/-- **Nothing else of a redacted value is sent.** -/
theorem valueRaw_mask : (value : Remote) → valueRaw S (mask S value) = valueRaw S value
  | .function className description timeout properties fieldCount => by
    rw [mask, valueRaw, valueRaw, fieldsOf_mask properties]
  | .object subtype className description timeout properties fieldCount => by
    rw [mask, valueRaw, valueRaw, fieldsOf_mask properties]
  | .array className timeout elements marks => by
    rw [mask, valueRaw, valueRaw, elementsOf_mask elements]
  | .map className timeout pairs marks => by
    rw [mask, valueRaw, valueRaw, entriesOf_mask pairs, everyTimeout_maskEntriesOption]
  | .set className timeout values marks => by
    rw [mask, valueRaw, valueRaw, valuesOf_mask values, everyTimeout_maskValuesOption]
  | .undefined | .string value | .number description byte | .boolean value => by rw [mask]
  | .symbol description | .bigint description | .null => by rw [mask]
  | .regexp className description | .date className description => by rw [mask]
  | .arrayBuffer className timeout bytes | .unsupported subtype | .other type => by rw [mask]

theorem optionValueRaw_mask : (value : Option Remote) →
    optionValueRaw S (maskValue S value) = optionValueRaw S value
  | none => by rw [maskValue]
  | some value => by rw [maskValue, optionValueRaw, optionValueRaw, valueRaw_mask value]

theorem propertyValue_mask : (prop : Property) →
    propertyValue S (maskProperty S prop) = propertyValue S prop
  | .mk info value => by
    rw [maskProperty, propertyValue, propertyValue]
    unfold redact
    by_cases hredacted : isRedacted S info.name info.symbol = true
    · rw [if_pos hredacted, if_pos hredacted, if_pos hredacted]
      cases accessorType info.accessors with
      | some type => rfl
      | none => exact congrArg notCapturedRedacted (type_optionValueRaw_erase value)
    · rw [if_neg hredacted, if_neg hredacted, if_neg hredacted, optionValueRaw_mask value]

theorem processProperties_mask : (props : List Property) → (result : Members) →
    processProperties S (maskProperties S props) result = processProperties S props result
  | [], result => by rw [maskProperties]
  | .mk info value :: props, result => by
    have hvalue := propertyValue_mask (.mk info value)
    rw [maskProperty] at hvalue
    rw [maskProperties, maskProperty, processProperties, processProperties, hvalue,
      processProperties_mask props]

theorem fieldsOf_mask : (properties : Option (List Property)) →
    fieldsOf S (maskOption S properties) = fieldsOf S properties
  | none => by rw [maskOption]
  | some props => by rw [maskOption, fieldsOf, fieldsOf, processProperties_mask props]

theorem processElements_mask : (elements : List Property) →
    processElements S (maskProperties S elements) = processElements S elements
  | [] => by rw [maskProperties]
  | element :: elements => by
    rw [maskProperties, processElements, processElements, propertyValue_mask element,
      processElements_mask elements]

theorem elementsOf_mask : (elements : Option (List Property)) →
    elementsOf S (maskOption S elements) = elementsOf S elements
  | none => by rw [maskOption]
  | some elements => by rw [maskOption, elementsOf, elementsOf, processElements_mask elements]

theorem processEntries_mask : (pairs : List Entry) →
    processEntries S (maskEntries S pairs) = processEntries S pairs
  | [] => by rw [maskEntries]
  | .timeout :: pairs | .unknown :: pairs => by
    rw [maskEntries, processEntries, processEntries, processEntries_mask pairs]
  | .pair keyInfo key valueInfo value :: pairs => by
    rw [maskEntries, processEntries, processEntries, processEntries_mask pairs, valueRaw_mask key,
      shouldRedactMapValue_mask]
    by_cases hredacted : shouldRedactMapValue S key = true
    · rw [if_pos hredacted, if_pos hredacted, if_pos hredacted, type_erase]
    · rw [if_neg hredacted, if_neg hredacted, if_neg hredacted, valueRaw_mask value]

theorem entriesOf_mask : (pairs : Option (List Entry)) →
    entriesOf S (maskEntriesOption S pairs) = entriesOf S pairs
  | none => by rw [maskEntriesOption]
  | some pairs => by rw [maskEntriesOption, entriesOf, entriesOf, processEntries_mask pairs]

theorem processValues_mask : (values : List Element) →
    processValues S (maskValues S values) = processValues S values
  | [] => by rw [maskValues]
  | .timeout :: values | .unknown :: values => by
    rw [maskValues, processValues, processValues, processValues_mask values]
  | .element info value :: values => by
    rw [maskValues, processValues, processValues, valueRaw_mask value, processValues_mask values]

theorem valuesOf_mask : (values : Option (List Element)) →
    valuesOf S (maskValuesOption S values) = valuesOf S values
  | none => by rw [maskValuesOption]
  | some values => by rw [maskValuesOption, valuesOf, valuesOf, processValues_mask values]

end

/-! ## Snapshots -/

/-- The text of a processed state. -/
def message (state : Members) : Str := Json.stringify (.obj state)

/-- **Two captures that differ only in redacted values** of the same types give the same snapshot,
and the same text. -/
theorem processed_eq_of_mask {props props' : List Property}
    (hprops : maskProperties S props = maskProperties S props') {object object' : Remote}
    (hobject : mask S object = mask S object') :
    processRawState S props = processRawState S props' ∧
      message (processRawState S props) = message (processRawState S props') ∧
      processRemoteObject S object = processRemoteObject S object' := by
  have hstate : processRawState S props = processRawState S props' := by
    unfold processRawState
    rw [← processProperties_mask props, hprops, processProperties_mask]
  have hremote : processRemoteObject S object = processRemoteObject S object' := by
    unfold processRemoteObject
    rw [← valueRaw_mask object, hobject, valueRaw_mask]
  exact ⟨hstate, congrArg message hstate, hremote⟩

/-- Settings with one redacted identifier. -/
def plainSettings : Settings := ⟨[lit "password"], 255, lit "500", id, some⟩

/-- A variable of that name, with a period. -/
def variableOf (value : Str) : List Property :=
  [.mk ⟨lit "pass.word", false, none⟩ (some (.string value))]

/-- A map with a key of that name. -/
def mapOf (value : Str) : Remote :=
  .map (lit "Map") false (some [.pair ⟨lit "key", false, none⟩ (.string (lit "password"))
    ⟨lit "value", false, none⟩ (.string value)]) ⟨none, none⟩

/-- The theorem for two values of a variable, and of an entry of a map. -/
theorem processed_eq_of_mask_string : processRawState plainSettings (variableOf (lit "a")) =
        processRawState plainSettings (variableOf (lit "b")) ∧
      processRemoteObject plainSettings (mapOf (lit "a")) =
        processRemoteObject plainSettings (mapOf (lit "b")) := by
  obtain ⟨hstate, -, hremote⟩ := processed_eq_of_mask (S := plainSettings)
    (show maskProperties plainSettings (variableOf (lit "a")) =
      maskProperties plainSettings (variableOf (lit "b")) from rfl)
    (show mask plainSettings (mapOf (lit "a")) = mask plainSettings (mapOf (lit "b")) from rfl)
  exact ⟨hstate, hremote⟩

end DdTrace.Debugger.SnapshotProcessor
