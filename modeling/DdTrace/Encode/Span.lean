import DdTrace.Library.OrderedMap
import DdTrace.Propagation.Id

/-!
# Spans as the encoders take them

A formatted span, with what its fields can hold at run time where an encoder looks at it: a name
that is not there or is no string, a map that is not there, a value of another type in it.  The
objects that a `meta_struct` refers to are kept in a heap of their own, so that one of them can
occur twice or within itself.

`normalizeSpan` and `truncateSpanTestOpt` are those of `encode/tags-processors.js`.
-/

open Library

namespace DdTrace.Encode

/-! ## Fields -/

/-- A text field: a string, nothing, or something that is true and no string, of which only what
it is as a key of an object matters. -/
inductive Text where
  | undefined
  | str (s : Str)
  | other (key : Str)
  deriving DecidableEq

namespace Text

/-- The key that indexing an object with the field uses. -/
def key : Text → Str
  | .undefined => lit "undefined"
  | .str s => s
  | .other k => k

def truthy : Text → Bool
  | .undefined => false
  | .str s => !s.isEmpty
  | .other _ => true

/-- `slice(0, n)` where the field is longer. -/
def cut (n : ℕ) : Text → Text
  | .str s => if s.length > n then .str (s.take n) else .str s
  | t => t

def isString : Text → Bool
  | .str _ => true
  | _ => false

/-- The characters of a field that is a string. -/
def chars : Text → Str
  | .str s => s
  | _ => []

end Text

/-- An entry of `meta` or of `metrics`; what is neither a string nor a number has no length, and
only `null` and `undefined` have no properties. -/
inductive Scalar where
  | str (s : Str)
  | num (d : Binary64)
  | null
  | other
  deriving DecidableEq

/-- An attribute of a span event. -/
inductive Attribute where
  | str (s : Str)
  | num (d : Binary64)
  | bool (b : Bool)
  | array (l : List Attribute)
  | other

/-- A span event; the name is none where it is no string or there is no event at all. -/
structure SpanEvent where
  name : Option Str
  startTime : Binary64
  attributes : Option (OrderedMap Str Attribute)

/-- What a `meta_struct` holds: primitives, references to objects, and whatever is neither. -/
inductive JsValue where
  | str (s : Str)
  | num (d : Binary64)
  | bool (b : Bool)
  | ref (n : ℕ)
  | other
  deriving DecidableEq

/-- An object of the heap.  A property whose getter throws has no value. -/
inductive JsObject where
  | array (items : List JsValue)
  | object (entries : OrderedMap Str (Option JsValue))
  deriving DecidableEq

structure Span where
  traceId : Identifier
  spanId : Identifier
  parentId : Identifier
  name : Text
  resource : Text
  service : Text
  type : Text
  error : Binary64
  start : Binary64
  duration : Binary64
  «meta» : Option (OrderedMap Str Scalar)
  metrics : Option (OrderedMap Str Scalar)
  spanEvents : Option (List SpanEvent)
  metaStruct : Option ℕ

/-- The spans that are handed over at once, and the objects they refer to. -/
structure Trace where
  spans : List Span
  objects : ℕ → JsObject

/-! ## `encode/tags-processors.js` -/

def MAX_RESOURCE_NAME_LENGTH : ℕ := 5000
def MAX_META_VALUE_LENGTH_TEST_OPTIMIZATION : ℕ := 5000
def MAX_NAME_LENGTH : ℕ := 100
def MAX_SERVICE_LENGTH : ℕ := 100
def MAX_TYPE_LENGTH : ℕ := 100
def DEFAULT_SPAN_NAME : Str := lit "unnamed_operation"
def DEFAULT_SERVICE_NAME : Str := lit "unnamed-service"

def ellipsis : Str := lit "..."

def normalizeSpan (span : Span) : Span :=
  let service := if span.service.truthy then span.service else .str DEFAULT_SERVICE_NAME
  let name := if span.name.truthy then span.name else .str DEFAULT_SPAN_NAME
  let name := name.cut MAX_NAME_LENGTH
  { span with
    service := service.cut MAX_SERVICE_LENGTH
    name := name
    resource := if span.resource.truthy then span.resource else name
    type := span.type.cut MAX_TYPE_LENGTH }

/-- A string cut to `n` characters, with the dots that say so. -/
def truncateText (n : ℕ) (s : Str) : Str := if s.length > n then s.take n ++ ellipsis else s

def truncateSpan (span : Span) : Span :=
  { span with
    resource := match span.resource with
      | .str s => .str (truncateText MAX_RESOURCE_NAME_LENGTH s)
      | t => t }

def truncateScalar : Scalar → Scalar
  | .str s => .str (truncateText MAX_META_VALUE_LENGTH_TEST_OPTIMIZATION s)
  | v => v

/-- Asking `null` for its length throws. -/
def truncateSpanTestOpt (span : Span) : Option Span :=
  match span.meta with
  | none => some (truncateSpan span)
  | some tags =>
    if .null ∈ tags.values then none
    else some { truncateSpan span with «meta» := some (tags.mapValues truncateScalar) }

end DdTrace.Encode
