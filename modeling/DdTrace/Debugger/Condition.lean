import DdTrace.Library.Json

/-!
# The expression compiler of dynamic instrumentation

`debugger/devtools_client/condition.js` turns the expressions of a probe, which arrive as JSON, into
JavaScript source for the paused frame: `compile` for a condition or a captured expression, and
`compileSegments` for the segments of a log template.  Both are string templates, and the functions
here are those templates with the same text.

A node is an object whose first entry names its operator.  What is not a node of the language makes
the compiler throw, which is `none` here.  Where a template interpolates a value that is not there,
its text is `undefined`.
-/

namespace DdTrace.Debugger

open Library

/-- The operators of the language. -/
inductive NodeType where
  | not | len | count | isEmpty | isDefined | instanceof | ref
  | eq | ne | gt | ge | lt | le | any | all | and | or | startsWith | endsWith | contains | matches
  | filter | substring | getmember | index
  deriving DecidableEq

/-- The names of the operators. -/
def nodeTypes : List (Str × NodeType) :=
  [(lit "not", .not), (lit "len", .len), (lit "count", .count), (lit "isEmpty", .isEmpty),
    (lit "isDefined", .isDefined), (lit "instanceof", .instanceof), (lit "ref", .ref),
    (lit "eq", .eq), (lit "ne", .ne), (lit "gt", .gt), (lit "ge", .ge), (lit "lt", .lt),
    (lit "le", .le), (lit "any", .any), (lit "all", .all), (lit "and", .and), (lit "or", .or),
    (lit "startsWith", .startsWith), (lit "endsWith", .endsWith), (lit "contains", .contains),
    (lit "matches", .matches), (lit "filter", .filter), (lit "substring", .substring),
    (lit "getmember", .getmember), (lit "index", .index)]

def nodeType (name : Str) : Option NodeType := nodeTypes.lookup name

/-! ## Identifiers -/

/-- `[a-zA-Z_$]` -/
def isIdentifierStart (u : UInt16) : Bool :=
  (unit 'a' ≤ u && u ≤ unit 'z') || (unit 'A' ≤ u && u ≤ unit 'Z') || u == unit '_' || u == unit '$'

/-- `[\w$]` -/
def isIdentifierPart (u : UInt16) : Bool := isIdentifierStart u || isDecimalDigit u

/-- `identifierRegex.test(value)` -/
def isIdentifier : Str → Bool
  | [] => false
  | u :: s =>
    if u = unit '@' then s ≠ [] && s.all isIdentifierPart
    else isIdentifierStart u && s.all isIdentifierPart

def reservedWords : List Str :=
  [lit "break", lit "case", lit "catch", lit "class", lit "const", lit "continue", lit "debugger",
    lit "default", lit "delete", lit "do", lit "else", lit "export", lit "extends", lit "false",
    lit "finally", lit "for", lit "function", lit "if", lit "import", lit "in", lit "instanceof",
    lit "new", lit "null", lit "return", lit "switch", lit "throw", lit "true", lit "try",
    lit "typeof", lit "var", lit "void", lit "while", lit "with", lit "let", lit "static",
    lit "yield", lit "await", lit "enum", lit "implements", lit "interface", lit "package",
    lit "private", lit "protected", lit "public", lit "NaN"]

/-- `PRIMITIVE_TYPES` -/
def primitiveTypes : List Str :=
  [lit "string", lit "number", lit "bigint", lit "boolean", lit "undefined", lit "symbol",
    lit "null"]

/-- `isPrimitiveType`, which no value but a string passes. -/
def isPrimitiveType : Option Json → Option Str
  | some (.str s) => if includes primitiveTypes s then some s else none
  | _ => none

/-- `assertIdentifier`: the text of the value, which is converted for the test and in the template
alike.  Only a string can be a reserved word. -/
def assertIdentifier : Option Json → Option Str
  | none => some (lit "undefined")
  | some (.str s) => if isIdentifier s && !includes reservedWords s then some s else none
  | some value => if isIdentifier value.toText then some value.toText else none

/-! ## The helper templates -/

def isString (operand : Str) : Str :=
  lit "(typeof " ++ operand ++ lit " === 'string' || " ++ operand ++ lit " instanceof String)"

/-- `isInstanceOfCoreType` with a fallback of its own. -/
def isInstanceOfCoreTypeOr (type operand fallback : Str) : Str :=
  lit "(globalThis[Symbol.for('dd-trace')].utilTypes?.is" ++ type ++ lit "?.(" ++ operand ++
    lit ") ?? " ++ fallback ++ lit ")"

def isInstanceOfCoreType (type operand : Str) : Str :=
  isInstanceOfCoreTypeOr type operand (operand ++ lit " instanceof " ++ type)

def isTypedArray (operand : Str) : Str :=
  isInstanceOfCoreTypeOr (lit "TypedArray") operand
    (operand ++ lit " instanceof Object.getPrototypeOf(Int8Array)")

def isArrayOrTypedArray (operand : Str) : Str :=
  lit "(Array.isArray(" ++ operand ++ lit ") || " ++ isTypedArray operand ++ lit ")"

def isIterableCollection (operand : Str) : Str :=
  lit "(" ++ isArrayOrTypedArray operand ++ lit " || " ++
    isInstanceOfCoreType (lit "Set") operand ++ lit " || " ++
    isInstanceOfCoreType (lit "WeakSet") operand ++ lit ")"

/-- The function of `guardAgainstPropertyAccessSideEffects`. -/
def propertyGuard : Str :=
  lit "((val, key) => \x7b\n    if (\n      " ++
    isInstanceOfCoreTypeOr (lit "Proxy") (lit "val") (lit "true") ++
    lit " ||\n      Object.getOwnPropertyDescriptor(val, key)?.get !== undefined\n    ) \x7b\n" ++
    lit "      throw new Error('Possibility of side effect')\n    \x7d else \x7b\n" ++
    lit "      return val[key]\n    \x7d\n  \x7d)"

def guardAgainstPropertyAccessSideEffects (operand propertyName : Str) : Str :=
  propertyGuard ++ lit "(" ++ operand ++ lit ", " ++ propertyName ++ lit ")"

/-- The function of `getSize`. -/
def sizeFunction : Str :=
  lit "((val) => \x7b\n    if (" ++ isString (lit "val") ++ lit " || " ++
    isArrayOrTypedArray (lit "val") ++ lit ") \x7b\n      return " ++
    guardAgainstPropertyAccessSideEffects (lit "val") (lit "\"length\"") ++
    lit "\n    \x7d else if (" ++ isInstanceOfCoreType (lit "Set") (lit "val") ++ lit " || " ++
    isInstanceOfCoreType (lit "Map") (lit "val") ++ lit ") \x7b\n      return " ++
    guardAgainstPropertyAccessSideEffects (lit "val") (lit "\"size\"") ++
    lit "\n    \x7d else if (" ++ isInstanceOfCoreType (lit "WeakSet") (lit "val") ++ lit " || " ++
    isInstanceOfCoreType (lit "WeakMap") (lit "val") ++ lit ") \x7b\n" ++
    lit "      throw new TypeError('Cannot get size of WeakSet or WeakMap')\n" ++
    lit "    \x7d else if (typeof val === 'object' && val !== null) \x7b\n" ++
    lit "      return Object.keys(val).length\n    \x7d else \x7b\n" ++
    lit "      throw new TypeError('Cannot get length of variable')\n    \x7d\n  \x7d)"

def getSize (operand : Str) : Str := sizeFunction ++ lit "(" ++ operand ++ lit ")"

/-- The function of `accessProperty`. -/
def accessFunction (allowMapAccess : Bool) : Str :=
  lit "((val, key) => \x7b\n    if (" ++ isInstanceOfCoreType (lit "Map") (lit "val") ++
    lit ") \x7b\n      " ++
    (if allowMapAccess then lit "return Map.prototype.get.call(val, key)"
      else lit "throw new Error('Accessing a Map is not allowed')") ++
    lit "\n    \x7d else if (" ++ isInstanceOfCoreType (lit "WeakMap") (lit "val") ++
    lit ") \x7b\n      " ++
    (if allowMapAccess then lit "return WeakMap.prototype.get.call(val, key)"
      else lit "throw new Error('Accessing a WeakMap is not allowed')") ++
    lit "\n    \x7d else if (" ++ isInstanceOfCoreType (lit "Set") (lit "val") ++ lit " || " ++
    isInstanceOfCoreType (lit "WeakSet") (lit "val") ++ lit ") \x7b\n" ++
    lit "      throw new Error('Accessing a Set or WeakSet is not allowed')\n" ++
    lit "    \x7d else \x7b\n      return " ++
    guardAgainstPropertyAccessSideEffects (lit "val") (lit "key") ++ lit "\n    \x7d\n  \x7d)"

def accessProperty (operand keyOrIndex : Str) (allowMapAccess : Bool) : Str :=
  accessFunction allowMapAccess ++ lit "(" ++ operand ++ lit ", " ++ keyOrIndex ++ lit ")"

/-- The function of `guardAgainstCoercionSideEffects`. -/
def coercionGuard : Str :=
  lit "((val) => \x7b\n    if (\n      typeof val === 'object' && val !== null && (\n        " ++
    isInstanceOfCoreTypeOr (lit "Proxy") (lit "val") (lit "true") ++
    lit " ||\n        val[Symbol.toPrimitive] !== undefined ||\n" ++
    lit "        val.valueOf !== Object.prototype.valueOf ||\n" ++
    lit "        val.toString !== Object.prototype.toString\n      )\n    ) \x7b\n" ++
    lit "      throw new Error('Possibility of side effect due to coercion methods')\n" ++
    lit "    \x7d else \x7b\n      return val\n    \x7d\n  \x7d)"

/-- The function of `assertString`. -/
def stringAssertion : Str :=
  lit "((val) => \x7b\n    if (" ++ isString (lit "val") ++
    lit ") \x7b\n      return val\n    \x7d else \x7b\n" ++
    lit "      throw new TypeError('Variable is not a string')\n    \x7d\n  \x7d)"

def assertString (operand : Str) : Str := stringAssertion ++ lit "(" ++ operand ++ lit ")"

/-- The function of `contains`. -/
def containsFunction : Str :=
  lit "((obj, elm) => \x7b\n          if (" ++ isString (lit "obj") ++ lit ") \x7b\n" ++
    lit "            return String.prototype.includes.call(obj, elm)\n" ++
    lit "          \x7d else if (Array.isArray(obj)) \x7b\n" ++
    lit "            return Array.prototype.includes.call(obj, elm)\n" ++
    lit "          \x7d else if (" ++ isTypedArray (lit "obj") ++ lit ") \x7b\n" ++
    lit "            return Object.getPrototypeOf(Int8Array.prototype).includes.call(obj, elm)\n" ++
    lit "          \x7d else if (" ++ isInstanceOfCoreType (lit "Set") (lit "obj") ++
    lit ") \x7b\n            return Set.prototype.has.call(obj, elm)\n" ++
    lit "          \x7d else if (" ++ isInstanceOfCoreType (lit "WeakSet") (lit "obj") ++
    lit ") \x7b\n            return WeakSet.prototype.has.call(obj, elm)\n" ++
    lit "          \x7d else if (" ++ isInstanceOfCoreType (lit "Map") (lit "obj") ++
    lit ") \x7b\n            return Map.prototype.has.call(obj, elm)\n" ++
    lit "          \x7d else if (" ++ isInstanceOfCoreType (lit "WeakMap") (lit "obj") ++
    lit ") \x7b\n            return WeakMap.prototype.has.call(obj, elm)\n" ++
    lit "          \x7d else \x7b\n" ++
    lit "            throw new TypeError('Variable does not support contains')\n" ++
    lit "          \x7d\n        \x7d)"

/-- The function of `matches`. -/
def matchesFunction : Str :=
  lit "((str, regex) => \x7b\n          if (" ++ isString (lit "str") ++
    lit ") \x7b\n            const regexIsString = " ++ isString (lit "regex") ++
    lit "\n            if (regexIsString || Object.getPrototypeOf(regex) === RegExp.prototype) " ++
    lit "\x7b\n              return RegExp.prototype.test.call(regexIsString ? " ++
    lit "new RegExp(regex) : regex, str)\n            \x7d else \x7b\n" ++
    lit "              throw new TypeError('Regular expression must be either a string or an " ++
    lit "instance of RegExp')\n            \x7d\n          \x7d else \x7b\n" ++
    lit "            throw new TypeError('Variable is not a string')\n" ++
    lit "          \x7d\n        \x7d)"

/-! The templates of the iterators stand around their callbacks, which are part of the body. -/

/-- `iterateOn`, up to the first callback, between the two, and after the second. -/
def iterateHead (fnName : Str) : Str :=
  lit "(($dd_val) => \x7b\n    return " ++ isIterableCollection (lit "$dd_val") ++
    lit "\n      ? Array.from($dd_val)." ++ fnName ++ lit "(($dd_it) => "

def iterateMiddle (fnName : Str) : Str :=
  lit ")\n      : Object.entries($dd_val)." ++ fnName ++ lit "(([$dd_key, $dd_value]) => "

def iterateTail : Str := lit ")\n  \x7d)("

def iterateOn (fnName operand callbackCode : Str) : Str :=
  iterateHead fnName ++ callbackCode ++ iterateMiddle fnName ++ callbackCode ++ iterateTail ++
    operand ++ lit ")"

def filterHead : Str :=
  lit "(($dd_var) => \x7b\n          return " ++ isIterableCollection (lit "$dd_var") ++
    lit "\n            ? Array.from($dd_var).filter(($dd_it) => "

def filterMiddle : Str :=
  lit ")\n            : Object.entries($dd_var).reduce((acc, [$dd_key, $dd_value]) => \x7b\n" ++
    lit "                if ("

def filterTail : Str :=
  lit ") acc[$dd_key] = $dd_value\n                return acc\n" ++
    lit "              \x7d, \x7b\x7d)\n        \x7d)("

def filterOn (operand callbackCode : Str) : Str :=
  filterHead ++ callbackCode ++ filterMiddle ++ callbackCode ++ filterTail ++ operand ++ lit ")"

def substringHead : Str :=
  lit "((str) => \x7b\n          if (" ++ isString (lit "str") ++
    lit ") \x7b\n            return String.prototype.substring.call(str, "

def substringTail : Str :=
  lit ")\n          \x7d else \x7b\n            throw new TypeError('Variable is not a string')\n" ++
    lit "          \x7d\n        \x7d)("

def substringOf (operand start stop : Str) : Str :=
  substringHead ++ start ++ lit ", " ++ stop ++ substringTail ++ operand ++ lit ")"

def isDefinedHead : Str := lit "(() => \x7b\n      try \x7b\n        "

def isDefinedTail : Str :=
  lit "\n        return true\n      \x7d catch \x7b\n        return false\n      \x7d\n    \x7d)()"

/-! ## `compile` -/

/-- What `compile` returns: a value that is its own source, or source. -/
inductive Code where
  | null
  | num (n : Numeral)
  | bool (b : Bool)
  | source (s : Str)

namespace Code

/-- The text of a result in a template. -/
def text : Code → Str
  | null => lit "null"
  | num n => n.text
  | bool b => if b then lit "true" else lit "false"
  | source s => s

/-- The text of a result in `join`, which leaves `null` out. -/
def joined : Code → Str
  | null => []
  | c => c.text

end Code

/-- `args[i]` in a template. -/
def argText (args : List Code) (i : ℕ) : Str :=
  match args[i]? with
  | some c => c.text
  | none => lit "undefined"

/-- `guardAgainstCoercionSideEffects`, which leaves numbers alone. -/
def guardAgainstCoercionSideEffects (args : List Code) (i : ℕ) : Str :=
  match args[i]? with
  | some (.num n) => n.text
  | _ => coercionGuard ++ lit "(" ++ argText args i ++ lit ")"

/-- `args.join(separator)` in parentheses. -/
def joinArgs (separator : Str) (args : List Code) : Str :=
  lit "(" ++ separator.intercalate (args.map Code.joined) ++ lit ")"

/-- `value[1]`, where `null` has no members. -/
def second : Json → Option (Option Json)
  | .null => none
  | .arr items => some items[1]?
  | .str s => some (s[1]?.map fun u => .str [u])
  | .obj members => some (Json.member (lit "1") members)
  | _ => some none

/-- The branch of `instanceof`, given what `value[0]` compiles to. -/
def instanceOf (value : Json) (first : Option Code) : Option Str :=
  (second value).bind fun type =>
    match isPrimitiveType type with
    | some type => first.map fun a => lit "(typeof " ++ a.text ++ lit " === '" ++ type ++ lit "')"
    | none =>
      (assertIdentifier type).bind fun type => first.map fun a =>
        lit "Function.prototype[Symbol.hasInstance].call(" ++ type ++ lit ", " ++ a.text ++ lit ")"

/-- The branch of `ref`: `startsWith` is there for strings only. -/
def reference : Json → Option Str
  | .str s =>
    (assertIdentifier (some (.str s))).map fun refValue =>
      if refValue.headD 0 = unit '@' then lit "$dd_" ++ refValue.drop 1 else refValue
  | _ => none

/-- The operators that take a list. -/
def compileList (type : NodeType) (args : List Code) : Option Str :=
  match type with
  | .eq => some (lit "(" ++ argText args 0 ++ lit ") === (" ++ argText args 1 ++ lit ")")
  | .ne => some (lit "(" ++ argText args 0 ++ lit ") !== (" ++ argText args 1 ++ lit ")")
  | .gt => some (guardAgainstCoercionSideEffects args 0 ++ lit " > " ++
      guardAgainstCoercionSideEffects args 1)
  | .ge => some (guardAgainstCoercionSideEffects args 0 ++ lit " >= " ++
      guardAgainstCoercionSideEffects args 1)
  | .lt => some (guardAgainstCoercionSideEffects args 0 ++ lit " < " ++
      guardAgainstCoercionSideEffects args 1)
  | .le => some (guardAgainstCoercionSideEffects args 0 ++ lit " <= " ++
      guardAgainstCoercionSideEffects args 1)
  | .any => some (iterateOn (lit "some") (argText args 0) (argText args 1))
  | .all => some (iterateOn (lit "every") (argText args 0) (argText args 1))
  | .and => some (joinArgs (lit ") && (") args)
  | .or => some (joinArgs (lit ") || (") args)
  | .startsWith => some (lit "String.prototype.startsWith.call(" ++ assertString (argText args 0) ++
      lit ", " ++ assertString (argText args 1) ++ lit ")")
  | .endsWith => some (lit "String.prototype.endsWith.call(" ++ assertString (argText args 0) ++
      lit ", " ++ assertString (argText args 1) ++ lit ")")
  | .contains => some (containsFunction ++ lit "(" ++ argText args 0 ++ lit ", " ++
      argText args 1 ++ lit ")")
  | .matches => some (matchesFunction ++ lit "(" ++ argText args 0 ++ lit ", " ++
      argText args 1 ++ lit ")")
  | .filter => some (filterOn (argText args 0) (argText args 1))
  | .substring => some (substringOf (argText args 0) (argText args 1) (argText args 2))
  | .getmember => some (accessProperty (argText args 0) (argText args 1) false)
  | .index => some (accessProperty (argText args 0) (argText args 1) true)
  | _ => none

/-- One node, given what its value, the first item of its value and the items of its value compile
to. -/
def compileNode (type : NodeType) (value : Json) (whole first : Option Code)
    (items : Option (List Code)) : Option Str :=
  match type with
  | .not => whole.map fun a => lit "!(" ++ a.text ++ lit ")"
  | .len => whole.map fun a => getSize a.text
  | .count => whole.map fun a => getSize a.text
  | .isEmpty => whole.map fun a => getSize a.text ++ lit " === 0"
  | .isDefined => whole.map fun a => isDefinedHead ++ a.text ++ isDefinedTail
  | .instanceof => instanceOf value first
  | .ref => reference value
  | type => items.bind (compileList type)

mutual

/-- `compile` -/
def compile : Json → Option Code
  | .null => some .null
  | .num n => some (.num n)
  | .bool b => some (.bool b)
  | .str s => some (.source (quote s))
  | .arr _ => none
  | .obj [] => none
  | .obj ((name, value) :: _) =>
    (nodeType name).bind fun type =>
      (compileNode type value (compile value) (compileFirst value) (compileItems value)).map .source

/-- `compile(value[0])` -/
def compileFirst : Json → Option Code
  | .arr (item :: _) => compile item
  | .str (u :: _) => some (.source (quote [u]))
  | .obj members => compileMember (lit "0") members
  | _ => none

/-- `value.map(compile)`, for an array. -/
def compileItems : Json → Option (List Code)
  | .arr items => compileAll items
  | _ => none

def compileAll : List Json → Option (List Code)
  | [] => some []
  | item :: items =>
    (compile item).bind fun c => (compileAll items).map fun cs => c :: cs

def compileMember (key : Str) : List (Str × Json) → Option Code
  | [] => none
  | (name, value) :: members => if name = key then compile value else compileMember key members

end

/-! ## `compileSegments` -/

/-- `templateRequiresEvaluation`: whether a segment is an expression.  A segment that is `null`
makes the destructuring throw when its turn comes. -/
def templateRequiresEvaluation : List Json → Option Bool
  | [] => some false
  | .null :: _ => none
  | .obj members :: segments =>
    match Json.member (lit "str") members with
    | none => some true
    | some _ => templateRequiresEvaluation segments
  | _ :: _ => some true

def segmentHead : Str :=
  lit "(() => \x7b\n          try \x7b\n            const result = "

def segmentMiddle : Str :=
  lit "\n            return typeof result === 'string' ? result : $dd_inspectSegment(result)\n" ++
    lit "          \x7d catch (e) \x7b\n            return \x7b expr: "

def segmentTail : Str :=
  lit ", message: `$\x7be.name\x7d: $\x7be.message\x7d` \x7d\n          \x7d\n        \x7d)()"

/-- `JSON.stringify` in a template, of a value that may not be there. -/
def stringifyText : Option Json → Str
  | none => lit "undefined"
  | some value => value.stringify

/-- The source of one segment. -/
def compileSegment : Json → Option Str
  | .obj members =>
    match Json.member (lit "str") members with
    | some str => some str.stringify
    | none =>
      (Json.member (lit "json") members).bind fun json => (compile json).map fun c =>
        segmentHead ++ c.text ++ segmentMiddle ++
          stringifyText (Json.member (lit "dsl") members) ++ segmentTail
  | _ => none

/-- The sources of the segments, one after the other. -/
def segmentTexts : List Json → Option (List Str)
  | [] => some []
  | segment :: segments =>
    (compileSegment segment).bind fun t => (segmentTexts segments).map fun ts => t :: ts

/-- `compileSegments` -/
def compileSegments (segments : List Json) : Option Str :=
  (segmentTexts segments).map fun texts => lit "[" ++ (lit ",").intercalate texts ++ lit "]"

end DdTrace.Debugger
