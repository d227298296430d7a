import DdTrace.Library.Unicode

/-!
# JSON values and their string literals

The values that `JSON.parse` gives, and the literal that `JSON.stringify` writes for a string.  A
number is carried by its decimal text, which is all that the programs verified here do with one; the
members of an object are in the order of `Object.entries`.

* `quote`: the literal of a string, with the escapes of `JSON.stringify`.
* `Json.toText`: the text that a value is converted to.
-/

namespace Library

open Unicode

/-! ## Numbers -/

def isDecimalDigit (u : UInt16) : Bool := unit '0' ≤ u && u ≤ unit '9'

/-- `[eE][+-]?\d+`, or nothing. -/
def isExponent : Str → Bool
  | [] => true
  | u :: s =>
    u == unit 'e' &&
      match s with
      | w :: s => if w = unit '+' ∨ w = unit '-' then s ≠ [] && s.all isDecimalDigit
        else isDecimalDigit w && s.all isDecimalDigit
      | [] => false

/-- What may follow the integer digits. -/
def isFraction : Str → Bool
  | [] => true
  | u :: s =>
    if u = unit '.' then
      isDecimalDigit (s.headD 0) && isExponent (s.dropWhile isDecimalDigit)
    else isExponent (u :: s)

/-- The text of a number without its sign. -/
def isMagnitude (s : Str) : Bool :=
  s == lit "Infinity" || isDecimalDigit (s.headD 0) && isFraction (s.dropWhile isDecimalDigit)

/-- A number other than `NaN`, by the text that `String` gives of it. -/
structure Numeral where
  text : Str
  isNumber : isMagnitude (if text.headD 0 = unit '-' then text.drop 1 else text) = true
  deriving DecidableEq

/-- `Number.isFinite` -/
def Numeral.isFinite (n : Numeral) : Bool :=
  n.text != lit "Infinity" && n.text != lit "-Infinity"

/-- A number of JSON text, or what it overflows to. -/
example : Numeral := ⟨lit "-12.5e+30", by decide⟩

/-! ## Values -/

/-- A value of JSON. -/
inductive Json where
  | null
  | bool (b : Bool)
  | num (n : Numeral)
  | str (s : Str)
  | arr (items : List Json)
  | obj (members : List (Str × Json))

namespace Json

instance : Inhabited Json := ⟨null⟩

/-- The member with the key. -/
def member (key : Str) : List (Str × Json) → Option Json
  | [] => none
  | e :: members => if e.1 = key then some e.2 else member key members

mutual

/-- `String(value)`, which arrays join their items with. -/
def toText : Json → Str
  | null => lit "null"
  | bool b => if b then lit "true" else lit "false"
  | num n => n.text
  | str s => s
  | arr items => joinText items
  | obj _ => lit "[object Object]"

/-- `items.join()`, where `null` is nothing. -/
def joinText : List Json → Str
  | [] => []
  | [item] => itemText item
  | item :: items => itemText item ++ unit ',' :: joinText items

def itemText : Json → Str
  | null => []
  | item => toText item

end

end Json

/-! ## String literals -/

/-- A digit in lower case. -/
def lowerDigit (n : ℕ) : UInt16 := (if n < 10 then 48 + n else 87 + n).toUInt16

/-- `\uXXXX` -/
def unicodeEscape (u : UInt16) : Str :=
  [unit '\\', unit 'u', lowerDigit (u.toNat / 4096), lowerDigit (u.toNat / 256 % 16),
    lowerDigit (u.toNat / 16 % 16), lowerDigit (u.toNat % 16)]

/-- The escapes of one code unit, and the code units they stand for. -/
def simpleEscapes : List (UInt16 × UInt16) :=
  [(unit '"', unit '"'), (unit '\\', unit '\\'), (unit 'b', 8), (unit 't', 9), (unit 'n', 10),
    (unit 'f', 12), (unit 'r', 13)]

/-- A code unit other than a lone surrogate, in a literal. -/
def escapeUnit (u : UInt16) : Str :=
  match simpleEscapes.find? fun e => e.2 = u with
  | some e => [unit '\\', e.1]
  | none => if u < 32 then unicodeEscape u else [u]

/-- The inside of a literal.  Well-formed pairs stay, lone surrogates are escaped. -/
def quoteBody : Str → Str
  | [] => []
  | [u] => if isHigh u || isLow u then unicodeEscape u else escapeUnit u
  | u :: w :: s =>
    if isHigh u && isLow w then u :: w :: quoteBody s
    else (if isHigh u || isLow u then unicodeEscape u else escapeUnit u) ++ quoteBody (w :: s)

/-- `JSON.stringify` of a string. -/
def quote (s : Str) : Str := unit '"' :: (quoteBody s ++ [unit '"'])

example : quote (lit "a\"\n" ++ [0xD800, 7]) = lit "\"a\\\"\\n\\ud800\\u0007\"" := by decide

namespace Json

mutual

/-- `JSON.stringify`, without white space.  What is not finite is `null`. -/
def stringify : Json → Str
  | null => lit "null"
  | bool b => if b then lit "true" else lit "false"
  | num n => if n.isFinite then n.text else lit "null"
  | str s => quote s
  | arr items => lit "[" ++ stringifyItems items ++ lit "]"
  | obj members => lit "\x7b" ++ stringifyMembers members ++ lit "\x7d"

def stringifyItems : List Json → Str
  | [] => []
  | [item] => stringify item
  | item :: items => stringify item ++ lit "," ++ stringifyItems items

def stringifyMembers : List (Str × Json) → Str
  | [] => []
  | [(key, value)] => quote key ++ lit ":" ++ stringify value
  | (key, value) :: members => quote key ++ lit ":" ++ stringify value ++ lit "," ++
      stringifyMembers members

end

end Json

/-! ## Reading a literal -/

/-- The code unit of four hexadecimal digits. -/
def readHex (a b c d : UInt16) : Option UInt16 :=
  match Str.digit? 16 a, Str.digit? 16 b, Str.digit? 16 c, Str.digit? 16 d with
  | some a, some b, some c, some d => some (a * 4096 + b * 256 + c * 16 + d).toUInt16
  | _, _, _, _ => none

theorem digit?_lowerDigit {n : ℕ} (h : n < 16) : Str.digit? 16 (lowerDigit n) = some n := by
  have hall : ∀ n < 16, Str.digit? 16 (lowerDigit n) = some n := by decide
  exact hall n h

end Library
