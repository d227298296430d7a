import DdTrace.Library.RegExp

/-!
# Commands without their secrets

`scrubChildProcessCmd` of `scrub-cmd-params.js` prints the tokens of a shell command for a span.
The values of environment assignments before the binary are printed as `?`, but for a few names, and
so are the values of parameters with a sensitive name and the arguments of a binary of the deny
list.  The tokens are those of `shell-quote`, whose `parse` is a parameter here: words, operators,
globs, which it has as operators too, and at the end perhaps a comment.

`Mode` is what a token can be in a command, and a `Reading` says which words are assignments and
whether a command ends at a glob.  Two readings are compared.

* `shell`: an assignment is a name, `=` and any value, and a glob is a word like another.  `redact`
  prints the tokens with the values that are to be hidden as `?` and everything else as it is.  It
  says the same of any two commands that differ in these values (`redact_eq_of_hides`).
* `pattern`: the expression `envVarRegex`, which knows only values of word characters, and the
  expressions that the code cuts at every `op`, which a glob has.

`scrubbed_iff` says when the code prints what it should: when every token is read alike, in the
sense of `Alike`, where it is also said what else goes wrong.
-/

namespace DdTrace.Plugins

open Library List Option
open Library.RegExp

namespace ScrubCmdParams

open Regex Str

/-! ## The code -/

def ALLOWED_ENV_VARIABLES : List Str := [lit "LD_PRELOAD", lit "LD_LIBRARY_PATH", lit "PATH"]

def PROCESS_DENYLIST : List Str := [lit "md5"]

def REDACTED : Str := lit "?"

/-- `^-{0,2}(?:p(?:ass(?:w(?:or)?d)?)?|address|…)$` with the flag `i`. -/
def regexParam : Regex UInt16 :=
  Regex.seqs [start, .opt (.seq (char '-') (.opt (char '-'))), Regex.oneOf [
      .seq (caseless "p") (.opt (.seq (caseless "ass")
        (.opt (Regex.seqs [caseless "w", .opt (caseless "or"), caseless "d"])))),
      caseless "address",
      Regex.seqs [caseless "api", .opt dashOrLine, caseless "key"],
      .seq (.opt (caseless "e")) (caseless "mail"),
      .seq (caseless "secret") (.opt (.seq (.opt dashOrLine) (caseless "key"))),
      Regex.seqs [caseless "a", Regex.oneOf [caseless "ccess", caseless "uth"],
        .opt dashOrLine, caseless "token"],
      caseless "mysql_pwd",
      caseless "credentials",
      .seq (.opt (caseless "stripe")) (caseless "token")],
    finish]
where
  dashOrLine : Regex UInt16 := .chr fun u => u == unit '-' || u == unit '_'

/-- `\w+=\w+` -/
def wordPair : Regex UInt16 :=
  Regex.seqs [.plus (.chr isWord), char '=', .plus (.chr isWord)]

/-- `^(\w+=\w+;)*\w+=\w+;?$` -/
def envVarRegex : Regex UInt16 :=
  Regex.seqs [start, .star (.seq wordPair (char ';')), wordPair, .opt (char ';'), finish]

/-- The names behind the dollar signs of a text: `/\$(\w*)(?:[^\w]|$)/gm`.  The character behind a
name is taken with it. -/
def varNamesFrom : ℕ → Str → List Str
  | 0, _ => []
  | fuel + 1, expression =>
    match expression.dropWhile (· ≠ unit '$') with
    | [] => []
    | _ :: rest => rest.takeWhile isWord :: varNamesFrom fuel ((rest.dropWhile isWord).drop 1)

/-- The variables that `shell-quote` replaces, each by its own name. -/
def extractVarNames (expression : Str) : List (Str × Str) :=
  (varNamesFrom (expression.length + 1) expression).map fun name => (name, unit '$' :: name)

/-- The text of an operator, which is made of the characters that a shell has for them. -/
abbrev Operator := { text : Str // text ≠ [] ∧ ∀ u ∈ text, includes (lit "|&;()<>") u = true }

/-- A pattern of file names, which has a star or a question mark. -/
abbrev GlobPattern := { text : Str // unit '*' ∈ text ∨ unit '?' ∈ text }

/-- A token of `shell-quote`: a string, `{ op }`, `{ op: 'glob', pattern }` or `{ comment }`. -/
inductive Token where
  | word (text : Str)
  | op (text : Operator)
  | glob (pattern : GlobPattern)
  | comment (text : Str)
deriving DecidableEq

/-- `token.op` -/
def Token.op? : Token → Option Str
  | .word _ => none
  | .op text => some text
  | .glob _ => some (lit "glob")
  | .comment _ => none

/-- The tokens of a command: a comment is the last of them. -/
structure Parsed where
  items : List Token
  comment : Option Str
  noComment : ∀ text, Token.comment text ∉ items

def Parsed.tokens (parsed : Parsed) : List Token :=
  parsed.items ++ (parsed.comment.map Token.comment).toList

/-- `expressionListTokens`, of which the last is `wipExpressionTokens` unless `isNewExpression`. -/
structure Expressions where
  expressionListTokens : List (List Token) := []
  isNewExpression : Bool := true

def Expressions.push (e : Expressions) (token : Token) : Expressions :=
  let list := if e.isNewExpression then e.expressionListTokens ++ [[]] else e.expressionListTokens
  ⟨list.dropLast ++ [list.getLast?.getD [] ++ [token]], token.op?.isSome⟩

def getTokensByExpression (expressionTokens : List Token) : List (List Token) :=
  (expressionTokens.foldl Expressions.push {}).expressionListTokens

/-- What is printed of a token that is an object. -/
def printObject : Token → List Str
  | .glob pattern => [pattern]
  | .op text => [text]
  | .comment text => if text = [] then [] else [unit '#' :: text]
  | .word _ => []

/-- What is printed of a token behind a binary of the deny list. -/
def innerToken (token : Token) : Str := token.op?.getD REDACTED

/-- The part of a token before the first `=`. -/
def key (token : Str) : Str := (Str.split (unit '=') token).headI

/-- The tokens of an expression from an index on. -/
def scrubExpression : Bool → List Token → List Str
  | _, [] => []
  | foundBinary, .glob pattern :: rest =>
    printObject (.glob pattern) ++ scrubExpression foundBinary rest
  | foundBinary, .op text :: rest => printObject (.op text) ++ scrubExpression foundBinary rest
  | foundBinary, .comment text :: rest =>
    printObject (.comment text) ++ scrubExpression foundBinary rest
  | true, .word token :: rest =>
    let paramKeyValue := Str.split (unit '=') token
    let paramKey := paramKeyValue.headI
    if regexParam.test paramKey then
      if paramKeyValue.length = 1 then
        -- The next token becomes `?`, or `?` is appended; it is a word that names no parameter.
        match rest with
        | [] => [token, REDACTED]
        | _ :: rest => token :: REDACTED :: scrubExpression true rest
      else (paramKey ++ unit '=' :: REDACTED) :: scrubExpression true rest
    else token :: scrubExpression true rest
  | false, .word token :: rest =>
    if envVarRegex.test token then
      let envSplit := Str.split (unit '=') token
      if includes ALLOWED_ENV_VARIABLES envSplit.headI then
        token :: scrubExpression false rest
      else Str.join (unit '=') (envSplit.set 1 REDACTED) :: scrubExpression false rest
    else token ::
      if includes PROCESS_DENYLIST token then rest.map innerToken else scrubExpression true rest

def scrubTokens (expressionTokens : List Token) : List Str :=
  (getTokensByExpression expressionTokens).flatMap (scrubExpression false)

def scrubChildProcessCmd (shellParser : Str → List (Str × Str) → Parsed) (expression : Str) :
    List Str :=
  scrubTokens (shellParser expression (extractVarNames expression)).tokens

/-! ## Two readings of a command -/

/-- What the next word of a command is: an assignment or the binary, an argument, the value of a
parameter, or an argument of a binary of the deny list. -/
inductive Mode where
  | start
  | args
  | value
  | denied
deriving DecidableEq

/-- Which words before the binary are assignments, and whether a glob is the end of a command. -/
structure Reading where
  isAssignment : Str → Bool
  endsAtGlob : Bool

/-- A name, `=` and any value. -/
def isAssignment (token : Str) : Bool :=
  (Str.cut (unit '=') token).any fun part => !part.1.isEmpty && part.1.all isWord

/-- The command as a shell has it. -/
def shell : Reading := ⟨isAssignment, false⟩

/-- The command as the code takes it apart. -/
def pattern : Reading := ⟨envVarRegex.test, true⟩

/-- A word that names a sensitive parameter and does not give its value. -/
def awaitsValue (token : Str) : Bool := regexParam.test (key token) && !includes token (unit '=')

/-- A word that gives the value of a sensitive parameter. -/
def givesValue (token : Str) : Bool := regexParam.test (key token) && includes token (unit '=')

/-- An assignment to a variable with this name may be printed. -/
def isAllowed (token : Str) : Bool := includes ALLOWED_ENV_VARIABLES (key token)

/-- What the word behind a token is. -/
def Mode.behind (R : Reading) (m : Mode) : Token → Mode
  | .op _ => .start
  | .comment _ => if m = .value then .args else m
  | .glob _ => if R.endsAtGlob then .start else if m = .denied then .denied else .args
  | .word token =>
    match m with
    | .start =>
      if R.isAssignment token then .start
      else if includes PROCESS_DENYLIST token then .denied else .args
    | .args => if awaitsValue token then .value else .args
    | .value => .args
    | .denied => .denied

/-- How a token is printed: as it is, up to its value, or not at all. -/
inductive Role where
  | shown
  | keyed
  | masked
deriving DecidableEq

def Mode.role (R : Reading) (m : Mode) : Token → Role
  | .op _ => .shown
  | .comment _ => .shown
  | .glob _ => if m = .value ∨ m = .denied then .masked else .shown
  | .word token =>
    match m with
    | .start => if R.isAssignment token && !isAllowed token then .keyed else .shown
    | .args => if givesValue token then .keyed else .shown
    | .value => .masked
    | .denied => .masked

def Token.text : Token → Str
  | .word text => text
  | .op text => text
  | .glob text => text
  | .comment text => unit '#' :: text

def Role.print : Role → Token → Str
  | .shown, t => t.text
  | .keyed, t => key t.text ++ unit '=' :: REDACTED
  | .masked, _ => REDACTED

def redactFrom (m : Mode) : List Token → List Str
  | [] => []
  | t :: ts => (m.role shell t).print t :: redactFrom (m.behind shell t) ts

/-- The tokens of a command without the values that are to be hidden. -/
def redact (tokens : List Token) : List Str := redactFrom .start tokens

/-- Commands that differ only in values that are to be hidden. -/
inductive HidesFrom : Mode → List Token → List Token → Prop
  | nil (m : Mode) : HidesFrom m [] []
  | same {m : Mode} {ts ts' : List Token} (t : Token) :
      HidesFrom (m.behind shell t) ts ts' → HidesFrom m (t :: ts) (t :: ts')
  | assignment {ts ts' : List Token} (name v v' : Str) :
      name ≠ [] → (∀ u ∈ name, isWord u = true) → name ∉ ALLOWED_ENV_VARIABLES →
      HidesFrom .start ts ts' →
      HidesFrom .start (.word (name ++ unit '=' :: v) :: ts) (.word (name ++ unit '=' :: v') :: ts')
  | parameter {ts ts' : List Token} (name v v' : Str) :
      unit '=' ∉ name → regexParam.test name = true → HidesFrom .args ts ts' →
      HidesFrom .args (.word (name ++ unit '=' :: v) :: ts) (.word (name ++ unit '=' :: v') :: ts')
  | value {ts ts' : List Token} (v v' : Str) : HidesFrom .args ts ts' →
      HidesFrom .value (.word v :: ts) (.word v' :: ts')
  | argument {ts ts' : List Token} (v v' : Str) : HidesFrom .denied ts ts' →
      HidesFrom .denied (.word v :: ts) (.word v' :: ts')

/-- Two ways to print a token that come to the same. -/
def Same (r r' : Role) (t : Token) : Prop := r = r' ∨ r.print t = t.text ∧ r'.print t = t.text

/-- A token at which the two readings agree: it has the same role in both, or is what a role makes
of it, and none of the other things happens to it. -/
def AlikeAt (c m : Mode) : Token → Prop
  | .word token =>
    Same (c.role pattern (.word token)) (m.role shell (.word token)) (.word token) ∧
      (c = .start → pattern.isAssignment token = true → isAllowed token = false →
        token.count (unit '=') = 1)
  | .glob p => c ≠ .denied ∧ Same (c.role pattern (.glob p)) (m.role shell (.glob p)) (.glob p)
  | .op _ => c ≠ .value
  | .comment text => text ≠ [] ∧ c ≠ .value ∧ c ≠ .denied

/-- The two readings agree at every token, and no parameter at the end is without its value. -/
def Alike (c m : Mode) : List Token → Prop
  | [] => c ≠ .value
  | t :: ts => AlikeAt c m t ∧ Alike (c.behind pattern t) (m.behind shell t) ts

/-! ## Names and values -/

variable {name : Str} {t : Token} {token : Str}

theorem key_pair (h : unit '=' ∉ name) (v : Str) : key (name ++ unit '=' :: v) = name := by
  rw [key, split_append_cons h]
  rfl

theorem exists_pair (h : unit '=' ∈ token) :
    ∃ name v, unit '=' ∉ name ∧ token = name ++ unit '=' :: v := by
  rcases hcut : Str.cut (unit '=') token with _ | ⟨name, v⟩
  · exact (cut_eq_none_iff.mp hcut h).elim
  · obtain ⟨rfl, hname⟩ := cut_eq_some hcut
    exact ⟨name, v, hname, rfl⟩

theorem length_split_eq_one_iff : (Str.split (unit '=') token).length = 1 ↔ unit '=' ∉ token := by
  constructor
  · intro hlength hmem
    obtain ⟨name, v, hname, rfl⟩ := exists_pair hmem
    rw [split_append_cons hname] at hlength
    exact splitOn_ne_nil _ v (length_eq_zero_iff.mp (Nat.succ_injective hlength))
  · intro h
    rw [split_of_notMem h]
    rfl

theorem unit_eq_notMem_of_isWord (h : ∀ u ∈ name, isWord u = true) :
    unit '=' ∉ name := fun hmem => absurd (h _ hmem) (by decide)

theorem took_of_mem_ends_wordPair {c d : Regex.Cursor UInt16} (h : d ∈ wordPair.ends c) :
    ∃ name a v, name ≠ [] ∧ (∀ u ∈ name, isWord u = true) ∧ isWord a = true ∧
      Regex.Took c (name ++ unit '=' :: a :: v) d := by
  obtain ⟨c₁, hname, h⟩ := mem_ends_seq.mp h
  obtain ⟨c₂, hequals, h⟩ := mem_ends_seq.mp h
  obtain ⟨c₃, hvalue, h⟩ := mem_ends_seq.mp h
  obtain rfl : d = c₃ := mem_singleton.mp h
  obtain ⟨b, name, hb, hword, htook⟩ := took_of_mem_ends_plus_chr hname
  obtain ⟨u, hu, htook'⟩ := took_of_mem_ends_chr hequals
  obtain ⟨a, v, ha, -, htook''⟩ := took_of_mem_ends_plus_chr hvalue
  obtain rfl : u = unit '=' := eq_of_beq hu
  refine ⟨b :: name, a, v, cons_ne_nil _ _, forall_mem_cons.mpr ⟨hb, hword⟩, ha, ?_⟩
  exact htook.trans (htook'.trans htook'')

/-- The expression finds an assignment: a name and a value that begins with a word character. -/
theorem exists_of_envVarRegex (h : envVarRegex.test token = true) :
    ∃ name a v, name ≠ [] ∧ (∀ u ∈ name, isWord u = true) ∧ isWord a = true ∧
      token = name ++ unit '=' :: a :: v := by
  obtain ⟨m, hm⟩ := isSome_iff_exists.mp h
  obtain ⟨u, v, htoken, -, hends⟩ := exists_of_search hm
  obtain ⟨c, hc, hends⟩ := mem_ends_seq.mp hends
  obtain ⟨hstart, rfl⟩ := mem_ends_look.mp hc
  have hu : u = [] := by
    rw [List.isEmpty_iff, append_eq_nil_iff, reverse_eq_nil_iff] at hstart
    exact hstart.1
  rw [hu] at htoken
  obtain rfl : token = v := htoken
  -- The pair at the start is a turn of the repetition or the one behind it.
  obtain ⟨c, hc, hends⟩ := mem_ends_seq.mp hends
  obtain ⟨d, hd⟩ : ∃ d, d ∈ wordPair.ends ⟨u.reverse ++ [], token, []⟩ := by
    rcases eq_or_mem_of_mem_ends_star hc with rfl | ⟨e, he, -, -⟩
    · obtain ⟨d, hd, -⟩ := mem_ends_seq.mp hends
      exact ⟨d, hd⟩
    · obtain ⟨d, hd, -⟩ := mem_ends_seq.mp he
      exact ⟨d, hd⟩
  obtain ⟨name, a, v, hname, hword, ha, htook⟩ := took_of_mem_ends_wordPair hd
  refine ⟨name, a, v ++ d.rest, hname, hword, ha, htook.rest.trans ?_⟩
  rw [append_assoc]
  rfl

/-! ## What the code prints, token by token -/

/-- What is printed of a token, by what it is in the expression that the code has cut out. -/
def printed (c : Mode) : Token → List Str
  | .word token =>
    if c = .start ∧ envVarRegex.test token = true ∧ isAllowed token = false then
      [Str.join (unit '=') ((Str.split (unit '=') token).set 1 REDACTED)]
    else [(c.role pattern (.word token)).print (.word token)]
  | .glob p => [if c = .value then REDACTED else if c = .denied then lit "glob" else p]
  | .op text => [if c = .value then REDACTED else text]
  | .comment text => if c = .value ∨ c = .denied then [REDACTED] else printObject (.comment text)

def walk (c : Mode) : List Token → List Str
  | [] => if c = .value then [REDACTED] else []
  | t :: ts => printed c t ++ walk (c.behind pattern t) ts

/-- What the code prints of the rest of an expression. -/
def scrubFrom : Mode → List Token → List Str
  | .start, ts => scrubExpression false ts
  | .args, ts => scrubExpression true ts
  | .value, [] => [REDACTED]
  | .value, _ :: ts => REDACTED :: scrubExpression true ts
  | .denied, ts => ts.map innerToken

variable (c : Mode)

theorem scrubFrom_nil : scrubFrom c [] = walk c [] := by
  cases c <;> rfl

/-- A word before the binary. -/
theorem scrubExpression_start (token : Str) (ts : List Token) :
    scrubExpression false (.word token :: ts) =
      if envVarRegex.test token then
        if isAllowed token then token :: scrubExpression false ts
        else Str.join (unit '=') ((Str.split (unit '=') token).set 1 REDACTED) ::
          scrubExpression false ts
      else token ::
        if includes PROCESS_DENYLIST token then ts.map innerToken
        else scrubExpression true ts := rfl

/-- A word behind the binary. -/
theorem scrubExpression_args (token : Str) (ts : List Token) :
    scrubExpression true (.word token :: ts) =
      if awaitsValue token then token :: scrubFrom .value ts
      else if givesValue token then
        (key token ++ unit '=' :: REDACTED) :: scrubExpression true ts
      else token :: scrubExpression true ts := by
  have hcode : scrubExpression true (.word token :: ts) =
      if regexParam.test (key token) then
        if (Str.split (unit '=') token).length = 1 then token :: scrubFrom .value ts
        else (key token ++ unit '=' :: REDACTED) :: scrubExpression true ts
      else token :: scrubExpression true ts := by
    cases ts <;> rfl
  rw [hcode, awaitsValue, givesValue]
  by_cases hname : regexParam.test (key token) = true
  · by_cases hmem : unit '=' ∈ token
    · rw [if_pos hname, if_neg (fun h => length_split_eq_one_iff.mp h hmem),
        if_neg (by simp [hmem]),
        if_pos (by simp [hname, hmem])]
    · rw [if_pos hname, if_pos (length_split_eq_one_iff.mpr hmem), if_pos (by simp [hname, hmem])]
  · rw [if_neg hname, if_neg (by simp [hname]), if_neg (by simp [hname])]

theorem scrubFrom_word (token : Str) (ts : List Token) : scrubFrom c (.word token :: ts) =
      printed c (.word token) ++ scrubFrom (c.behind pattern (.word token)) ts := by
  cases c with
  | start =>
    rw [scrubFrom, scrubExpression_start, printed, Mode.behind, Mode.role]
    by_cases henv : envVarRegex.test token = true
    · by_cases hallowed : isAllowed token = true
      · simp [pattern, henv, hallowed, Role.print, Token.text, scrubFrom]
      · simp [pattern, henv, hallowed, scrubFrom]
    · by_cases hdeny : includes PROCESS_DENYLIST token = true
      all_goals simp [pattern, henv, hdeny, Role.print, Token.text, scrubFrom]
  | args =>
    rw [scrubFrom, scrubExpression_args, printed, Mode.behind, Mode.role]
    by_cases hawaits : awaitsValue token = true
    · have hgives : givesValue token = false := by
        rw [awaitsValue, Bool.and_eq_true, Bool.not_eq_true'] at hawaits
        rw [givesValue, hawaits.2, Bool.and_false]
      simp [hawaits, hgives, Role.print, Token.text]
    · by_cases hgives : givesValue token = true
      all_goals simp [hawaits, hgives, Role.print, Token.text, scrubFrom]
  | value => rfl
  | denied => rfl

/-- One token of an expression that is not its last. -/
theorem scrubFrom_cons (ht : t.op? = none) (ts : List Token) :
    scrubFrom c (t :: ts) = printed c t ++ scrubFrom (c.behind pattern t) ts := by
  cases t with
  | word token => exact scrubFrom_word c token ts
  | op text => cases ht
  | glob p => cases ht
  | comment text => cases c <;> rfl

/-- The last token of an expression. -/
theorem scrubFrom_singleton (ht : t.op?.isSome = true) :
    scrubFrom c [t] = printed c t ∧ c.behind pattern t = .start := by
  cases t with
  | word token => cases ht
  | op text | glob p => cases c <;> exact ⟨rfl, rfl⟩
  | comment text => cases ht

theorem scrubFrom_eq_walk {e : List Token} (he : ∀ t ∈ e, t.op? = none) :
    scrubFrom c e = walk c e := by
  induction e generalizing c with
  | nil => exact scrubFrom_nil c
  | cons t e ih =>
    obtain ⟨ht, he⟩ := forall_mem_cons.mp he
    rw [scrubFrom_cons c ht, walk, ih _ he]

/-- An expression with its last token, and the tokens behind it. -/
theorem walk_append {e : List Token} (he : ∀ t ∈ e, t.op? = none)
    (ht : t.op?.isSome = true) (ts : List Token) :
    walk c (e ++ t :: ts) = scrubFrom c (e ++ [t]) ++ walk .start ts := by
  induction e generalizing c with
  | nil =>
    obtain ⟨hprinted, hbehind⟩ := scrubFrom_singleton c ht
    rw [List.nil_append, List.nil_append, walk, hprinted, hbehind]
  | cons u e ih =>
    obtain ⟨hu, he⟩ := forall_mem_cons.mp he
    rw [cons_append, cons_append, walk, scrubFrom_cons c hu, ih _ he, append_assoc]

theorem push_new (done : List (List Token)) (t : Token) :
    Expressions.push ⟨done, true⟩ t = ⟨done ++ [[t]], t.op?.isSome⟩ := by
  simp [Expressions.push]

theorem push_open (done : List (List Token)) (e : List Token) (t : Token) :
    Expressions.push ⟨done ++ [e], false⟩ t = ⟨done ++ [e ++ [t]], t.op?.isSome⟩ := by
  simp [Expressions.push]

/-- The expressions are cut out of the tokens one behind the other. -/
theorem flatMap_foldl_push (ts : List Token) :
    (∀ done, ((ts.foldl Expressions.push ⟨done, true⟩).expressionListTokens.flatMap
        (scrubExpression false)) = done.flatMap (scrubExpression false) ++ walk .start ts) ∧
      ∀ done e, (∀ t ∈ e, t.op? = none) →
        ((ts.foldl Expressions.push ⟨done ++ [e], false⟩).expressionListTokens.flatMap
          (scrubExpression false)) =
            done.flatMap (scrubExpression false) ++ walk .start (e ++ ts) := by
  induction ts with
  | nil =>
    constructor
    · intro done
      exact (append_nil _).symm
    · intro done e he
      rw [foldl_nil, flatMap_append, flatMap_singleton, append_nil]
      exact congrArg _ (scrubFrom_eq_walk .start he)
  | cons t ts ih =>
    obtain ⟨ihnew, ihopen⟩ := ih
    constructor
    · intro done
      rw [foldl_cons, push_new]
      rcases hop : t.op? with _ | op
      · rw [isSome_none, ihopen done [t] (forall_mem_singleton.mpr hop)]
        rfl
      · have hsome : t.op?.isSome = true := by rw [hop]; rfl
        rw [isSome_some, ihnew, flatMap_append, flatMap_singleton, append_assoc]
        exact congrArg _ (walk_append .start (fun _ h => (not_mem_nil h).elim) hsome ts).symm
    · intro done e he
      rw [foldl_cons, push_open]
      rcases hop : t.op? with _ | op
      · have hopen : ∀ u ∈ e ++ [t], u.op? = none :=
          forall_mem_append.mpr ⟨he, forall_mem_singleton.mpr hop⟩
        rw [isSome_none, ihopen done (e ++ [t]) hopen, append_assoc]
        rfl
      · have hsome : t.op?.isSome = true := by rw [hop]; rfl
        rw [isSome_some, ihnew, flatMap_append, flatMap_singleton, append_assoc]
        exact congrArg _ (walk_append .start he hsome ts).symm

/-- **The code, token by token.** -/
theorem scrubTokens_eq_walk (ts : List Token) : scrubTokens ts = walk .start ts :=
  (flatMap_foldl_push ts).1 []

/-! ## The readings compared -/

/-- Two roles print the same when they are the same or leave the token as it is. -/
theorem print_eq_print_iff {r r' : Role} : r.print t = r'.print t ↔ Same r r' t := by
  constructor
  · intro h
    by_cases hr : r = r'
    · exact .inl hr
    · refine .inr ?_
      cases r with
      | shown => exact ⟨rfl, h.symm⟩
      | keyed =>
        cases r' with
        | shown => exact ⟨h, rfl⟩
        | keyed => exact (hr rfl).elim
        | masked =>
          have hlength := congrArg List.length h
          simp [Role.print, REDACTED, lit] at hlength
      | masked =>
        cases r' with
        | shown => exact ⟨h, rfl⟩
        | keyed =>
          have hlength := congrArg List.length h
          simp [Role.print, REDACTED, lit] at hlength
        | masked => exact (hr rfl).elim
  · rintro (rfl | ⟨h, h'⟩)
    · rfl
    · rw [h, h']

/-- An assignment that the expression finds, printed. -/
theorem join_set_eq_iff {v : Str} {a : UInt16} (hname : ∀ u ∈ name, isWord u = true)
    (ha : isWord a = true) (htoken : token = name ++ unit '=' :: a :: v) (r : Role) :
    Str.join (unit '=') ((Str.split (unit '=') token).set 1 REDACTED) = r.print (.word token) ↔
      Same .keyed r (.word token) ∧ token.count (unit '=') = 1 := by
  have hnotMem : unit '=' ∉ name := unit_eq_notMem_of_isWord hname
  have hne : a ≠ unit '=' := fun h => absurd (h ▸ ha) (by decide)
  have hkey : key token = name := htoken ▸ key_pair hnotMem (a :: v)
  have hcount : token.count (unit '=') = v.count (unit '=') + 1 := by
    rw [htoken, List.count_append, count_eq_zero.mpr hnotMem, Nat.zero_add, count_cons_self,
      count_cons_of_ne hne]
  have hsplit : Str.split (unit '=') token = name :: Str.split (unit '=') (a :: v) :=
    htoken ▸ split_append_cons hnotMem (a :: v)
  rw [hsplit, hcount]
  by_cases hv : unit '=' ∈ v
  · -- More than one value: the others are printed.
    obtain ⟨p, q, hp, hpq⟩ := exists_pair (mem_cons_of_mem a hv)
    have hq : Str.split (unit '=') q ≠ [] := splitOn_ne_nil _ q
    have hcountv : v.count (unit '=') ≠ 0 := fun h => count_eq_zero.mp h hv
    have hprinted : Str.join (unit '=') ((name :: Str.split (unit '=') (a :: v)).set 1 REDACTED) =
          name ++ unit '=' :: unit '?' :: unit '=' ::
            Str.join (unit '=') (Str.split (unit '=') q) := by
      rw [hpq, split_append_cons hp]
      show Str.join (unit '=') (name :: REDACTED :: Str.split (unit '=') q) = _
      rw [join_cons _ _ (cons_ne_nil _ _), join_cons _ _ hq]
      rfl
    rw [hprinted]
    refine iff_of_false (fun h => ?_) (fun h => hcountv (Nat.succ_injective h.2))
    cases r with
    | shown =>
      rw [Role.print, htoken] at h
      have htail := append_cancel_left h
      rw [List.cons.injEq, List.cons.injEq] at htail
      exact absurd (htail.2.1 ▸ ha) (by decide)
    | keyed =>
      rw [Role.print, Token.text, hkey] at h
      have htail := append_cancel_left h
      simp [REDACTED, lit] at htail
    | masked =>
      have hlength := congrArg List.length h
      simp only [length_append, length_cons, Role.print, REDACTED, lit] at hlength
      simp at hlength
      omega
  · have hcountv : v.count (unit '=') = 0 := count_eq_zero.mpr hv
    have hprinted : Str.join (unit '=') ((name :: Str.split (unit '=') (a :: v)).set 1 REDACTED) =
          Role.keyed.print (.word token) := by
      have hav : unit '=' ∉ a :: v := not_mem_cons_of_ne_of_not_mem hne.symm hv
      rw [split_of_notMem hav, Role.print, Token.text, hkey]
      show Str.join (unit '=') [name, REDACTED] = _
      rw [join_cons _ _ (cons_ne_nil _ _), join_singleton]
    rw [hprinted, print_eq_print_iff, hcountv]
    exact ⟨fun h => ⟨h, rfl⟩, fun h => h.1⟩

theorem printed_word_iff (c m : Mode) (token : Str) :
    printed c (.word token) = [(m.role shell (.word token)).print (.word token)] ↔
      AlikeAt c m (.word token) := by
  rw [printed, AlikeAt]
  by_cases h : c = .start ∧ envVarRegex.test token = true ∧ isAllowed token = false
  · obtain ⟨rfl, henv, hallowed⟩ := h
    have hrole : Mode.role pattern .start (.word token) = .keyed := by
      simp [Mode.role, pattern, henv, hallowed]
    obtain ⟨name, a, v, -, hname, ha, htoken⟩ := exists_of_envVarRegex henv
    rw [if_pos ⟨rfl, henv, hallowed⟩, singleton_inj, join_set_eq_iff hname ha htoken, hrole]
    exact and_congr_right fun _ => ⟨fun h _ _ _ => h, fun h => h rfl henv hallowed⟩
  · rw [if_neg h, singleton_inj, print_eq_print_iff]
    exact ⟨fun hsame => ⟨hsame, fun hc henv ha => (h ⟨hc, henv, ha⟩).elim⟩, fun h => h.1⟩

theorem printed_glob_iff (c m : Mode) (p : GlobPattern) :
    printed c (.glob p) = [(m.role shell (.glob p)).print (.glob p)] ↔ AlikeAt c m (.glob p) := by
  have hglob : (p : Str) ≠ lit "glob" := fun h => by
    have hp := p.2
    rw [h] at hp
    revert hp
    decide
  rw [printed, AlikeAt, singleton_inj]
  by_cases hdenied : c = .denied
  · rw [hdenied, if_pos rfl]
    refine iff_of_false (fun h => ?_) fun h => h.1 rfl
    rcases hrole : Mode.role shell m (.glob p) with _ | _ | _
    · rw [hrole] at h
      exact hglob h.symm
    · rw [Mode.role] at hrole
      split_ifs at hrole
    · rw [hrole] at h
      exact absurd (show lit "glob" = REDACTED from h) (by decide)
  · rw [if_neg hdenied, ← print_eq_print_iff]
    have hrole : (c.role pattern (.glob p)).print (.glob p) =
        if c = .value then REDACTED else p := by
      rw [Mode.role]
      by_cases hvalue : c = .value
      · rw [if_pos (.inl hvalue), if_pos hvalue]
        rfl
      · rw [if_neg (not_or_intro hvalue hdenied), if_neg hvalue]
        rfl
    rw [hrole]
    exact ⟨fun h => ⟨hdenied, h⟩, fun h => h.2⟩

theorem printed_op_iff (c m : Mode) (text : Operator) :
    printed c (.op text) = [(m.role shell (.op text)).print (.op text)] ↔
      AlikeAt c m (.op text) := by
  have hne : (text : Str) ≠ REDACTED := fun h => by
    have hmem := text.2.2 (unit '?') (by rw [h]; exact mem_singleton_self _)
    exact absurd hmem (by decide)
  rw [printed, singleton_inj]
  by_cases hvalue : c = .value
  · rw [if_pos hvalue]
    exact iff_of_false (fun heq => hne heq.symm) fun hne => hne hvalue
  · rw [if_neg hvalue]
    exact ⟨fun _ => hvalue, fun _ => rfl⟩

theorem printed_comment_iff (c m : Mode) (text : Str) :
    printed c (.comment text) = [(m.role shell (.comment text)).print (.comment text)] ↔
      AlikeAt c m (.comment text) := by
  have hshown : (m.role shell (.comment text)).print (.comment text) = unit '#' :: text := rfl
  rw [printed, hshown]
  by_cases hc : c = .value ∨ c = .denied
  · rw [if_pos hc, singleton_inj]
    refine iff_of_false (fun h => ?_) fun h => hc.elim h.2.1 h.2.2
    exact absurd (List.cons.inj h).1 (by decide)
  · rw [if_neg hc, printObject]
    by_cases htext : text = []
    · rw [if_pos htext]
      exact iff_of_false (fun h => cons_ne_nil _ _ h.symm) fun h => h.1 htext
    · rw [if_neg htext]
      exact ⟨fun _ => ⟨htext, not_or.mp hc⟩, fun _ => rfl⟩

theorem printed_iff (c m : Mode) (t : Token) :
    printed c t = [(m.role shell t).print t] ↔ AlikeAt c m t := by
  cases t with
  | word token => exact printed_word_iff c m token
  | op text => exact printed_op_iff c m text
  | glob p => exact printed_glob_iff c m p
  | comment text => exact printed_comment_iff c m text

theorem length_printed (ht : ∀ text, t ≠ .comment text) : (printed c t).length = 1 := by
  cases t with
  | word token =>
    rw [printed]
    split_ifs <;> rfl
  | op text => rfl
  | glob p => rfl
  | comment text => exact (ht text rfl).elim

theorem append_eq_cons_iff {l : List Str} (hl : l.length = 1) (x : Str) (ys zs : List Str) :
    l ++ ys = x :: zs ↔ l = [x] ∧ ys = zs := by
  obtain ⟨y, rfl⟩ := length_eq_one_iff.mp hl
  rw [singleton_append, List.cons.injEq, singleton_inj]

theorem walk_comment_iff (c m : Mode) (text : Str) :
    walk c [.comment text] = redactFrom m [.comment text] ↔ Alike c m [.comment text] := by
  have hbehind : c.behind pattern (.comment text) ≠ .value := by
    rw [Mode.behind]
    split_ifs with hc
    · decide
    · exact hc
  rw [walk, walk, if_neg hbehind, append_nil, redactFrom, redactFrom, printed_iff]
  exact ⟨fun h => ⟨h, hbehind⟩, fun h => h.1⟩

/-- The code and the redaction, from two places of a command that are read in their own ways. -/
theorem walk_iff {tail : List Token} (htail : tail = [] ∨ ∃ text, tail = [.comment text])
    (c m : Mode) {ts : List Token} (hts : ∀ text, Token.comment text ∉ ts) :
    walk c (ts ++ tail) = redactFrom m (ts ++ tail) ↔ Alike c m (ts ++ tail) := by
  induction ts generalizing c m with
  | nil =>
    rcases htail with rfl | ⟨text, rfl⟩
    · rw [append_nil, walk, Alike]
      by_cases hc : c = .value
      · rw [if_pos hc]
        exact iff_of_false (cons_ne_nil _ _) fun h => h hc
      · rw [if_neg hc]
        exact iff_of_true rfl hc
    · exact walk_comment_iff c m text
  | cons t ts ih =>
    have ht : ∀ text, t ≠ .comment text := fun text h => hts text (h ▸ mem_cons_self ..)
    have hrest : ∀ text, Token.comment text ∉ ts := fun text h =>
      hts text (mem_cons_of_mem _ h)
    rw [cons_append, walk, redactFrom, append_eq_cons_iff (length_printed c ht), printed_iff,
      ih _ _ hrest, Alike]

theorem Parsed.comment_cases (parsed : Parsed) : (parsed.comment.map Token.comment).toList = [] ∨
      ∃ text, (parsed.comment.map Token.comment).toList = [.comment text] := by
  cases parsed.comment with
  | none => exact .inl rfl
  | some text => exact .inr ⟨text, rfl⟩

/-- The scrubbed command prints every value that is to be hidden as `?` and every other token as it
is, in order. -/
def Scrubbed (shellParser : Str → List (Str × Str) → Parsed) (expression : Str) : Prop :=
  scrubChildProcessCmd shellParser expression =
    redact (shellParser expression (extractVarNames expression)).tokens

/-- **What is printed is what should be**, exactly when every token is read as the shell reads it,
or is printed alike by both readings; no assignment that is found holds another `=`; an operator, a
comment or the end of the command does not come where a value is awaited; and no glob or comment
stands behind a binary of the deny list, nor a comment that is empty. -/
theorem scrubbed_iff (shellParser : Str → List (Str × Str) → Parsed) (expression : Str) :
    Scrubbed shellParser expression ↔
      Alike .start .start (shellParser expression (extractVarNames expression)).tokens := by
  rw [Scrubbed, scrubChildProcessCmd, scrubTokens_eq_walk]
  exact walk_iff (Parsed.comment_cases _) .start .start (Parsed.noComment _)

/-- A key whose value has a hyphen is taken for the binary. -/
theorem not_scrubbed_hyphen :
    ¬ Scrubbed (fun _ _ => ⟨[.word (lit "KEY=a-b"), .word (lit "ls")], none,
      fun _ => by simp⟩) (lit "KEY=a-b ls") := by
  intro h
  exact absurd (show [lit "KEY=a-b", lit "ls"] = [lit "KEY=?", lit "ls"] from h) (by decide)

/-! ## What is hidden -/

theorem print_keyed (hname : unit '=' ∉ name) (v : Str) :
    Role.keyed.print (.word (name ++ unit '=' :: v)) = name ++ unit '=' :: REDACTED := by
  rw [Role.print, Token.text, key_pair hname]

theorem assignment_hidden (hne : name ≠ []) (hword : ∀ u ∈ name, isWord u = true)
    (hallowed : name ∉ ALLOWED_ENV_VARIABLES) (v : Str) :
    Mode.role shell .start (.word (name ++ unit '=' :: v)) = .keyed ∧
      Role.keyed.print (.word (name ++ unit '=' :: v)) = name ++ unit '=' :: REDACTED ∧
      Mode.behind shell .start (.word (name ++ unit '=' :: v)) = .start := by
  have hname : unit '=' ∉ name := unit_eq_notMem_of_isWord hword
  have hassignment : isAssignment (name ++ unit '=' :: v) = true := by
    rw [isAssignment, cut_append hname]
    simpa [hne] using hword
  have hnot : isAllowed (name ++ unit '=' :: v) = false := by
    rw [isAllowed, key_pair hname, includes_eq_false_iff]
    exact hallowed
  refine ⟨?_, print_keyed hname v, ?_⟩
  · simp [Mode.role, shell, hassignment, hnot]
  · simp [Mode.behind, shell, hassignment]

theorem parameter_hidden (hname : unit '=' ∉ name)
    (hsensitive : regexParam.test name = true) (v : Str) :
    Mode.role shell .args (.word (name ++ unit '=' :: v)) = .keyed ∧
      Role.keyed.print (.word (name ++ unit '=' :: v)) = name ++ unit '=' :: REDACTED ∧
      Mode.behind shell .args (.word (name ++ unit '=' :: v)) = .args := by
  have hmem : includes (name ++ unit '=' :: v) (unit '=') = true :=
    includes_eq_true_iff.mpr (mem_append_right _ (mem_cons_self ..))
  refine ⟨?_, print_keyed hname v, ?_⟩
  · rw [Mode.role, givesValue, key_pair hname, hsensitive, hmem]
    rfl
  · rw [Mode.behind, awaitsValue, key_pair hname, hsensitive, hmem]
    rfl

/-- **The redaction says the same of two commands that differ in hidden values.** -/
theorem redact_eq_of_hides {m : Mode} {ts ts' : List Token} (h : HidesFrom m ts ts') :
    redactFrom m ts = redactFrom m ts' := by
  induction h with
  | nil m => rfl
  | same t _ ih => rw [redactFrom, redactFrom, ih]
  | assignment name v v' hname hword hallowed _ ih =>
    obtain ⟨hrole, hprint, hbehind⟩ := assignment_hidden hname hword hallowed v
    obtain ⟨hrole', hprint', hbehind'⟩ := assignment_hidden hname hword hallowed v'
    rw [redactFrom, redactFrom, hrole, hrole', hprint, hprint', hbehind, hbehind', ih]
  | parameter name v v' hname hsensitive _ ih =>
    obtain ⟨hrole, hprint, hbehind⟩ := parameter_hidden hname hsensitive v
    obtain ⟨hrole', hprint', hbehind'⟩ := parameter_hidden hname hsensitive v'
    rw [redactFrom, redactFrom, hrole, hrole', hprint, hprint', hbehind, hbehind', ih]
  | value v v' _ ih | argument v v' _ ih => exact congrArg (REDACTED :: ·) ih

/-- So does the code, where it prints what it should. -/
theorem scrubChildProcessCmd_eq_of_hides {shellParser : Str → List (Str × Str) → Parsed}
    {expression expression' : Str} (h : Scrubbed shellParser expression)
    (h' : Scrubbed shellParser expression')
    (hides : HidesFrom .start (shellParser expression (extractVarNames expression)).tokens
      (shellParser expression' (extractVarNames expression')).tokens) :
    scrubChildProcessCmd shellParser expression =
      scrubChildProcessCmd shellParser expression' := by
  rw [h, h']
  exact redact_eq_of_hides hides

end ScrubCmdParams
end DdTrace.Plugins
