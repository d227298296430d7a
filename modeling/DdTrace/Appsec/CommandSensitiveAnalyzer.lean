import DdTrace.Appsec.SensitiveHandler
import DdTrace.Library.RegExp

/-!
# The arguments of a command

`sensitive-analyzers/command-sensitive-analyzer.js` finds what is sensitive in the evidence of a
command injection: the arguments of the command line.  It is one expression with the flags `gmi`,
`^(?:\s*(?:sudo|doas)\s+)?\b\S+\b\s(.*)`, and the range is that of its group.

A `Command` is a command line by its parts: blanks, perhaps `sudo` or `doas` with the blanks behind
it, the executable, and perhaps the arguments behind one more blank.  `arguments_covered_iff` says
when the range covers the arguments.  Blanks at the beginning are only read before `sudo` or `doas`,
or where the expression can begin on a new line behind them.  The executable has to begin and to end
with a word character, which an absolute path does not; behind `sudo` or `doas` the expression then
takes these for the executable, and the rest of the line is the range.  In any case the range is on
one line.

A match further down does not help, for it begins among the arguments.
-/

namespace DdTrace.Appsec

open Library List Option
open Library.RegExp

namespace CommandSensitiveAnalyzer

open Regex Bool

/-! ## The code -/

/-- `sudo|doas` -/
def wrapperName : Regex UInt16 := .alt (caseless "sudo") (caseless "doas")

/-- `\s*(?:sudo|doas)\s+` -/
def wrapperPattern : Regex UInt16 :=
  .seq (.star (.chr Str.isSpace)) (.seq wrapperName (.plus (.chr Str.isSpace)))

/-- `\b\S+\b\s(.*)` -/
def executablePattern : Regex UInt16 :=
  Regex.seqs [wordBoundary, .plus (.chr fun u => !Str.isSpace u), wordBoundary,
    .chr Str.isSpace, .group 1 (.star dot)]

/-- `^(?:\s*(?:sudo|doas)\s+)?\b\S+\b\s(.*)` with the flags `gmi`. -/
def pattern : Regex UInt16 :=
  .seq lineStart (.seq (.opt wrapperPattern) executablePattern)

def extractSensitiveRanges (value : Str) : List Range :=
  match pattern.exec value 0 with
  | none => []
  | some regexResult =>
    let length := ((regexResult.stop.group? 1).getD []).length
    let start := regexResult.index + (regexResult.length - length)
    [⟨start, start + length, Nat.le_add_right _ _⟩]

/-! ## Command lines -/

def isWrapper (name : Str) : Bool :=
  name.map foldCase = lit "sudo" || name.map foldCase = lit "doas"

/-- `sudo` or `doas`, and the blanks behind it. -/
structure Wrapper where
  name : Str
  blanks : Str
  isWrapper_name : isWrapper name = true
  blanks_ne_nil : blanks ≠ []
  blanks_isSpace : ∀ u ∈ blanks, Str.isSpace u = true

/-- A command line.  What looks like `sudo` or `doas` is the executable only where nothing follows
it. -/
structure Command where
  blanks : Str
  wrapper : Option Wrapper
  executable : Str
  /-- The blank behind the executable, and what is behind it. -/
  arguments : Option (UInt16 × Str)
  blanks_isSpace : ∀ u ∈ blanks, Str.isSpace u = true
  executable_ne_nil : executable ≠ []
  executable_notSpace : ∀ u ∈ executable, Str.isSpace u = false
  separator_isSpace : ∀ a ∈ arguments, Str.isSpace a.1 = true
  nothing_follows : wrapper = none → isWrapper executable = true →
    ∀ a ∈ arguments, ∀ u ∈ a.2, Str.isSpace u = true

namespace Command

def wrapperText (command : Command) : Str := command.wrapper.elim [] fun w => w.name ++ w.blanks

def argumentsText (command : Command) : Str := command.arguments.elim [] fun a => a.1 :: a.2

def text (command : Command) : Str :=
  command.blanks ++ (command.wrapperText ++ (command.executable ++ command.argumentsText))

/-- The index behind the blank that ends the executable. -/
def argumentsStart (command : Command) : ℕ :=
  command.blanks.length + command.wrapperText.length + command.executable.length + 1

/-- The arguments are covered by one range. -/
def Covered (command : Command) (ranges : List Range) : Prop :=
  ∀ a ∈ command.arguments, ∃ r, ranges = [r] ∧ r.start ≤ command.argumentsStart ∧
    command.argumentsStart + a.2.length ≤ r.stop

end Command

/-- A text on one line. -/
def oneLine (s : Str) : Bool := s.all fun u => !isLineTerminator u

/-- A text that begins and ends with a word character. -/
def wordEnds (s : Str) : Bool := s.head?.any isWord && s.getLast?.any isWord

/-- The expression can begin behind these blanks. -/
def startsLine (blanks : Str) : Bool := blanks.getLast?.all isLineTerminator

/-- The arguments are on one line, and the executable is recognised, or else `sudo` or `doas` is, at
the beginning of a line and with nothing but one line behind its first blank. -/
def Command.Reached (command : Command) : Prop :=
  ∀ a ∈ command.arguments, oneLine a.2 = true ∧
    if wordEnds command.executable then
      command.wrapper.isSome = true ∨ startsLine command.blanks = true
    else
      startsLine command.blanks = true ∧
        ∃ w ∈ command.wrapper, oneLine (w.blanks.tail ++ [a.1]) = true

/-! ## `sudo` and `doas` -/

variable {name : Str}

theorem isWrapper_iff : isWrapper name = true ↔
    name.map foldCase = lit "sudo" ∨ name.map foldCase = lit "doas" := by
  rw [isWrapper, or_eq_true, decide_eq_true_eq, decide_eq_true_eq]

theorem isWord_of_isWrapper (h : isWrapper name = true) :
    ∀ u ∈ name, isWord u = true := by
  have hletter (u : UInt16) (s : Str) (hs : s = lit "sudo" ∨ s = lit "doas")
      (hu : foldCase u ∈ s) : isWord u = true := by
    have hfold : isWord (foldCase u) = true ∧ 0x61 ≤ (foldCase u).toNat := by
      rcases hs with rfl | rfl
      all_goals
        exact Str.forall_mem_of_all (P := fun u => isWord u = true ∧ 0x61 ≤ u.toNat) (by decide)
          _ hu
    rw [foldCase] at hfold
    split_ifs at hfold with hupper
    · simp only [isWord, or_eq_true, and_eq_true, decide_eq_true_eq]
      omega
    · exact hfold.1
  intro u hu
  exact hletter u _ (isWrapper_iff.mp h) (List.mem_map_of_mem hu)

theorem length_of_isWrapper (h : isWrapper name = true) : name.length = 4 := by
  rcases isWrapper_iff.mp h with h | h
  all_goals
    rw [← length_map (f := foldCase), h]
    rfl

theorem Wrapper.name_ne_nil (wrapper : Wrapper) : wrapper.name ≠ [] := fun h => by
  have hlength := length_of_isWrapper wrapper.isWrapper_name
  rw [h] at hlength
  cases hlength

theorem Wrapper.notSpace_name (wrapper : Wrapper) :
    ∀ u ∈ wrapper.name, Str.isSpace u = false := fun u hu =>
  isSpace_eq_false_of_isWord (isWord_of_isWrapper wrapper.isWrapper_name u hu)

theorem wordEnds_of_forall {s : Str} (hne : s ≠ []) (h : ∀ u ∈ s, isWord u = true) :
    wordEnds s = true := by
  rw [wordEnds, head?_eq_some_head hne, getLast?_eq_some_getLast hne, any_some,
    any_some, h _ (head_mem hne), h _ (getLast_mem hne)]
  rfl

variable {before rest body b w line : Str} {sep : UInt16}
  {k : Regex.Cursor UInt16 → Option (Regex.Cursor UInt16)}

theorem run_wrapperName (k : Regex.Cursor UInt16 → Option (Regex.Cursor UInt16))
    (c : Regex.Cursor UInt16) :
    Regex.run wrapperName k c =
      if isWrapper (c.rest.take 4) then k (c.advance 4) else none := by
  have hsudo : (lit "sudo").map foldCase = lit "sudo" := by decide
  have hdoas : (lit "doas").map foldCase = lit "doas" := by decide
  rw [wrapperName, run_alt, run_caseless, run_caseless, hdoas]
  show (if (c.rest.take 4).map foldCase = lit "sudo" then k (c.advance 4) else none).or
    (if (c.rest.take 4).map foldCase = lit "doas" then k (c.advance 4) else none) = _
  by_cases hs : (c.rest.take 4).map foldCase = lit "sudo"
  · have hd : (c.rest.take 4).map foldCase ≠ lit "doas" := by
      rw [hs]
      decide
    rw [if_pos hs, if_neg hd, or_none, if_pos (isWrapper_iff.mpr (.inl hs))]
  · rw [if_neg hs, none_or]
    by_cases hd : (c.rest.take 4).map foldCase = lit "doas"
    · rw [if_pos hd, if_pos (isWrapper_iff.mpr (.inr hd))]
    · rw [if_neg hd, if_neg fun h => (isWrapper_iff.mp h).elim hs hd]

theorem run_wrapperName_of_isSpace {a : UInt16} (ha : Str.isSpace a = true) :
    Regex.run wrapperName k ⟨before, a :: rest, []⟩ = none := by
  rw [run_wrapperName, if_neg]
  intro h
  have hword := isWord_of_isWrapper h a (mem_cons_self ..)
  rw [isWord_eq_false_of_isSpace ha] at hword
  cases hword

variable (before k) in
/-- The blanks before `sudo` or `doas` are all taken. -/
theorem run_wrapperPattern (hb : ∀ u ∈ b, Str.isSpace u = true)
    (hbody : ∀ u ∈ body.head?, Str.isSpace u = false) :
    Regex.run wrapperPattern k ⟨before, b ++ body, []⟩ =
      Regex.run wrapperName (Regex.run (.plus (.chr Str.isSpace)) k)
        ⟨b.reverse ++ before, body, []⟩ := by
  rw [wrapperPattern, run_seq, run_star_chr_full hb hbody, run_seq]
  intro u a v hu
  have ha : Str.isSpace a = true := by
    refine hb a ?_
    rw [hu]
    exact mem_append_right _ (mem_cons_self ..)
  rw [run_seq]
  exact run_wrapperName_of_isSpace ha

/-! ## The executable and its arguments -/

/-- What `.*` takes. -/
def firstLine (s : Str) : Str := s.takeWhile fun u => !isLineTerminator u

theorem run_line (before line : Str) : Regex.run (.group 1 (.star dot)) some ⟨before, line, []⟩ =
      some ⟨(firstLine line).reverse ++ before, line.dropWhile fun u => !isLineTerminator u,
        [(1, firstLine line)]⟩ := by
  have hline : firstLine line ++ (line.dropWhile fun u => !isLineTerminator u) = line :=
    takeWhile_append_dropWhile
  have htook : Regex.Took ⟨before, line, []⟩ (firstLine line)
      ⟨(firstLine line).reverse ++ before, line.dropWhile fun u => !isLineTerminator u, []⟩ :=
    ⟨hline.symm, rfl⟩
  have hclass : ∀ u ∈ firstLine line, (!isLineTerminator u) = true := fun u hu =>
    mem_takeWhile_imp (p := fun u => !isLineTerminator u) hu
  have hstop : ∀ u ∈ (line.dropWhile fun u => !isLineTerminator u).head?,
      (!isLineTerminator u) = false := fun u hu => by
    have h := head?_dropWhile_not (fun u => !isLineTerminator u) line
    rw [mem_def.mp hu] at h
    exact h
  rw [run_group]
  conv_lhs => rw [← hline]
  refine run_star_chr_longest hclass hstop ?_
  rw [hline, htook.taken_eq]

/-- The expression takes the whole executable, between two boundaries. -/
theorem run_executablePattern (hbefore : before.head?.any isWord = false)
    (hw : ∀ u ∈ w, Str.isSpace u = false) (hrest : ∀ u ∈ rest.head?, Str.isSpace u = true) :
    Regex.run executablePattern some ⟨before, w ++ rest, []⟩ =
      if wordEnds w then
        Regex.run (Regex.seqs [.chr Str.isSpace, .group 1 (.star dot)]) some
          ⟨w.reverse ++ before, rest, []⟩
      else none := by
  have hrest' : rest.head?.any isWord = false := by
    cases rest with
    | nil => rfl
    | cons u rest => exact isWord_eq_false_of_isSpace (hrest u rfl)
  rw [executablePattern, run_seqs_cons, wordBoundary, run_look, hbefore]
  by_cases hfirst : w.head?.any isWord = true
  · have hne : w ≠ [] := fun h => by
      rw [h] at hfirst
      cases hfirst
    have hhead : (w ++ rest).head?.any isWord = true := by
      rw [head?_append_of_ne_nil _ hne, hfirst]
    have hclass : ∀ u ∈ w, (!Str.isSpace u) = true := fun u hu => by rw [hw u hu]; rfl
    have hstop : ∀ u ∈ rest.head?, (!Str.isSpace u) = false := fun u hu => by
      rw [hrest u hu]
      rfl
    rw [hhead, if_pos (by rfl), run_seqs_cons, run_plus_chr_full hclass hne hstop]
    · have hlast : (w.reverse ++ before).head? = w.getLast? := by
        rw [head?_append_of_ne_nil _ (reverse_ne_nil_iff.mpr hne), head?_reverse]
      rw [run_seqs_cons, run_look, hlast, hrest', wordEnds, hfirst, Bool.true_and]
      by_cases hend : w.getLast?.any isWord = true
      · rw [hend, if_pos (by rfl), if_pos rfl]
      · rw [if_neg hend, if_neg (by simp [hend])]
    · -- Behind a part of the executable there is no blank.
      intro u a v hu _
      have ha : Str.isSpace a = false := hw a (by rw [hu]; simp)
      rw [run_seqs_cons, run_look]
      split_ifs
      · rw [run_seqs_cons, cons_append, run_chr_cons, if_neg (by simp [ha])]
      · rfl
  · have hhead : (w ++ rest).head?.any isWord = false := by
      cases w with
      | nil => exact hrest'
      | cons u w => exact eq_false_iff.mpr hfirst
    rw [hhead, if_neg (by decide), if_neg]
    rw [wordEnds, eq_false_iff.mpr hfirst]
    exact Bool.false_ne_true

/-- An executable that is recognised, and the line of its arguments. -/
theorem run_executablePattern_of_wordEnds (hbefore : before.head?.any isWord = false)
    (hw : ∀ u ∈ w, Str.isSpace u = false) (hsep : Str.isSpace sep = true)
    (hends : wordEnds w = true) (line : Str) :
    Regex.run executablePattern some ⟨before, w ++ sep :: line, []⟩ =
      some ⟨(firstLine line).reverse ++ sep :: (w.reverse ++ before),
        line.dropWhile fun u => !isLineTerminator u, [(1, firstLine line)]⟩ := by
  have hrest : ∀ u ∈ (sep :: line).head?, Str.isSpace u = true := fun u hu =>
    some_injective _ hu ▸ hsep
  rw [run_executablePattern hbefore hw hrest, if_pos hends, run_seqs_cons,
    run_chr_cons, if_pos hsep, Regex.seqs, foldr_cons, run_seq]
  exact run_line _ line

/-- An executable that is not recognised, or behind which there is nothing. -/
theorem run_executablePattern_eq_none (hbefore : before.head?.any isWord = false)
    (hw : ∀ u ∈ w, Str.isSpace u = false) (hrest : ∀ u ∈ rest.head?, Str.isSpace u = true)
    (h : wordEnds w = false ∨ rest = []) :
    Regex.run executablePattern some ⟨before, w ++ rest, []⟩ = none := by
  rw [run_executablePattern hbefore hw hrest]
  rcases h with h | h
  · rw [if_neg (eq_false_iff.mp h)]
  · rw [h, run_seqs_cons, run_chr_nil, ite_self]

/-- No executable begins with a blank, or at the end. -/
theorem run_executablePattern_of_blank (hbefore : before.head?.any isWord = false)
    (hrest : ∀ u ∈ rest.head?, Str.isSpace u = true) :
    Regex.run executablePattern some ⟨before, rest, []⟩ = none :=
  run_executablePattern_eq_none (w := []) hbefore (fun _ h => (not_mem_nil h).elim) hrest (.inl rfl)

/-! ## Behind `sudo` and `doas` -/

theorem any_isWord_reverse_append (hb : ∀ u ∈ b, Str.isSpace u = true) (hne : b ≠ []) :
    (b.reverse ++ before).head?.any isWord = false := by
  rw [head?_append_of_ne_nil _ (reverse_ne_nil_iff.mpr hne), head?_reverse,
    getLast?_eq_some_getLast hne]
  exact isWord_eq_false_of_isSpace (hb _ (getLast_mem hne))

variable (before rest) in
/-- The blanks behind `sudo` or `doas` are all taken. -/
theorem run_blanks (hb : ∀ u ∈ b, Str.isSpace u = true) (hne : b ≠ [])
    (hrest : ∀ u ∈ rest.head?, Str.isSpace u = false) :
    Regex.run (.plus (.chr Str.isSpace)) (Regex.run executablePattern some)
        ⟨before, b ++ rest, []⟩ =
      Regex.run executablePattern some ⟨b.reverse ++ before, rest, []⟩ := by
  refine run_plus_chr_full hb hne hrest fun u a v hu hune => ?_
  have hspace : ∀ x ∈ u, Str.isSpace x = true := fun x hx => hb x (by rw [hu]; simp [hx])
  have ha : Str.isSpace a = true := hb a (by rw [hu]; simp)
  exact run_executablePattern_of_blank (any_isWord_reverse_append hspace hune)
    fun x hx => some_injective _ hx ▸ ha

/-- An executable that is not `sudo` or `doas` is not taken for one. -/
theorem run_wrapperName_eq_none (hw : ∀ u ∈ w, Str.isSpace u = false)
    (hrest : ∀ u ∈ rest.head?, Str.isSpace u = true)
    (h : isWrapper w = true → ∀ u ∈ rest, Str.isSpace u = true) :
    Regex.run wrapperName (Regex.run (.plus (.chr Str.isSpace))
      (Regex.run executablePattern some)) ⟨before, w ++ rest, []⟩ = none := by
  rw [run_wrapperName]
  split_ifs with hname
  · -- The name is a part of the executable, for there is no blank in it.
    have hnil : rest.take (4 - w.length) = [] := by
      rcases hr : rest.take (4 - w.length) with _ | ⟨u, v⟩
      · rfl
      · have hu : rest.head? = some u := by
          rw [← take_append_drop (4 - w.length) rest, hr]
          rfl
        have hmem : u ∈ (w ++ rest).take 4 := by
          rw [take_append, hr]
          exact mem_append_right _ (mem_cons_self ..)
        have hword := isWord_of_isWrapper hname u hmem
        rw [isWord_eq_false_of_isSpace (hrest u hu)] at hword
        cases hword
    have htake : (w ++ rest).take 4 = w.take 4 := by rw [take_append, hnil, append_nil]
    have hname' : isWrapper (w.take 4) = true := htake ▸ hname
    have hle : 4 ≤ w.length := by
      have hlength := length_of_isWrapper hname'
      rw [length_take] at hlength
      omega
    have hadvance : Regex.Cursor.advance ⟨before, w ++ rest, []⟩ 4 =
        ⟨(w.take 4).reverse ++ before, w.drop 4 ++ rest, []⟩ := by
      rw [Regex.Cursor.advance, htake, drop_append_of_le_length hle]
    rw [hadvance]
    rcases hdrop : w.drop 4 with _ | ⟨u, v⟩
    · have hwhole : w.take 4 = w := by
        rw [← append_nil (w.take 4), ← hdrop, take_append_drop]
      have hall := h (hwhole ▸ hname')
      rw [List.nil_append]
      by_cases hne : rest = []
      · rw [hne]
        exact run_plus_chr_stop fun u hu => by cases hu
      · have hblank := run_blanks ((w.take 4).reverse ++ before) [] hall hne
          fun u hu => by cases hu
        rw [append_nil] at hblank
        rw [hblank]
        exact run_executablePattern_of_blank (any_isWord_reverse_append hall hne)
          fun u hu => by cases hu
    · refine run_plus_chr_stop fun x hx => hw x (mem_of_mem_drop (i := 4) ?_)
      rw [hdrop]
      exact some_injective _ hx ▸ mem_cons_self ..
  · rfl

/-- `sudo` or `doas` with the blanks behind it, then an executable. -/
theorem run_wrapper (wrapper : Wrapper) (hne : w ≠ []) (hw : ∀ u ∈ w, Str.isSpace u = false)
    (before rest : Str) :
    Regex.run wrapperName (Regex.run (.plus (.chr Str.isSpace)) (Regex.run executablePattern some))
          ⟨before, wrapper.name ++ (wrapper.blanks ++ (w ++ rest)), []⟩ =
      Regex.run executablePattern some
        ⟨wrapper.blanks.reverse ++ (wrapper.name.reverse ++ before), w ++ rest, []⟩ := by
  have hlength := length_of_isWrapper wrapper.isWrapper_name
  have htake : (wrapper.name ++ (wrapper.blanks ++ (w ++ rest))).take 4 = wrapper.name := by
    rw [← hlength, take_left]
  have hadvance : Regex.Cursor.advance ⟨before, wrapper.name ++ (wrapper.blanks ++ (w ++ rest)), []⟩
      4 = ⟨wrapper.name.reverse ++ before, wrapper.blanks ++ (w ++ rest), []⟩ := by
    rw [Regex.Cursor.advance, htake, ← hlength, drop_left]
  rw [run_wrapperName, htake, if_pos wrapper.isWrapper_name, hadvance]
  refine run_blanks _ _ wrapper.blanks_isSpace wrapper.blanks_ne_nil fun u hu => ?_
  rw [head?_append_of_ne_nil _ hne] at hu
  exact hw u (mem_of_mem_head? hu)

/-! ## One place of the text -/

theorem head?_ends_of_lineStart (h : before.head?.all isLineTerminator = true) (rest : Str) :
    (pattern.ends ⟨before, rest, []⟩).head? =
      (Regex.run wrapperPattern (Regex.run executablePattern some) ⟨before, rest, []⟩).or
        (Regex.run executablePattern some ⟨before, rest, []⟩) := by
  rw [head?_ends, pattern, run_seq, lineStart, run_look, if_pos h, run_seq, run_opt]

theorem ends_of_not_lineStart (h : before.head?.all isLineTerminator = false) (rest : Str) :
    pattern.ends ⟨before, rest, []⟩ = [] := by
  rw [ends_eq_nil_iff, pattern, run_seq, lineStart, run_look, if_neg (eq_false_iff.mp h)]

theorem ends_of_head? (h : (pattern.ends ⟨before, rest, []⟩).head? = none) :
    pattern.ends ⟨before, rest, []⟩ = [] := head?_eq_none_iff.mp h

theorem any_isWord_of_lineStart (h : before.head?.all isLineTerminator = true) :
    before.head?.any isWord = false := by
  rcases before with _ | ⟨u, before⟩
  · rfl
  · exact isWord_eq_false_of_isSpace (isSpace_of_isLineTerminator h)

theorem isSpace_head?_append (hb : ∀ u ∈ b, Str.isSpace u = true) (hne : b ≠ []) (rest : Str) :
    ∀ u ∈ (b ++ rest).head?, Str.isSpace u = true := by
  intro u hu
  rw [head?_append_of_ne_nil _ hne] at hu
  exact hb u (mem_of_mem_head? hu)

theorem notSpace_head?_append (hw : ∀ u ∈ w, Str.isSpace u = false) (hne : w ≠ []) (rest : Str) :
    ∀ u ∈ (w ++ rest).head?, Str.isSpace u = false := by
  intro u hu
  rw [head?_append_of_ne_nil _ hne] at hu
  exact hw u (mem_of_mem_head? hu)

/-- The expression does not match before an executable, but where this is recognised at once. -/
theorem ends_of_executable (hb : ∀ u ∈ b, Str.isSpace u = true) (hne : w ≠ [])
    (hw : ∀ u ∈ w, Str.isSpace u = false) (hrest : ∀ u ∈ rest.head?, Str.isSpace u = true)
    (hname : isWrapper w = true → ∀ u ∈ rest, Str.isSpace u = true)
    (h : b ≠ [] ∨ wordEnds w = false) : pattern.ends ⟨before, b ++ (w ++ rest), []⟩ = [] := by
  rcases hstart : before.head?.all isLineTerminator with _ | _
  · exact ends_of_not_lineStart hstart _
  · refine ends_of_head? ?_
    rw [head?_ends_of_lineStart hstart,
      run_wrapperPattern _ _ hb (notSpace_head?_append hw hne rest),
      run_wrapperName_eq_none hw hrest hname]
    have hbefore := any_isWord_of_lineStart hstart
    by_cases hnil : b = []
    · rw [hnil, List.nil_append]
      exact run_executablePattern_eq_none hbefore hw hrest (.inl (h.resolve_left fun hb => hb hnil))
    · exact run_executablePattern_of_blank hbefore (isSpace_head?_append hb hnil _)

/-- It does not match in blanks before `sudo` or `doas` with an executable that is not
recognised. -/
theorem ends_of_wrapper (wrapper : Wrapper) (hb : ∀ u ∈ b, Str.isSpace u = true) (hbne : b ≠ [])
    (hne : w ≠ []) (hw : ∀ u ∈ w, Str.isSpace u = false)
    (hrest : ∀ u ∈ rest.head?, Str.isSpace u = true) (h : wordEnds w = false) :
    pattern.ends ⟨before, b ++ (wrapper.name ++ (wrapper.blanks ++ (w ++ rest))), []⟩ = [] := by
  rcases hstart : before.head?.all isLineTerminator with _ | _
  · exact ends_of_not_lineStart hstart _
  · have hname := isWord_of_isWrapper wrapper.isWrapper_name
    have hnotSpace : ∀ u ∈ wrapper.name, Str.isSpace u = false := fun u hu =>
      isSpace_eq_false_of_isWord (hname u hu)
    refine ends_of_head? ?_
    rw [head?_ends_of_lineStart hstart,
      run_wrapperPattern _ _ hb (notSpace_head?_append hnotSpace wrapper.name_ne_nil _),
      run_wrapper wrapper hne hw, run_executablePattern_eq_none
        (any_isWord_reverse_append wrapper.blanks_isSpace wrapper.blanks_ne_nil) hw hrest (.inl h)]
    exact run_executablePattern_of_blank (any_isWord_of_lineStart hstart)
      (isSpace_head?_append hb hbne _)

/-- Behind what is no blank there is no beginning of a line. -/
theorem ends_behind (hw : ∀ u ∈ w, Str.isSpace u = false) (hne : w ≠ []) (rest : Str) :
    pattern.ends ⟨w.reverse ++ before, rest, []⟩ = [] := by
  refine ends_of_not_lineStart ?_ rest
  rw [head?_append_of_ne_nil _ (reverse_ne_nil_iff.mpr hne), head?_reverse,
    getLast?_eq_some_getLast hne]
  exact isLineTerminator_eq_false_of_notSpace (hw _ (getLast_mem hne))

/-- A match takes something before its group. -/
theorem exists_of_mem_ends {c d : Regex.Cursor UInt16} (h : d ∈ pattern.ends c) :
    ∃ v line, v ≠ [] ∧ Regex.Took c (v ++ line) d ∧ d.group? 1 = some line := by
  obtain ⟨c₁, h₁, h⟩ := mem_ends_seq.mp h
  obtain ⟨c₂, h₂, h⟩ := mem_ends_seq.mp h
  obtain ⟨c₃, h₃, h⟩ := mem_ends_seq.mp h
  obtain ⟨c₄, h₄, h⟩ := mem_ends_seq.mp h
  obtain ⟨c₅, h₅, h⟩ := mem_ends_seq.mp h
  obtain ⟨c₆, h₆, h⟩ := mem_ends_seq.mp h
  obtain ⟨c₇, h₇, h⟩ := mem_ends_seq.mp h
  obtain rfl : d = c₇ := mem_singleton.mp h
  obtain ⟨v₁, t₁⟩ := exists_took _ _ _ h₁
  obtain ⟨v₂, t₂⟩ := exists_took _ _ _ h₂
  obtain ⟨v₃, t₃⟩ := exists_took _ _ _ h₃
  obtain ⟨v₄, t₄⟩ := exists_took _ _ _ h₄
  obtain ⟨v₅, t₅⟩ := exists_took _ _ _ h₅
  obtain ⟨a, -, t₆⟩ := took_of_mem_ends_chr h₆
  obtain ⟨e, he, rfl⟩ := List.mem_map.mp h₇
  obtain ⟨line, t₇⟩ := exists_took _ _ _ he
  refine ⟨v₁ ++ (v₂ ++ (v₃ ++ (v₄ ++ (v₅ ++ [a])))), line, by simp, ?_, ?_⟩
  · have htook := t₁.trans (t₂.trans (t₃.trans (t₄.trans (t₅.trans (t₆.trans t₇)))))
    simp only [append_assoc]
    exact ⟨htook.rest, htook.before⟩
  · show some (c₆.taken e) = some line
    rw [t₇.taken_eq]

/-! ## The range -/

theorem extractSensitiveRanges_eq_nil {value : Str} (h : Regex.search pattern [] value = none) :
    extractSensitiveRanges value = [] := by
  have hexec : pattern.exec value 0 = none := h
  rw [extractSensitiveRanges, hexec]

/-- The range of a match begins behind what the match takes before its group. -/
theorem extractSensitiveRanges_eq {value x : Str} {m : Regex.Found UInt16}
    (h : Regex.search pattern [] value = some m) (hline : m.stop.group? 1 = some line)
    (hbefore : m.stop.before = line.reverse ++ x) (hindex : m.index ≤ x.length) :
    extractSensitiveRanges value = [⟨x.length, x.length + line.length, Nat.le_add_right _ _⟩] := by
  have hexec : pattern.exec value 0 = some m := h
  have hlength : m.length = x.length + line.length - m.index := by
    rw [Regex.Found.length, Regex.Found.lastIndex, hbefore, length_append,
      length_reverse, Nat.add_comm]
  have hstart : m.index + (m.length - line.length) = x.length := by
    omega
  rw [extractSensitiveRanges, hexec]
  simp only [hline, getD_some, hstart]

theorem length_firstLine_iff {s : Str} : s.length ≤ (firstLine s).length ↔ oneLine s = true := by
  have hle : (firstLine s).length ≤ s.length := ( takeWhile_prefix _).length_le
  constructor
  · intro h
    have hs : firstLine s = s := ( takeWhile_prefix _).eq_of_length (Nat.le_antisymm hle h)
    rw [oneLine, List.all_eq_true]
    exact takeWhile_eq_self_iff.mp hs
  · intro h
    rw [firstLine, takeWhile_eq_self_iff.mpr (List.all_eq_true.mp h)]

theorem oneLine_append {s t : Str} : oneLine (s ++ t) = (oneLine s && oneLine t) :=
  all_append

theorem oneLine_of_notSpace (hw : ∀ u ∈ w, Str.isSpace u = false) : oneLine w = true :=
  List.all_eq_true.mpr fun u hu => by
    rw [isLineTerminator_eq_false_of_notSpace (hw u hu)]
    rfl

namespace Command

variable {command : Command} {separator : UInt16} {args : Str}

variable (before rest) in
/-- A match that begins among the arguments does not cover them. -/
theorem not_covered_of_behind (harguments : command.arguments = some (separator, args))
    (hlength : before.length = command.argumentsStart) {value : Str}
    (hsearch : Regex.search pattern [] value = Regex.search pattern before rest) :
    ¬ command.Covered (extractSensitiveRanges value) := by
  intro hcovered
  obtain ⟨r, hr, hstart, -⟩ := hcovered (separator, args) harguments
  rcases hm : Regex.search pattern before rest with _ | m
  · rw [extractSensitiveRanges_eq_nil (hsearch.trans hm)] at hr
    cases hr
  · obtain ⟨u, v, -, hindex, hends⟩ := exists_of_search hm
    obtain ⟨x, line, hx, htook, hline⟩ := exists_of_mem_ends hends
    have hbefore := htook.before
    rw [reverse_append, append_assoc] at hbefore
    have hxlength := length_pos_of_ne_nil hx
    have heq := extractSensitiveRanges_eq (hsearch.trans hm) hline hbefore (by
      simp only [length_append, length_reverse]
      omega)
    rw [heq, singleton_inj] at hr
    rw [← hr] at hstart
    simp only [length_append, length_reverse] at hstart
    omega

/-- A match that begins before the arguments covers them when it goes to their end. -/
theorem covered_iff_of_match (harguments : command.arguments = some (separator, args))
    {value x : Str} {m : Regex.Found UInt16} (h : Regex.search pattern [] value = some m)
    (hline : m.stop.group? 1 = some (firstLine line))
    (hbefore : m.stop.before = (firstLine line).reverse ++ x) (hindex : m.index ≤ x.length)
    (hle : x.length ≤ command.argumentsStart)
    (hlength : command.argumentsStart + args.length = x.length + line.length) :
    command.Covered (extractSensitiveRanges value) ↔ oneLine line = true := by
  rw [extractSensitiveRanges_eq h hline hbefore hindex, ← length_firstLine_iff]
  constructor
  · intro hcovered
    obtain ⟨r, hr, -, hstop⟩ := hcovered (separator, args) harguments
    rw [singleton_inj] at hr
    rw [← hr] at hstop
    simp only at hstop
    omega
  · rintro h a ha
    obtain rfl : (separator, args) = a := some_injective _ (harguments.symm.trans ha)
    refine ⟨_, rfl, hle, ?_⟩
    simp only
    omega

theorem isSpace_head?_arguments (harguments : command.arguments = some (separator, args)) :
    ∀ u ∈ (separator :: args).head?, Str.isSpace u = true := fun _ hu =>
  some_injective _ hu ▸ command.separator_isSpace (separator, args) harguments

theorem text_of_none (hwrapper : command.wrapper = none)
    (harguments : command.arguments = some (separator, args)) :
    command.text = command.blanks ++ (command.executable ++ separator :: args) ∧
      command.argumentsStart = command.blanks.length + command.executable.length + 1 := by
  rw [text, argumentsStart, wrapperText, argumentsText, hwrapper, harguments]
  exact ⟨rfl, rfl⟩

variable {wrapper : Wrapper}

theorem text_of_some (hwrapper : command.wrapper = some wrapper)
    (harguments : command.arguments = some (separator, args)) :
    command.text = command.blanks ++
        (wrapper.name ++ (wrapper.blanks ++ (command.executable ++ separator :: args))) ∧
      command.argumentsStart = command.blanks.length + wrapper.name.length +
        wrapper.blanks.length + command.executable.length + 1 := by
  rw [text, argumentsStart, wrapperText, argumentsText, hwrapper, harguments, elim_some, append_assoc, length_append]
  exact ⟨rfl, by omega⟩

theorem isSpace_of_isWrapper (hwrapper : command.wrapper = none)
    (harguments : command.arguments = some (separator, args))
    (hname : isWrapper command.executable = true) :
    ∀ u ∈ separator :: args, Str.isSpace u = true :=
  forall_mem_cons.mpr ⟨command.separator_isSpace (separator, args) harguments,
    command.nothing_follows hwrapper hname (separator, args) harguments⟩

/-- An executable at the beginning of a line that is recognised. -/
theorem covered_iff_bare (hwrapper : command.wrapper = none)
    (harguments : command.arguments = some (separator, args))
    (hends : wordEnds command.executable = true) (hline : startsLine command.blanks = true) :
    command.Covered (extractSensitiveRanges command.text) ↔ oneLine args = true := by
  have hsep := command.separator_isSpace (separator, args) harguments
  have hw := command.executable_notSpace
  have hne := command.executable_ne_nil
  have hname := isSpace_of_isWrapper hwrapper harguments
  obtain ⟨htext, hindex⟩ := text_of_none hwrapper harguments
  have hstart : (command.blanks.reverse ++ []).head?.all isLineTerminator = true := by
    rw [append_nil, head?_reverse]
    exact hline
  have hmatch : (pattern.ends ⟨command.blanks.reverse ++ [],
      command.executable ++ separator :: args, []⟩).head? =
        some ⟨(firstLine args).reverse ++ separator :: (command.executable.reverse ++
          (command.blanks.reverse ++ [])),
          args.dropWhile fun u => !isLineTerminator u, [(1, firstLine args)]⟩ := by
    have hblank := run_wrapperPattern (b := []) (command.blanks.reverse ++ [])
      (Regex.run executablePattern some) (fun _ h => (not_mem_nil h).elim)
      (notSpace_head?_append hw hne (separator :: args))
    rw [List.nil_append] at hblank
    rw [head?_ends_of_lineStart hstart, hblank, run_wrapperName_eq_none hw
      (isSpace_head?_arguments harguments) hname]
    exact run_executablePattern_of_wordEnds (any_isWord_of_lineStart hstart) hw hsep hends args
  have hskip (u u' : Str) (hu : command.blanks = u ++ u') (hu' : u' ≠ []) :
      pattern.ends ⟨u.reverse ++ [], u' ++ (command.executable ++ separator :: args), []⟩ = [] :=
    ends_of_executable (fun x hx => command.blanks_isSpace x (by rw [hu]; simp [hx])) hne hw
      (isSpace_head?_arguments harguments) hname (.inl hu')
  have hsearch := search_append_of_head? hskip hmatch
  rw [← htext] at hsearch
  refine covered_iff_of_match harguments hsearch rfl rfl ?_ ?_ ?_
  all_goals
    simp only [hindex, length_append, length_cons, length_reverse, length_nil]
    omega

/-- An executable behind `sudo` or `doas` that is recognised. -/
theorem covered_iff_wrapped (hwrapper : command.wrapper = some wrapper)
    (harguments : command.arguments = some (separator, args))
    (hends : wordEnds command.executable = true) :
    command.Covered (extractSensitiveRanges command.text) ↔ oneLine args = true := by
  have hsep := command.separator_isSpace (separator, args) harguments
  have hw := command.executable_notSpace
  have hne := command.executable_ne_nil
  obtain ⟨htext, hindex⟩ := text_of_some hwrapper harguments
  have hmatch : (pattern.ends ⟨[], command.text, []⟩).head? =
      some ⟨(firstLine args).reverse ++ separator :: (command.executable.reverse ++
        (wrapper.blanks.reverse ++ (wrapper.name.reverse ++ (command.blanks.reverse ++ [])))),
        args.dropWhile fun u => !isLineTerminator u, [(1, firstLine args)]⟩ := by
    rw [head?_ends_of_lineStart rfl, htext, run_wrapperPattern _ _ command.blanks_isSpace
        (notSpace_head?_append wrapper.notSpace_name wrapper.name_ne_nil _),
      run_wrapper wrapper hne hw, run_executablePattern_of_wordEnds
        (any_isWord_reverse_append wrapper.blanks_isSpace wrapper.blanks_ne_nil) hw hsep hends]
    rfl
  refine covered_iff_of_match harguments (search_of_head? hmatch) rfl rfl ?_ ?_ ?_
  all_goals
    simp only [hindex, length_append, length_cons, length_reverse, length_nil]
    omega

/-- `sudo` or `doas` taken for the executable. -/
theorem covered_iff_misread (hwrapper : command.wrapper = some wrapper)
    (harguments : command.arguments = some (separator, args))
    (hends : wordEnds command.executable = false) (hline : startsLine command.blanks = true) :
    command.Covered (extractSensitiveRanges command.text) ↔
      oneLine args = true ∧ oneLine (wrapper.blanks.tail ++ [separator]) = true := by
  have hrest := isSpace_head?_arguments harguments
  have hw := command.executable_notSpace
  have hne := command.executable_ne_nil
  obtain ⟨htext, hindex⟩ := text_of_some hwrapper harguments
  obtain ⟨u, blanks, hblanks⟩ := exists_cons_of_ne_nil wrapper.blanks_ne_nil
  have hspace : Str.isSpace u = true := wrapper.blanks_isSpace u (by rw [hblanks]; simp)
  have hname := isWord_of_isWrapper wrapper.isWrapper_name
  have hstart : (command.blanks.reverse ++ []).head?.all isLineTerminator = true := by
    rw [append_nil, head?_reverse]
    exact hline
  have hmatch : (pattern.ends ⟨command.blanks.reverse ++ [],
      wrapper.name ++ (wrapper.blanks ++ (command.executable ++ separator :: args)), []⟩).head? =
        some ⟨(firstLine (blanks ++ (command.executable ++ separator :: args))).reverse ++
          u :: (wrapper.name.reverse ++ (command.blanks.reverse ++ [])),
          (blanks ++ (command.executable ++ separator :: args)).dropWhile
            fun u => !isLineTerminator u,
          [(1, firstLine (blanks ++ (command.executable ++ separator :: args)))]⟩ := by
    have hblank := run_wrapperPattern (b := []) (command.blanks.reverse ++ [])
      (Regex.run executablePattern some) (fun _ h => (not_mem_nil h).elim)
      (notSpace_head?_append wrapper.notSpace_name wrapper.name_ne_nil
        (wrapper.blanks ++ (command.executable ++ separator :: args)))
    rw [List.nil_append] at hblank
    rw [head?_ends_of_lineStart hstart, hblank, run_wrapper wrapper hne hw,
      run_executablePattern_eq_none (any_isWord_reverse_append wrapper.blanks_isSpace wrapper.blanks_ne_nil) hw hrest (.inl hends),
      hblanks]
    exact run_executablePattern_of_wordEnds (any_isWord_of_lineStart hstart) wrapper.notSpace_name
      hspace (wordEnds_of_forall wrapper.name_ne_nil hname) _
  have hskip (u u' : Str) (hu : command.blanks = u ++ u') (hu' : u' ≠ []) :
      pattern.ends ⟨u.reverse ++ [], u' ++ (wrapper.name ++
        (wrapper.blanks ++ (command.executable ++ separator :: args))), []⟩ = [] :=
    ends_of_wrapper wrapper (fun x hx => command.blanks_isSpace x (by rw [hu]; simp [hx])) hu' hne
      hw hrest hends
  have hsearch := search_append_of_head? hskip hmatch
  rw [← htext] at hsearch
  have hlength : wrapper.blanks.length = blanks.length + 1 := by rw [hblanks, length_cons]
  have hcovered := covered_iff_of_match harguments hsearch rfl rfl
    (by simp only [length_append, length_cons, length_reverse, length_nil]
        omega)
    (by simp only [hindex, hlength, length_append, length_cons, length_reverse, length_nil]
        omega)
    (by simp only [hindex, hlength, length_append, length_cons, length_reverse, length_nil]
        omega)
  have hcons : oneLine (separator :: args) = (oneLine [separator] && oneLine args) :=
    oneLine_append (s := [separator])
  rw [hcovered, oneLine_append, oneLine_append, oneLine_append, oneLine_of_notSpace hw, hblanks,
    tail_cons, hcons]
  cases oneLine blanks <;> cases oneLine [separator] <;> cases oneLine args <;> simp

/-- An executable at which no match begins. -/
theorem search_executable
    (h : pattern.ends ⟨before, command.executable ++ separator :: args, []⟩ = []) :
    Regex.search pattern before (command.executable ++ separator :: args) =
      Regex.search pattern (separator :: (command.executable.reverse ++ before)) args := by
  have hw := command.executable_notSpace
  have hne := command.executable_ne_nil
  rw [search_append]
  · exact search_cons (ends_behind hw hne _)
  · intro u u' hu hu'
    by_cases hnil : u = []
    · rw [hnil] at hu ⊢
      rw [List.nil_append] at hu
      rw [← hu]
      exact h
    · exact ends_behind (fun x hx => hw x (by rw [hu]; simp [hx])) hnil _

/-- An executable that is not recognised, or not at the beginning of a line. -/
theorem not_covered_bare (hwrapper : command.wrapper = none)
    (harguments : command.arguments = some (separator, args))
    (h : wordEnds command.executable = false ∨ startsLine command.blanks = false) :
    ¬ command.Covered (extractSensitiveRanges command.text) := by
  have hw := command.executable_notSpace
  have hne := command.executable_ne_nil
  have hname := isSpace_of_isWrapper hwrapper harguments
  have hrest := isSpace_head?_arguments harguments
  obtain ⟨htext, hindex⟩ := text_of_none hwrapper harguments
  have hhere : pattern.ends ⟨command.blanks.reverse ++ [],
      command.executable ++ separator :: args, []⟩ = [] := by
    rcases h with h | h
    · exact ends_of_executable (b := []) (fun _ h => (not_mem_nil h).elim) hne hw hrest hname
        (.inr h)
    · refine ends_of_not_lineStart ?_ _
      rw [append_nil, head?_reverse]
      exact h
  refine not_covered_of_behind (separator :: (command.executable.reverse ++
    (command.blanks.reverse ++ []))) args harguments ?_ ?_
  · simp only [hindex, length_append, length_cons, length_reverse, length_nil]
    omega
  · rw [htext, search_append, search_executable hhere]
    intro u u' hu hu'
    exact ends_of_executable (fun x hx => command.blanks_isSpace x (by rw [hu]; simp [hx])) hne hw
      hrest hname (.inl hu')

/-- An executable that is not recognised, behind `sudo` or `doas` where no line begins. -/
theorem not_covered_wrapped (hwrapper : command.wrapper = some wrapper)
    (harguments : command.arguments = some (separator, args))
    (hends : wordEnds command.executable = false) (hline : startsLine command.blanks = false) :
    ¬ command.Covered (extractSensitiveRanges command.text) := by
  have hw := command.executable_notSpace
  have hne := command.executable_ne_nil
  have hrest := isSpace_head?_arguments harguments
  have hname : isWrapper command.executable = true →
      ∀ u ∈ separator :: args, Str.isSpace u = true := fun h => by
    rw [wordEnds_of_forall hne (isWord_of_isWrapper h)] at hends
    cases hends
  obtain ⟨htext, hindex⟩ := text_of_some hwrapper harguments
  have hhere (before : Str) : pattern.ends ⟨before, command.executable ++ separator :: args, []⟩ =
      [] :=
    ends_of_executable (b := []) (fun _ h => (not_mem_nil h).elim) hne hw hrest hname (.inr hends)
  refine not_covered_of_behind (separator :: (command.executable.reverse ++
    (wrapper.blanks.reverse ++ (wrapper.name.reverse ++ (command.blanks.reverse ++ []))))) args
    harguments ?_ ?_
  · simp only [hindex, length_append, length_cons, length_reverse, length_nil]
    omega
  · rw [htext, search_append, search_append, search_append, search_executable (hhere _)]
    · -- The blanks behind `sudo` or `doas`.
      intro u u' hu hu'
      exact ends_of_executable (fun x hx => wrapper.blanks_isSpace x (by rw [hu]; simp [hx])) hne
        hw hrest hname (.inl hu')
    · -- The name, which does not begin a line.
      intro u u' hu hu'
      by_cases hnil : u = []
      · refine ends_of_not_lineStart ?_ _
        rw [hnil, reverse_nil, List.nil_append, append_nil, head?_reverse]
        exact hline
      · exact ends_behind (fun x hx => wrapper.notSpace_name x (by rw [hu]; simp [hx])) hnil _
    · intro u u' hu hu'
      exact ends_of_wrapper wrapper (fun x hx => command.blanks_isSpace x (by rw [hu]; simp [hx]))
        hu' hne hw hrest hends

end Command

/-- **When the range covers the arguments.** -/
theorem arguments_covered_iff (command : Command) :
    command.Covered (extractSensitiveRanges command.text) ↔ command.Reached := by
  rcases harguments : command.arguments with _ | ⟨separator, args⟩
  · exact iff_of_true (fun a ha => by rw [harguments] at ha; cases ha)
      fun a ha => by rw [harguments] at ha; cases ha
  have hreached : command.Reached ↔ oneLine args = true ∧
      if wordEnds command.executable then
        command.wrapper.isSome = true ∨ startsLine command.blanks = true
      else
        startsLine command.blanks = true ∧
          ∃ w ∈ command.wrapper, oneLine (w.blanks.tail ++ [separator]) = true := by
    rw [Command.Reached, harguments]
    exact ⟨fun h => h _ rfl, fun h a ha => some_injective _ ha ▸ h⟩
  rw [hreached]
  rcases hwrapper : command.wrapper with _ | wrapper
  · by_cases h : wordEnds command.executable = true ∧ startsLine command.blanks = true
    · rw [Command.covered_iff_bare hwrapper harguments h.1 h.2, if_pos h.1]
      exact ⟨fun hline => ⟨hline, .inr h.2⟩, fun h => h.1⟩
    · refine iff_of_false (Command.not_covered_bare hwrapper harguments ?_) ?_
      · exact (not_and_or.mp h).imp eq_false_iff.mpr eq_false_iff.mpr
      · rintro ⟨-, hr⟩
        split_ifs at hr with hends
        · exact h ⟨hends, hr.resolve_left (by simp)⟩
        · simp at hr
  · by_cases hends : wordEnds command.executable = true
    · rw [Command.covered_iff_wrapped hwrapper harguments hends, if_pos hends]
      exact ⟨fun hline => ⟨hline, .inl rfl⟩, fun h => h.1⟩
    · rw [if_neg hends]
      have hends' := eq_false_iff.mpr hends
      rcases hline : startsLine command.blanks with _ | _
      · refine iff_of_false (Command.not_covered_wrapped hwrapper harguments hends' hline) ?_
        simp
      · rw [Command.covered_iff_misread hwrapper harguments hends' hline]
        simp

/-- `/bin/ls -l` -/
def absolute : Command where
  blanks := []
  wrapper := none
  executable := lit "/bin/ls"
  arguments := some (unit ' ', lit "-l")
  blanks_isSpace := fun _ h => (not_mem_nil h).elim
  executable_ne_nil := by decide
  executable_notSpace := Str.forall_mem_of_all (by decide)
  separator_isSpace := by
    decide
  nothing_follows := fun _ h => absurd h (by decide)

/-- The arguments of an executable with an absolute path are printed. -/
theorem not_covered_absolute : ¬ absolute.Covered (extractSensitiveRanges absolute.text) := by
  intro h
  obtain ⟨r, hr, -⟩ := h (unit ' ', lit "-l") rfl
  cases hr

end CommandSensitiveAnalyzer
end DdTrace.Appsec
