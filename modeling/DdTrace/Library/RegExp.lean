import DdTrace.Library.Regex
import DdTrace.Library.Text

/-!
# The regular expressions of ECMAScript

The atoms that the expressions of programs are written with, over strings of UTF-16 code units:
the classes `\w`, `\s` and `.`, the anchors with and without the flag `m`, the boundary `\b`, and
letters that stand for themselves, with and without the flag `i`.

Without the flag `u` two code units are the same letter when `toUpperCase` says so, except that it
never takes a code unit beyond ASCII into ASCII.  So a letter of ASCII has no more than its two
forms, which is what `foldCase` is about.
-/

namespace Library.RegExp

open Bool

/-- `\w` -/
def isWord (u : UInt16) : Bool :=
  let n := u.toNat
  (0x30 ≤ n && n ≤ 0x39) || (0x41 ≤ n && n ≤ 0x5A) || n == 0x5F || (0x61 ≤ n && n ≤ 0x7A)

/-- `LineTerminator` -/
def isLineTerminator (u : UInt16) : Bool :=
  let n := u.toNat
  n == 0x0A || n == 0x0D || n == 0x2028 || n == 0x2029

/-- A letter of ASCII in lower case. -/
def foldCase (u : UInt16) : UInt16 := if 0x41 ≤ u.toNat ∧ u.toNat ≤ 0x5A then u + 0x20 else u

/-- `.` -/
def dot : Regex UInt16 := .chr fun u => !isLineTerminator u

/-- `^` -/
def start : Regex UInt16 := .look fun before _ => before.isEmpty

/-- `$` -/
def finish : Regex UInt16 := .look fun _ rest => rest.isEmpty

/-- `^` with the flag `m`. -/
def lineStart : Regex UInt16 := .look fun before _ => before.head?.all isLineTerminator

/-- `\b` -/
def wordBoundary : Regex UInt16 :=
  .look fun before rest => before.head?.any isWord != rest.head?.any isWord

/-- One code unit. -/
def char (c : Char) : Regex UInt16 := .chr fun u => u == unit c

/-- A text of ASCII with the flag `i`. -/
def caseless (s : String) : Regex UInt16 :=
  Regex.seqs (s.toList.map fun c => .chr fun u => foldCase u == foldCase (unit c))

/-! ## Classes -/

variable {u : UInt16}

theorem isSpace_of_isLineTerminator (h : isLineTerminator u = true) :
    Str.isSpace u = true := by
  simp only [isLineTerminator, or_eq_true, beq_iff_eq] at h
  simp only [Str.isSpace, or_eq_true, and_eq_true, decide_eq_true_eq, beq_iff_eq]
  omega

theorem isSpace_eq_false_of_isWord (h : isWord u = true) :
    Str.isSpace u = false := by
  simp only [isWord, or_eq_true, and_eq_true, decide_eq_true_eq, beq_iff_eq] at h
  rw [← not_eq_true]
  simp only [Str.isSpace, or_eq_true, and_eq_true, decide_eq_true_eq, beq_iff_eq]
  omega

theorem isWord_eq_false_of_isSpace (h : Str.isSpace u = true) :
    isWord u = false := by
  rw [← not_eq_true]
  intro hu
  rw [isSpace_eq_false_of_isWord hu] at h
  cases h

theorem isLineTerminator_eq_false_of_notSpace (h : Str.isSpace u = false) :
    isLineTerminator u = false := by
  rw [← not_eq_true]
  intro hu
  rw [isSpace_of_isLineTerminator hu] at h
  cases h

/-! ## Texts -/

/-- A text with the flag `i` is taken where it stands, in whatever case. -/
theorem run_caseless {β : Type*} (s : String) (k : Regex.Cursor UInt16 → Option β)
    (c : Regex.Cursor UInt16) :
    Regex.run (caseless s) k c =
      if (c.rest.take s.toList.length).map foldCase = (lit s).map foldCase then
        k (c.advance s.toList.length)
      else none := by
  rw [caseless, lit]
  induction s.toList generalizing c with
  | nil =>
    rw [List.map_nil, Regex.run_seqs_nil]
    exact (if_pos rfl).symm
  | cons x l ih =>
    obtain ⟨before, rest, groups⟩ := c
    rw [List.map_cons, Regex.run_seqs_cons]
    rcases rest with _ | ⟨u, rest⟩
    · rfl
    · rw [Regex.run_chr_cons]
      by_cases hu : foldCase u = foldCase (unit x)
      · rw [ih]
        simp [hu, Regex.Cursor.advance]
      · rw [if_neg (fun h => hu (beq_iff_eq.mp h)), if_neg]
        intro h
        exact hu (List.cons.inj h).1

end Library.RegExp
