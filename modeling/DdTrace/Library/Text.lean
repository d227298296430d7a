import Mathlib.Data.List.DropRight
import Mathlib.Data.UInt
import Mathlib.Tactic.Ring
import Mathlib.Tactic.IntervalCases

/-!
# Strings of UTF-16 code units

The strings of ECMAScript: a `Str` is a list of 16-bit code units, with the operations of
`String.prototype` that programs are written with.  `lit` reads a literal.

* `split`: cut at every occurrence of one code unit; `split_join` says that it undoes `join` when
  no part holds the separator.
* `replaceUnless`: a regular expression that replaces the single code units outside a class.
* `natString` and `readDigits`: numerals in a radix, with `readDigits_natString` the round trip.
-/

namespace Library

open List

/-- A string: its UTF-16 code units. -/
abbrev Str := List UInt16

instance lawfulBEqStr : LawfulBEq Str := inferInstance

/-- The code unit of a character of the basic plane. -/
def unit (c : Char) : UInt16 := c.toNat.toUInt16

/-- The code units of a literal whose characters are in the basic plane. -/
def lit (s : String) : Str := s.toList.map unit

/-- `includes` of an array, `has` of a set. -/
def includes {α : Type*} [DecidableEq α] (l : List α) (a : α) : Bool :=
  l.any fun b => decide (b = a)

@[simp] theorem includes_eq_true_iff {α : Type*} [DecidableEq α] {l : List α} {a : α} :
    includes l a = true ↔ a ∈ l := by
  rw [includes, any_eq_true]
  constructor
  · rintro ⟨b, hb, he⟩
    exact of_decide_eq_true he ▸ hb
  · exact fun h => ⟨a, h, decide_eq_true rfl⟩

@[simp] theorem includes_eq_false_iff {α : Type*} [DecidableEq α] {l : List α} {a : α} :
    includes l a = false ↔ a ∉ l := by
  rw [← includes_eq_true_iff, Bool.not_eq_true]

namespace Str

variable {s : Str} {sep : UInt16} {radix : ℕ} {u : UInt16} {l : List Str} {n : ℕ} {new : UInt16}

/-- A property of the code units of a literal, by running through them. -/
theorem forall_mem_of_all {P : UInt16 → Prop} [DecidablePred P]
    (h : (s.all fun u => decide (P u)) = true) : ∀ u ∈ s, P u := fun u hu =>
  of_decide_eq_true (all_eq_true.mp h u hu)

/-! ## White space -/

/-- `WhiteSpace` and `LineTerminator` of ECMAScript. -/
def isSpace (u : UInt16) : Bool :=
  let n := u.toNat
  (0x09 ≤ n && n ≤ 0x0D) || n == 0x20 || n == 0xA0 || n == 0x1680 || (0x2000 ≤ n && n ≤ 0x200A) ||
    n == 0x2028 || n == 0x2029 || n == 0x202F || n == 0x205F || n == 0x3000 || n == 0xFEFF

def trimStart (s : Str) : Str := s.dropWhile isSpace

def trimEnd (s : Str) : Str := s.rdropWhile isSpace

def trim (s : Str) : Str := (trimStart s).rdropWhile isSpace

theorem trimStart_of_head (h : ∀ u ∈ s.head?, isSpace u = false) : trimStart s = s := by
  cases s with
  | nil => rfl
  | cons u s => rw [trimStart, dropWhile_cons, if_neg (by simp [h u rfl])]

theorem trimEnd_of_getLast (h : ∀ u ∈ s.getLast?, isSpace u = false) :
    trimEnd s = s := by
  rw [trimEnd, rdropWhile_eq_self_iff]
  intro hne hu
  have hlast := h (s.getLast hne) (getLast?_eq_some_getLast hne)
  rw [hlast] at hu
  cases hu

theorem trim_of_ends (h : ∀ u ∈ s.head?, isSpace u = false)
    (h' : ∀ u ∈ s.getLast?, isSpace u = false) : trim s = s := by
  rw [trim, trimStart_of_head h]
  exact trimEnd_of_getLast h'

/-- White space around a text that has none at its ends. -/
theorem trim_pad {before after : Str} (hbefore : ∀ u ∈ before, isSpace u = true)
    (hafter : ∀ u ∈ after, isSpace u = true) (hhead : ∀ u ∈ s.head?, isSpace u = false)
    (hlast : ∀ u ∈ s.getLast?, isSpace u = false) : trim (before ++ s ++ after) = s := by
  rcases s with _ | ⟨u, s⟩
  · have hall : ∀ u ∈ before ++ after, isSpace u = true := fun u hu =>
      (mem_append.mp hu).elim (hbefore u) (hafter u)
    rw [append_nil, trim, trimStart, dropWhile_eq_nil_iff.mpr hall]
    rfl
  · have hstart : trimStart (before ++ (u :: s) ++ after) = (u :: s) ++ after := by
      rw [trimStart, append_assoc, dropWhile_append_of_pos hbefore, cons_append,
        dropWhile_cons, if_neg (by simp [hhead u rfl])]
    have hreverse : ∀ u ∈ after.reverse, isSpace u = true := fun u hu =>
      hafter u (mem_reverse.mp hu)
    rw [trim, hstart, List.rdropWhile, reverse_append, dropWhile_append_of_pos hreverse]
    exact trimEnd_of_getLast hlast

theorem mem_of_mem_trim (h : u ∈ trim s) : u ∈ s :=
  (dropWhile_suffix isSpace).subset (( rdropWhile_prefix isSpace _).subset h)

/-! ## Separators -/

/-- `split` at one code unit. -/
def split (sep : UInt16) (s : Str) : List Str := s.splitOn sep

/-- `join` with one code unit. -/
def join (sep : UInt16) (l : List Str) : Str := [sep].intercalate l

/-- Splitting undoes joining, when no part holds the separator. -/
theorem split_join (h : ∀ s ∈ l, sep ∉ s) (hl : l ≠ []) :
    split sep (join sep l) = l := splitOn_intercalate sep h hl

@[simp] theorem join_nil (sep : UInt16) : join sep [] = [] := rfl

@[simp] theorem join_singleton (sep : UInt16) (s : Str) : join sep [s] = s := by
  simp [join, List.intercalate]

theorem join_cons (sep : UInt16) (s : Str) (h : l ≠ []) :
    join sep (s :: l) = s ++ sep :: join sep l := by
  simp [join, List.intercalate, List.intersperse]

theorem join_eq_nil_iff : join sep (s :: l) = [] ↔ s = [] ∧ l = [] := by
  rcases l with _ | ⟨t, l⟩
  · simp
  · simp [join_cons]

theorem join_concat (sep : UInt16) (h : l ≠ []) (s : Str) :
    join sep (l ++ [s]) = join sep l ++ sep :: s := by
  induction l with
  | nil => exact absurd rfl h
  | cons t l ih =>
    by_cases hl : l = []
    · subst hl
      rw [singleton_append, join_cons sep t (by simp), join_singleton, join_singleton]
    · rw [cons_append, join_cons sep t (by simp), ih hl, join_cons sep t hl,
        append_assoc, cons_append]

theorem mem_join (h : u ∈ join sep l) :
    u = sep ∨ ∃ s ∈ l, u ∈ s := by
  induction l with
  | nil => cases h
  | cons s l ih =>
    by_cases hl : l = []
    · rw [hl, join_singleton] at h
      exact .inr ⟨s, mem_cons_self .., h⟩
    · rw [join_cons _ _ hl, mem_append, mem_cons] at h
      rcases h with h | h | h
      · exact .inr ⟨s, mem_cons_self .., h⟩
      · exact .inl h
      · exact (ih h).imp_right fun ⟨t, ht, hu⟩ => ⟨t, mem_cons_of_mem _ ht, hu⟩

/-- A separator ends the first part. -/
theorem split_append_cons (h : sep ∉ s) (t : Str) :
    split sep (s ++ sep :: t) = s :: split sep t :=
  splitOn_append_cons_self_of_not_mem h t

theorem split_of_notMem (h : sep ∉ s) : split sep s = [s] :=
  splitOn_eq_singleton h

/-- The parts of a string are made of its code units other than the separator. -/
theorem mem_split {t : Str} (h : t ∈ split sep s) :
    ∀ u ∈ t, u ≠ sep ∧ u ∈ s := by
  unfold split at h
  induction s generalizing t with
  | nil =>
    rw [splitOn_eq_singleton not_mem_nil, mem_singleton] at h
    subst h
    exact fun u hu => absurd hu not_mem_nil
  | cons c s ih =>
    rw [splitOn_cons_eq_if_modifyHead] at h
    have hlift : ∀ t ∈ s.splitOn sep, ∀ u ∈ t, u ≠ sep ∧ u ∈ c :: s := fun t ht u hu =>
      ⟨(ih ht u hu).1, mem_cons_of_mem _ (ih ht u hu).2⟩
    split at h
    · rcases mem_cons.mp h with rfl | h
      · exact fun u hu => absurd hu not_mem_nil
      · exact hlift t h
    · next hc =>
      obtain ⟨a, l, hal⟩ := exists_cons_of_ne_nil (splitOn_ne_nil sep s)
      rw [hal, modifyHead_cons, mem_cons] at h
      rw [hal] at hlift
      rcases h with rfl | h
      · intro u hu
        rcases mem_cons.mp hu with rfl | hu
        · exact ⟨by simpa using hc, mem_cons_self⟩
        · exact hlift a mem_cons_self u hu
      · exact hlift t (mem_cons_of_mem _ h)

theorem isInfix_join_of_mem {t : Str} (h : t ∈ l) :
    t <:+: join sep l := by
  induction l with
  | nil => exact absurd h not_mem_nil
  | cons s l ih =>
    by_cases hl : l = []
    · subst hl
      rw [mem_singleton] at h
      rw [h, join_singleton]
    · rw [join_cons sep s hl]
      rcases mem_cons.mp h with rfl | h
      · exact (prefix_append t _).isInfix
      · exact (ih h).trans ⟨s ++ [sep], [], by simp⟩

/-- A part of a string stands in it as a whole. -/
theorem isInfix_of_mem_split {t : Str} (h : t ∈ split sep s) : t <:+: s := by
  have hjoin : t <:+: join sep (split sep s) := isInfix_join_of_mem h
  rwa [join, split, intercalate_splitOn] at hjoin

/-- The parts before and after the first occurrence of a code unit. -/
def cut (sep : UInt16) : Str → Option (Str × Str)
  | [] => none
  | u :: s => if u = sep then some ([], s) else (cut sep s).map fun p => (u :: p.1, p.2)

/-- The cut of a string whose first part does not hold the separator. -/
theorem cut_append {k : Str} (hk : sep ∉ k) (v : Str) : cut sep (k ++ sep :: v) = some (k, v) := by
  induction k with
  | nil => rw [List.nil_append, cut, if_pos rfl]
  | cons u k ih =>
    rw [mem_cons, not_or] at hk
    rw [cons_append, cut, if_neg fun h => hk.1 h.symm, ih hk.2]
    rfl

theorem cut_eq_none_iff : cut sep s = none ↔ sep ∉ s := by
  induction s with
  | nil => simp [cut]
  | cons u s ih =>
    rw [cut, mem_cons, not_or, ← ih]
    by_cases hu : u = sep
    · simp [hu]
    · simp [hu, Ne.symm hu]

theorem cut_eq_some {k v : Str} (h : cut sep s = some (k, v)) :
    s = k ++ sep :: v ∧ sep ∉ k := by
  induction s generalizing k with
  | nil => cases h
  | cons u s ih =>
    rw [cut] at h
    split at h
    · next hu =>
      obtain ⟨rfl, rfl⟩ := h
      exact ⟨by rw [hu, List.nil_append], not_mem_nil⟩
    · next hu =>
      rw [Option.map_eq_some_iff] at h
      obtain ⟨⟨k', v'⟩, hcut, hp⟩ := h
      obtain ⟨rfl, rfl⟩ := hp
      obtain ⟨rfl, hk⟩ := ih hcut
      exact ⟨rfl, by rw [mem_cons, not_or]; exact ⟨fun h => hu h.symm, hk⟩⟩

/-! ## Replacing code units -/

/-- `replaceAll` of every single code unit outside a class. -/
def replaceUnless (keep : UInt16 → Bool) (new : UInt16) (s : Str) : Str :=
  s.map fun u => if keep u then u else new

/-- `replaceAll` of one code unit by another. -/
def replace (old new : UInt16) (s : Str) : Str := s.map fun u => if u = old then new else u

theorem replaceUnless_eq_self {keep : UInt16 → Bool} (h : ∀ u ∈ s, keep u = true) :
    replaceUnless keep new s = s := by
  exact (map_congr_left fun u hu => if_pos (h u hu)).trans (map_id s)

theorem mem_replaceUnless {keep : UInt16 → Bool} (h : u ∈ replaceUnless keep new s) :
    (keep u = true ∧ u ∈ s) ∨ u = new := by
  rw [replaceUnless, mem_map] at h
  obtain ⟨w, hw, hu⟩ := h
  split at hu
  · next hk => exact Or.inl ⟨hu ▸ hk, hu ▸ hw⟩
  · exact Or.inr hu.symm

theorem mem_replace {old : UInt16} (h : u ∈ replace old new s) : (u ≠ old ∧ u ∈ s) ∨ u = new := by
  rw [replace, mem_map] at h
  obtain ⟨w, hw, hu⟩ := h
  split at hu
  · exact Or.inr hu.symm
  · next hk => exact Or.inl ⟨hu ▸ hk, hu ▸ hw⟩

/-- Replacing back, when the new code unit did not occur. -/
theorem replace_replace {old : UInt16} (h : new ∉ s) :
    replace new old (replace old new s) = s := by
  rw [replace, replace, map_map]
  refine (map_congr_left fun u hu => ?_).trans (map_id s)
  by_cases hu' : u = old
  · simp [hu']
  · have hne : u ≠ new := fun he => h (he ▸ hu)
    simp [hu', hne]

/-! ## Numerals -/

/-- The value of a digit in a radix. -/
def digit? (radix : ℕ) (u : UInt16) : Option ℕ :=
  let n := u.toNat
  let d := if 48 ≤ n ∧ n ≤ 57 then n - 48
    else if 97 ≤ n ∧ n ≤ 122 then n - 87
    else if 65 ≤ n ∧ n ≤ 90 then n - 55 else radix
  if d < radix then some d else none

/-- The numeral of a number, in lower case. -/
def natString (radix n : ℕ) : Str := (Nat.toDigits radix n).map unit

/-- Read digits, most significant first, up to the first code unit that is none. -/
def readDigits (radix : ℕ) : ℕ → Str → ℕ
  | acc, [] => acc
  | acc, u :: s =>
    match digit? radix u with
    | some d => readDigits radix (acc * radix + d) s
    | none => acc

theorem digit?_lt {d : ℕ} (h : digit? radix u = some d) : d < radix := by
  rw [digit?, Option.ite_none_right_eq_some, Option.some_inj] at h
  rw [← h.2]
  exact h.1

/-- Text of digits shifts what has been read. -/
theorem readDigits_append_of_isSome (hs : ∀ u ∈ s, (digit? radix u).isSome = true) (acc : ℕ)
    (t : Str) :
    readDigits radix acc (s ++ t) =
      readDigits radix (acc * radix ^ s.length + readDigits radix 0 s) t := by
  induction s generalizing acc t with
  | nil => simp [readDigits]
  | cons u s ih =>
    obtain ⟨d, hd⟩ := Option.isSome_iff_exists.mp (hs u mem_cons_self)
    have hs' : ∀ c ∈ s, (digit? radix c).isSome = true := fun c hc =>
      hs c (mem_cons_of_mem _ hc)
    have hrest := ih hs' d []
    rw [append_nil, readDigits] at hrest
    rw [cons_append, readDigits, hd]
    dsimp only
    rw [ih hs', readDigits, hd]
    dsimp only
    rw [Nat.zero_mul, Nat.zero_add, hrest, length_cons]
    ring

theorem digit?_digitChar {d : ℕ} (hr : radix ≤ 16) (hd : d < radix) :
    digit? radix (unit d.digitChar) = some d := by
  have h : ∀ d < 16, ∀ r ≤ 16, d < r → digit? r (unit d.digitChar) = some d := by decide
  exact h d (by omega) radix hr hd

theorem natString_of_lt (h : n < radix) : natString radix n = [unit n.digitChar] := by
  rw [natString, Nat.toDigits_of_lt_base h]
  rfl

theorem natString_of_le (hr : 1 < radix) (h : radix ≤ n) :
    natString radix n = natString radix (n / radix) ++ [unit (n % radix).digitChar] := by
  rw [natString, Nat.toDigits_of_base_le hr h, map_append]
  rfl

theorem natString_ne_nil (radix n : ℕ) : natString radix n ≠ [] := by
  rw [natString, Ne, map_eq_nil_iff]
  exact Nat.toDigits_ne_nil

/-- Every code unit of a numeral is a digit. -/
theorem digit?_of_mem_natString (hr : 1 < radix) (hr' : radix ≤ 16) (hu : u ∈ natString radix n) :
    ∃ d, digit? radix u = some d := by
  induction n using Nat.strong_induction_on with
  | _ n ih =>
    rcases lt_or_ge n radix with h | h
    · rw [natString_of_lt h, mem_singleton] at hu
      exact ⟨n, hu ▸ digit?_digitChar hr' h⟩
    · rw [natString_of_le hr h, mem_append, mem_singleton] at hu
      rcases hu with hu | hu
      · exact ih _ (Nat.div_lt_self (by omega) hr) hu
      · exact ⟨n % radix, hu ▸ digit?_digitChar hr' (Nat.mod_lt _ (by omega))⟩

/-- Reading a numeral adds its value below what has been read. -/
theorem readDigits_append (hr : 1 < radix) (hr' : radix ≤ 16) (acc : ℕ) (t : Str) :
    readDigits radix acc (natString radix n ++ t) =
      readDigits radix (acc * radix ^ (natString radix n).length + n) t := by
  induction n using Nat.strong_induction_on generalizing t with
  | _ n ih =>
    rcases lt_or_ge n radix with h | h
    · rw [natString_of_lt h, singleton_append, readDigits, digit?_digitChar hr' h,
        length_singleton, pow_one]
    · rw [natString_of_le hr h, append_assoc, ih _ (Nat.div_lt_self (by omega) hr),
        singleton_append, readDigits, digit?_digitChar hr' (Nat.mod_lt _ (by omega)),
        length_append, length_singleton]
      show readDigits radix _ t = readDigits radix _ t
      rw [pow_succ, Nat.add_mul, Nat.mul_assoc, Nat.add_assoc, Nat.mul_comm (n / radix) radix,
        Nat.div_add_mod]

/-- **A numeral is read back.** -/
theorem readDigits_natString (hr : 1 < radix) (hr' : radix ≤ 16) :
    readDigits radix 0 (natString radix n) = n := by
  have h := readDigits_append (n := n) hr hr' 0 []
  rwa [append_nil, Nat.zero_mul, Nat.zero_add] at h

theorem natString_injective {m : ℕ} (h : natString 10 m = natString 10 n) : m = n := by
  have hm := readDigits_natString (n := m) (by omega : 1 < 10) (by omega)
  rw [h, readDigits_natString (by omega) (by omega)] at hm
  exact hm.symm

end Str
end Library
