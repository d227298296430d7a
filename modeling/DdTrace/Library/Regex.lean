import Mathlib.Data.List.Basic
import Mathlib.Tactic.Common

/-!
# Backtracking regular expressions

Regular expressions as a backtracking matcher runs them: an expression is tried at a cursor, which
has the text on both sides, and has an ordered list of ends.  The first of them from which the rest
of the expression can go on is the one that is taken; so `|` prefers its left side, a greedy
repetition the longer way and a lazy one the shorter.

* `Regex` and `Regex.ends`: classes of characters, assertions about the text on both sides (anchors,
  word boundaries, look-behind), sequences, alternatives, greedy and lazy repetition, groups and
  back-references.  A turn of a repetition that takes nothing is not made.
* `Regex.run`: the first end from which a continuation succeeds, with one equation for each
  constructor; `run_star_eq_some` and `run_star_eq_none` say what the repetition of a class comes to.
* `Regex.search`, `Regex.exec`, `Regex.test`: the first place of a text where an expression matches,
  from an index on.
* `Took`: what lies between a cursor and an end of an expression is a piece of the text
  (`took_of_mem_ends`).
-/

namespace Library

open List Option

/-- A backtracking regular expression over the characters `α`. -/
inductive Regex (α : Type*) where
  /-- The empty expression. -/
  | empty
  /-- One character of a class. -/
  | chr (p : α → Bool)
  /-- An assertion about the text before, the nearest character first, and the text after. -/
  | look (p : List α → List α → Bool)
  | seq (r s : Regex α)
  | alt (r s : Regex α)
  | star (r : Regex α)
  | lazyStar (r : Regex α)
  /-- A group that captures what it takes. -/
  | group (k : ℕ) (r : Regex α)
  /-- What a group has captured, up to a relation of characters; nothing, if it has not. -/
  | backref (same : α → α → Bool) (k : ℕ)

namespace Regex

variable {α β : Type*}

/-- A place in a text: the characters before it, the nearest first, the characters after it and the
captures so far, the latest first. -/
@[ext] structure Cursor (α : Type*) where
  before : List α
  rest : List α
  groups : List (ℕ × List α) := []

namespace Cursor

/-- The latest capture of a group. -/
def group? (c : Cursor α) (k : ℕ) : Option (List α) := c.groups.lookup k

/-- The cursor behind the next `n` characters. -/
def advance (c : Cursor α) (n : ℕ) : Cursor α :=
  ⟨(c.rest.take n).reverse ++ c.before, c.rest.drop n, c.groups⟩

/-- The characters from one cursor to a later one. -/
def taken (c d : Cursor α) : List α := c.rest.take (c.rest.length - d.rest.length)

end Cursor

/-- The ends of a greedy repetition, in at most `n` turns. -/
def greedy (step : Cursor α → List (Cursor α)) : ℕ → Cursor α → List (Cursor α)
  | 0, c => [c]
  | n + 1, c =>
    ((step c).filter fun d => d.rest.length < c.rest.length).flatMap (greedy step n) ++ [c]

/-- The ends of a lazy repetition, in at most `n` turns. -/
def reluctant (step : Cursor α → List (Cursor α)) : ℕ → Cursor α → List (Cursor α)
  | 0, c => [c]
  | n + 1, c =>
    c :: ((step c).filter fun d => d.rest.length < c.rest.length).flatMap (reluctant step n)

/-- Does the text begin like this, up to a relation of characters? -/
def startsLike (same : α → α → Bool) : List α → List α → Bool
  | [], _ => true
  | _ :: _, [] => false
  | a :: w, b :: rest => same a b && startsLike same w rest

/-- The ends of an expression that is tried at a cursor, in the order in which they are tried. -/
def ends : Regex α → Cursor α → List (Cursor α)
  | .empty, c => [c]
  | .chr p, c =>
    match c.rest with
    | [] => []
    | a :: _ => if p a then [c.advance 1] else []
  | .look p, c => if p c.before c.rest then [c] else []
  | .seq r s, c => (ends r c).flatMap (ends s)
  | .alt r s, c => ends r c ++ ends s c
  | .star r, c => greedy (ends r) c.rest.length c
  | .lazyStar r, c => reluctant (ends r) c.rest.length c
  | .group k r, c =>
    (ends r c).map fun d => { d with groups := (k, c.taken d) :: d.groups }
  | .backref same k, c =>
    match c.group? k with
    | none => [c]
    | some w => if startsLike same w c.rest then [c.advance w.length] else []

/-- One turn of an expression, then a repetition of it. -/
def plus (r : Regex α) : Regex α := .seq r (.star r)

/-- An expression or nothing, greedily. -/
def opt (r : Regex α) : Regex α := .alt r .empty

/-- A sequence of expressions. -/
def seqs (rs : List (Regex α)) : Regex α := rs.foldr .seq .empty

/-- Alternatives, the first of them preferred. -/
def oneOf : List (Regex α) → Regex α
  | [] => .look fun _ _ => false
  | [r] => r
  | r :: rs => .alt r (oneOf rs)

/-- A match: where it begins and the cursor at its end. -/
structure Found (α : Type*) where
  index : ℕ
  stop : Cursor α

/-- `lastIndex` behind a match. -/
def Found.lastIndex (m : Found α) : ℕ := m.stop.before.length

/-- The length of the text that is matched. -/
def Found.length (m : Found α) : ℕ := m.lastIndex - m.index

/-- The first place of a text from a cursor on where an expression matches. -/
def search (r : Regex α) (before : List α) : List α → Option (Found α)
  | [] => (r.ends ⟨before, [], []⟩).head?.map (⟨before.length, ·⟩)
  | a :: rest =>
    ((r.ends ⟨before, a :: rest, []⟩).head?.map (⟨before.length, ·⟩)).or
      (search r (a :: before) rest)

/-- `exec` of an expression with the flag `g`. -/
def exec (r : Regex α) (text : List α) (lastIndex : ℕ) : Option (Found α) :=
  if text.length < lastIndex then none
  else search r (text.take lastIndex).reverse (text.drop lastIndex)

/-- `test` of an expression without the flag `g`. -/
def test (r : Regex α) (text : List α) : Bool := (r.exec text 0).isSome

/-! ## The first end from which the rest goes on -/

/-- The first end of an expression from which a continuation succeeds. -/
def run (r : Regex α) (k : Cursor α → Option β) (c : Cursor α) : Option β :=
  (r.ends c).findSome? k

variable {r s : Regex α} {k : Cursor α → Option β} {c d : Cursor α} {p : α → Bool}

theorem findSome?_flatMap {γ δ : Type*} (l : List γ) (f : γ → List δ) (k : δ → Option β) :
    (l.flatMap f).findSome? k = l.findSome? fun x => (f x).findSome? k := by
  induction l with
  | nil => rfl
  | cons x l ih =>
    rw [flatMap_cons, findSome?_append, ih, findSome?_cons]
    cases (f x).findSome? k <;> rfl

theorem findSome?_filter {γ : Type*} (l : List γ) (p : γ → Bool) (k : γ → Option β) :
    (l.filter p).findSome? k = l.findSome? fun x => if p x then k x else none := by
  induction l with
  | nil => rfl
  | cons x l ih =>
    rw [filter_cons, findSome?_cons]
    by_cases hx : p x = true
    · rw [if_pos hx, if_pos hx, findSome?_cons, ih]
    · rw [if_neg hx, if_neg hx, ih]

/-- The match at a cursor is the first end. -/
theorem head?_ends (r : Regex α) (c : Cursor α) : (r.ends c).head? = r.run some c := by
  unfold run
  cases r.ends c <;> rfl

theorem ends_eq_nil_iff : r.ends c = [] ↔ r.run some c = none := by
  rw [← head?_ends, head?_eq_none_iff]

@[simp] theorem run_empty (k : Cursor α → Option β) (c : Cursor α) :
    run .empty k c = k c := by
  rw [run, ends, findSome?_singleton]

theorem run_seq (r s : Regex α) (k : Cursor α → Option β) (c : Cursor α) :
    run (.seq r s) k c = run r (run s k) c := by
  rw [run, ends, findSome?_flatMap]
  rfl

theorem run_alt (r s : Regex α) (k : Cursor α → Option β) (c : Cursor α) :
    run (.alt r s) k c = (run r k c).or (run s k c) := by
  rw [run, ends, findSome?_append]
  rfl

theorem run_opt (r : Regex α) (k : Cursor α → Option β) (c : Cursor α) :
    run (.opt r) k c = (run r k c).or (k c) := by
  rw [opt, run_alt, run_empty]

theorem run_seqs_cons (r : Regex α) (rs : List (Regex α)) (k : Cursor α → Option β)
    (c : Cursor α) : run (seqs (r :: rs)) k c = run r (run (seqs rs) k) c := run_seq r _ k c

@[simp] theorem run_seqs_nil (k : Cursor α → Option β) (c : Cursor α) :
    run (seqs []) k c = k c := run_empty k c

theorem run_look (p : List α → List α → Bool) (k : Cursor α → Option β) (c : Cursor α) :
    run (.look p) k c = if p c.before c.rest then k c else none := by
  rw [run, ends]
  by_cases h : p c.before c.rest = true
  · rw [if_pos h, if_pos h, findSome?_singleton]
  · rw [if_neg h, if_neg h, findSome?_nil]

@[simp] theorem run_chr_nil (p : α → Bool) (k : Cursor α → Option β) (before : List α)
    (groups : List (ℕ × List α)) : run (.chr p) k ⟨before, [], groups⟩ = none := rfl

theorem ends_chr_cons (p : α → Bool) (before rest : List α) (a : α) (groups : List (ℕ × List α)) :
    ends (.chr p) ⟨before, a :: rest, groups⟩ =
      if p a then [⟨a :: before, rest, groups⟩] else [] := rfl

theorem run_chr_cons (p : α → Bool) (k : Cursor α → Option β) (before rest : List α) (a : α)
    (groups : List (ℕ × List α)) :
    run (.chr p) k ⟨before, a :: rest, groups⟩ =
      if p a then k ⟨a :: before, rest, groups⟩ else none := by
  rw [run, ends_chr_cons]
  by_cases h : p a = true
  · rw [if_pos h, if_pos h, findSome?_singleton]
  · rw [if_neg h, if_neg h, findSome?_nil]

theorem run_group (k' : ℕ) (r : Regex α) (k : Cursor α → Option β) (c : Cursor α) :
    run (.group k' r) k c =
      run r (fun d => k { d with groups := (k', c.taken d) :: d.groups }) c := by
  rw [run, ends, findSome?_map]
  rfl

theorem filter_shorter_eq_nil (h : c.rest.length = 0) (l : List (Cursor α)) :
    (l.filter fun d => d.rest.length < c.rest.length) = [] :=
  filter_eq_nil_iff.mpr fun d _ => by simp [h]

variable {n : ℕ} {step : Cursor α → List (Cursor α)}

/-- Enough turns are as good as any other number that is enough. -/
theorem greedy_eq_greedy (step : Cursor α → List (Cursor α)) {m : ℕ} (hn : c.rest.length ≤ n)
    (hm : c.rest.length ≤ m) : greedy step n c = greedy step m c := by
  induction n generalizing c m with
  | zero =>
    rcases m with _ | m
    · rfl
    · rw [greedy, greedy, filter_shorter_eq_nil (Nat.le_zero.mp hn)]
      rfl
  | succ n ih =>
    rcases m with _ | m
    · rw [greedy, greedy, filter_shorter_eq_nil (Nat.le_zero.mp hm)]
      rfl
    · rw [greedy]
      congr 1
      refine flatMap_congr fun d hd => ?_
      have hlt : d.rest.length < c.rest.length := of_decide_eq_true (mem_filter.mp hd).2
      exact ih (by omega) (by omega)

/-- The ends of a greedy repetition: behind one more turn, then here. -/
theorem ends_star (r : Regex α) (c : Cursor α) : ends (.star r) c =
      ((ends r c).filter fun d => d.rest.length < c.rest.length).flatMap (ends (.star r)) ++
        [c] := by
  have h : ends (.star r) c = greedy (ends r) (c.rest.length + 1) c :=
    greedy_eq_greedy (ends r) (Nat.le_refl _) (Nat.le_succ _)
  rw [h, greedy]
  congr 1
  refine flatMap_congr fun d hd => ?_
  have hlt : d.rest.length < c.rest.length := of_decide_eq_true (mem_filter.mp hd).2
  exact greedy_eq_greedy (ends r) (Nat.le_of_lt hlt) (Nat.le_refl _)

theorem run_star (r : Regex α) (k : Cursor α → Option β) (c : Cursor α) : run (.star r) k c =
      (run r (fun d => if d.rest.length < c.rest.length then run (.star r) k d else none) c).or
        (k c) := by
  rw [run, ends_star, findSome?_append, findSome?_flatMap, findSome?_filter, findSome?_singleton]
  simp only [decide_eq_true_eq]
  rfl

/-! ## The repetition of a class of characters -/

variable {before rest v w : List α} {a : α} {groups : List (ℕ × List α)} {x : β}

theorem run_star_chr_cons (h : p a = true) : run (.star (.chr p)) k ⟨before, a :: rest, groups⟩ =
      (run (.star (.chr p)) k ⟨a :: before, rest, groups⟩).or (k ⟨before, a :: rest, groups⟩) := by
  rw [run_star, run_chr_cons, if_pos h]
  exact congrArg (Option.or · _) (if_pos (Nat.lt_succ_self _))

theorem run_star_chr_stop (h : ∀ a ∈ rest.head?, p a = false) :
    run (.star (.chr p)) k ⟨before, rest, groups⟩ = k ⟨before, rest, groups⟩ := by
  rw [run_star]
  rcases rest with _ | ⟨a, rest⟩
  · rw [run_chr_nil, none_or]
  · rw [run_chr_cons, if_neg (by simp [h a rfl]), none_or]

/-- A repetition goes on over a text of the class. -/
theorem run_star_chr_append (hw : ∀ a ∈ w, p a = true)
    (h : run (.star (.chr p)) k ⟨w.reverse ++ before, rest, groups⟩ = some x) :
    run (.star (.chr p)) k ⟨before, w ++ rest, groups⟩ = some x := by
  induction w generalizing before with
  | nil => exact h
  | cons a w ih =>
    have hrest : run (.star (.chr p)) k ⟨a :: before, w ++ rest, groups⟩ = some x := by
      refine ih (forall_mem_cons.mp hw).2 ?_
      rwa [reverse_cons, append_assoc] at h
    rw [cons_append, run_star_chr_cons (hw a (mem_cons_self ..)), hrest]
    rfl

/-- A repetition stops where no longer text lets the rest go on. -/
theorem run_star_chr_of_longer (hv : ∀ a ∈ v, p a = true) (hstop : ∀ a ∈ rest.head?, p a = false)
    (h : ∀ u u', v = u ++ u' → u ≠ [] → k ⟨u.reverse ++ before, u' ++ rest, groups⟩ = none) :
    run (.star (.chr p)) k ⟨before, v ++ rest, groups⟩ = k ⟨before, v ++ rest, groups⟩ := by
  induction v generalizing before with
  | nil => exact run_star_chr_stop hstop
  | cons a v ih =>
    have hlonger : run (.star (.chr p)) k ⟨a :: before, v ++ rest, groups⟩ = none := by
      rw [ih (forall_mem_cons.mp hv).2]
      · exact h [a] v rfl (cons_ne_nil _ _)
      · intro u u' hu _
        have hk := h (a :: u) u' (by rw [hu]; rfl) (cons_ne_nil _ _)
        rwa [reverse_cons, append_assoc] at hk
    rw [cons_append, run_star_chr_cons (hv a (mem_cons_self ..)), hlonger, none_or]

/-- A repetition that takes the whole text of its class. -/
theorem run_star_chr_longest (hw : ∀ a ∈ w, p a = true) (hstop : ∀ a ∈ rest.head?, p a = false)
    (h : k ⟨w.reverse ++ before, rest, groups⟩ = some x) :
    run (.star (.chr p)) k ⟨before, w ++ rest, groups⟩ = some x :=
  run_star_chr_append hw (by rw [run_star_chr_stop hstop, h])

/-- A repetition behind no part of which the rest goes on. -/
theorem run_star_chr_eq_none (hv : ∀ a ∈ v, p a = true) (hstop : ∀ a ∈ rest.head?, p a = false)
    (h : ∀ u u', v = u ++ u' → k ⟨u.reverse ++ before, u' ++ rest, groups⟩ = none) :
    run (.star (.chr p)) k ⟨before, v ++ rest, groups⟩ = none := by
  rw [run_star_chr_of_longer hv hstop fun u u' hu _ => h u u' hu]
  exact h [] v rfl

/-- A repetition behind no shorter text of which the rest goes on. -/
theorem run_star_chr_full (hw : ∀ a ∈ w, p a = true) (hstop : ∀ a ∈ rest.head?, p a = false)
    (h : ∀ u a v, w = u ++ a :: v → k ⟨u.reverse ++ before, a :: v ++ rest, groups⟩ = none) :
    run (.star (.chr p)) k ⟨before, w ++ rest, groups⟩ = k ⟨w.reverse ++ before, rest, groups⟩ := by
  rcases hfull : k ⟨w.reverse ++ before, rest, groups⟩ with _ | x
  · refine run_star_chr_eq_none hw hstop fun u u' hu => ?_
    rcases u' with _ | ⟨a, v⟩
    · rw [append_nil] at hu
      rw [← hu]
      exact hfull
    · exact h u a v hu
  · exact run_star_chr_longest hw hstop hfull

theorem run_plus_chr_full (hw : ∀ a ∈ w, p a = true) (hne : w ≠ [])
    (hstop : ∀ a ∈ rest.head?, p a = false)
    (h : ∀ u a v, w = u ++ a :: v → u ≠ [] →
      k ⟨u.reverse ++ before, a :: v ++ rest, groups⟩ = none) :
    run (.plus (.chr p)) k ⟨before, w ++ rest, groups⟩ = k ⟨w.reverse ++ before, rest, groups⟩ := by
  obtain ⟨b, w, rfl⟩ := exists_cons_of_ne_nil hne
  obtain ⟨hb, hw⟩ := forall_mem_cons.mp hw
  rw [plus, run_seq, cons_append, run_chr_cons, if_pos hb, run_star_chr_full hw hstop,
    reverse_cons, append_assoc]
  · rfl
  · intro u a v hu
    have hk := h (b :: u) a v (by rw [hu]; rfl) (cons_ne_nil _ _)
    rwa [reverse_cons, append_assoc] at hk

theorem run_plus_chr_longest (hw : ∀ a ∈ w, p a = true) (hne : w ≠ [])
    (hstop : ∀ a ∈ rest.head?, p a = false)
    (h : k ⟨w.reverse ++ before, rest, groups⟩ = some x) :
    run (.plus (.chr p)) k ⟨before, w ++ rest, groups⟩ = some x := by
  obtain ⟨b, w, rfl⟩ := exists_cons_of_ne_nil hne
  obtain ⟨hb, hw⟩ := forall_mem_cons.mp hw
  rw [reverse_cons, append_assoc] at h
  rw [plus, run_seq, cons_append, run_chr_cons, if_pos hb]
  exact run_star_chr_longest hw hstop h

theorem run_plus_chr_stop (hstop : ∀ a ∈ rest.head?, p a = false) :
    run (.plus (.chr p)) k ⟨before, rest, groups⟩ = none := by
  rw [plus, run_seq]
  rcases rest with _ | ⟨a, rest⟩
  · exact run_chr_nil ..
  · rw [run_chr_cons, if_neg (by simp [hstop a rfl])]

/-! ## What is taken -/

/-- The text between two cursors. -/
structure Took (c : Cursor α) (w : List α) (d : Cursor α) : Prop where
  rest : c.rest = w ++ d.rest
  before : d.before = w.reverse ++ c.before

theorem Took.refl (c : Cursor α) : Took c [] c := ⟨rfl, rfl⟩

theorem Took.trans {e : Cursor α} (h : Took c v d) (h' : Took d w e) : Took c (v ++ w) e := by
  constructor
  · rw [h.rest, h'.rest, append_assoc]
  · rw [h'.before, h.before, reverse_append, append_assoc]

theorem Took.length_before (h : Took c w d) : d.before.length = c.before.length + w.length := by
  rw [h.before, length_append, length_reverse, Nat.add_comm]

theorem took_advance (c : Cursor α) (n : ℕ) : Took c (c.rest.take n) (c.advance n) where
  rest := (take_append_drop n c.rest).symm
  before := rfl

theorem Took.taken_eq (h : Took c w d) : c.taken d = w := by
  rw [Cursor.taken, h.rest, length_append, Nat.add_sub_cancel, take_left]

theorem exists_took_greedy (h : ∀ c, ∀ d ∈ step c, ∃ w, Took c w d) (n : ℕ) (c : Cursor α) :
    ∀ d ∈ greedy step n c, ∃ w, Took c w d := by
  induction n generalizing c with
  | zero =>
    intro d hd
    rw [greedy, mem_singleton] at hd
    exact ⟨[], hd ▸ Took.refl c⟩
  | succ n ih =>
    intro d hd
    rw [greedy, mem_append, mem_flatMap, mem_singleton] at hd
    rcases hd with ⟨e, he, hd⟩ | rfl
    · obtain ⟨v, hv⟩ := h c e (mem_filter.mp he).1
      obtain ⟨w, hw⟩ := ih e d hd
      exact ⟨v ++ w, hv.trans hw⟩
    · exact ⟨[], Took.refl d⟩

theorem exists_took_reluctant (h : ∀ c, ∀ d ∈ step c, ∃ w, Took c w d) (n : ℕ) (c : Cursor α) :
    ∀ d ∈ reluctant step n c, ∃ w, Took c w d := by
  induction n generalizing c with
  | zero =>
    intro d hd
    rw [reluctant, mem_singleton] at hd
    exact ⟨[], hd ▸ Took.refl c⟩
  | succ n ih =>
    intro d hd
    rw [reluctant, mem_cons, mem_flatMap] at hd
    rcases hd with rfl | ⟨e, he, hd⟩
    · exact ⟨[], Took.refl d⟩
    · obtain ⟨v, hv⟩ := h c e (mem_filter.mp he).1
      obtain ⟨w, hw⟩ := ih e d hd
      exact ⟨v ++ w, hv.trans hw⟩

/-- **What an expression takes is a piece of the text**, from the cursor on. -/
theorem exists_took (r : Regex α) (c : Cursor α) : ∀ d ∈ r.ends c, ∃ w, Took c w d := by
  induction r generalizing c with
  | empty =>
    intro d hd
    rw [ends, mem_singleton] at hd
    exact ⟨[], hd ▸ Took.refl c⟩
  | chr p =>
    obtain ⟨before, rest, groups⟩ := c
    rcases rest with _ | ⟨a, rest⟩
    · intro d hd
      cases hd
    · intro d hd
      rw [ends_chr_cons] at hd
      split_ifs at hd with hp
      · rw [mem_singleton] at hd
        exact ⟨[a], hd ▸ ⟨rfl, rfl⟩⟩
      · cases hd
  | look p =>
    intro d hd
    rw [ends] at hd
    split_ifs at hd
    · rw [mem_singleton] at hd
      exact ⟨[], hd ▸ Took.refl c⟩
    · cases hd
  | seq r s ihr ihs =>
    intro d hd
    rw [ends, mem_flatMap] at hd
    obtain ⟨e, he, hd⟩ := hd
    obtain ⟨v, hv⟩ := ihr c e he
    obtain ⟨w, hw⟩ := ihs e d hd
    exact ⟨v ++ w, hv.trans hw⟩
  | alt r s ihr ihs =>
    intro d hd
    rw [ends, mem_append] at hd
    rcases hd with hd | hd
    · exact ihr c d hd
    · exact ihs c d hd
  | star r ih => exact exists_took_greedy ih c.rest.length c
  | lazyStar r ih => exact exists_took_reluctant ih c.rest.length c
  | group k r ih =>
    intro d hd
    rw [ends, List.mem_map] at hd
    obtain ⟨e, he, rfl⟩ := hd
    obtain ⟨w, hw⟩ := ih c e he
    exact ⟨w, hw.rest, hw.before⟩
  | backref same k =>
    intro d hd
    rw [ends] at hd
    rcases hgroup : c.group? k with _ | w
    · rw [hgroup, mem_singleton] at hd
      exact ⟨[], hd ▸ Took.refl c⟩
    · rw [hgroup] at hd
      dsimp only at hd
      split_ifs at hd
      · rw [mem_singleton] at hd
        exact ⟨_, hd ▸ took_advance c w.length⟩
      · cases hd

/-- A group that takes the whole text of a class. -/
theorem run_group_plus_chr_full (hw : ∀ a ∈ w, p a = true) (hne : w ≠ [])
    (hstop : ∀ a ∈ rest.head?, p a = false)
    (h : ∀ u a v, w = u ++ a :: v → u ≠ [] →
      k ⟨u.reverse ++ before, a :: v ++ rest, (n, u) :: groups⟩ = none) :
    run (.group n (.plus (.chr p))) k ⟨before, w ++ rest, groups⟩ =
      k ⟨w.reverse ++ before, rest, (n, w) :: groups⟩ := by
  rw [run_group, run_plus_chr_full hw hne hstop]
  · have htook : Took ⟨before, w ++ rest, groups⟩ w ⟨w.reverse ++ before, rest, groups⟩ :=
      ⟨rfl, rfl⟩
    rw [htook.taken_eq]
  · intro u a v hu hune
    have htook : Took ⟨before, w ++ rest, groups⟩ u ⟨u.reverse ++ before, a :: v ++ rest, groups⟩ :=
      ⟨by rw [hu, append_assoc], rfl⟩
    rw [htook.taken_eq]
    exact h u a v hu hune

theorem run_group_plus_chr_longest (hw : ∀ a ∈ w, p a = true) (hne : w ≠ [])
    (hstop : ∀ a ∈ rest.head?, p a = false)
    (h : k ⟨w.reverse ++ before, rest, (n, w) :: groups⟩ = some x) :
    run (.group n (.plus (.chr p))) k ⟨before, w ++ rest, groups⟩ = some x := by
  have htook : Took ⟨before, w ++ rest, groups⟩ w ⟨w.reverse ++ before, rest, groups⟩ :=
    ⟨rfl, rfl⟩
  rw [run_group]
  refine run_plus_chr_longest hw hne hstop ?_
  rw [htook.taken_eq]
  exact h

theorem run_group_plus_chr_stop (hstop : ∀ a ∈ rest.head?, p a = false) :
    run (.group n (.plus (.chr p))) k ⟨before, rest, groups⟩ = none := by
  rw [run_group, run_plus_chr_stop hstop]

/-! ## The first match of a text -/

theorem exec_eq_search (r : Regex α) (before rest : List α) :
    exec r (before.reverse ++ rest) before.length = search r before rest := by
  have htake : (before.reverse ++ rest).take before.length = before.reverse := by
    rw [← length_reverse, take_left]
  have hdrop : (before.reverse ++ rest).drop before.length = rest := by
    rw [← length_reverse, drop_left]
  rw [exec, if_neg (by simp), htake, hdrop, reverse_reverse]

/-- An expression that matches at a place where it does not match before. -/
theorem search_of_head? {m : Cursor α} (h : (r.ends ⟨before, rest, []⟩).head? = some m) :
    search r before rest = some ⟨before.length, m⟩ := by
  rcases rest with _ | ⟨a, rest⟩
  · rw [search, h]
    rfl
  · rw [search, h]
    rfl

theorem search_cons (h : r.ends ⟨before, a :: rest, []⟩ = []) :
    search r before (a :: rest) = search r (a :: before) rest := by
  rw [search, h]
  rfl

/-- An expression that matches nowhere in the first part of a text. -/
theorem search_append (h : ∀ u u', w = u ++ u' → u' ≠ [] →
      r.ends ⟨u.reverse ++ before, u' ++ rest, []⟩ = []) :
    search r before (w ++ rest) = search r (w.reverse ++ before) rest := by
  induction w generalizing before with
  | nil => rfl
  | cons a w ih =>
    have hrest : search r (a :: before) (w ++ rest) = search r (w.reverse ++ a :: before) rest := by
      refine ih fun u u' hu hne => ?_
      have hends := h (a :: u) u' (by rw [hu]; rfl) hne
      rwa [reverse_cons, append_assoc] at hends
    have hhere : r.ends ⟨before, a :: (w ++ rest), []⟩ = [] :=
      h [] (a :: w) rfl (cons_ne_nil _ _)
    rw [cons_append, search_cons hhere, hrest, reverse_cons, append_assoc]
    rfl

theorem search_append_of_head? {m : Cursor α}
    (h : ∀ u u', w = u ++ u' → u' ≠ [] → r.ends ⟨u.reverse ++ before, u' ++ rest, []⟩ = [])
    (hm : (r.ends ⟨w.reverse ++ before, rest, []⟩).head? = some m) :
    search r before (w ++ rest) = some ⟨(w.reverse ++ before).length, m⟩ := by
  rw [search_append h, search_of_head? hm]

/-- Where a match is found, the expression matches. -/
theorem exists_of_search {m : Found α} (h : search r before rest = some m) :
    ∃ u v, rest = u ++ v ∧ m.index = before.length + u.length ∧
      m.stop ∈ r.ends ⟨u.reverse ++ before, v, []⟩ := by
  have hhere (before rest : List α)
      (hm : (r.ends ⟨before, rest, []⟩).head?.map (⟨before.length, ·⟩) = some m) :
      ∃ u v, rest = u ++ v ∧ m.index = before.length + u.length ∧
        m.stop ∈ r.ends ⟨u.reverse ++ before, v, []⟩ := by
    obtain ⟨d, hd, rfl⟩ := map_eq_some_iff.mp hm
    exact ⟨[], rest, rfl, rfl, mem_of_mem_head? hd⟩
  induction rest generalizing before with
  | nil => exact hhere before [] h
  | cons a rest ih =>
    rw [search, or_eq_some_iff] at h
    rcases h with h | ⟨-, h⟩
    · exact hhere before (a :: rest) h
    · obtain ⟨u, v, rfl, hindex, hm⟩ := ih h
      refine ⟨a :: u, v, rfl, ?_, ?_⟩
      · rw [hindex, length_cons, length_cons]
        omega
      · rwa [reverse_cons, append_assoc]

/-- A match of `exec` lies in the text, from the index on. -/
theorem exists_of_exec {text : List α} {i : ℕ} {m : Found α} (h : exec r text i = some m) :
    ∃ u v, text = u ++ v ∧ i ≤ u.length ∧ m.index = u.length ∧
      m.stop ∈ r.ends ⟨u.reverse, v, []⟩ := by
  rw [exec] at h
  split_ifs at h with hi
  obtain ⟨u, v, hv, hindex, hm⟩ := exists_of_search h
  have htake : (text.take i).length = i := length_take_of_le (Nat.le_of_not_lt hi)
  refine ⟨text.take i ++ u, v, ?_, ?_, ?_, ?_⟩
  · rw [append_assoc, ← hv, take_append_drop]
  · rw [length_append, htake]
    exact Nat.le_add_right _ _
  · rw [hindex, length_append, length_reverse]
  · rwa [reverse_append]

/-! ## The ends one by one -/

theorem mem_ends_seq : d ∈ ends (.seq r s) c ↔ ∃ e ∈ ends r c, d ∈ ends s e := mem_flatMap

theorem mem_ends_look {q : List α → List α → Bool} :
    d ∈ ends (.look q) c ↔ q c.before c.rest = true ∧ d = c := by
  rw [ends]
  by_cases h : q c.before c.rest = true
  · rw [if_pos h, mem_singleton]
    exact ⟨fun hd => ⟨h, hd⟩, fun hd => hd.2⟩
  · rw [if_neg h]
    exact ⟨fun hd => (not_mem_nil hd).elim, fun hd => (h hd.1).elim⟩

theorem took_of_mem_ends_chr (h : d ∈ ends (.chr p) c) : ∃ a, p a = true ∧ Took c [a] d := by
  obtain ⟨before, rest, groups⟩ := c
  rcases rest with _ | ⟨a, rest⟩
  · cases h
  · rw [ends_chr_cons] at h
    split_ifs at h with hp
    · rw [mem_singleton] at h
      exact ⟨a, hp, h ▸ ⟨rfl, rfl⟩⟩
    · cases h

theorem eq_or_mem_of_mem_ends_star (h : d ∈ ends (.star r) c) :
    d = c ∨ ∃ e ∈ ends r c, e.rest.length < c.rest.length ∧ d ∈ ends (.star r) e := by
  rw [ends_star, mem_append, mem_flatMap, mem_singleton] at h
  rcases h with ⟨e, he, hd⟩ | rfl
  · exact .inr ⟨e, (mem_filter.mp he).1, of_decide_eq_true (mem_filter.mp he).2, hd⟩
  · exact .inl rfl

/-- A repetition of a class takes a text of the class. -/
theorem took_of_mem_ends_star_chr (h : d ∈ ends (.star (.chr p)) c) :
    ∃ w, (∀ a ∈ w, p a = true) ∧ Took c w d := by
  induction hn : c.rest.length using Nat.strongRecOn generalizing c with
  | _ n ih =>
    rcases eq_or_mem_of_mem_ends_star h with rfl | ⟨e, he, hlt, hd⟩
    · exact ⟨[], fun a ha => (not_mem_nil ha).elim, Took.refl d⟩
    · obtain ⟨a, ha, htook⟩ := took_of_mem_ends_chr he
      obtain ⟨w, hw, hrest⟩ := ih e.rest.length (hn ▸ hlt) hd rfl
      exact ⟨a :: w, forall_mem_cons.mpr ⟨ha, hw⟩, htook.trans hrest⟩

/-- One turn at least of a class takes a text of the class that is not empty. -/
theorem took_of_mem_ends_plus_chr (h : d ∈ ends (.plus (.chr p)) c) :
    ∃ a w, p a = true ∧ (∀ b ∈ w, p b = true) ∧ Took c (a :: w) d := by
  obtain ⟨e, he, hd⟩ := mem_ends_seq.mp h
  obtain ⟨a, ha, htook⟩ := took_of_mem_ends_chr he
  obtain ⟨w, hw, hrest⟩ := took_of_mem_ends_star_chr hd
  exact ⟨a, w, ha, hw, htook.trans hrest⟩

end Regex
end Library
