import DdTrace.Library.Binary64
import DdTrace.Library.Glob
import DdTrace.Library.Unicode
import Mathlib.Data.Prod.Lex

/-!
# Glob patterns of sampling rules

`globMatch` of `util.js` compares a text with a pattern by two indices and one place to go back to,
which is the last star that was met and the next length to try for it.

It goes back to the last star only.  That is enough: what an earlier star could take more of, the
last one can take more of as well.

* `Inv`: between the saved star and the index there are tokens that took one unit each.
* `Live`: what is left to match, from the indices or from the saved star.
* `step_spec`: a step keeps both, and comes closer to the end.
* `globMatch_iff`: **the loop ends, and answers whether the lowercased text has the shape of the
  lowercased pattern**, unit by unit.
-/

namespace DdTrace.GlobMatch

open Library List

/-! ## The code -/

/-- The subject of a match: a string, or a number. -/
inductive Subject where
  | string (s : Str)
  | number (d : Binary64)

/-- What the loop reads of a subject.  A number that is no integer stays one, and has no length and
no characters. -/
def Subject.text (toLowerCase : Str → Str) (numberText : Binary64 → Str) : Subject → Str
  | .string s => toLowerCase s
  | .number d => if d.isInteger then numberText d else []

/-- The variables of the loop. -/
structure State where
  px : ℕ := 0
  sx : ℕ := 0
  nextPx : ℕ := 0
  nextSx : ℕ := 0

/-- The end of a pass that did not continue: back to the saved star, or the answer. -/
def goBack (subject : Str) (s : State) : State ⊕ Bool :=
  if 0 < s.nextSx ∧ s.nextSx ≤ subject.length then .inl { s with px := s.nextPx, sx := s.nextSx }
  else .inr false

/-- One pass of the loop. -/
def step (pattern subject : Str) (s : State) : State ⊕ Bool :=
  if s.px < pattern.length ∨ s.sx < subject.length then
    match pattern[s.px]? with
    | none => goBack subject s
    | some c =>
      if c = unit '?' then
        if s.sx < subject.length then .inl { s with px := s.px + 1, sx := s.sx + 1 }
        else goBack subject s
      else if c = unit '*' then
        .inl { s with nextPx := s.px, nextSx := s.sx + 1, px := s.px + 1 }
      else if subject[s.sx]? = some c then .inl { s with px := s.px + 1, sx := s.sx + 1 }
      else goBack subject s
  else .inr true

/-- So many passes, at most. -/
def loop (pattern subject : Str) : ℕ → State → Option Bool
  | 0, _ => none
  | fuel + 1, s =>
    match step pattern subject s with
    | .inl t => loop pattern subject fuel t
    | .inr answer => some answer

def globMatch (toLowerCase : Str → Str) (numberText : Binary64 → Str) (pattern : Str)
    (subject : Subject) (fuel : ℕ) : Option Bool :=
  loop (toLowerCase pattern) (subject.text toLowerCase numberText) fuel {}

/-! ## What is left to match -/

/-- The token that a unit of a pattern is. -/
def token (c : UInt16) : Glob.Token UInt16 :=
  if c = unit '?' then .any else if c = unit '*' then .star else .char c

def tokens (pattern : Str) : List (Glob.Token UInt16) := pattern.map token

theorem token_ne_star {c : UInt16} (h : c ≠ unit '*') : token c ≠ .star := by
  unfold token
  split <;> exact nofun

section Loop

variable {pattern subject : Str} {s t : State}

/-- The saved star, and the tokens that were matched since. -/
structure Inv (pattern subject : Str) (s : State) : Prop where
  px_le : s.px ≤ pattern.length
  sx_le : s.sx ≤ subject.length
  nextSx_le : s.nextSx ≤ s.sx + 1
  nextPx_le : s.nextPx ≤ s.px
  star : 0 < s.nextSx → pattern[s.nextPx]? = some (unit '*')
  since : 0 < s.nextSx → (s.px = s.nextPx ∧ s.sx = s.nextSx) ∨
    (s.px + s.nextSx = s.sx + s.nextPx + 2 ∧
      ∀ i, s.nextPx < i → i < s.px → pattern[i]? ≠ some (unit '*'))

/-- The rest of the subject can be matched from the indices on, or from the saved star on with more
for the star. -/
def Live (pattern subject : Str) (s : State) : Prop :=
  Glob.Matches ((tokens pattern).drop s.px) (subject.drop s.sx) ∨
    (0 < s.nextSx ∧ ∃ k, s.nextSx ≤ k ∧ k ≤ subject.length ∧
      Glob.Matches ((tokens pattern).drop (s.nextPx + 1)) (subject.drop k))

theorem drop_tokens {c : UInt16} {i : ℕ} (h : pattern[i]? = some c) :
    (tokens pattern).drop i = token c :: (tokens pattern).drop (i + 1) := by
  obtain ⟨hlt, hc⟩ := List.getElem?_eq_some_iff.mp h
  rw [tokens, ← map_drop, ← map_drop, drop_eq_getElem_cons hlt, hc, map_cons]

theorem drop_subject {c : UInt16} {i : ℕ} (h : subject[i]? = some c) :
    subject.drop i = c :: subject.drop (i + 1) := by
  obtain ⟨hlt, hc⟩ := List.getElem?_eq_some_iff.mp h
  rw [drop_eq_getElem_cons hlt, hc]

/-- What is left of a star is what can be matched from some place on. -/
theorem matches_drop_star_iff {i j : ℕ} (h : pattern[i]? = some (unit '*'))
    (hj : j ≤ subject.length) :
    Glob.Matches ((tokens pattern).drop i) (subject.drop j) ↔ ∃ k, j ≤ k ∧ k ≤ subject.length ∧
      Glob.Matches ((tokens pattern).drop (i + 1)) (subject.drop k) := by
  rw [drop_tokens h, show token (unit '*') = .star from rfl, Glob.matches_star_iff]
  constructor
  · rintro ⟨k, hk, hmatch⟩
    rw [length_drop] at hk
    rw [drop_drop] at hmatch
    exact ⟨j + k, by omega, by omega, hmatch⟩
  · rintro ⟨k, hjk, hk, hmatch⟩
    refine ⟨k - j, by rw [length_drop]; omega, ?_⟩
    rw [drop_drop, show j + (k - j) = k by omega]
    exact hmatch

/-! ## Steps -/

/-- The measure of the loop: the star that is saved, the length that is tried for it, and how far
the pattern has been matched since. -/
def measure (pattern subject : Str) (s : State) : ℕ ×ₗ ℕ ×ₗ ℕ :=
  toLex (pattern.length - s.nextPx, toLex (subject.length + 1 - s.nextSx,
    if 0 < s.nextSx ∧ s.px = s.nextPx then 0 else pattern.length + 1 - s.px))

/-- What a pass does to the invariant, to what is left and to the measure. -/
def StepSpec (pattern subject : Str) (s : State) : State ⊕ Bool → Prop
  | .inl t => Inv pattern subject t ∧ (Live pattern subject t ↔ Live pattern subject s) ∧
      measure pattern subject t < measure pattern subject s
  | .inr answer => answer = true ↔ Live pattern subject s

/-- The state after two units that match. -/
def advance (s : State) : State := { s with px := s.px + 1, sx := s.sx + 1 }

/-- A star at the index, where the loop is not back at the one it saved. -/
theorem Inv.ne_nextPx (h : Inv pattern subject s) (hstar : pattern[s.px]? ≠ some (unit '*')) :
    ¬ (0 < s.nextSx ∧ s.px = s.nextPx) := by
  rintro ⟨hpos, heq⟩
  rw [heq] at hstar
  exact hstar (h.star hpos)

/-- What the saved star leaves, when nothing can be matched from the indices on. -/
theorem stepSpec_goBack (h : Inv pattern subject s) (hstar : pattern[s.px]? ≠ some (unit '*'))
    (hnot : ¬ Glob.Matches ((tokens pattern).drop s.px) (subject.drop s.sx)) :
    StepSpec pattern subject s (goBack subject s) := by
  unfold goBack
  by_cases hsaved : 0 < s.nextSx ∧ s.nextSx ≤ subject.length
  · rw [if_pos hsaved]
    have hpx := h.px_le
    have hnext := h.nextPx_le
    refine ⟨⟨hnext.trans hpx, hsaved.2, Nat.le_succ _, le_refl _, h.star,
      fun _ => .inl ⟨rfl, rfl⟩⟩, ?_, ?_⟩
    · have hiff := matches_drop_star_iff (h.star hsaved.1) hsaved.2
      constructor
      · rintro (hm | hm)
        · exact .inr ⟨hsaved.1, hiff.mp hm⟩
        · exact .inr hm
      · rintro (hm | hm)
        · exact absurd hm hnot
        · exact .inr hm
    · have hold := h.ne_nextPx hstar
      unfold measure
      rw [if_neg hold, if_pos ⟨hsaved.1, rfl⟩, Prod.Lex.toLex_lt_toLex]
      refine .inr ⟨rfl, Prod.Lex.toLex_lt_toLex.mpr (.inr ⟨rfl, ?_⟩)⟩
      omega
  · rw [if_neg hsaved]
    constructor
    · intro hfalse
      cases hfalse
    · rintro (hm | ⟨hpos, k, hk, hle, -⟩)
      · exact absurd hm hnot
      · exact absurd ⟨hpos, hk.trans hle⟩ hsaved

/-- Two units that match. -/
theorem stepSpec_advance (h : Inv pattern subject s) (hstar : pattern[s.px]? ≠ some (unit '*'))
    (hpx : s.px < pattern.length) (hsx : s.sx < subject.length)
    (hiff : Glob.Matches ((tokens pattern).drop (s.px + 1)) (subject.drop (s.sx + 1)) ↔
      Glob.Matches ((tokens pattern).drop s.px) (subject.drop s.sx)) :
    StepSpec pattern subject s (.inl (advance s)) := by
  have hold := h.ne_nextPx hstar
  have hnext := h.nextPx_le
  have hle := h.nextSx_le
  refine ⟨⟨hpx, hsx, ?_, Nat.le_succ_of_le hnext, h.star, fun hpos => .inr ⟨?_, ?_⟩⟩,
    or_congr hiff Iff.rfl, ?_⟩
  · show s.nextSx ≤ s.sx + 1 + 1
    omega
  · show s.px + 1 + s.nextSx = s.sx + 1 + s.nextPx + 2
    rcases h.since hpos with hback | hsince
    · exact absurd ⟨hpos, hback.1⟩ hold
    · omega
  · intro i hi hlt
    rcases Nat.lt_succ_iff_lt_or_eq.mp hlt with hlt | rfl
    · rcases h.since hpos with hback | hsince
      · exact absurd ⟨hpos, hback.1⟩ hold
      · exact hsince.2 i hi hlt
    · exact hstar
  · unfold measure
    have hnew : ¬ (0 < (advance s).nextSx ∧ (advance s).px = (advance s).nextPx) := by
      rintro ⟨-, heq⟩
      change s.px + 1 = s.nextPx at heq
      omega
    rw [if_neg hold, if_neg hnew, Prod.Lex.toLex_lt_toLex]
    refine .inr ⟨rfl, Prod.Lex.toLex_lt_toLex.mpr (.inr ⟨rfl, ?_⟩)⟩
    show pattern.length + 1 - (s.px + 1) < pattern.length + 1 - s.px
    omega

/-- The state after a star. -/
def save (s : State) : State := { s with nextPx := s.px, nextSx := s.sx + 1, px := s.px + 1 }

/-- **What the saved star could take more of, the star at the index can take as well.** -/
theorem matches_of_saved (h : Inv pattern subject s) (hstar : pattern[s.px]? = some (unit '*'))
    (hpos : 0 < s.nextSx) {k : ℕ} (hk : s.nextSx ≤ k) (hle : k ≤ subject.length)
    (hmatch : Glob.Matches ((tokens pattern).drop (s.nextPx + 1)) (subject.drop k)) :
    Glob.Matches ((tokens pattern).drop s.px) (subject.drop s.sx) := by
  rcases h.since hpos with ⟨hpx, hsx⟩ | ⟨hlen, hsince⟩
  · rw [matches_drop_star_iff hstar h.sx_le, hpx]
    exact ⟨k, by omega, hle, hmatch⟩
  · have hnextSx := h.nextSx_le
    have hpx := h.px_le
    -- The tokens between the two stars take as many units as there are of them.
    let q := ((tokens pattern).drop (s.nextPx + 1)).take (s.px - (s.nextPx + 1))
    have hqlen : q.length = s.px - (s.nextPx + 1) := by
      simp only [q, length_take, length_drop, tokens, length_map]
      omega
    have hsplit : (tokens pattern).drop (s.nextPx + 1) = q ++ (tokens pattern).drop s.px := by
      have hdrop : ((tokens pattern).drop (s.nextPx + 1)).drop (s.px - (s.nextPx + 1)) =
          (tokens pattern).drop s.px := by
        rw [drop_drop]
        congr 1
        omega
      rw [← hdrop]
      exact (take_append_drop _ _).symm
    have hq : ∀ t ∈ q, t ≠ .star := by
      intro t ht
      obtain ⟨i, hi, rfl⟩ := mem_iff_getElem.mp ht
      have hget : pattern[s.nextPx + 1 + i]? ≠ some (unit '*') := hsince _ (by omega) (by omega)
      have hlt : s.nextPx + 1 + i < pattern.length := by omega
      simp only [q, getElem_take, getElem_drop, tokens, getElem_map]
      refine token_ne_star fun heq => hget ?_
      rw [getElem?_eq_getElem hlt, heq]
    rw [hsplit] at hmatch
    have hrest := (hmatch.drop_of_forall_ne_star hq).2
    rw [drop_drop, drop_tokens hstar, hqlen] at hrest
    rw [drop_tokens hstar]
    exact hrest.star_of_le (by omega)

/-- A star is saved. -/
theorem stepSpec_save (h : Inv pattern subject s) (hstar : pattern[s.px]? = some (unit '*')) :
    StepSpec pattern subject s (.inl (save s)) := by
  have hpx : s.px < pattern.length := (List.getElem?_eq_some_iff.mp hstar).1
  have hsx := h.sx_le
  have hnext := h.nextPx_le
  have hiff := matches_drop_star_iff hstar hsx
  refine ⟨⟨hpx, hsx, le_refl _, Nat.le_succ _, fun _ => hstar, fun _ => .inr ⟨?_, ?_⟩⟩, ?_, ?_⟩
  · show s.px + 1 + (s.sx + 1) = s.sx + s.px + 2
    omega
  · intro i hi hlt
    change s.px < i at hi
    change i < s.px + 1 at hlt
    omega
  · constructor
    · rintro (hm | ⟨-, k, hk, hle, hm⟩)
      · exact .inl (hiff.mpr ⟨s.sx, le_refl _, hsx, hm⟩)
      · exact .inl (hiff.mpr ⟨k, by change s.sx + 1 ≤ k at hk; omega, hle, hm⟩)
    · intro hlive
      have hm : Glob.Matches ((tokens pattern).drop s.px) (subject.drop s.sx) := by
        rcases hlive with hm | ⟨hpos, k, hk, hle, hm⟩
        · exact hm
        · exact matches_of_saved h hstar hpos hk hle hm
      obtain ⟨k, hk, hle, hmatch⟩ := hiff.mp hm
      rcases Nat.eq_or_lt_of_le hk with rfl | hlt
      · exact .inl hmatch
      · exact .inr ⟨Nat.succ_pos _, k, hlt, hle, hmatch⟩
  · unfold measure
    rw [Prod.Lex.toLex_lt_toLex]
    rcases Nat.eq_or_lt_of_le hnext with heq | hlt
    · refine .inr ⟨by show pattern.length - s.px = pattern.length - s.nextPx; rw [heq],
        Prod.Lex.toLex_lt_toLex.mpr (.inl ?_)⟩
      show subject.length + 1 - (s.sx + 1) < subject.length + 1 - s.nextSx
      have hnextSx := h.nextSx_le
      by_cases hpos : 0 < s.nextSx
      · rcases h.since hpos with ⟨-, hback⟩ | ⟨hlen, -⟩
        · omega
        · omega
      · omega
    · refine .inl ?_
      show pattern.length - s.px < pattern.length - s.nextPx
      omega

/-- **A pass keeps the invariant and what is left to match, and makes the measure smaller.** -/
theorem step_spec (h : Inv pattern subject s) :
    StepSpec pattern subject s (step pattern subject s) := by
  unfold step
  by_cases hmore : s.px < pattern.length ∨ s.sx < subject.length
  · rw [if_pos hmore]
    cases hc : pattern[s.px]? with
    | none =>
      have hpx : pattern.length ≤ s.px := List.getElem?_eq_none_iff.mp hc
      refine stepSpec_goBack h (by rw [hc]; exact nofun) ?_
      have hnil : (tokens pattern).drop s.px = [] := by
        rw [drop_eq_nil_iff, tokens, length_map]
        exact hpx
      rw [hnil, Glob.matches_nil, drop_eq_nil_iff]
      omega
    | some c =>
      have hpx : s.px < pattern.length := (List.getElem?_eq_some_iff.mp hc).1
      dsimp only
      by_cases hany : c = unit '?'
      · subst hany
        have hstar : pattern[s.px]? ≠ some (unit '*') := by
          rw [hc]
          decide
        by_cases hsx : s.sx < subject.length
        · rw [if_pos hsx]
          refine stepSpec_advance h hstar hpx hsx ?_
          rw [drop_tokens hc, drop_subject (getElem?_eq_getElem hsx)]
          exact Glob.matches_any_cons.symm
        · rw [if_neg hsx]
          have hnil : subject.drop s.sx = [] := drop_eq_nil_iff.mpr (Nat.le_of_not_lt hsx)
          refine stepSpec_goBack h hstar ?_
          rw [drop_tokens hc, hnil]
          exact Glob.not_matches_cons_nil nofun
      rw [if_neg hany]
      by_cases hstar : c = unit '*'
      · subst hstar
        exact stepSpec_save h hc
      rw [if_neg hstar]
      have hne : pattern[s.px]? ≠ some (unit '*') := by
        rw [hc, Ne, Option.some_inj]
        exact hstar
      have htoken : token c = .char c := by rw [token, if_neg hany, if_neg hstar]
      by_cases hsame : subject[s.sx]? = some c
      · rw [if_pos hsame]
        refine stepSpec_advance h hne hpx (List.getElem?_eq_some_iff.mp hsame).1 ?_
        rw [drop_tokens hc, drop_subject hsame, htoken]
        simp
      · rw [if_neg hsame]
        refine stepSpec_goBack h hne ?_
        rw [drop_tokens hc, htoken]
        rcases Nat.lt_or_ge s.sx subject.length with hsx | hsx
        · rw [drop_subject (getElem?_eq_getElem hsx), Glob.matches_char_cons]
          rintro ⟨rfl, -⟩
          exact hsame (getElem?_eq_getElem hsx)
        · rw [drop_eq_nil_iff.mpr hsx]
          exact Glob.not_matches_cons_nil nofun
  · rw [if_neg hmore]
    have hpx : (tokens pattern).drop s.px = [] := by
      rw [drop_eq_nil_iff, tokens, length_map]
      omega
    have hsx : subject.drop s.sx = [] := drop_eq_nil_iff.mpr (by omega)
    refine ⟨fun _ => .inl ?_, fun _ => rfl⟩
    rw [hpx, hsx]
    exact Glob.matches_nil.mpr rfl

/-! ## The loop -/

theorem loop_of_inl (h : step pattern subject s = .inl t) (fuel : ℕ) :
    loop pattern subject (fuel + 1) s = loop pattern subject fuel t := by
  rw [loop, h]

theorem loop_of_inr {answer : Bool} (h : step pattern subject s = .inr answer) (fuel : ℕ) :
    loop pattern subject (fuel + 1) s = some answer := by
  rw [loop, h]

/-- The loop ends, with the same answer however many more passes it may make. -/
theorem exists_loop_eq (s : State) (h : Inv pattern subject s) :
    ∃ answer passes, (∀ fuel, passes ≤ fuel → loop pattern subject fuel s = some answer) ∧
      (answer = true ↔ Live pattern subject s) := by
  induction hm : measure pattern subject s using WellFoundedLT.induction generalizing s with
  | ind m ih =>
    have hspec := step_spec h
    cases hstep : step pattern subject s with
    | inl t =>
      rw [hstep] at hspec
      obtain ⟨hinv, hlive, hlt⟩ := hspec
      obtain ⟨answer, passes, hloop, hanswer⟩ := ih _ (hm ▸ hlt) t hinv rfl
      refine ⟨answer, passes + 1, fun fuel hfuel => ?_, hanswer.trans hlive⟩
      obtain ⟨fuel, rfl⟩ := Nat.exists_eq_add_of_le' hfuel
      rw [← Nat.add_assoc, loop_of_inl hstep]
      exact hloop _ (Nat.le_add_left _ _)
    | inr answer =>
      rw [hstep] at hspec
      refine ⟨answer, 1, fun fuel hfuel => ?_, hspec⟩
      obtain ⟨fuel, rfl⟩ := Nat.exists_eq_add_of_le' hfuel
      exact loop_of_inr hstep fuel

end Loop

theorem inv_start (pattern subject : Str) : Inv pattern subject {} where
  px_le := Nat.zero_le _
  sx_le := Nat.zero_le _
  nextSx_le := Nat.zero_le _
  nextPx_le := le_refl _
  star := fun h => absurd h (Nat.lt_irrefl 0)
  since := fun h => absurd h (Nat.lt_irrefl 0)

/-- **The loop ends, and answers whether the lowercased subject has the shape of the lowercased
pattern**: a star for any sequence of units, `?` for one unit, and every other unit for itself. -/
theorem globMatch_iff (toLowerCase : Str → Str) (numberText : Binary64 → Str)
    (pattern subject : Str) :
    ∃ answer passes, (∀ fuel, passes ≤ fuel →
        globMatch toLowerCase numberText pattern (.string subject) fuel = some answer) ∧
      (answer = true ↔ Glob.Matches (tokens (toLowerCase pattern)) (toLowerCase subject)) := by
  obtain ⟨answer, passes, hloop, hanswer⟩ :=
    exists_loop_eq {} (inv_start (toLowerCase pattern) (toLowerCase subject))
  refine ⟨answer, passes, hloop, hanswer.trans ?_⟩
  constructor
  · rintro (hm | ⟨hpos, -⟩)
    · exact hm
    · exact absurd hpos (Nat.lt_irrefl 0)
  · exact .inl

/-- A character that two units make is not matched by `?`.  Neither it nor the pattern is changed by
`toLowerCase`. -/
theorem not_globMatch_emoji :
    globMatch id (fun _ => []) (lit "?") (.string (Unicode.units 0x1F600)) 10 = some false ∧
      Glob.Matches [.any] (Unicode.chars (Unicode.units 0x1F600)) :=
  ⟨by decide, 0x1F600, [], by decide, rfl⟩

end DdTrace.GlobMatch
