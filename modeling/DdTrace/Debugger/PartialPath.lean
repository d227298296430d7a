import DdTrace.Library.Text

/-!
# Finding the script of a probe

`findScriptFromPartialPath` in `debugger/devtools_client/state.js` looks for the loaded script that
the path of a probe means.  It compares the path with the URL of each script backwards, character by
character, and remembers where both had a separator; the script with the longest match is taken, and
of those the one with the shortest URL.

`toLowerCase` is a parameter.  The path is lowered as a whole, the URL one code unit at a time.

## Where a match starts

A common suffix *starts at a boundary* when both sides have a separator in front of it, or when it
is the whole path and the URL has a separator in front of it or nothing at all.  The scan runs on
through characters that agree, and a script matches only when it runs no further than the separators
in front of the suffix: `x/foo.js` is taken for `/path/to/foo.js`, and `path/o/foo.js` is not, since
its `o` agrees with the end of `to`.  `Matches` says this of offsets from the end, and
`matched_eq_some_iff` that the scan computes it.

* `matched_eq_some_iff`: what the scan of one URL finds.
* `chosen_of_find`: the script that is chosen, for every list of scripts.
* `found`: what this says of the answer, and that the order of the list decides at most between
  scripts whose URLs have the same length.
-/

namespace DdTrace.Debugger.PartialPath

open Library List Option

/-! ## The code -/

structure Script where
  url : Str
  /-- Empty where there is none. -/
  sourceUrl : Str
  scriptId : Str
  sourceMapURL : Option Str
  source : Option Str

/-- What is returned of a script. -/
structure Match where
  url : Str
  scriptId : Str
  sourceMapURL : Option Str
  source : Option Str
  deriving DecidableEq

/-- The assignments to `bestMatch`. -/
def Script.toMatch (s : Script) : Match where
  url := if s.sourceUrl = [] then s.url else s.sourceUrl
  scriptId := s.scriptId
  sourceMapURL := s.sourceMapURL
  source := s.source

def isSlash (u : UInt16) : Bool := u == unit '/' || u == unit '\\'

/-- `WINDOWS_DRIVE_LETTER_REGEX.test` of one character. -/
def isDriveLetter (u : UInt16) : Bool :=
  unit 'a' ≤ u && u ≤ unit 'z' || unit 'A' ≤ u && u ≤ unit 'Z'

/-- `j === 1 && pathChar === ':'` behind a drive letter: `front` is what the path has in front of
the character, backwards. -/
def isDriveColon (pathChar : UInt16) (front : Str) : Bool :=
  pathChar == unit ':' && front.length == 1 && front.all isDriveLetter

def isBoundary (urlChar : Str) (pathChar : UInt16) (front : Str) : Bool :=
  (urlChar == lit "/" || urlChar == lit "\\") && (isSlash pathChar || isDriveColon pathChar front)

/-- The variables of the scan. -/
structure Scan where
  matchLength : ℕ
  /-- `-1` is `none`. -/
  lastBoundaryPos : Option ℕ
  atBoundary : Bool

section

variable (toLowerCase : Str → Str)

/-- The loop of the scan, over both texts backwards; with the rests of the texts. -/
def scan : Str → Str → Scan → Scan × Str × Str
  | u :: url, p :: path, s =>
    if isBoundary (toLowerCase [u]) p path || toLowerCase [u] == [p] then
      scan url path
        { matchLength := s.matchLength + 1
          lastBoundaryPos :=
            if isBoundary (toLowerCase [u]) p path then some s.matchLength else s.lastBoundaryPos
          atBoundary := isBoundary (toLowerCase [u]) p path }
    else (s, u :: url, p :: path)
  | [], path, s => (s, [], path)
  | u :: url, [], s => (s, u :: url, [])

/-- What follows the loop. -/
def finish : Scan × Str × Str → Scan
  | (s, [], []) => { s with lastBoundaryPos := some s.matchLength, atBoundary := true }
  | (s, u :: _, []) =>
    if isSlash u then { s with lastBoundaryPos := some s.matchLength, atBoundary := true } else s
  | (s, _, _ :: _) => s

/-- The `lastBoundaryPos` of a URL that matches. -/
def matched (path url : Str) : Option ℕ :=
  let s := finish (scan toLowerCase url.reverse path.reverse ⟨0, none, false⟩)
  if s.atBoundary then s.lastBoundaryPos else none

/-- `maxMatchLength` and `bestMatch`, once a script has matched. -/
structure Best where
  maxMatchLength : ℕ
  bestMatch : Match

/-- The body of the loop over the scripts. -/
def consider (path : Str) (best : Option Best) (script : Script) : Option Best :=
  match matched toLowerCase path script.url, best with
  | none, best => best
  | some lastBoundaryPos, none => some ⟨lastBoundaryPos, script.toMatch⟩
  | some lastBoundaryPos, some b =>
    if b.maxMatchLength < lastBoundaryPos ∨ lastBoundaryPos = b.maxMatchLength ∧
        script.url.length < b.bestMatch.url.length then
      some ⟨lastBoundaryPos, script.toMatch⟩
    else some b

def findScriptFromPartialPath (loadedScripts : List Script) (path : Str) : Option Match :=
  if path = [] then none
  else (loadedScripts.foldl (consider toLowerCase (toLowerCase path)) none).map Best.bestMatch

/-! ## Common suffixes

Both texts are read backwards here, so that an offset counts from the end. -/

/-- The characters at the offset agree by being separators. -/
def BoundaryAt (path url : Str) (k : ℕ) : Prop :=
  ∃ u p, url[k]? = some u ∧ path[k]? = some p ∧
    isBoundary (toLowerCase [u]) p (path.drop (k + 1)) = true

/-- The characters at the offset agree. -/
def AgreeAt (path url : Str) (k : ℕ) : Prop :=
  ∃ u p, url[k]? = some u ∧ path[k]? = some p ∧
    (isBoundary (toLowerCase [u]) p (path.drop (k + 1)) || toLowerCase [u] == [p]) = true

/-- That many characters are the whole path, and the URL has a separator in front of them or
nothing. -/
def IsWhole (path url : Str) (l : ℕ) : Prop :=
  l = path.length ∧ ∀ u ∈ url[l]?, isSlash u = true

/-- A common suffix of that length, which starts at a boundary. -/
def StartsAt (path url : Str) (l : ℕ) : Prop :=
  (∀ k < l, AgreeAt toLowerCase path url k) ∧
    (BoundaryAt toLowerCase path url l ∨ IsWhole path url l)

/-- The longest common suffix that starts at a boundary has that length, and the characters in front
of its boundary do not agree. -/
def MatchesBackwards (path url : Str) (l : ℕ) : Prop :=
  StartsAt toLowerCase path url l ∧ (∀ k, StartsAt toLowerCase path url k → k ≤ l) ∧
    ¬ AgreeAt toLowerCase path url (l + 1)

def Matches (path url : Str) (l : ℕ) : Prop :=
  MatchesBackwards toLowerCase path.reverse url.reverse l

variable {toLowerCase} {path url : Str}

variable {k : ℕ} {u p : UInt16}

theorem BoundaryAt.agreeAt (h : BoundaryAt toLowerCase path url k) :
    AgreeAt toLowerCase path url k := by
  obtain ⟨u, p, hu, hp, hboundary⟩ := h
  refine ⟨u, p, hu, hp, ?_⟩
  rw [hboundary, Bool.true_or]

theorem AgreeAt.lt_length (h : AgreeAt toLowerCase path url k) : k < path.length := by
  obtain ⟨u, p, -, hp, -⟩ := h
  exact (List.getElem?_eq_some_iff.mp hp).1

theorem boundaryAt_zero : BoundaryAt toLowerCase (p :: path) (u :: url) 0 ↔
    isBoundary (toLowerCase [u]) p path = true := by
  constructor
  · rintro ⟨v, q, hv, hq, h⟩
    obtain rfl := some.inj hv
    obtain rfl := some.inj hq
    exact h
  · exact fun h => ⟨u, p, rfl, rfl, h⟩

theorem agreeAt_zero : AgreeAt toLowerCase (p :: path) (u :: url) 0 ↔
    (isBoundary (toLowerCase [u]) p path || toLowerCase [u] == [p]) = true := by
  constructor
  · rintro ⟨v, q, hv, hq, h⟩
    obtain rfl := some.inj hv
    obtain rfl := some.inj hq
    exact h
  · exact fun h => ⟨u, p, rfl, rfl, h⟩

theorem boundaryAt_succ :
    BoundaryAt toLowerCase (p :: path) (u :: url) (k + 1) ↔ BoundaryAt toLowerCase path url k :=
  Iff.rfl

theorem agreeAt_succ :
    AgreeAt toLowerCase (p :: path) (u :: url) (k + 1) ↔ AgreeAt toLowerCase path url k :=
  Iff.rfl

/-! ## The scan -/

/-- The scan has agreed on `n` characters and no more: the rests of the texts, and what it has kept
of the last of these characters. -/
structure Scanned (toLowerCase : Str → Str) (path url : Str) (s : Scan) (r : Scan × Str × Str)
    (n : ℕ) : Prop where
  agree : ∀ k < n, AgreeAt toLowerCase path url k
  stop : ¬ AgreeAt toLowerCase path url n
  rests : r.2 = (url.drop n, path.drop n)
  matchLength : r.1.matchLength = s.matchLength + n
  start : n = 0 → r.1 = s
  boundary : ∀ m, n = m + 1 → BoundaryAt toLowerCase path url m →
    r.1.lastBoundaryPos = some (s.matchLength + m) ∧ r.1.atBoundary = true
  other : ∀ m, n = m + 1 → ¬ BoundaryAt toLowerCase path url m → r.1.atBoundary = false

theorem Scanned.stopped {s : Scan} (h : ¬ AgreeAt toLowerCase path url 0) :
    Scanned toLowerCase path url s (s, url, path) 0 where
  agree := fun k hk => absurd hk (Nat.not_lt_zero k)
  stop := h
  rests := rfl
  matchLength := rfl
  start := fun _ => rfl
  boundary := fun m hm => absurd hm.symm (Nat.succ_ne_zero m)
  other := fun m hm => absurd hm.symm (Nat.succ_ne_zero m)

theorem exists_scanned (url path : Str) (s : Scan) :
    ∃ n, Scanned toLowerCase path url s (scan toLowerCase url path s) n := by
  induction url generalizing path s with
  | nil =>
    refine ⟨0, ?_⟩
    refine .stopped ?_
    rintro ⟨u, p, hu, -⟩
    cases hu
  | cons u url ih =>
    rcases path with _ | ⟨p, path⟩
    · refine ⟨0, ?_⟩
      exact .stopped fun h => absurd h.lt_length (Nat.not_lt_zero 0)
    rw [scan]
    by_cases hagree : (isBoundary (toLowerCase [u]) p path || toLowerCase [u] == [p]) = true
    · rw [if_pos hagree]
      obtain ⟨n, h⟩ := ih path
        { matchLength := s.matchLength + 1
          lastBoundaryPos :=
            if isBoundary (toLowerCase [u]) p path then some s.matchLength else s.lastBoundaryPos
          atBoundary := isBoundary (toLowerCase [u]) p path }
      refine ⟨n + 1, ?_, h.stop, h.rests, ?_, fun hn => absurd hn (Nat.succ_ne_zero n), ?_, ?_⟩
      · rintro (_ | k) hk
        · exact agreeAt_zero.mpr hagree
        · exact agreeAt_succ.mpr (h.agree k (Nat.lt_of_succ_lt_succ hk))
      · rw [h.matchLength]
        show s.matchLength + 1 + n = _
        omega
      · rintro m hm hboundary
        obtain rfl : n = m := Nat.succ.inj hm
        rcases n with _ | n
        · have hfirst := boundaryAt_zero.mp hboundary
          rw [h.start rfl]
          exact ⟨if_pos hfirst, hfirst⟩
        · obtain ⟨hpos, hat⟩ := h.boundary n rfl (boundaryAt_succ.mp hboundary)
          refine ⟨hpos.trans (congrArg some ?_), hat⟩
          show s.matchLength + 1 + n = _
          omega
      · rintro m hm hboundary
        obtain rfl : n = m := Nat.succ.inj hm
        rcases n with _ | n
        · rw [h.start rfl]
          exact Bool.eq_false_iff.mpr fun hfirst => hboundary (boundaryAt_zero.mpr hfirst)
        · exact h.other n rfl fun hb => hboundary (boundaryAt_succ.mpr hb)
    · rw [if_neg hagree]
      exact ⟨0, .stopped fun h => hagree (agreeAt_zero.mp h)⟩

/-! ## What matches -/

section

variable {n l : ℕ}

theorem StartsAt.le (h : StartsAt toLowerCase path url l)
    (hstop : ¬ AgreeAt toLowerCase path url n) : l ≤ n := by
  by_contra hlt
  exact hstop (h.1 n (by omega))

/-- Where the scan ends at the start of the path, in front of a separator, the whole path
matches. -/
theorem matchesBackwards_of_isWhole (hagree : ∀ k < n, AgreeAt toLowerCase path url k)
    (hstop : ¬ AgreeAt toLowerCase path url n) (hwhole : IsWhole path url n) :
    MatchesBackwards toLowerCase path url l ↔ l = n := by
  have hstarts : StartsAt toLowerCase path url n := ⟨hagree, .inr hwhole⟩
  constructor
  · rintro ⟨hl, hlongest, -⟩
    exact Nat.le_antisymm (hl.le hstop) (hlongest n hstarts)
  · rintro rfl
    refine ⟨hstarts, fun k hk => hk.le hstop, fun hnext => ?_⟩
    have hlt := hnext.lt_length
    rw [← hwhole.1] at hlt
    omega

/-- Elsewhere the last characters that agree must be separators. -/
theorem matchesBackwards_of_not_isWhole (hagree : ∀ k < n, AgreeAt toLowerCase path url k)
    (hstop : ¬ AgreeAt toLowerCase path url n) (hwhole : ¬ IsWhole path url n) :
    MatchesBackwards toLowerCase path url l ↔ n = l + 1 ∧ BoundaryAt toLowerCase path url l := by
  have hnot : ¬ StartsAt toLowerCase path url n := by
    rintro ⟨-, hboundary | h⟩
    · exact hstop hboundary.agreeAt
    · exact hwhole h
  constructor
  · rintro ⟨hl, -, hnext⟩
    have hne : l ≠ n := fun heq => hnot (heq ▸ hl)
    have hle := hl.le hstop
    have hnl : n = l + 1 := by
      by_contra hnl
      exact hnext (hagree (l + 1) (by omega))
    refine ⟨hnl, hl.2.resolve_right fun h => ?_⟩
    have hlt := (hagree l (by omega)).lt_length
    rw [← h.1] at hlt
    omega
  · rintro ⟨rfl, hboundary⟩
    refine ⟨⟨fun k hk => hagree k (by omega), .inl hboundary⟩, ?_, hstop⟩
    intro k hk
    have hne : k ≠ l + 1 := fun heq => hnot (heq ▸ hk)
    have hle := hk.le hstop
    omega

theorem finish_of_isWhole {r : Scan × Str × Str} (hrests : r.2 = (url.drop n, path.drop n))
    (hwhole : IsWhole path url n) :
    (finish r).lastBoundaryPos = some r.1.matchLength ∧ (finish r).atBoundary = true := by
  obtain ⟨s, u, p⟩ := r
  obtain ⟨rfl, rfl⟩ := Prod.mk.inj hrests
  have hpath : path.drop n = [] := drop_eq_nil_iff.mpr hwhole.1.ge
  rw [hpath]
  rcases hurl : url.drop n with _ | ⟨u, rest⟩
  · exact ⟨rfl, rfl⟩
  · have hslash : isSlash u = true := by
      refine hwhole.2 u ?_
      rw [← head?_drop, hurl]
      rfl
    simp [finish, hslash]

theorem finish_of_not_isWhole {r : Scan × Str × Str} (hn : n ≤ path.length)
    (hrests : r.2 = (url.drop n, path.drop n)) (hwhole : ¬ IsWhole path url n) :
    finish r = r.1 := by
  obtain ⟨s, u, p⟩ := r
  obtain ⟨rfl, rfl⟩ := Prod.mk.inj hrests
  rcases hpath : path.drop n with _ | ⟨p, rest⟩
  · have hlength : n = path.length := Nat.le_antisymm hn (drop_eq_nil_iff.mp hpath)
    rcases hurl : url.drop n with _ | ⟨u, rest⟩
    · refine absurd ⟨hlength, fun u hu => ?_⟩ hwhole
      rw [← head?_drop, hurl] at hu
      cases hu
    · have hslash : isSlash u = false := by
        refine Bool.eq_false_iff.mpr fun hslash => hwhole ⟨hlength, fun v hv => ?_⟩
        rw [← head?_drop, hurl] at hv
        rwa [← some.inj hv]
      simp [finish, hslash]
  · rcases url.drop n with _ | ⟨u, rest'⟩ <;> rfl

theorem le_length_of_agree (hagree : ∀ k < n, AgreeAt toLowerCase path url k) :
    n ≤ path.length := by
  rcases n with _ | n
  · exact Nat.zero_le _
  · exact (hagree n (Nat.lt_succ_self n)).lt_length

/-- **The scan finds what matches.** -/
theorem matched_eq_some_iff :
    matched toLowerCase path url = some l ↔ Matches toLowerCase path url l := by
  obtain ⟨n, h⟩ := @exists_scanned toLowerCase url.reverse path.reverse ⟨0, none, false⟩
  have hn := le_length_of_agree h.agree
  unfold matched Matches
  by_cases hwhole : IsWhole path.reverse url.reverse n
  · obtain ⟨hpos, hat⟩ := finish_of_isWhole h.rests hwhole
    rw [matchesBackwards_of_isWhole h.agree h.stop hwhole]
    simp only [hat, hpos, if_true, h.matchLength, Nat.zero_add, some_inj]
    exact eq_comm
  · rw [matchesBackwards_of_not_isWhole h.agree h.stop hwhole,
      finish_of_not_isWhole hn h.rests hwhole]
    rcases n with _ | n
    · rw [h.start rfl]
      simp
    · by_cases hboundary : BoundaryAt toLowerCase path.reverse url.reverse n
      · obtain ⟨hpos, hat⟩ := h.boundary n rfl hboundary
        simp only [hat, hpos, if_true, Nat.zero_add, some_inj, Nat.add_right_cancel_iff]
        exact ⟨fun heq => ⟨heq, heq ▸ hboundary⟩, And.left⟩
      · simp only [h.other n rfl hboundary, Bool.false_eq_true, if_false]
        refine ⟨fun hl => absurd hl.symm (some_ne_none l), ?_⟩
        rintro ⟨heq, hl⟩
        obtain rfl : n = l := Nat.succ.inj heq
        exact absurd hl hboundary

theorem matched_eq_none_iff :
    matched toLowerCase path url = none ↔ ∀ l, ¬ Matches toLowerCase path url l := by
  rw [eq_none_iff_forall_not_mem]
  exact forall_congr' fun l => not_congr matched_eq_some_iff

theorem Matches.unique {k : ℕ} (h : Matches toLowerCase path url l)
    (h' : Matches toLowerCase path url k) : l = k :=
  Nat.le_antisymm (h'.2.1 l h.1) (h.2.1 k h'.1)

end

/-! ## The choice -/

/-- The scripts whose match has that length have no source URL of another length. -/
def PlainTies (toLowerCase : Str → Str) (path : Str) (scripts : List Script) (l : ℕ) : Prop :=
  ∀ t ∈ scripts, Matches toLowerCase path t.url l → t.toMatch.url.length = t.url.length

/-- The script that is chosen: its match is as long as any.  Of the scripts with a match of that
length it has the shortest URL, and is the first in the list of those. -/
structure Chosen (toLowerCase : Str → Str) (path : Str) (scripts : List Script) (l : ℕ)
    (s : Script) : Prop where
  mem : s ∈ scripts
  isMatch : Matches toLowerCase path s.url l
  longest : ∀ t ∈ scripts, ∀ k, Matches toLowerCase path t.url k → k ≤ l
  shortest : PlainTies toLowerCase path scripts l → ∃ before after, scripts = before ++ s :: after ∧
      (∀ t ∈ before, Matches toLowerCase path t.url l → s.url.length < t.url.length) ∧
      ∀ t ∈ after, Matches toLowerCase path t.url l → s.url.length ≤ t.url.length

section

variable {scripts : List Script} {script s : Script} {l k : ℕ}

theorem PlainTies.of_append (h : PlainTies toLowerCase path (scripts ++ [script]) l) :
    PlainTies toLowerCase path scripts l :=
  (forall_mem_append.mp h).1

theorem Chosen.le_length (h : Chosen toLowerCase path scripts l s)
    (hplain : PlainTies toLowerCase path scripts l) {t : Script} (ht : t ∈ scripts)
    (hmatch : Matches toLowerCase path t.url l) : s.url.length ≤ t.url.length := by
  obtain ⟨before, after, rfl, hbefore, hafter⟩ := h.shortest hplain
  rcases mem_append.mp ht with ht | ht
  · exact (hbefore t ht hmatch).le
  · rcases mem_cons.mp ht with rfl | ht
    · exact le_rfl
    · exact hafter t ht hmatch

/-- A script that is no better does not change the choice. -/
theorem Chosen.kept (h : Chosen toLowerCase path scripts l s)
    (hle : ∀ k, Matches toLowerCase path script.url k → k ≤ l)
    (hlength : Matches toLowerCase path script.url l → s.toMatch.url.length ≤ script.url.length) :
    Chosen toLowerCase path (scripts ++ [script]) l s where
  mem := mem_append_left _ h.mem
  isMatch := h.isMatch
  longest := by
    intro t ht k hk
    rcases mem_append.mp ht with ht | ht
    · exact h.longest t ht k hk
    · rw [mem_singleton.mp ht] at hk
      exact hle k hk
  shortest := by
    intro hplain
    have hs : s.toMatch.url.length = s.url.length :=
      hplain s (mem_append_left _ h.mem) h.isMatch
    obtain ⟨before, after, rfl, hbefore, hafter⟩ := h.shortest hplain.of_append
    refine ⟨before, after ++ [script], by simp, hbefore, ?_⟩
    intro t ht hmatch
    rcases mem_append.mp ht with ht | ht
    · exact hafter t ht hmatch
    · rw [mem_singleton.mp ht] at hmatch ⊢
      rw [← hs]
      exact hlength hmatch

/-- A script that is better than all before it is the choice. -/
theorem chosen_last (hmatch : Matches toLowerCase path script.url k)
    (hle : ∀ t ∈ scripts, ∀ l, Matches toLowerCase path t.url l → l ≤ k)
    (hlt : PlainTies toLowerCase path scripts k → ∀ t ∈ scripts,
      Matches toLowerCase path t.url k → script.url.length < t.url.length) :
    Chosen toLowerCase path (scripts ++ [script]) k script where
  mem := mem_append_right _ (mem_singleton.mpr rfl)
  isMatch := hmatch
  longest := by
    intro t ht l hl
    rcases mem_append.mp ht with ht | ht
    · exact hle t ht l hl
    · rw [mem_singleton.mp ht] at hl
      exact (hl.unique hmatch).le
  shortest := fun hplain =>
    ⟨scripts, [], rfl, hlt hplain.of_append, fun t ht => absurd ht not_mem_nil⟩

/-- **The choice, for every list of scripts.** -/
theorem chosen_of_foldl (toLowerCase : Str → Str) (path : Str) (scripts : List Script) :
    (scripts.foldl (consider toLowerCase path) none = none →
      ∀ t ∈ scripts, ∀ l, ¬ Matches toLowerCase path t.url l) ∧
    ∀ b, scripts.foldl (consider toLowerCase path) none = some b →
      ∃ s, b.bestMatch = s.toMatch ∧ Chosen toLowerCase path scripts b.maxMatchLength s := by
  induction scripts using List.reverseRecOn with
  | nil => exact ⟨fun _ t ht => absurd ht not_mem_nil, fun b hb => by cases hb⟩
  | append_singleton scripts script ih =>
    obtain ⟨hnone, hsome⟩ := ih
    rw [foldl_append, foldl_cons]
    rcases hmatched : matched toLowerCase path script.url with _ | k
    · -- The script does not match, and nothing changes.
      have hno := matched_eq_none_iff.mp hmatched
      have hconsider : ∀ best, consider toLowerCase path best script = best := fun best => by
        simp [consider, hmatched]
      rw [hconsider]
      refine ⟨fun hbest t ht => ?_, fun b hb => ?_⟩
      · rcases mem_append.mp ht with ht | ht
        · exact hnone hbest t ht
        · rw [mem_singleton.mp ht]
          exact hno
      · obtain ⟨s, hs, hchosen⟩ := hsome b hb
        exact ⟨s, hs, hchosen.kept (fun k hk => absurd hk (hno k)) fun hk => absurd hk (hno _)⟩
    · have hmatch := matched_eq_some_iff.mp hmatched
      rcases hbest : scripts.foldl (consider toLowerCase path) none with _ | b
      · -- It is the first that matches.
        have hbefore := hnone hbest
        simp only [consider, hmatched]
        refine ⟨fun h => absurd h (some_ne_none _), fun b hb => ?_⟩
        rw [← some.inj hb]
        exact ⟨script, rfl, chosen_last hmatch (fun t ht l hl => absurd hl (hbefore t ht l))
          fun _ t ht hl => absurd hl (hbefore t ht k)⟩
      · obtain ⟨s, hs, hchosen⟩ := hsome b hbest
        simp only [consider, hmatched]
        by_cases hbetter : b.maxMatchLength < k ∨
            k = b.maxMatchLength ∧ script.url.length < b.bestMatch.url.length
        · rw [if_pos hbetter]
          refine ⟨fun h => absurd h (some_ne_none _), fun c hc => ?_⟩
          rw [← some.inj hc]
          refine ⟨script, rfl, chosen_last hmatch (fun t ht l hl => ?_) fun hplain t ht hl => ?_⟩
          · have hle := hchosen.longest t ht l hl
            show l ≤ k
            omega
          · rcases hbetter with hlonger | ⟨rfl, hshorter⟩
            · have hle := hchosen.longest t ht k hl
              omega
            · have hle := hchosen.le_length hplain ht hl
              have hlength := hplain s hchosen.mem hchosen.isMatch
              rw [hs] at hshorter
              omega
        · rw [if_neg hbetter]
          refine ⟨fun h => absurd h (some_ne_none _), fun c hc => ?_⟩
          obtain rfl := some.inj hc
          refine ⟨s, hs, hchosen.kept (fun l hl => ?_) fun hl => ?_⟩
          · obtain rfl := hl.unique hmatch
            omega
          · obtain rfl := hl.unique hmatch
            rw [← hs]
            omega

/-- The list decides nothing: of the scripts with the longest match none has a source URL of another
length, and two whose URLs have the same length are told of in the same way. -/
def Settled (toLowerCase : Str → Str) (path : Str) (scripts : List Script) : Prop :=
  ∀ l, (∀ t ∈ scripts, ∀ k, Matches toLowerCase path t.url k → k ≤ l) →
    PlainTies toLowerCase path scripts l ∧
      ∀ s ∈ scripts, ∀ t ∈ scripts, Matches toLowerCase path s.url l →
        Matches toLowerCase path t.url l → s.url.length = t.url.length → s.toMatch = t.toMatch

theorem foldl_eq_none_iff : scripts.foldl (consider toLowerCase path) none = none ↔
      ∀ t ∈ scripts, ∀ l, ¬ Matches toLowerCase path t.url l := by
  obtain ⟨hnone, hsome⟩ := chosen_of_foldl toLowerCase path scripts
  refine ⟨hnone, fun hno => ?_⟩
  rcases hbest : scripts.foldl (consider toLowerCase path) none with _ | b
  · rfl
  · obtain ⟨s, -, hchosen⟩ := hsome b hbest
    exact absurd hchosen.isMatch (hno s hchosen.mem _)

theorem Chosen.toMatch_eq {scripts' : List Script} {s' : Script} {l' : ℕ}
    (h : Chosen toLowerCase path scripts l s) (h' : Chosen toLowerCase path scripts' l' s')
    (hperm : scripts.Perm scripts') (hsettled : Settled toLowerCase path scripts) :
    s'.toMatch = s.toMatch := by
  have hs' := hperm.mem_iff.mpr h'.mem
  have hs := hperm.mem_iff.mp h.mem
  obtain rfl : l = l' :=
    Nat.le_antisymm (h'.longest s hs l h.isMatch) (h.longest s' hs' l' h'.isMatch)
  obtain ⟨hplain, hties⟩ := hsettled l h.longest
  have hplain' : PlainTies toLowerCase path scripts' l := fun t ht =>
    hplain t (hperm.mem_iff.mpr ht)
  refine (hties s h.mem s' hs' h.isMatch h'.isMatch ?_).symm
  exact Nat.le_antisymm (h.le_length hplain hs' h'.isMatch) (h'.le_length hplain' hs h.isMatch)

theorem foldl_perm {scripts' : List Script} (hperm : scripts.Perm scripts')
    (hsettled : Settled toLowerCase path scripts) :
    (scripts'.foldl (consider toLowerCase path) none).map Best.bestMatch =
      (scripts.foldl (consider toLowerCase path) none).map Best.bestMatch := by
  rcases hbest : scripts.foldl (consider toLowerCase path) none with _ | b
  · rw [foldl_eq_none_iff.mpr fun t ht =>
      foldl_eq_none_iff.mp hbest t (hperm.mem_iff.mpr ht)]
  · obtain ⟨s, hs, hchosen⟩ := (chosen_of_foldl toLowerCase path scripts).2 b hbest
    rcases hbest' : scripts'.foldl (consider toLowerCase path) none with _ | b'
    · exact absurd hchosen.isMatch (foldl_eq_none_iff.mp hbest' s (hperm.mem_iff.mp hchosen.mem) _)
    · obtain ⟨s', hs', hchosen'⟩ := (chosen_of_foldl toLowerCase path scripts').2 b' hbest'
      rw [map_some, map_some, hs, hs', hchosen.toMatch_eq hchosen' hperm hsettled]

end

/-- What is asked of the answer for a path. -/
structure Answers (toLowerCase : Str → Str) (scripts : List Script) (path : Str)
    (answer : List Script → Option Match) : Prop where
  /-- There is none just where no script matches. -/
  null : answer scripts = none ↔
    path = [] ∨ ∀ t ∈ scripts, ∀ l, ¬ Matches toLowerCase (toLowerCase path) t.url l
  chosen : ∀ r, answer scripts = some r →
    ∃ s l, r = s.toMatch ∧ Chosen toLowerCase (toLowerCase path) scripts l s
  order : ∀ scripts', scripts.Perm scripts' → Settled toLowerCase (toLowerCase path) scripts →
    answer scripts' = answer scripts

/-- **The script that is found.**  Its match is as long as any, and ties go to the shortest URL and
then to the first in the list; where such a tie makes no difference, neither does the order of the
list. -/
theorem found (toLowerCase : Str → Str) (scripts : List Script) (path : Str) :
    Answers toLowerCase scripts path
      fun scripts => findScriptFromPartialPath toLowerCase scripts path := by
  unfold findScriptFromPartialPath
  by_cases hpath : path = []
  · simp only [hpath, if_true]
    exact ⟨⟨fun _ => .inl rfl, fun _ => rfl⟩, fun r hr => absurd hr.symm (some_ne_none r),
      fun _ _ _ => rfl⟩
  · simp only [hpath, if_false]
    refine ⟨?_, ?_, fun scripts' hperm hsettled => foldl_perm hperm hsettled⟩
    · rw [map_eq_none_iff, foldl_eq_none_iff, or_iff_right hpath]
    · intro r hr
      obtain ⟨b, hb, rfl⟩ := map_eq_some_iff.mp hr
      obtain ⟨s, hs, hchosen⟩ := (chosen_of_foldl toLowerCase (toLowerCase path) scripts).2 b hb
      exact ⟨s, b.maxMatchLength, hs, hchosen⟩

/-- `toLowerCase` of ASCII text. -/
def asciiLowerCase (s : Str) : Str :=
  s.map fun u => if unit 'A' ≤ u ∧ u ≤ unit 'Z' then u + 32 else u

def fooScript : Script := ⟨lit "file:///path/to/foo.js", [], lit "1", none, none⟩

/-- A script is passed over whose path has `foo.js` in common with the probe's, from a separator on:
in front of the separators the `o` of both agrees. -/
theorem not_null_exactly :
    ¬ ∀ (toLowerCase : Str → Str) (scripts : List Script) (path : Str), path ≠ [] →
      (findScriptFromPartialPath toLowerCase scripts path = none ↔ ∀ t ∈ scripts, ∀ l,
        ¬ StartsAt toLowerCase (toLowerCase path).reverse t.url.reverse l) := by
  intro h
  have hnone : findScriptFromPartialPath asciiLowerCase [fooScript] (lit "path/o/foo.js") = none :=
    by decide
  refine (h asciiLowerCase [fooScript] (lit "path/o/foo.js") (by decide)).mp hnone fooScript
    (mem_singleton.mpr rfl) 6 ⟨?_, .inl ⟨unit '/', unit '/', by decide, by decide, by decide⟩⟩
  intro k hk
  interval_cases k <;> exact ⟨_, _, rfl, rfl, by decide⟩

end

end DdTrace.Debugger.PartialPath
