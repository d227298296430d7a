import DdTrace.Appsec.RedactedParts

/-!
# What the value parts of an evidence show

The loop goes over the evidence from left to right.  At every iteration the text before `start` is
written, the text from `start` to `i` is to be written in clear, and the ranges ahead are those that
begin at `i` or behind it.  A sensitive range that begins before a tainted one and runs into it is cut
in three: the part in front is redacted at once, the part inside waits as a redaction context of the
source, and the part behind goes back to the list.

* `Scrub.Inv`: the invariant.  `carry` is the sensitive range that waits for the next tainted one.
* `inv_advance`, `inv_sensitive`, `inv_tainted`: one lemma for each kind of iteration.
* `exists_run`: the loop ends.
* `redacts_iff`: **the value parts have in clear, in their order, the characters that are not hidden,
  and no other, exactly when every piece of a tainted range fits** (`Evidence.Fitting`).
-/

namespace DdTrace.Appsec

open Library List

/-! ## What is hidden -/

/-- The position is in the range. -/
def Range.mem (r : Range) (p : ℕ) : Bool := decide (r.start ≤ p) && decide (p < r.stop)

/-- The position is in one of the ranges. -/
def covered (l : List Range) (p : ℕ) : Bool := l.any fun r => r.mem p

namespace Evidence

/-- A position is hidden in a sensitive range, and in a tainted range whose source is sensible. -/
def hidden (isSensibleSource : Str → Str → Bool) (e : Evidence) (sources : List Source) (p : ℕ) :
    Bool :=
  covered e.sensitive p || (e.ranges.zip e.sourcesIndexes).any fun r =>
    r.1.mem p && (sources[r.2]?).any fun source => isSensibleSource source.name source.value

/-- The ranges of a list are in their order and disjoint. -/
def Sorted (l : List Range) : Prop := l.Pairwise fun a b => a.stop ≤ b.start

/-- An evidence as the handler gets it: sorted lists of disjoint ranges, and a source for every
tainted range that was not redacted yet. -/
structure Valid (e : Evidence) (sources : List Source) : Prop where
  ranges : Sorted e.ranges
  sensitive : Sorted e.sensitive
  length : e.sourcesIndexes.length = e.ranges.length
  sources : ∀ index ∈ e.sourcesIndexes, ∃ source, sources[index]? = some source ∧
    source.redacted = false

/-- What a sensitive range has of a tainted one. -/
def piece (value : Str) (tainted sensitive : Range) : Str :=
  slice value (max sensitive.start tainted.start) (min sensitive.stop tainted.stop)

/-- The pieces of the tainted range at a position of the list fit. -/
def FitsAt (isSensibleSource : Str → Str → Bool) (e : Evidence) (sources : List Source) (k : ℕ) :
    Prop :=
  ∀ tainted index source, e.ranges[k]? = some tainted → e.sourcesIndexes[k]? = some index →
    sources[index]? = some source → isSensibleSource source.name source.value = false →
    ∀ sensitive ∈ e.sensitive, Fits source.value (slice e.value tainted.start tainted.stop)
      (piece e.value tainted sensitive)

/-- All pieces of tainted ranges fit. -/
def Fitting (isSensibleSource : Str → Str → Bool) (e : Evidence) (sources : List Source) : Prop :=
  ∀ k, e.FitsAt isSensibleSource sources k

end Evidence

open Evidence

variable {s : Scrub} {t : Range} {ranges : List Range} {carry : Option Range} {l : List Range}
  {next : Range} {rest : List Range} {r : Range} {i : ℕ} {value : Str}

theorem Range.mem_iff {p : ℕ} : r.mem p = true ↔ r.start ≤ p ∧ p < r.stop := by
  rw [Range.mem, Bool.and_eq_true, decide_eq_true_iff, decide_eq_true_iff]

theorem covered_iff {p : ℕ} :
    covered l p = true ↔ ∃ r ∈ l, r.start ≤ p ∧ p < r.stop := by
  rw [covered, any_eq_true]
  simp only [Range.mem_iff]

variable {isSensibleSource : Str → Str → Bool} {e : Evidence} {sources : List Source} {p k : ℕ}
  {tainted : Range} {index : ℕ} {source : Source}

theorem hidden_iff : e.hidden isSensibleSource sources p = true ↔ covered e.sensitive p = true ∨
    ∃ (j : ℕ) (t : Range) (n : ℕ) (o : Source), e.ranges[j]? = some t ∧
      e.sourcesIndexes[j]? = some n ∧ sources[n]? = some o ∧
      isSensibleSource o.name o.value = true ∧ t.start ≤ p ∧ p < t.stop := by
  rw [Evidence.hidden, Bool.or_eq_true, any_eq_true]
  refine or_congr_right ?_
  constructor
  · rintro ⟨⟨t, n⟩, hmem, h⟩
    obtain ⟨j, hj⟩ := mem_iff_getElem?.mp hmem
    rw [List.getElem?_zip_eq_some] at hj
    rw [Bool.and_eq_true, Range.mem_iff, Option.any_eq_true] at h
    obtain ⟨hp, o, ho, hsensible⟩ := h
    exact ⟨j, t, n, o, hj.1, hj.2, ho, hsensible, hp⟩
  · rintro ⟨j, t, n, o, ht, hn, ho, hsensible, hp⟩
    refine ⟨(t, n), mem_iff_getElem?.mpr ⟨j, List.getElem?_zip_eq_some.mpr ⟨ht, hn⟩⟩, ?_⟩
    rw [Bool.and_eq_true, Range.mem_iff, Option.any_eq_true]
    exact ⟨hp, o, ho, hsensible⟩

/-- A piece of which nothing is in the range. -/
theorem piece_eq_nil (value : Str) {s : Range} (h : s.stop ≤ t.start ∨ t.stop ≤ s.start) :
    piece value t s = [] := by
  rw [piece, slice, drop_eq_nil_iff, length_take]
  omega

/-- The piece of a range that was cut off in front. -/
theorem piece_congr (value : Str) {s s' : Range} (hstop : s.stop = s'.stop)
    (hstart : s.start ≤ t.start) (hstart' : s'.start ≤ t.start) :
    piece value t s = piece value t s' := by
  rw [piece, piece, hstop, Nat.max_eq_right hstart, Nat.max_eq_right hstart']

/-! ## Redacting a source -/

/-- The sources of the loop: those that were redacted are marked. -/
def Marked (sources : List Source) (s : Scrub) : Prop :=
  ∀ j, s.sources[j]? = (sources[j]?).map fun source =>
    if includes s.redactedSources j then source.redact else source

/-- The state after some contexts of a source. -/
structure Redacts (sources : List Source) (index : ℕ) (cs : List RedactionContext)
    (s s' : Scrub) : Prop where
  i : s'.i = s.i
  start : s'.start = s.start
  nextTaintedIndex : s'.nextTaintedIndex = s.nextTaintedIndex
  sourceIndex : s'.sourceIndex = s.sourceIndex
  ranges : s'.ranges = s.ranges
  clear : clearText s'.valueParts = clearText s.valueParts
  marked : Marked sources s'
  redacted : ∀ j, j ∈ s'.redactedSources ↔ j ∈ s.redactedSources ∨ (j = index ∧ cs ≠ [])
  contexts : ∀ j, s'.redactedSourcesContext j =
    if j = index then s.redactedSourcesContext j ++ cs else s.redactedSourcesContext j

theorem Redacts.refl (h : Marked sources s) : Redacts sources index [] s s := by
  refine ⟨rfl, rfl, rfl, rfl, rfl, rfl, h, fun j => ?_, fun j => ?_⟩
  · constructor
    · exact Or.inl
    · rintro (hj | ⟨-, hne⟩)
      · exact hj
      · exact absurd rfl hne
  · rw [append_nil, ite_self]

theorem Redacts.trans {cs ds : List RedactionContext} {s' s'' : Scrub}
    (h : Redacts sources index cs s s') (h' : Redacts sources index ds s' s'') :
    Redacts sources index (cs ++ ds) s s'' := by
  refine ⟨h'.i.trans h.i, h'.start.trans h.start, h'.nextTaintedIndex.trans h.nextTaintedIndex,
    h'.sourceIndex.trans h.sourceIndex, h'.ranges.trans h.ranges, h'.clear.trans h.clear, h'.marked,
    fun j => ?_, fun j => ?_⟩
  · rw [h'.redacted, h.redacted]
    constructor
    · rintro ((hj | ⟨hj, hne⟩) | ⟨hj, hne⟩)
      · exact Or.inl hj
      · exact Or.inr ⟨hj, fun hnil => hne (append_eq_nil_iff.mp hnil).1⟩
      · exact Or.inr ⟨hj, fun hnil => hne (append_eq_nil_iff.mp hnil).2⟩
    · rintro (hj | ⟨hj, hne⟩)
      · exact Or.inl (Or.inl hj)
      · by_cases hcs : cs = []
        · exact Or.inr ⟨hj, fun hds => hne (by rw [hcs, hds]; rfl)⟩
        · exact Or.inl (Or.inr ⟨hj, hcs⟩)
  · rw [h'.contexts, h.contexts]
    split
    · rw [append_assoc]
    · rfl

/-- Marking a source that may be marked already. -/
theorem markSource_spec (hmarked : Marked sources s) (hsource : sources[index]? = some source)
    (hfresh : source.redacted = false) :
    ∃ o, s.sources[index]? = some o ∧ o.name = source.name ∧ o.value = source.value ∧
      Marked sources (s.markSource index o) ∧
      (∀ j, j ∈ (s.markSource index o).redactedSources ↔ j ∈ s.redactedSources ∨ j = index) ∧
      s.markSource index o =
        { s with
          redactedSources := (s.markSource index o).redactedSources
          sources := (s.markSource index o).sources } := by
  have hget := hmarked index
  rw [hsource, Option.map_some] at hget
  by_cases hin : includes s.redactedSources index = true
  · rw [if_pos hin] at hget
    refine ⟨source.redact, hget, rfl, rfl, ?_⟩
    refine ⟨hmarked, fun j => ⟨Or.inl, ?_⟩, rfl⟩
    rintro (hj | rfl)
    · exact hj
    · exact includes_eq_true_iff.mp hin
  · rw [if_neg hin] at hget
    refine ⟨source, hget, rfl, rfl, ?_⟩
    have hpush : s.markSource index source =
        { s with
          redactedSources := s.redactedSources ++ [index]
          sources := s.sources.set index source.redact } := by
      unfold Scrub.markSource
      rw [hfresh, if_neg Bool.false_ne_true]
    rw [hpush]
    refine ⟨fun j => ?_, fun j => ?_, rfl⟩
    · rw [List.getElem?_set]
      have hlt : index < s.sources.length := (List.getElem?_eq_some_iff.mp hget).1
      by_cases hj : index = j
      · subst hj
        have hnow : includes (s.redactedSources ++ [index]) index = true :=
          includes_eq_true_iff.mpr (mem_append_right _ mem_cons_self)
        rw [if_pos rfl, if_pos hlt, hsource, Option.map_some, if_pos hnow]
      · rw [if_neg hj, hmarked j]
        have hsame : includes (s.redactedSources ++ [index]) j = includes s.redactedSources j := by
          rw [Bool.eq_iff_iff, includes_eq_true_iff, includes_eq_true_iff, mem_append,
            mem_singleton]
          exact or_iff_left fun h => hj h.symm
        rw [hsame]
    · rw [mem_append, mem_singleton]

/-- The context of a sensitive range in a tainted one. -/
def contextOf (tainted sensitive : Range) : RedactionContext :=
  ⟨(sensitive.start : ℤ) - tainted.start, (sensitive.stop : ℤ) - tainted.start⟩

theorem redactRange_spec (hmarked : Marked sources s)
    (hindex : s.sourceIndex = some index) (hsource : sources[index]? = some source)
    (hfresh : source.redacted = false) (t r : Range) :
    Redacts sources index [contextOf t r] s (s.redactRange t r) ∧
      (s.redactRange t r).sensitive = s.sensitive := by
  obtain ⟨o, ho, -, -, hmark, hred, hrest⟩ := markSource_spec hmarked hsource hfresh
  unfold Scrub.redactRange Scrub.redactSource
  rw [hindex]
  dsimp only
  rw [ho]
  dsimp only
  rw [hrest]
  refine ⟨⟨rfl, rfl, rfl, rfl, rfl, rfl, fun j => ?_, fun j => ?_, fun j => ?_⟩, rfl⟩
  · have hmark' := hmark j
    exact hmark'
  · rw [hred j]
    refine or_congr_right ⟨fun h => ⟨h, fun hnil => by cases hnil⟩, fun h => h.1⟩
  · rfl

/-- The sensitive ranges inside a tainted one. -/
theorem redactContained_spec (t : Range) (l : List Range) (hmarked : Marked sources s)
    (hindex : s.sourceIndex = some index) (hsource : sources[index]? = some source)
    (hfresh : source.redacted = false) :
    ∃ taken tail, l = taken ++ tail ∧ (∀ r ∈ taken, Range.contains t r = true) ∧
      (∀ r ∈ tail.head?, Range.contains t r = false) ∧
      (Scrub.redactContained t l s).sensitive = tail ∧
      Redacts sources index ((taken.filter fun r => decide (r.start ≠ r.stop)).map (contextOf t)) s
        (Scrub.redactContained t l s) := by
  induction l generalizing s with
  | nil =>
    refine ⟨[], [], rfl, fun r hr => absurd hr not_mem_nil, fun r hr => (by cases hr), rfl, ?_⟩
    exact { Redacts.refl hmarked with }
  | cons next rest ih =>
    unfold Scrub.redactContained
    by_cases hcontains : Range.contains t next = true
    · rw [if_pos hcontains]
      by_cases hempty : next.start = next.stop
      · rw [if_pos hempty]
        have hstep : Redacts sources index [] s
            { s with valueParts := s.valueParts ++ [.redacted none none] } := by
          refine { Redacts.refl hmarked with clear := ?_ }
          rw [clearText_concat]
          exact append_nil _
        obtain ⟨taken, tail, hl, htaken, htail, hsensitive, hredacts⟩ :=
          ih (s := { s with valueParts := s.valueParts ++ [.redacted none none] }) hstep.marked hindex
        refine ⟨next :: taken, tail, by rw [hl]; rfl, ?_, htail, hsensitive, ?_⟩
        · intro r hr
          rcases mem_cons.mp hr with rfl | hr
          · exact hcontains
          · exact htaken r hr
        · rw [filter_cons_of_neg (by simpa using hempty)]
          exact hstep.trans hredacts
      · rw [if_neg hempty]
        obtain ⟨hstep, -⟩ := redactRange_spec hmarked hindex hsource hfresh t next
        obtain ⟨taken, tail, hl, htaken, htail, hsensitive, hredacts⟩ :=
          ih (s := s.redactRange t next) hstep.marked (hstep.sourceIndex.trans hindex)
        refine ⟨next :: taken, tail, by rw [hl]; rfl, ?_, htail, hsensitive, ?_⟩
        · intro r hr
          rcases mem_cons.mp hr with rfl | hr
          · exact hcontains
          · exact htaken r hr
        · rw [filter_cons_of_pos (by simpa using hempty)]
          exact hstep.trans hredacts
    · rw [if_neg hcontains]
      refine ⟨[], next :: rest, rfl, fun r hr => absurd hr not_mem_nil, fun r hr => ?_, rfl, ?_⟩
      · cases hr
        exact Bool.eq_false_iff.mpr hcontains
      · exact { Redacts.refl hmarked with }

/-- The sensitive range that goes on behind the tainted one is cut. -/
theorem redactStraddling_spec (t : Range) (hmarked : Marked sources s)
    (hindex : s.sourceIndex = some index) (hsource : sources[index]? = some source)
    (hfresh : source.redacted = false)
    (hhead : ∀ r ∈ s.sensitive.head?, Range.contains t r = false ∧ t.start ≤ r.start) :
    ∃ more, Redacts sources index (more.map (contextOf t)) s (Scrub.redactStraddling t s) ∧
      ((more = [] ∧ (Scrub.redactStraddling t s).sensitive = s.sensitive ∧
          ∀ r ∈ s.sensitive.head?, t.stop ≤ r.start) ∨
        ∃ r r' rest, more = [r] ∧ s.sensitive = r :: rest ∧
          (Scrub.redactStraddling t s).sensitive = r' :: rest ∧ r.start < t.stop ∧
          t.stop < r.stop ∧ r'.start = t.stop ∧ r'.stop = r.stop) := by
  unfold Scrub.redactStraddling
  cases hsensitive : s.sensitive with
  | nil =>
    refine ⟨[], Redacts.refl hmarked, Or.inl ⟨rfl, hsensitive, fun r hr => ?_⟩⟩
    cases hr
  | cons next rest =>
    rw [hsensitive] at hhead
    obtain ⟨hcontains, hstart⟩ := hhead next rfl
    have hstop : t.stop < next.stop := by
      unfold Range.contains at hcontains
      rw [if_neg (by omega), decide_eq_false_iff_not] at hcontains
      omega
    dsimp only
    by_cases hintersects : Range.intersects next t = true
    · have hlt : next.start < t.stop := by
        unfold Range.intersects at hintersects
        rw [Bool.and_eq_true, decide_eq_true_iff, decide_eq_true_iff] at hintersects
        exact hintersects.2
      obtain ⟨hstep, -⟩ := redactRange_spec hmarked hindex hsource hfresh t next
      have hremove : Range.remove next t =
          [⟨t.stop, t.stop + (next.stop - t.stop), Nat.le_add_right _ _⟩] := by
        unfold Range.remove
        rw [if_neg (by rw [hintersects]; decide),
          if_neg (by rw [hcontains]; exact Bool.false_ne_true), if_neg (by omega), if_pos hstop]
        rfl
      rw [if_pos hintersects, hremove]
      exact ⟨[next], { hstep with }, Or.inr ⟨next, _, rest, rfl, rfl, rfl, hlt, hstop, rfl,
        Nat.add_sub_cancel' (Nat.le_of_lt hstop)⟩⟩
    · rw [if_neg hintersects]
      refine ⟨[], Redacts.refl hmarked, Or.inl ⟨rfl, hsensitive, fun r hr => ?_⟩⟩
      cases hr
      by_contra hlt
      refine hintersects ?_
      unfold Range.intersects
      rw [Bool.and_eq_true, decide_eq_true_iff, decide_eq_true_iff]
      omega

/-! ## What is left of the sensitive ranges -/

/-- One list of ranges stands for another from a position on, and has the same pieces of the tainted
ranges ahead. -/
structure StandsFor (value : Str) (ranges : List Range) (i : ℕ) (l l' : List Range) : Prop where
  covered : ∀ p, i ≤ p → (covered l p = true ↔ covered l' p = true)
  pieces : ∀ t ∈ ranges, ∀ Q : Str → Prop, Q [] →
    ((∀ r ∈ l, Q (piece value t r)) ↔ ∀ r ∈ l', Q (piece value t r))

theorem StandsFor.refl (value : Str) (ranges : List Range) (i : ℕ) (l : List Range) :
    StandsFor value ranges i l l := ⟨fun _ _ => Iff.rfl, fun _ _ _ _ => Iff.rfl⟩

theorem StandsFor.trans {ranges' : List Range} {i' : ℕ}
    {l' l'' : List Range} (h : StandsFor value ranges i l l')
    (h' : StandsFor value ranges' i' l' l'') (hranges : ∀ t ∈ ranges', t ∈ ranges) (hi : i ≤ i') :
    StandsFor value ranges' i' l l'' :=
  ⟨fun p hp => (h.covered p (hi.trans hp)).trans (h'.covered p hp),
    fun t ht Q hQ => (h.pieces t (hranges t ht) Q hQ).trans (h'.pieces t ht Q hQ)⟩

theorem covered_append (l l' : List Range) (p : ℕ) :
    covered (l ++ l') p = true ↔ covered l p = true ∨ covered l' p = true := by
  rw [covered, any_append, Bool.or_eq_true]
  rfl

/-- Ranges that end before what is ahead are left out. -/
theorem StandsFor.append_left {l' l'' : List Range}
    (hpast : ∀ r ∈ l, r.stop ≤ i) (hranges : ∀ t ∈ ranges, i ≤ t.start)
    (h : StandsFor value ranges i l' l'') : StandsFor value ranges i (l ++ l') l'' := by
  constructor
  · intro p hp
    rw [covered_append, ← h.covered p hp]
    refine or_iff_right fun hl => ?_
    obtain ⟨r, hr, -, hlt⟩ := covered_iff.mp hl
    have hle := hpast r hr
    omega
  · intro t ht Q hQ
    rw [← h.pieces t ht Q hQ]
    constructor
    · exact fun hall r hr => hall r (mem_append_right _ hr)
    · intro hall r hr
      rcases mem_append.mp hr with hr | hr
      · rw [piece_eq_nil value (Or.inl ((hpast r hr).trans (hranges t ht)))]
        exact hQ
      · exact hall r hr

/-- A range that is cut off in front. -/
theorem StandsFor.cut {r' : Range} (l : List Range)
    (hstart : r.start ≤ i) (hstart' : r'.start = i) (hstop : r'.stop = r.stop)
    (hranges : ∀ t ∈ ranges, i ≤ t.start) : StandsFor value ranges i (r :: l) (r' :: l) := by
  constructor
  · intro p hp
    rw [covered_iff, covered_iff, exists_mem_cons_iff, exists_mem_cons_iff]
    refine or_congr_left ?_
    omega
  · intro t ht Q hQ
    have ht' := hranges t ht
    rw [forall_mem_cons, forall_mem_cons,
      piece_congr value (t := t) hstop.symm (hstart.trans ht') (hstart'.trans_le ht')]

/-- A list of sensitive ranges at a tainted one: those that are taken as contexts, and those that are
left for what is behind it. -/
structure Cuts (value : Str) (t : Range) (ranges : List Range) (l cut left : List Range) : Prop where
  sorted : Sorted cut
  mem : ∀ r ∈ cut, r ∈ l ∧ r.start < r.stop ∧ r.start < t.stop
  rest : ∀ r ∈ l, r ∈ cut ∨ r.start = r.stop ∨ t.stop ≤ r.start
  standsFor : StandsFor value ranges t.stop l left
  sorted_left : Sorted left
  ahead : ∀ r ∈ left, t.stop ≤ r.start
  length_le : left.length ≤ l.length

theorem sorted_cons_ahead (h : Sorted (r :: l)) {n : ℕ}
    (hn : n ≤ r.start) : ∀ q ∈ r :: l, n ≤ q.start := by
  intro q hq
  rcases mem_cons.mp hq with rfl | hq
  · exact hn
  · have hle := (pairwise_cons.mp h).1 q hq
    have hr := r.le
    omega

/-- Only ranges inside the tainted one are taken. -/
theorem cuts_of_inside (value : Str) {taken tail : List Range}
    (hsorted : Sorted (taken ++ tail)) (htaken : ∀ r ∈ taken, r.stop ≤ t.stop)
    (htail : ∀ r ∈ tail.head?, t.stop ≤ r.start) (hranges : ∀ u ∈ ranges, t.stop ≤ u.start) :
    Cuts value t ranges (taken ++ tail) (taken.filter fun r => decide (r.start ≠ r.stop)) tail := by
  obtain ⟨hsortedTaken, hsortedTail, -⟩ := pairwise_append.mp hsorted
  have hahead : ∀ r ∈ tail, t.stop ≤ r.start := by
    cases tail with
    | nil => exact fun r hr => absurd hr not_mem_nil
    | cons r rest => exact sorted_cons_ahead hsortedTail (htail r rfl)
  refine ⟨hsortedTaken.filter _, fun r hr => ?_, fun r hr => ?_, ?_, hsortedTail, hahead, ?_⟩
  · obtain ⟨hr, hne⟩ := mem_filter.mp hr
    have hne' := of_decide_eq_true hne
    have hle := r.le
    have hstop := htaken r hr
    exact ⟨mem_append_left _ hr, by omega, by omega⟩
  · rcases mem_append.mp hr with hr | hr
    · by_cases hne : r.start = r.stop
      · exact Or.inr (Or.inl hne)
      · exact Or.inl (mem_filter.mpr ⟨hr, decide_eq_true hne⟩)
    · exact Or.inr (Or.inr (hahead r hr))
  · exact StandsFor.append_left htaken hranges (StandsFor.refl _ _ _ _)
  · rw [length_append]
    exact Nat.le_add_left _ _

/-- The range behind them is cut at the end of the tainted one. -/
theorem cuts_of_straddling (value : Str) {r' : Range} {taken : List Range}
    (hsorted : Sorted (taken ++ r :: rest)) (htaken : ∀ q ∈ taken, q.stop ≤ t.stop)
    (hlt : r.start < t.stop) (hgt : t.stop < r.stop) (hstart : r'.start = t.stop)
    (hstop : r'.stop = r.stop) (hranges : ∀ u ∈ ranges, t.stop ≤ u.start) :
    Cuts value t ranges (taken ++ r :: rest)
      (taken.filter (fun r => decide (r.start ≠ r.stop)) ++ [r]) (r' :: rest) := by
  obtain ⟨hsortedTaken, hsortedTail, hbetween⟩ := pairwise_append.mp hsorted
  obtain ⟨hfirst, hsortedRest⟩ := pairwise_cons.mp hsortedTail
  have hleft : Sorted (r' :: rest) :=
    pairwise_cons.mpr ⟨fun q hq => hstop.trans_le (hfirst q hq), hsortedRest⟩
  refine ⟨?_, fun q hq => ?_, fun q hq => ?_, ?_, hleft, sorted_cons_ahead hleft hstart.ge, ?_⟩
  · refine pairwise_append.mpr ⟨hsortedTaken.filter _, pairwise_singleton _ _, ?_⟩
    intro a ha b hb
    rw [mem_singleton] at hb
    rw [hb]
    exact hbetween a (mem_filter.mp ha).1 r mem_cons_self
  · rcases mem_append.mp hq with hq | hq
    · obtain ⟨hq, hne⟩ := mem_filter.mp hq
      have hne' := of_decide_eq_true hne
      have hle := q.le
      have hbound := htaken q hq
      exact ⟨mem_append_left _ hq, by omega, by omega⟩
    · rw [mem_singleton] at hq
      rw [hq]
      exact ⟨mem_append_right _ mem_cons_self, hlt.trans hgt, hlt⟩
  · rcases mem_append.mp hq with hq | hq
    · by_cases hne : q.start = q.stop
      · exact Or.inr (Or.inl hne)
      · exact Or.inl (mem_append_left _ (mem_filter.mpr ⟨hq, decide_eq_true hne⟩))
    · rcases mem_cons.mp hq with rfl | hq
      · exact Or.inl (mem_append_right _ mem_cons_self)
      · have hbound := hfirst q hq
        exact Or.inr (Or.inr (by omega))
  · exact StandsFor.append_left htaken hranges
      (StandsFor.cut rest (Nat.le_of_lt hlt) hstart hstop hranges)
  · rw [length_append]
    exact Nat.le_add_left _ _

/-- **The sensitive ranges at a tainted one** are taken as contexts or left behind it. -/
theorem redactTainted_spec (value : Str) (t : Range) (hmarked : Marked sources s)
    (hindex : s.sourceIndex = some index) (hsource : sources[index]? = some source)
    (hfresh : source.redacted = false) (hsorted : Sorted s.sensitive)
    (hpending : ∀ r ∈ s.sensitive, t.start ≤ r.start) (hranges : ∀ u ∈ ranges, t.stop ≤ u.start) :
    ∃ cut s', Scrub.redactStraddling t (Scrub.redactContained t s.sensitive s) = s' ∧
      Redacts sources index (cut.map (contextOf t)) s s' ∧
      Cuts value t ranges s.sensitive cut s'.sensitive := by
  obtain ⟨taken, tail, hl, htaken, htail, hsensitive, hredacts⟩ :=
    redactContained_spec t s.sensitive hmarked hindex hsource hfresh
  have hinside : ∀ r ∈ taken, r.stop ≤ t.stop := by
    intro r hr
    have hcontains := htaken r hr
    unfold Range.contains at hcontains
    split at hcontains
    · cases hcontains
    · exact of_decide_eq_true hcontains
  have hhead : ∀ r ∈ (Scrub.redactContained t s.sensitive s).sensitive.head?,
      Range.contains t r = false ∧ t.start ≤ r.start := by
    intro r hr
    rw [hsensitive] at hr
    refine ⟨htail r hr, hpending r ?_⟩
    rw [hl]
    exact mem_append_right _ (List.mem_of_mem_head? hr)
  obtain ⟨more, hredacts', hcase⟩ := redactStraddling_spec t hredacts.marked
    (hredacts.sourceIndex.trans hindex) hsource hfresh hhead
  refine ⟨taken.filter (fun r => decide (r.start ≠ r.stop)) ++ more, _, rfl, ?_, ?_⟩
  · rw [map_append]
    exact hredacts.trans hredacts'
  rw [hl] at hsorted
  rw [hsensitive] at hcase
  rcases hcase with ⟨hmore, hleft, hbehind⟩ |
    ⟨r, r', rest, hmore, htailEq, hleft, hlt, hgt, hstart, hstop⟩
  · rw [hmore, hleft, append_nil]
    conv => arg 4; rw [hl]
    exact cuts_of_inside value hsorted hinside hbehind hranges
  · rw [hmore, hleft]
    conv => arg 4; rw [hl, htailEq]
    rw [htailEq] at hsorted
    exact cuts_of_straddling value hsorted hinside hlt hgt hstart hstop hranges

/-! ## What is hidden where -/

/-- Outside the tainted ranges only sensitive ranges hide. -/
theorem hidden_of_outside (h : ∀ t ∈ e.ranges, p < t.start ∨ t.stop ≤ p) :
    e.hidden isSensibleSource sources p = true ↔ covered e.sensitive p = true := by
  rw [hidden_iff]
  refine or_iff_left ?_
  rintro ⟨j, t, n, o, ht, -, -, -, hstart, hstop⟩
  have hout := h t (mem_of_getElem? ht)
  omega

/-- Disjoint ranges have no position in common. -/
theorem sorted_unique (hl : Sorted l) {j : ℕ} {u : Range} (ht : l[j]? = some t)
    (hu : l[k]? = some u) (htp : t.start ≤ p ∧ p < t.stop) (hup : u.start ≤ p ∧ p < u.stop) :
    j = k := by
  obtain ⟨hj, rfl⟩ := List.getElem?_eq_some_iff.mp ht
  obtain ⟨hk, rfl⟩ := List.getElem?_eq_some_iff.mp hu
  have hall := pairwise_iff_getElem.mp hl
  rcases Nat.lt_trichotomy j k with hlt | heq | hgt
  · have hle := hall j k hj hk hlt
    omega
  · exact heq
  · have hle := hall k j hk hj hgt
    omega

/-- In a tainted range the source may hide, too. -/
theorem hidden_of_inside (hv : e.Valid sources) (htainted : e.ranges[k]? = some tainted)
    (hindex : e.sourcesIndexes[k]? = some index) (hsource : sources[index]? = some source)
    (hp : tainted.start ≤ p ∧ p < tainted.stop) :
    e.hidden isSensibleSource sources p = true ↔ covered e.sensitive p = true ∨
      isSensibleSource source.name source.value = true := by
  rw [hidden_iff]
  refine or_congr_right ⟨?_, fun h => ⟨k, tainted, index, source, htainted, hindex, hsource, h, hp⟩⟩
  rintro ⟨j, t, n, o, ht, hn, ho, hsensible, htp⟩
  obtain rfl := sorted_unique hv.ranges ht htainted htp hp
  rw [hindex] at hn
  cases hn
  rw [hsource] at ho
  cases ho
  exact hsensible

/-! ## The invariant -/

/-- A sensitive range that runs into the next tainted one, after the part in front of it. -/
structure Carried (e : Evidence) (s : Scrub) (t r : Range) : Prop where
  tainted : s.ranges.head? = some t
  here : t.start = s.i
  start_le : r.start ≤ t.start
  lt_stop : t.start < r.stop
  pending : ∀ q ∈ s.sensitive, min r.stop t.stop ≤ q.start
  behind : r.stop ≤ t.stop ∨ ∃ q ∈ s.sensitive, q.start = t.stop ∧ q.stop = r.stop
  source : ∀ index, e.sourcesIndexes[s.nextTaintedIndex]? = some index → index ∈ s.redactedSources

/-- What the loop keeps. -/
structure Scrub.Inv (isSensibleSource : Str → Str → Bool) (e : Evidence) (sources : List Source)
    (carry : Option Range) (s : Scrub) : Prop where
  start_le : s.start ≤ s.i
  ranges : s.ranges = e.ranges.drop s.nextTaintedIndex
  done : ∀ t ∈ e.ranges.take s.nextTaintedIndex, t.stop ≤ s.i
  ahead : ∀ t ∈ s.ranges, s.i ≤ t.start
  sorted : Sorted s.sensitive
  pending : ∀ r ∈ s.sensitive, s.i ≤ r.start
  gap : ∀ p, s.start ≤ p → p < s.i → e.hidden isSensibleSource sources p = false
  shown : Shown (clearText s.valueParts)
    (visible (e.hidden isSensibleSource sources) e.value 0 s.start)
    (∀ j, j < s.nextTaintedIndex → e.FitsAt isSensibleSource sources j)
  marked : Marked sources s
  standsFor : StandsFor e.value s.ranges s.i e.sensitive (carry.toList ++ s.sensitive)
  carried : ∀ r ∈ carry, ∃ t, Carried e s t r
  contexts : ∀ t ∈ s.ranges.head?, ∀ index ∈ e.sourcesIndexes[s.nextTaintedIndex]?,
    s.redactedSourcesContext index = carry.toList.map (contextOf t)
  others : ∀ index, (carry = none ∨ e.sourcesIndexes[s.nextTaintedIndex]? ≠ some index) →
    s.redactedSourcesContext index = []

theorem inv_start (hv : e.Valid sources) : Scrub.Inv isSensibleSource e sources none
      { ranges := e.ranges, sensitive := e.sensitive, sources := sources } := by
  refine ⟨Nat.le_refl _, rfl, fun t ht => absurd ht not_mem_nil, fun _ _ => Nat.zero_le _,
    hv.sensitive, fun _ _ => Nat.zero_le _, fun p _ hp => absurd hp (Nat.not_lt_zero p), ?_, ?_,
    StandsFor.refl _ _ _ _, fun r hr => (by cases hr), fun _ _ _ _ => rfl, fun _ _ => rfl⟩
  · exact (Shown.of_eq rfl).congr ⟨fun _ j hj => absurd hj (Nat.not_lt_zero j), fun _ => trivial⟩
  · intro j
    show sources[j]? = (sources[j]?).map fun source => source
    rw [Option.map_id']

/-- A position that is not in a tainted range, if none begins there. -/
theorem Scrub.Inv.outside (h : s.Inv isSensibleSource e sources carry) (hp : s.i ≤ p)
    (hahead : ∀ t ∈ s.ranges, p < t.start) :
    ∀ t ∈ e.ranges, p < t.start ∨ t.stop ≤ p := by
  intro t ht
  rw [← take_append_drop s.nextTaintedIndex e.ranges, ← h.ranges] at ht
  rcases mem_append.mp ht with ht | ht
  · exact Or.inr ((h.done t ht).trans hp)
  · exact Or.inl (hahead t ht)

theorem sorted_drop (h : Sorted l) (k : ℕ) : Sorted (l.drop k) :=
  List.Pairwise.sublist (drop_sublist k l) h

/-- Every range ahead begins behind the first one. -/
theorem lt_start_of_head (h : Sorted l) (hle : ∀ r ∈ l, i ≤ r.start)
    (hhead : ∀ r ∈ l.head?, r.start ≠ i) : ∀ r ∈ l, i + 1 ≤ r.start := by
  cases l with
  | nil => exact fun r hr => absurd hr not_mem_nil
  | cons r l =>
    have hr := hle r mem_cons_self
    have hne := hhead r rfl
    exact sorted_cons_ahead h (by omega)

/-- **One position further**, where no range begins. -/
theorem inv_advance (hv : e.Valid sources)
    (h : s.Inv isSensibleSource e sources carry) (hranges : ∀ t ∈ s.ranges.head?, t.start ≠ s.i)
    (hsensitive : ∀ r ∈ s.sensitive.head?, r.start ≠ s.i) :
    Scrub.Inv isSensibleSource e sources none { s with i := s.i + 1 } := by
  have hcarry : carry = none := by
    cases hc : carry with
    | none => rfl
    | some r =>
      obtain ⟨t, ht⟩ := h.carried r hc
      exact absurd ht.here (hranges t ht.tainted)
  subst hcarry
  have hahead := lt_start_of_head (by rw [h.ranges]; exact sorted_drop hv.ranges _) h.ahead hranges
  have hpending := lt_start_of_head h.sorted h.pending hsensitive
  have hclear : e.hidden isSensibleSource sources s.i = false := by
    rw [← Bool.not_eq_true, hidden_of_outside (h.outside (Nat.le_refl _) hahead),
      h.standsFor.covered s.i (Nat.le_refl _), covered_iff]
    rintro ⟨r, hr, hle, -⟩
    have hlt := hpending r hr
    omega
  refine ⟨Nat.le_succ_of_le h.start_le, h.ranges, fun t ht => Nat.le_succ_of_le (h.done t ht), hahead,
    h.sorted, hpending, fun p hp hlt => ?_, h.shown, h.marked, ?_, fun r hr => (by cases hr),
    h.contexts, h.others⟩
  · rcases Nat.lt_succ_iff_lt_or_eq.mp hlt with hlt | rfl
    · exact h.gap p hp hlt
    · exact hclear
  · exact h.standsFor.trans (StandsFor.refl _ _ _ _) (fun t ht => ht) (Nat.le_succ _)

/-- The text up to the position is written in clear, and nothing of what is hidden behind it. -/
theorem Scrub.Inv.shown_to {stop : ℕ}
    (h : s.Inv isSensibleSource e sources carry) (hstop : s.i ≤ stop)
    (hhidden : ∀ p, s.i ≤ p → p < stop → e.hidden isSensibleSource sources p = true) :
    Shown (clearText (writeValuePart s.valueParts (slice e.value s.start s.i) s.sourceIndex))
      (visible (e.hidden isSensibleSource sources) e.value 0 stop)
      (∀ j, j < s.nextTaintedIndex → e.FitsAt isSensibleSource sources j) := by
  have hgap : visible (e.hidden isSensibleSource sources) e.value s.start s.i =
      slice e.value s.start s.i := visible_eq_slice fun p hp hlt _ => h.gap p hp hlt
  have hnone : visible (e.hidden isSensibleSource sources) e.value s.i stop = [] :=
    visible_eq_nil fun p hp hlt _ => hhidden p hp hlt
  have hall := h.shown.append (Shown.of_eq (rfl : slice e.value s.start s.i = _))
  rw [← visible_append (Nat.zero_le s.i) hstop, hnone, append_nil,
    ← visible_append (Nat.zero_le s.start) h.start_le, hgap, clearText_writeValuePart]
  exact hall.congr (and_iff_left trivial)

/-- **A sensitive range that ends before the next tainted one** is redacted as a whole. -/
theorem inv_redacted (hv : e.Valid sources)
    (h : s.Inv isSensibleSource e sources none) (hsensitive : s.sensitive = next :: rest)
    (hhere : next.start = s.i) (hranges : ∀ t ∈ s.ranges, next.stop ≤ t.start) :
    Scrub.Inv isSensibleSource e sources none
      { s with
        valueParts := writeValuePart s.valueParts (slice e.value s.start s.i) s.sourceIndex ++
          [.redacted none none]
        start := s.i + (next.stop - next.start)
        i := s.i + (next.stop - next.start)
        sensitive := rest } := by
  have hle := next.le
  have hto : s.i + (next.stop - next.start) = next.stop := by omega
  have hsorted := h.sorted
  rw [hsensitive] at hsorted
  have hcover : StandsFor e.value s.ranges s.i e.sensitive (next :: rest) := by
    rw [← hsensitive]
    exact h.standsFor
  rw [hto]
  refine ⟨Nat.le_refl _, h.ranges, fun t ht => (h.done t ht).trans (hhere ▸ hle), hranges,
    hsorted.of_cons, (pairwise_cons.mp hsorted).1, fun p hp hlt => absurd hlt (Nat.not_lt.mpr hp),
    ?_, h.marked, ?_, fun r hr => (by cases hr), h.contexts, h.others⟩
  · rw [clearText_concat]
    refine (append_nil _).symm ▸ h.shown_to (hhere ▸ hle) fun p hp hlt => ?_
    refine hidden_iff.mpr (Or.inl ?_)
    rw [hcover.covered p hp, covered_iff]
    exact ⟨next, mem_cons_self, hhere ▸ hp, hlt⟩
  · refine hcover.trans ?_ (fun t ht => ht) (hhere ▸ hle)
    refine StandsFor.append_left (l := [next]) (fun r hr => ?_) hranges (StandsFor.refl _ _ _ _)
    rw [mem_singleton] at hr
    rw [hr]

/-- What is left of a sensitive range that begins before a tainted one and runs into it: the part in
front, and the part behind, which goes back to the list. -/
theorem foldl_remove (rest : List Range) (hhere : next.start = i)
    (hbefore : i < t.start) (hinto : t.start < next.stop) :
    ∃ front left, (Range.remove next t).foldl (fun (r : Range × List Range) (entry : Range) =>
          if entry.start = i then (entry, r.2) else (r.1, entry :: r.2)) (next, rest) =
        (front, left) ∧ front.start = i ∧ front.stop = t.start ∧
      ((left = rest ∧ next.stop ≤ t.stop) ∨ ∃ r, left = r :: rest ∧ t.stop < next.stop ∧
        r.start = t.stop ∧ r.stop = next.stop) := by
  have ht := t.le
  have hintersects : Range.intersects next t = true := by
    unfold Range.intersects
    rw [Bool.and_eq_true, decide_eq_true_iff, decide_eq_true_iff]
    omega
  have hcontains : ¬ Range.contains t next = true := by
    unfold Range.contains
    rw [if_pos (by omega)]
    exact Bool.false_ne_true
  have hfront : next.start + (t.start - next.start) = t.start := by omega
  unfold Range.remove
  rw [if_neg (by rw [hintersects]; decide), if_neg hcontains, if_pos (by omega)]
  by_cases hbehind : t.stop < next.stop
  · have hback : t.stop + (next.stop - t.stop) = next.stop := by omega
    rw [if_pos hbehind, cons_append, List.nil_append, foldl_cons, foldl_cons,
      if_pos hhere, if_neg (by dsimp only; omega)]
    exact ⟨_, _, rfl, hhere, hfront, Or.inr ⟨_, rfl, hbehind, rfl, hback⟩⟩
  · rw [if_neg hbehind, append_nil, foldl_cons, if_pos hhere]
    exact ⟨_, _, rfl, hhere, hfront, Or.inl ⟨rfl, Nat.le_of_not_lt hbehind⟩⟩

/-- A range and what was cut off it stand for the range. -/
theorem standsFor_carried (value : Str) {left : List Range}
    (hranges : ∀ u ∈ ranges, t.stop ≤ u.start)
    (hle : next.start ≤ t.start) (i : ℕ)
    (hleft : (left = rest ∧ next.stop ≤ t.stop) ∨ ∃ r, left = r :: rest ∧ t.stop < next.stop ∧
      r.start = t.stop ∧ r.stop = next.stop) :
    StandsFor value (t :: ranges) i (next :: rest) (next :: left) := by
  rcases hleft with ⟨rfl, -⟩ | ⟨r, rfl, -, hstart, hstop⟩
  · exact StandsFor.refl _ _ _ _
  have ht := t.le
  constructor
  · intro p hp
    rw [covered_iff, covered_iff, exists_mem_cons_iff, exists_mem_cons_iff,
      exists_mem_cons_iff, ← or_assoc]
    refine or_congr_left ⟨Or.inl, ?_⟩
    rintro (h | h)
    · exact h
    · omega
  · intro u hu Q hQ
    rw [forall_mem_cons, forall_mem_cons, forall_mem_cons]
    refine and_congr_right fun hnext => ⟨fun h => ⟨?_, h⟩, fun h => h.2⟩
    rcases mem_cons.mp hu with rfl | hu
    · rw [piece_eq_nil value (Or.inr hstart.ge)]
      exact hQ
    · have hbehind := hranges u hu
      rw [piece_congr value (t := u) hstop (by omega) (by omega)]
      exact hnext

/-- **A sensitive range that runs into the next tainted one**: the part in front is redacted, and the
rest waits. -/
theorem inv_carried {s' : Scrub} {front : Range} {left : List Range}
    (hv : e.Valid sources) (h : s.Inv isSensibleSource e sources none)
    (hranges : s.ranges = t :: ranges) (hsensitive : s.sensitive = next :: rest)
    (hhere : next.start = s.i) (hbefore : s.i < t.start) (hinto : t.start < next.stop)
    (hindex : e.sourcesIndexes[s.nextTaintedIndex]? = some index)
    (hredacts : Redacts sources index [contextOf t next]
      { s with
        valueParts := writeValuePart s.valueParts (slice e.value s.start s.i) s.sourceIndex
        sourceIndex := some index } s')
    (hfront : front.start = s.i ∧ front.stop = t.start)
    (hleft : (left = rest ∧ next.stop ≤ t.stop) ∨ ∃ r, left = r :: rest ∧ t.stop < next.stop ∧
      r.start = t.stop ∧ r.stop = next.stop) :
    Scrub.Inv isSensibleSource e sources (some next)
      { s' with
        valueParts := s'.valueParts ++ [.redacted none none]
        start := s'.i + (front.stop - front.start)
        i := s'.i + (front.stop - front.start)
        sensitive := left } := by
  have hto : s'.i + (front.stop - front.start) = t.start := by
    rw [hredacts.i]
    dsimp only
    omega
  have ht := t.le
  have hnextIndex : s'.nextTaintedIndex = s.nextTaintedIndex := hredacts.nextTaintedIndex
  have hsameRanges : s'.ranges = s.ranges := hredacts.ranges
  have hsortedRanges : Sorted (t :: ranges) := by
    rw [← hranges, h.ranges]
    exact sorted_drop hv.ranges _
  have hsorted := h.sorted
  rw [hsensitive] at hsorted
  obtain ⟨hfirst, hsortedRest⟩ := pairwise_cons.mp hsorted
  have hcover : StandsFor e.value s.ranges s.i e.sensitive (next :: rest) := by
    rw [← hsensitive]
    exact h.standsFor
  have hpending : ∀ q ∈ left, min next.stop t.stop ≤ q.start := by
    intro q hq
    rcases hleft with ⟨rfl, -⟩ | ⟨r, rfl, -, hstart, -⟩
    · exact (Nat.min_le_left _ _).trans (hfirst q hq)
    · rcases mem_cons.mp hq with rfl | hq
      · exact (Nat.min_le_right _ _).trans hstart.ge
      · exact (Nat.min_le_left _ _).trans (hfirst q hq)
  have hsortedLeft : Sorted left := by
    rcases hleft with ⟨rfl, -⟩ | ⟨r, rfl, -, -, hstop⟩
    · exact hsortedRest
    · exact pairwise_cons.mpr ⟨fun q hq => hstop.trans_le (hfirst q hq), hsortedRest⟩
  have hin : ∀ n, e.sourcesIndexes[s'.nextTaintedIndex]? = some n → n = index := by
    intro n hn
    rw [hnextIndex, hindex] at hn
    exact (Option.some.inj hn).symm
  rw [hto]
  refine ⟨Nat.le_refl _, ?_, ?_, ?_, hsortedLeft, ?_, fun p hp hlt => absurd hlt (Nat.not_lt.mpr hp),
    ?_, hredacts.marked, ?_, ?_, ?_, ?_⟩
  · rw [hsameRanges, hnextIndex, h.ranges]
  · intro u hu
    rw [hnextIndex] at hu
    exact (h.done u hu).trans (Nat.le_of_lt hbefore)
  · rw [hsameRanges, hranges]
    exact sorted_cons_ahead hsortedRanges (Nat.le_refl _)
  · intro q hq
    have hq' := hpending q hq
    dsimp only
    omega
  · rw [clearText_concat, hredacts.clear, hnextIndex]
    refine (append_nil _).symm ▸ h.shown_to (Nat.le_of_lt hbefore) fun p hp hlt => ?_
    refine hidden_iff.mpr (Or.inl ?_)
    rw [hcover.covered p hp, covered_iff]
    exact ⟨next, mem_cons_self, hhere ▸ hp, hlt.trans hinto⟩
  · rw [hsameRanges]
    refine hcover.trans ?_ (fun u hu => hu) (Nat.le_of_lt hbefore)
    rw [hranges]
    exact standsFor_carried e.value (pairwise_cons.mp hsortedRanges).1 (by omega) _ hleft
  · intro r hr
    cases hr
    refine ⟨t, ?_, rfl, by omega, hinto, hpending, ?_, fun n hn => ?_⟩
    · rw [hsameRanges, hranges]
      rfl
    · rcases hleft with ⟨-, hle⟩ | ⟨r, rfl, -, hr⟩
      · exact Or.inl hle
      · exact Or.inr ⟨r, mem_cons_self, hr⟩
    · obtain rfl := hin n hn
      exact (hredacts.redacted n).mpr (Or.inr ⟨rfl, cons_ne_nil _ _⟩)
  · intro u hu n hn
    rw [hsameRanges, hranges] at hu
    cases hu
    obtain rfl := hin n hn
    rw [hredacts.contexts, if_pos rfl]
    rw [h.others n (Or.inl rfl)]
    rfl
  · rintro n (hn | hn)
    · cases hn
    · rw [hredacts.contexts, if_neg (fun heq => hn (by rw [hnextIndex, hindex, heq]))]
      exact h.others n (Or.inl rfl)

/-- The source of the next tainted range. -/
theorem Scrub.Inv.next_source (hv : e.Valid sources) (h : s.Inv isSensibleSource e sources carry)
    (hranges : s.ranges = t :: ranges) :
    ∃ index source, e.ranges[s.nextTaintedIndex]? = some t ∧
      e.sourcesIndexes[s.nextTaintedIndex]? = some index ∧ sources[index]? = some source ∧
      source.redacted = false := by
  have ht : e.ranges[s.nextTaintedIndex]? = some t := by
    rw [← List.head?_drop, ← h.ranges, hranges]
    rfl
  have hlt : s.nextTaintedIndex < e.sourcesIndexes.length := by
    rw [hv.length]
    exact (List.getElem?_eq_some_iff.mp ht).1
  obtain ⟨source, hsource, hfresh⟩ := hv.sources _ (getElem_mem hlt)
  exact ⟨_, source, ht, List.getElem?_eq_getElem hlt, hsource, hfresh⟩

/-- What decreases. -/
def Scrub.left (e : Evidence) (s : Scrub) : ℕ :=
  e.value.length - s.i + s.ranges.length + s.sensitive.length

theorem intersects_iff (h : next.start < t.start) :
    Range.intersects next t = true ↔ t.start < next.stop := by
  have ht := t.le
  unfold Range.intersects
  rw [Bool.and_eq_true, decide_eq_true_iff, decide_eq_true_iff]
  omega

/-- A sensitive range that does not run into the next tainted one. -/
theorem sensitiveStep_alone (rest : List Range)
    (h : ∀ t ∈ s.ranges.head?, ¬ Range.intersects next t = true) :
    Scrub.sensitiveStep e next rest s =
      { s with
        valueParts := writeValuePart s.valueParts (slice e.value s.start s.i) s.sourceIndex ++
          [.redacted none none]
        start := s.i + (next.stop - next.start)
        i := s.i + (next.stop - next.start)
        sensitive := rest } := by
  obtain ⟨i, start, k, sourceIndex, ranges, sensitive, parts, srcs, reds, ctxs⟩ := s
  unfold Scrub.sensitiveStep
  cases ranges with
  | nil => rfl
  | cons t ranges =>
    dsimp only
    rw [if_neg (h t rfl)]

/-- One that does. -/
theorem sensitiveStep_into {s' : Scrub} {front : Range} {left : List Range}
    (hranges : s.ranges = t :: ranges) (hinto : Range.intersects next t = true)
    (hstep : Scrub.redactRange
      { s with
        valueParts := writeValuePart s.valueParts (slice e.value s.start s.i) s.sourceIndex
        sourceIndex := e.sourcesIndexes[s.nextTaintedIndex]? } t next = s')
    (hfold : (Range.remove next t).foldl (fun (r : Range × List Range) (entry : Range) =>
          if entry.start = s'.i then (entry, r.2) else (r.1, entry :: r.2)) (next, rest) =
        (front, left)) :
    Scrub.sensitiveStep e next rest s =
      { s' with
        valueParts := s'.valueParts ++ [.redacted none none]
        start := s'.i + (front.stop - front.start)
        i := s'.i + (front.stop - front.start)
        sensitive := left } := by
  obtain ⟨i, start, k, sourceIndex, ranges', sensitive, parts, srcs, reds, ctxs⟩ := s
  subst hranges
  unfold Scrub.sensitiveStep
  dsimp only at hstep ⊢
  rw [if_pos hinto, hstep, hfold]

/-- **An iteration at a sensitive range.** -/
theorem inv_sensitive (hv : e.Valid sources) (h : s.Inv isSensibleSource e sources carry)
    (hlt : s.i < e.value.length) (hsensitive : s.sensitive = next :: rest)
    (hhere : next.start = s.i) (hranges : ∀ t ∈ s.ranges.head?, t.start ≠ s.i) :
    ∃ carry', (Scrub.sensitiveStep e next rest s).Inv isSensibleSource e sources carry' ∧
      (Scrub.sensitiveStep e next rest s).left e < s.left e := by
  have hcarry : carry = none := by
    cases hc : carry with
    | none => rfl
    | some r =>
      obtain ⟨t, ht⟩ := h.carried r hc
      exact absurd ht.here (hranges t ht.tainted)
  subst hcarry
  have hsorted : Sorted s.ranges := by
    rw [h.ranges]
    exact sorted_drop hv.ranges _
  have hbefore : ∀ t ∈ s.ranges, s.i + 1 ≤ t.start := lt_start_of_head hsorted h.ahead hranges
  unfold Scrub.left
  rw [hsensitive, length_cons]
  by_cases hinto : ∃ t, s.ranges.head? = some t ∧ t.start < next.stop
  · obtain ⟨t, hhead, hinto⟩ := hinto
    obtain ⟨ranges, hs⟩ : ∃ ranges, s.ranges = t :: ranges := List.head?_eq_some_iff.mp hhead
    have hlt' := hbefore t (by rw [hs]; exact mem_cons_self)
    obtain ⟨index, source, -, hindex, hsource, hfresh⟩ := h.next_source hv hs
    obtain ⟨front, left, hfold, hfront1, hfront2, hleft⟩ := foldl_remove rest hhere hlt' hinto
    have hmarked : Marked sources
        { s with
          valueParts := writeValuePart s.valueParts (slice e.value s.start s.i) s.sourceIndex
          sourceIndex := some index } := h.marked
    obtain ⟨hredacts, -⟩ := redactRange_spec hmarked rfl hsource hfresh t next
    rw [← hredacts.i] at hfold
    rw [← hindex] at hfold
    rw [sensitiveStep_into hs ((intersects_iff (by omega)).mpr hinto) rfl hfold, hindex]
    refine ⟨some next, inv_carried hv h hs hsensitive hhere hlt' hinto hindex hredacts
      ⟨hfront1, hfront2⟩ hleft, ?_⟩
    have hlength : left.length ≤ rest.length + 1 := by
      rcases hleft with ⟨rfl, -⟩ | ⟨r, rfl, -⟩
      · exact Nat.le_succ _
      · exact Nat.le_refl _
    rw [hredacts.ranges, hredacts.i]
    dsimp only
    omega
  · have hnone : ∀ t ∈ s.ranges.head?, next.stop ≤ t.start := by
      intro t ht
      by_contra hcon
      exact hinto ⟨t, ht, Nat.lt_of_not_le hcon⟩
    have hbehind : ∀ t ∈ s.ranges, next.stop ≤ t.start := by
      cases hs : s.ranges with
      | nil => exact fun t ht => absurd ht not_mem_nil
      | cons t ranges =>
        rw [hs] at hsorted hnone
        exact sorted_cons_ahead hsorted (hnone t rfl)
    have halone : ∀ t ∈ s.ranges.head?, ¬ Range.intersects next t = true := by
      intro t ht
      have hle := hnone t ht
      have hlt' := hbefore t (List.mem_of_mem_head? ht)
      rw [intersects_iff (by omega)]
      omega
    rw [sensitiveStep_alone rest halone]
    refine ⟨none, inv_redacted hv h hsensitive hhere hbehind, ?_⟩
    dsimp only
    omega

/-! ## A tainted range -/

/-- The state after the parts of a tainted range, of which `text` is in clear. -/
structure Writes (sources : List Source) (index : ℕ) (text : Str) (s s' : Scrub) : Prop where
  i : s'.i = s.i
  nextTaintedIndex : s'.nextTaintedIndex = s.nextTaintedIndex
  sensitive : s'.sensitive = s.sensitive
  clear : clearText s'.valueParts = clearText s.valueParts ++ text
  marked : Marked sources s'
  contexts : ∀ j, s'.redactedSourcesContext j =
    if j = index then [] else s.redactedSourcesContext j

/-- A source in the loop has the name and the value that it had before. -/
theorem Marked.get (hmarked : Marked sources s) (hsource : sources[index]? = some source) :
    ∃ o, s.sources[index]? = some o ∧ o.name = source.name ∧ o.value = source.value ∧
      (includes s.redactedSources index = true → o.Redacted) := by
  have hget := hmarked index
  rw [hsource, Option.map_some] at hget
  refine ⟨_, hget, ?_, ?_, fun hin => ?_⟩
  · split
    · rfl
    · rfl
  · split
    · rfl
    · rfl
  · rw [if_pos hin]
    exact redacted_redact source

/-- **A sensible source**: nothing of its range is in clear. -/
theorem writeTainted_sensible (value : Str) (t : Range) (hmarked : Marked sources s)
    (hindex : s.sourceIndex = some index) (hsource : sources[index]? = some source)
    (hfresh : source.redacted = false)
    (hsensible : isSensibleSource source.name source.value = true) :
    Writes sources index [] s
      (Scrub.writeTainted isSensibleSource value t (s.redactSensible isSensibleSource)) := by
  obtain ⟨o, ho, hname, hvalue, hmark, hred, hrest⟩ := markSource_spec hmarked hsource hfresh
  have hsensible' : isSensibleSource o.name o.value = true := by rw [hname, hvalue, hsensible]
  have hstep : s.redactSensible isSensibleSource = s.markSource index o := by
    unfold Scrub.redactSensible
    rw [hindex]
    dsimp only
    rw [ho]
    dsimp only
    rw [if_pos hsensible']
  have hindex' : (s.markSource index o).sourceIndex = some index := by
    rw [hrest]
    exact hindex
  have hin : includes (s.markSource index o).redactedSources index = true :=
    includes_eq_true_iff.mpr ((hred index).mpr (Or.inr rfl))
  obtain ⟨o', ho', hname', hvalue', -⟩ := hmark.get hsource
  rw [hstep]
  unfold Scrub.writeTainted
  rw [hindex', Option.bind_some, ho', Option.map_some]
  dsimp only
  rw [if_pos hin]
  refine ⟨?_, ?_, ?_, ?_, fun j => hmark j, fun j => ?_⟩
  · rw [hrest]
  · rw [hrest]
  · rw [hrest]
  · have hparts : (s.markSource index o).valueParts = s.valueParts := by rw [hrest]
    rw [clearText_append, hparts, hname', hvalue', hsensible]
    rfl
  · have hcontexts : (s.markSource index o).redactedSourcesContext = s.redactedSourcesContext := by
      rw [hrest]
    rw [hcontexts]

/-- **Another source**: its range shows what is visible of it when its pieces fit. -/
theorem writeTainted_spec (value : Str) {cs : List RedactionContext}
    (hidden : ℕ → Bool) (hmarked : Marked sources s)
    (hindex : s.sourceIndex = some index) (hsource : sources[index]? = some source)
    (hsensible : isSensibleSource source.name source.value = false)
    (hhere : t.start = s.i) (hcontexts : s.redactedSourcesContext index = cs)
    (hredacted : cs ≠ [] → index ∈ s.redactedSources) (hchain : Chain 0 cs)
    (hhidden : ∀ p, t.start + p < t.stop → (hidden (t.start + p) = true ↔ InPieces cs p)) :
    ∃ text, Shown text (visible hidden value t.start t.stop)
        (∀ c ∈ cs, Fits source.value (slice value t.start t.stop)
          (pieceOf (slice value t.start t.stop) c)) ∧
      Writes sources index text s
        (Scrub.writeTainted isSensibleSource value t (s.redactSensible isSensibleSource)) := by
  have ht := t.le
  obtain ⟨o, ho, hname, hvalue, hpattern⟩ := hmarked.get hsource
  have hsensible' : isSensibleSource o.name o.value = false := by rw [hname, hvalue, hsensible]
  have hstep : s.redactSensible isSensibleSource = s := by
    unfold Scrub.redactSensible
    rw [hindex]
    dsimp only
    rw [ho]
    dsimp only
    rw [if_neg (by rw [hsensible']; exact Bool.false_ne_true)]
  have hto : s.i + (t.stop - t.start) = t.stop := by omega
  rw [hstep]
  unfold Scrub.writeTainted
  rw [hindex, Option.bind_some, ho, Option.map_some]
  dsimp only
  by_cases hin : includes s.redactedSources index = true
  · rw [if_pos hin, hto, ← hhere, hsensible', hcontexts]
    have hlength : (slice value t.start t.stop).length ≤ t.stop - t.start := by
      rw [length_slice]
      omega
    have hshown : Shown _ (visible (fun p => hidden (t.start + p)) _ 0 (t.stop - t.start)) _ :=
      shown_redactedPart (hpattern hin) index hchain hlength fun p hp => hhidden p (by omega)
    rw [visible_slice, hvalue] at hshown
    refine ⟨_, hshown, hhere, rfl, rfl, clearText_append _ _, fun j => hmarked j, fun j => rfl⟩
  · have hcs : cs = [] := by
      by_contra hne
      exact hin (includes_eq_true_iff.mpr (hredacted hne))
    subst hcs
    rw [if_neg hin]
    have hslice : slice value t.start (min t.stop value.length) = slice value t.start t.stop := by
      rcases Nat.le_total t.stop value.length with hle | hle
      · rw [Nat.min_eq_left hle]
      · rw [Nat.min_eq_right hle, slice_of_length_le value hle]
    have hvisible : visible hidden value t.start t.stop = slice value t.start t.stop := by
      refine visible_eq_slice fun p hp hlt _ => ?_
      have hnone := hhidden (p - t.start) (by omega)
      rw [Nat.add_sub_cancel' hp] at hnone
      rw [← Bool.not_eq_true, hnone]
      rintro ⟨c, hc, -⟩
      exact absurd hc not_mem_nil
    rw [hslice]
    refine ⟨_, (Shown.of_eq hvisible.symm).congr ⟨fun _ c hc => absurd hc not_mem_nil,
      fun _ => trivial⟩, rfl, rfl, rfl, clearText_writeValuePart _ _ _, hmarked, fun j => ?_⟩
    by_cases hj : j = index
    · rw [if_pos hj, hj, hcontexts]
    · rw [if_neg hj]

/-- The contexts of sorted ranges. -/
theorem chain_contextOf (hl : Sorted l)
    (hmem : ∀ r ∈ l, r.start < r.stop ∧ t.start < r.stop) {offset : ℕ}
    (hoffset : ∀ r ∈ l, offset ≤ r.start - t.start) : Chain offset (l.map (contextOf t)) := by
  induction l generalizing offset with
  | nil => trivial
  | cons r l ih =>
    obtain ⟨hfirst, hrest⟩ := pairwise_cons.mp hl
    obtain ⟨hne, hlt⟩ := hmem r mem_cons_self
    have hle := hoffset r mem_cons_self
    have hstart : (contextOf t r).start = (r.start : ℤ) - t.start := rfl
    have hstop : (contextOf t r).stop = (r.stop : ℤ) - t.start := rfl
    refine ⟨by omega, by omega, by omega, ih hrest
      (forall_mem_cons.mp hmem).2 fun q hq => ?_⟩
    have hbehind := hfirst q hq
    omega

theorem inPieces_contextOf :
    InPieces (l.map (contextOf t)) p ↔ ∃ r ∈ l, r.start ≤ t.start + p ∧ t.start + p < r.stop := by
  constructor
  · rintro ⟨c, hc, hstart, hstop⟩
    obtain ⟨r, hr, rfl⟩ := mem_map.mp hc
    refine ⟨r, hr, ?_⟩
    unfold contextOf at hstart hstop
    dsimp only at hstart hstop
    omega
  · rintro ⟨r, hr, hstart, hstop⟩
    refine ⟨_, mem_map.mpr ⟨r, hr, rfl⟩, ?_⟩
    unfold contextOf
    dsimp only
    omega

theorem pieceOf_contextOf (value : Str) (h : t.start < r.stop) :
    pieceOf (slice value t.start t.stop) (contextOf t r) = piece value t r := by
  unfold pieceOf contextOf piece
  rw [slice_slice]
  congr 1
  · dsimp only
    omega
  · dsimp only
    omega

/-- The ranges whose contexts are waiting at a tainted range: the one that was carried there, and
those that were cut. -/
theorem cuts_carried {cut left : List Range}
    (h : s.Inv isSensibleSource e sources carry) (hranges : s.ranges = t :: ranges)
    (hhere : t.start = s.i) (hcuts : Cuts e.value t ranges s.sensitive cut left) :
    Sorted (carry.toList ++ cut) ∧
      (∀ r ∈ carry.toList ++ cut, r.start < r.stop ∧ t.start < r.stop) ∧
      ∀ r ∈ carry.toList ++ s.sensitive,
        r ∈ carry.toList ++ cut ∨ r.start = r.stop ∨ t.stop ≤ r.start := by
  have hcarried : ∀ r ∈ carry.toList, Carried e s t r := by
    intro r hr
    obtain ⟨u, hu⟩ := h.carried r (Option.mem_toList.mp hr)
    have hhead := hu.tainted
    rw [hranges] at hhead
    cases hhead
    exact hu
  refine ⟨pairwise_append.mpr ⟨?_, hcuts.sorted, fun r hr q hq => ?_⟩, fun r hr => ?_,
    fun r hr => ?_⟩
  · cases carry with
    | none => exact List.Pairwise.nil
    | some r => exact pairwise_singleton _ r
  · have hbehind := (hcarried r hr).pending q (hcuts.mem q hq).1
    have hlt := (hcuts.mem q hq).2.2
    omega
  · rcases mem_append.mp hr with hr | hr
    · have hlt := (hcarried r hr).lt_stop
      have hle := (hcarried r hr).start_le
      omega
    · obtain ⟨hin, hne, -⟩ := hcuts.mem r hr
      have hle := h.pending r hin
      omega
  · rcases mem_append.mp hr with hr | hr
    · exact Or.inl (mem_append_left _ hr)
    · rcases hcuts.rest r hr with hcut | hrest
      · exact Or.inl (mem_append_right _ hcut)
      · exact Or.inr hrest

/-- What is behind the tainted range. -/
theorem standsFor_behind {cut left : List Range}
    (hv : e.Valid sources) (h : s.Inv isSensibleSource e sources carry)
    (hranges : s.ranges = t :: ranges) (hhere : t.start = s.i)
    (hcuts : Cuts e.value t ranges s.sensitive cut left) :
    StandsFor e.value ranges t.stop e.sensitive left := by
  have ht := t.le
  have hsorted : Sorted (t :: ranges) := by
    rw [← hranges, h.ranges]
    exact sorted_drop hv.ranges _
  have hahead := (pairwise_cons.mp hsorted).1
  have hfrom : StandsFor e.value ranges t.stop e.sensitive (carry.toList ++ s.sensitive) :=
    h.standsFor.trans (StandsFor.refl _ _ _ _)
      (fun u hu => by rw [hranges]; exact mem_cons_of_mem _ hu) (by omega)
  refine hfrom.trans ?_ (fun u hu => hu) (Nat.le_refl _)
  cases hcarry : carry with
  | none => exact hcuts.standsFor
  | some r =>
    obtain ⟨u, hu⟩ := h.carried r hcarry
    have hhead := hu.tainted
    rw [hranges] at hhead
    cases hhead
    rcases hu.behind with hle | ⟨q, hq, hstart, hstop⟩
    · refine StandsFor.append_left (l := [r]) (fun r' hr' => ?_) hahead hcuts.standsFor
      rw [mem_singleton] at hr'
      rw [hr']
      exact hle
    · have hle := hu.start_le
      refine StandsFor.trans ⟨fun p hp => ?_, fun v hv' Q hQ => ?_⟩ hcuts.standsFor (fun v hv' => hv')
        (Nat.le_refl _)
      · rw [covered_append]
        refine or_iff_right_of_imp fun hr => ?_
        obtain ⟨r', hr', -, hlt⟩ := covered_iff.mp hr
        rw [Option.toList_some, mem_singleton] at hr'
        subst hr'
        exact covered_iff.mpr ⟨q, hq, by omega, by omega⟩
      · constructor
        · exact fun hall r' hr' => hall r' (mem_append_right _ hr')
        · intro hall r' hr'
          rcases mem_append.mp hr' with hr' | hr'
          · rw [Option.toList_some, mem_singleton] at hr'
            have hv'' := hahead v hv'
            rw [hr', piece_congr e.value (t := v) hstop.symm (by omega) (by omega)]
            exact hall q hq
          · exact hall r' hr'

/-- The pieces of a tainted range that fit are those of the waiting contexts. -/
theorem fitsAt_iff {cut left : List Range}
    (h : s.Inv isSensibleSource e sources carry) (hranges : s.ranges = t :: ranges)
    (hhere : t.start = s.i) (hcuts : Cuts e.value t ranges s.sensitive cut left)
    (htainted : e.ranges[s.nextTaintedIndex]? = some t)
    (hindex : e.sourcesIndexes[s.nextTaintedIndex]? = some index)
    (hsource : sources[index]? = some source) :
    e.FitsAt isSensibleSource sources s.nextTaintedIndex ↔
      (isSensibleSource source.name source.value = false →
        ∀ c ∈ (carry.toList ++ cut).map (contextOf t),
          Fits source.value (slice e.value t.start t.stop)
            (pieceOf (slice e.value t.start t.stop) c)) := by
  obtain ⟨-, hmem, hrest⟩ := cuts_carried h hranges hhere hcuts
  have hpieces := h.standsFor.pieces t (by rw [hranges]; exact mem_cons_self)
    (Fits source.value (slice e.value t.start t.stop)) (fits_nil _ _)
  have hlist : (∀ r ∈ carry.toList ++ s.sensitive,
        Fits source.value (slice e.value t.start t.stop) (piece e.value t r)) ↔
      ∀ c ∈ (carry.toList ++ cut).map (contextOf t),
        Fits source.value (slice e.value t.start t.stop)
          (pieceOf (slice e.value t.start t.stop) c) := by
    rw [forall_mem_map]
    constructor
    · intro hall r hr
      rw [pieceOf_contextOf e.value (hmem r hr).2]
      rcases mem_append.mp hr with hc | hc
      · exact hall r (mem_append_left _ hc)
      · exact hall r (mem_append_right _ (hcuts.mem r hc).1)
    · intro hall r hr
      rcases hrest r hr with hc | hnil | hbehind
      · rw [← pieceOf_contextOf e.value (hmem r hc).2]
        exact hall r hc
      · have hempty : piece e.value t r = [] := by
          rw [piece, slice, drop_eq_nil_iff, length_take]
          omega
        rw [hempty]
        exact fits_nil _ _
      · rw [piece_eq_nil e.value (Or.inr hbehind)]
        exact fits_nil _ _
  rw [← hlist, ← hpieces]
  constructor
  · exact fun hfits hsensible => hfits t index source htainted hindex hsource hsensible
  · intro hall t' index' source' ht' hindex' hsource' hsensible
    rw [htainted] at ht'
    cases ht'
    rw [hindex] at hindex'
    cases hindex'
    rw [hsource] at hsource'
    cases hsource'
    exact hall hsensible

/-- **An iteration at a tainted range.** -/
theorem inv_tainted (hv : e.Valid sources) (h : s.Inv isSensibleSource e sources carry)
    (hranges : s.ranges = t :: ranges) (hhere : t.start = s.i) :
    (Scrub.taintedStep isSensibleSource e t ranges s).Inv isSensibleSource e sources none ∧
      (Scrub.taintedStep isSensibleSource e t ranges s).left e < s.left e := by
  have ht := t.le
  obtain ⟨index, source, htainted, hindex, hsource, hfresh⟩ := h.next_source hv hranges
  have hsortedRanges : Sorted (t :: ranges) := by
    rw [← hranges, h.ranges]
    exact sorted_drop hv.ranges _
  have hahead := (pairwise_cons.mp hsortedRanges).1
  -- The sensitive ranges become contexts of the source.
  have hmarked : Marked sources
      { s with
        valueParts := writeValuePart s.valueParts (slice e.value s.start s.i) s.sourceIndex
        sourceIndex := some index } := h.marked
  obtain ⟨cut, s₁, hs₁, hredacts, hcuts⟩ := redactTainted_spec e.value t hmarked rfl hsource hfresh
    h.sorted (fun r hr => hhere.trans_le (h.pending r hr)) hahead
  obtain ⟨hsortedCut, hmemCut, hrest⟩ := cuts_carried h hranges hhere hcuts
  have hcontexts : s₁.redactedSourcesContext index = (carry.toList ++ cut).map (contextOf t) := by
    rw [hredacts.contexts, if_pos rfl, map_append]
    rw [h.contexts t (by rw [hranges]; rfl) index hindex]
  have hindex₁ : s₁.sourceIndex = some index := hredacts.sourceIndex
  have hi₁ : s₁.i = s.i := hredacts.i
  -- What is hidden in the range.
  have hcovered : ∀ p, t.start + p < t.stop → (covered e.sensitive (t.start + p) = true ↔
      InPieces ((carry.toList ++ cut).map (contextOf t)) p) := by
    intro p hp
    rw [h.standsFor.covered (t.start + p) (by omega), covered_iff, inPieces_contextOf]
    constructor
    · rintro ⟨r, hr, hle, hlt⟩
      rcases hrest r hr with hc | hnil | hbehind
      · exact ⟨r, hc, hle, hlt⟩
      · omega
      · omega
    · rintro ⟨r, hr, hle, hlt⟩
      rcases mem_append.mp hr with hc | hc
      · exact ⟨r, mem_append_left _ hc, hle, hlt⟩
      · exact ⟨r, mem_append_right _ (hcuts.mem r hc).1, hle, hlt⟩
  -- The parts of the range.
  obtain ⟨text, hshown, hwrites⟩ : ∃ text,
      Shown text (visible (e.hidden isSensibleSource sources) e.value t.start t.stop)
        (e.FitsAt isSensibleSource sources s.nextTaintedIndex) ∧
      Writes sources index text s₁ (Scrub.writeTainted isSensibleSource e.value t
        (s₁.redactSensible isSensibleSource)) := by
    have hfits := fitsAt_iff h hranges hhere hcuts htainted hindex hsource
    by_cases hsensible : isSensibleSource source.name source.value = true
    · refine ⟨[], ?_, writeTainted_sensible e.value t hredacts.marked hindex₁ hsource hfresh
        hsensible⟩
      have hnone : visible (e.hidden isSensibleSource sources) e.value t.start t.stop = [] :=
        visible_eq_nil fun p hp hlt _ =>
          (hidden_of_inside hv htainted hindex hsource ⟨hp, hlt⟩).mpr (Or.inr hsensible)
      rw [hnone]
      refine (Shown.of_eq rfl).congr ⟨fun _ => hfits.mpr fun hf => ?_, fun _ => trivial⟩
      rw [hsensible] at hf
      cases hf
    · rw [Bool.not_eq_true] at hsensible
      have hredacted : (carry.toList ++ cut).map (contextOf t) ≠ [] →
          index ∈ s₁.redactedSources := by
        intro hne
        rw [hredacts.redacted]
        cases carry with
        | none => exact Or.inr ⟨rfl, hne⟩
        | some r =>
          obtain ⟨u, hu⟩ := h.carried r rfl
          exact Or.inl (hu.source index hindex)
      have hhidden : ∀ p, t.start + p < t.stop →
          (e.hidden isSensibleSource sources (t.start + p) = true ↔
            InPieces ((carry.toList ++ cut).map (contextOf t)) p) := by
        intro p hp
        rw [hidden_of_inside hv htainted hindex hsource ⟨Nat.le_add_right _ _, hp⟩, hsensible,
          hcovered p hp]
        exact or_iff_left Bool.false_ne_true
      obtain ⟨text, hshown, hwrites⟩ := writeTainted_spec e.value _ hredacts.marked hindex₁ hsource
        hsensible (hhere.trans hi₁.symm) hcontexts hredacted
        (chain_contextOf hsortedCut hmemCut fun _ _ => Nat.zero_le _) hhidden
      exact ⟨text, hshown.congr ⟨fun hall => hfits.mpr fun _ => hall,
        fun hf => hfits.mp hf hsensible⟩, hwrites⟩
  have hstep : Scrub.taintedStep isSensibleSource e t ranges s =
      { Scrub.writeTainted isSensibleSource e.value t (s₁.redactSensible isSensibleSource) with
        start := t.stop
        i := t.stop
        ranges := ranges
        nextTaintedIndex := s.nextTaintedIndex + 1
        sourceIndex := none } := by
    have hto : (Scrub.writeTainted isSensibleSource e.value t
        (s₁.redactSensible isSensibleSource)).i + (t.stop - t.start) = t.stop := by
      rw [hwrites.i]
      omega
    have hnext : (Scrub.writeTainted isSensibleSource e.value t
        (s₁.redactSensible isSensibleSource)).nextTaintedIndex = s.nextTaintedIndex := by
      rw [hwrites.nextTaintedIndex]
      exact hredacts.nextTaintedIndex
    unfold Scrub.taintedStep
    dsimp only at hs₁ ⊢
    rw [hindex, hs₁, hto, hnext]
  have htake : ∀ u ∈ e.ranges.take (s.nextTaintedIndex + 1), u.stop ≤ t.stop := by
    intro u hu
    rw [take_add_one, htainted] at hu
    rcases mem_append.mp hu with hu | hu
    · have hle := h.done u hu
      omega
    · cases mem_singleton.mp hu
      exact Nat.le_refl _
  have hcontexts' : ∀ j, (Scrub.writeTainted isSensibleSource e.value t
      (s₁.redactSensible isSensibleSource)).redactedSourcesContext j = [] := by
    intro j
    rw [hwrites.contexts]
    by_cases hj : j = index
    · rw [if_pos hj]
    · rw [if_neg hj, hredacts.contexts, if_neg hj]
      exact h.others j (Or.inr fun hget => hj (Option.some.inj (hget.symm.trans hindex)))
  rw [hstep]
  constructor
  · refine ⟨Nat.le_refl _, ?_, htake, hahead, ?_, ?_, fun p hp hlt => absurd hlt (Nat.not_lt.mpr hp),
      ?_, fun j => hwrites.marked j, ?_, fun r hr => (by cases hr), fun _ _ j _ => hcontexts' j,
      fun j _ => hcontexts' j⟩
    · rw [← drop_drop, ← h.ranges, hranges]
      rfl
    · rw [hwrites.sensitive]
      exact hcuts.sorted_left
    · rw [hwrites.sensitive]
      exact hcuts.ahead
    · have hfront := h.shown_to (Nat.le_refl _) fun p hp hlt => absurd hlt (Nat.not_lt.mpr hp)
      have hall := hfront.append hshown
      rw [hwrites.clear, hredacts.clear]
      rw [hhere, visible_append (Nat.zero_le _) (by omega)] at hall
      refine hall.congr ?_
      rw [Nat.forall_lt_succ_right]
    · rw [hwrites.sensitive]
      exact standsFor_behind hv h hranges hhere hcuts
  · unfold Scrub.left
    dsimp only
    rw [hwrites.sensitive, hranges, length_cons]
    have hlength := hcuts.length_le
    dsimp only at hlength
    omega

/-! ## The whole evidence -/

/-- What one iteration does. -/
theorem step_cases (isSensibleSource : Str → Str → Bool) (e : Evidence) (s : Scrub) :
    (∃ t ranges, s.ranges = t :: ranges ∧ t.start = s.i ∧
      Scrub.step isSensibleSource e s = Scrub.taintedStep isSensibleSource e t ranges s) ∨
    ((∀ t ∈ s.ranges.head?, t.start ≠ s.i) ∧
      ((∃ next rest, s.sensitive = next :: rest ∧ next.start = s.i ∧
          Scrub.step isSensibleSource e s = Scrub.sensitiveStep e next rest s) ∨
        ((∀ r ∈ s.sensitive.head?, r.start ≠ s.i) ∧
          Scrub.step isSensibleSource e s = { s with i := s.i + 1 }))) := by
  obtain ⟨i, start, k, sourceIndex, ranges, sensitive, parts, srcs, reds, ctxs⟩ := s
  unfold Scrub.step
  have hnone : ∀ t ∈ ([] : List Range).head?, t.start ≠ i := fun t ht => by cases ht
  have hone : ∀ {r : Range} (l : List Range), r.start ≠ i → ∀ t ∈ (r :: l).head?, t.start ≠ i := by
    intro r l hr t ht
    cases ht
    exact hr
  cases ranges with
  | cons t ranges =>
    dsimp only
    by_cases hhere : t.start = i
    · rw [if_pos hhere]
      exact Or.inl ⟨t, ranges, rfl, hhere, rfl⟩
    · rw [if_neg hhere]
      refine Or.inr ⟨hone ranges hhere, ?_⟩
      cases sensitive with
      | nil => exact Or.inr ⟨hnone, rfl⟩
      | cons next rest =>
        dsimp only
        by_cases hnext : next.start = i
        · rw [if_pos hnext]
          exact Or.inl ⟨next, rest, rfl, hnext, rfl⟩
        · rw [if_neg hnext]
          exact Or.inr ⟨hone rest hnext, rfl⟩
  | nil =>
    refine Or.inr ⟨hnone, ?_⟩
    cases sensitive with
    | nil => exact Or.inr ⟨hnone, rfl⟩
    | cons next rest =>
      dsimp only
      by_cases hnext : next.start = i
      · rw [if_pos hnext]
        exact Or.inl ⟨next, rest, rfl, hnext, rfl⟩
      · rw [if_neg hnext]
        exact Or.inr ⟨hone rest hnext, rfl⟩

/-- **One iteration.** -/
theorem inv_step (hv : e.Valid sources)
    (h : s.Inv isSensibleSource e sources carry) (hlt : s.i < e.value.length) :
    ∃ carry', (Scrub.step isSensibleSource e s).Inv isSensibleSource e sources carry' ∧
      (Scrub.step isSensibleSource e s).left e < s.left e := by
  rcases step_cases isSensibleSource e s with ⟨t, ranges, hranges, hhere, hstep⟩ |
    ⟨hhead, ⟨next, rest, hsensitive, hhere, hstep⟩ | ⟨hsensitive, hstep⟩⟩
  · rw [hstep]
    exact ⟨none, inv_tainted hv h hranges hhere⟩
  · rw [hstep]
    exact inv_sensitive hv h hlt hsensitive hhere hhead
  · rw [hstep]
    refine ⟨none, inv_advance hv h hhead hsensitive, ?_⟩
    unfold Scrub.left
    dsimp only
    omega

/-- **The loop ends**, and keeps the invariant. -/
theorem exists_run {fuel : ℕ} (hv : e.Valid sources)
    (h : s.Inv isSensibleSource e sources carry) (hfuel : s.left e < fuel) :
    ∃ carry' s', Scrub.run isSensibleSource e fuel s = some s' ∧
      s'.Inv isSensibleSource e sources carry' ∧ e.value.length ≤ s'.i := by
  induction fuel generalizing carry s with
  | zero => exact absurd hfuel (Nat.not_lt_zero _)
  | succ fuel ih =>
    unfold Scrub.run
    by_cases hlt : s.i < e.value.length
    · obtain ⟨carry', hinv, hless⟩ := inv_step hv h hlt
      rw [if_pos hlt]
      exact ih hinv (by omega)
    · rw [if_neg hlt]
      exact ⟨carry, s, rfl, h, Nat.le_of_not_lt hlt⟩

/-- Behind the end of the text nothing has to fit. -/
theorem Scrub.Inv.fitting_iff (h : s.Inv isSensibleSource e sources carry)
    (hend : e.value.length ≤ s.i) :
    (∀ j, j < s.nextTaintedIndex → e.FitsAt isSensibleSource sources j) ↔
      e.Fitting isSensibleSource sources := by
  refine ⟨fun hall j => ?_, fun hall j _ => hall j⟩
  by_cases hj : j < s.nextTaintedIndex
  · exact hall j hj
  · intro t index source ht _ _ _ r _
    have hin : t ∈ s.ranges := by
      rw [h.ranges]
      refine mem_of_getElem? (i := j - s.nextTaintedIndex) ?_
      rw [List.getElem?_drop, Nat.add_sub_cancel' (Nat.le_of_not_lt hj)]
      exact ht
    have hahead := h.ahead t hin
    have hempty : piece e.value t r = [] := by
      rw [piece, slice, drop_eq_nil_iff, length_take]
      omega
    rw [hempty]
    exact fits_nil _ _

/-- **What the value parts show.**  The loop ends, and the value parts have in clear, in their order,
the characters that are not hidden, each of them once, and no other, exactly when every sensitive
piece of a tainted range fits. -/
theorem redacts_iff (isSensibleSource : Str → Str → Bool) (e : Evidence) (sources : List Source)
    (hv : e.Valid sources) (fuel : ℕ)
    (hfuel : e.value.length + e.ranges.length + e.sensitive.length < fuel) :
    ∃ valueParts, toRedactedJson isSensibleSource e sources fuel = some valueParts ∧
      (clearText valueParts = visible (e.hidden isSensibleSource sources) e.value 0 e.value.length ↔
        e.Fitting isSensibleSource sources) := by
  have hstart : Scrub.Inv isSensibleSource e sources none
      { ranges := e.ranges, sensitive := e.sensitive, sources := sources } := inv_start hv
  have hleft : Scrub.left e { ranges := e.ranges, sensitive := e.sensitive, sources := sources } <
      fuel := by
    unfold Scrub.left
    omega
  obtain ⟨carry, s, hrun, hinv, hend⟩ := exists_run hv hstart hleft
  unfold toRedactedJson
  rw [hrun, Option.map_some]
  refine ⟨_, rfl, ?_⟩
  rw [← hinv.fitting_iff hend]
  by_cases hstart : s.start < e.value.length
  · have hrest : visible (e.hidden isSensibleSource sources) e.value s.start e.value.length =
        e.value.drop s.start := by
      rw [drop_eq_slice]
      exact visible_eq_slice fun p hp hlt _ => hinv.gap p hp (by omega)
    have hall := hinv.shown.append (Shown.of_eq (rfl : e.value.drop s.start = _))
    rw [← hrest, visible_append (Nat.zero_le _) (Nat.le_of_lt hstart), hrest] at hall
    rw [if_pos hstart, clearText_writeValuePart]
    exact (hall.congr (and_iff_left trivial)).eq_iff
  · have hshown := hinv.shown
    rw [visible_of_le _ (Nat.le_of_not_lt hstart) (Nat.le_refl _)] at hshown
    rw [if_neg hstart]
    exact hshown.eq_iff

/-- A tainted range of which one piece is sensitive. -/
def fittingEvidence : Evidence :=
  { value := lit "id=42;"
    ranges := [⟨3, 5, by decide⟩]
    sourcesIndexes := [0]
    sensitive := [⟨4, 6, by decide⟩] }

/-- `redacts_iff` at a concrete evidence, whose piece fits. -/
theorem redacts_fitting :
    ∃ valueParts, toRedactedJson (fun _ _ => false) fittingEvidence [⟨lit "id", lit "42", false, []⟩]
        9 = some valueParts ∧
      (clearText valueParts =
          visible (fittingEvidence.hidden (fun _ _ => false) [⟨lit "id", lit "42", false, []⟩])
            fittingEvidence.value 0 fittingEvidence.value.length ↔
        fittingEvidence.Fitting (fun _ _ => false) [⟨lit "id", lit "42", false, []⟩]) := by
  refine redacts_iff _ _ _ ⟨?_, ?_, rfl, ?_⟩ 9 (by decide)
  · exact pairwise_singleton _ _
  · exact pairwise_singleton _ _
  · intro index hindex
    rw [mem_singleton.mp hindex]
    exact ⟨_, rfl, rfl⟩

/-- A tainted range that its source does not have as it is, while the source has the sensitive piece
further behind. -/
def leakingEvidence : Evidence :=
  { value := lit "a secret"
    ranges := [⟨0, 8, by decide⟩]
    sourcesIndexes := [0]
    sensitive := [⟨2, 8, by decide⟩] }

/-- The pattern of the piece is cut off, and the last two characters of the piece are in clear. -/
theorem redacts_leak : leakingEvidence.Valid [⟨lit "body", lit "xxx secret", false, []⟩] ∧
      ∃ valueParts, toRedactedJson (fun _ _ => false) leakingEvidence
          [⟨lit "body", lit "xxx secret", false, []⟩] 11 = some valueParts ∧
        clearText valueParts = lit "a et" ∧
        visible (leakingEvidence.hidden (fun _ _ => false)
            [⟨lit "body", lit "xxx secret", false, []⟩])
          leakingEvidence.value 0 leakingEvidence.value.length = lit "a " := by
  refine ⟨⟨?_, ?_, rfl, ?_⟩, _, rfl, ?_, ?_⟩
  · exact pairwise_singleton _ _
  · exact pairwise_singleton _ _
  · intro index hindex
    rw [mem_singleton.mp hindex]
    exact ⟨_, rfl, rfl⟩
  · decide
  · decide

end DdTrace.Appsec
