import DdTrace.Appsec.SensitiveHandler

/-!
# The parts of a redacted range

A tainted range is written piece by piece: what stands in front of a sensitive piece in clear, then a
pattern for the piece.  The code goes on behind the piece by the length of the *pattern*.  The
pattern is cut out of a placeholder at the position where the source has the piece; when the source
does not have the whole range, the placeholder is only as long as the range, and the cut can run over
its end.  Then the pattern is shorter than the piece, and the rest of the piece is written in clear.

* `redactPiece_spec`: one piece.
* `length_patternOf`: the pattern is as long as the piece exactly when the piece fits (`Fits`).
* `shown_redactedPart`: **the parts show what is visible of the range exactly when all of its pieces
  fit, and more of it otherwise**.
-/

namespace DdTrace.Appsec

open Library List

/-! ## Text in clear -/

@[simp] theorem clearText_nil : clearText [] = [] := rfl

theorem clearText_append (ps qs : List ValuePart) :
    clearText (ps ++ qs) = clearText ps ++ clearText qs := by
  rw [clearText, clearText, clearText, map_append, flatten_append]

theorem clearText_concat (ps : List ValuePart) (p : ValuePart) :
    clearText (ps ++ [p]) = clearText ps ++ p.clear := by
  rw [clearText_append]
  exact congrArg _ (append_nil _)

theorem clearText_writeValuePart (ps : List ValuePart) (value : Str) (source : Option ℕ) :
    clearText (writeValuePart ps value source) = clearText ps ++ value := by
  unfold writeValuePart
  by_cases h : 0 < value.length
  · rw [if_pos h, clearText_concat]
    rfl
  · rw [if_neg h, length_eq_zero_iff.mp (Nat.eq_zero_of_not_pos h), append_nil]

/-! ## The pattern of a piece -/

/-- The pattern of a piece is not cut off: the source has the whole range, or it does not have the
piece, or it has it early enough. -/
def Fits (value partValue piece : Str) : Prop :=
  (indexOf partValue value).isSome = true ∨
    ∀ index, indexOf piece value = some index → index + piece.length ≤ partValue.length

theorem fits_nil (value partValue : Str) : Fits value partValue [] := by
  refine Or.inr fun index h => ?_
  rw [indexOf_nil] at h
  cases h
  exact Nat.zero_le _

/-- The source was redacted. -/
def Source.Redacted (source : Source) : Prop := source.pattern.length = source.value.length

theorem redacted_redact (source : Source) : source.redact.Redacted := by
  unfold Source.Redacted Source.redact padEnd
  rw [length_map, length_range]

variable {source : Source} {partValue : Str} {c : RedactionContext}

/-- The piece of a range that a context stands for. -/
def pieceOf (partValue : Str) (c : RedactionContext) : Str :=
  slice partValue c.start.toNat c.stop.toNat

/-- **The pattern is never longer than the piece**, and as long exactly when the piece fits. -/
theorem length_patternOf (hsource : source.Redacted) (hc : c.start ≤ c.stop) :
    (patternOf source partValue (pieceOf partValue c) c).length ≤ (pieceOf partValue c).length ∧
      ((patternOf source partValue (pieceOf partValue c) c).length = (pieceOf partValue c).length ↔
        Fits source.value partValue (pieceOf partValue c)) := by
  have hwithin : pieceOf partValue c <:+: partValue := slice_isInfix _ _ _
  unfold patternOf
  cases hindex : indexOf (pieceOf partValue c) source.value with
  | none =>
    -- The source does not have the range either.
    have hpart : (indexOf partValue source.value).isSome = false := by
      rw [← Bool.not_eq_true, isSome_indexOf_iff]
      intro hin
      have hsome := isSome_indexOf_iff.mpr (hwithin.trans hin)
      rw [hindex] at hsome
      cases hsome
    have hfits : Fits source.value partValue (pieceOf partValue c) :=
      Or.inr fun index h => by rw [hindex] at h; cases h
    have hlength : (substring (placeholder source partValue) c.start c.stop).length =
        (pieceOf partValue c).length := by
      unfold placeholder pieceOf
      rw [if_neg (by rw [hpart]; exact Bool.false_ne_true), substring_eq_slice _ hc, length_slice,
        length_slice, length_replicate]
    exact ⟨Nat.le_of_eq hlength, fun _ => hfits, fun _ => hlength⟩
  | some index =>
    dsimp only
    have hle := indexOf_eq_some hindex
    rw [substring_eq_slice _ (by omega), length_slice]
    unfold placeholder
    by_cases hpart : (indexOf partValue source.value).isSome = true
    · rw [if_pos hpart, show source.pattern.length = _ from hsource]
      exact ⟨by omega, fun _ => Or.inl hpart, fun _ => by omega⟩
    · rw [if_neg hpart, length_replicate]
      refine ⟨by omega, fun h => Or.inr fun j hj => ?_, fun h => ?_⟩
      · rw [hindex] at hj
        cases hj
        by_cases hnil : (pieceOf partValue c).length = 0
        · have hzero := length_eq_zero_iff.mp hnil
          rw [hzero, indexOf_nil] at hindex
          cases hindex
          omega
        · omega
      · rcases h with h | h
        · exact absurd h hpart
        · have hfit := h index hindex
          omega

/-! ## The loop over the pieces -/

/-- How much of a range is done behind a piece. -/
def doneBehind (source : Source) (partValue : Str) (c : RedactionContext) : ℕ :=
  c.start.toNat + (patternOf source partValue (pieceOf partValue c) c).length

variable {offset : ℕ} {cs : List RedactionContext}

/-- **One piece**: what stands in front of it is written in clear. -/
theorem redactPiece_spec (source : Source) (partValue : Str) (sourceIndex : ℕ)
    (parts : List ValuePart) (hc : c.start < c.stop) (hoffset : offset ≤ c.start.toNat) :
    ∃ parts', redactPiece source sourceIndex partValue ⟨parts, partValue.drop offset, offset⟩ c =
        ⟨parts', partValue.drop (doneBehind source partValue c), doneBehind source partValue c⟩ ∧
      clearText parts' = clearText parts ++ slice partValue offset c.start.toNat := by
  unfold redactPiece
  by_cases hstart : c.start > 0
  · have hnat : (c.start - offset).toNat = c.start.toNat - offset := by omega
    have hdrop : (partValue.drop offset).drop (c.start - offset).toNat =
        partValue.drop c.start.toNat := by
      rw [drop_drop]
      congr 1
      omega
    have hpiece : substring (partValue.drop c.start.toNat) (c.start - c.start)
        (c.stop - c.start) = pieceOf partValue c := by
      rw [substring_eq_slice _ (by omega), drop_eq_slice, slice_slice, Int.sub_self, Int.toNat_zero,
        Nat.add_zero, pieceOf]
      have hstop : c.start.toNat + (c.stop - c.start).toNat = c.stop.toNat := by omega
      rw [hstop]
      by_cases hlen : c.stop.toNat ≤ partValue.length
      · rw [Nat.min_eq_left hlen]
      · rw [Nat.min_eq_right (by omega), slice_of_length_le partValue (b := c.stop.toNat) (by omega)]
    rw [if_pos hstart]
    dsimp only
    rw [hdrop, hpiece]
    refine ⟨parts ++ [.value (substring (partValue.drop offset) 0 (c.start - offset))
      (some sourceIndex)] ++ [.redacted (some sourceIndex)
        (some (patternOf source partValue (pieceOf partValue c) c))], ?_, ?_⟩
    · rw [drop_drop]
      congr 1
      unfold doneBehind
      omega
    · rw [clearText_concat, clearText_concat]
      show clearText parts ++ substring (partValue.drop offset) 0 (c.start - offset) ++ [] = _
      rw [append_nil, substring_eq_slice _ (by omega), drop_eq_slice, slice_slice, hnat]
      rw [Int.toNat_zero, Nat.add_zero]
      have hstop : offset + (c.start.toNat - offset) = c.start.toNat := by omega
      rw [hstop]
      by_cases hlen : c.start.toNat ≤ partValue.length
      · rw [Nat.min_eq_left hlen]
      · rw [Nat.min_eq_right (by omega), slice_of_length_le partValue (b := c.start.toNat) (by omega)]
  · have hzero : offset = 0 := by omega
    have hstart' : c.start.toNat = 0 := by omega
    subst hzero
    have hpiece : substring (partValue.drop 0) (c.start - (0 : ℕ)) (c.stop - (0 : ℕ)) =
        pieceOf partValue c := by
      rw [substring_eq_slice _ (by omega), pieceOf]
      congr 1
      · omega
      · omega
    rw [if_neg hstart]
    dsimp only
    rw [hpiece]
    refine ⟨parts ++ [.redacted (some sourceIndex)
      (some (patternOf source partValue (pieceOf partValue c) c))], ?_, ?_⟩
    · rw [drop_zero]
      congr 1
      · unfold doneBehind
        rw [hstart', Nat.zero_add]
      · unfold doneBehind
        omega
    · rw [clearText_concat, hstart']
      rfl

/-- What is written in clear from an offset on. -/
def shownFrom (source : Source) (partValue : Str) : ℕ → List RedactionContext → Str
  | offset, [] => partValue.drop offset
  | offset, c :: cs =>
    slice partValue offset c.start.toNat ++
      shownFrom source partValue (doneBehind source partValue c) cs

/-- What should be. -/
def keptFrom (partValue : Str) : ℕ → List RedactionContext → Str
  | offset, [] => partValue.drop offset
  | offset, c :: cs => slice partValue offset c.start.toNat ++ keptFrom partValue c.stop.toNat cs

/-- The contexts of a range: in their order, none of them empty, from an offset on. -/
def Chain : ℕ → List RedactionContext → Prop
  | _, [] => True
  | offset, c :: cs => offset ≤ c.start.toNat ∧ c.start < c.stop ∧ 0 < c.stop ∧
      Chain c.stop.toNat cs

theorem Chain.mono {offset' : ℕ} (h : Chain offset' cs)
    (hle : offset ≤ offset') : Chain offset cs := by
  cases cs with
  | nil => trivial
  | cons c cs => exact ⟨hle.trans h.1, h.2⟩

theorem doneBehind_le (hsource : source.Redacted) (hc : c.start < c.stop) :
    doneBehind source partValue c ≤ c.stop.toNat := by
  obtain ⟨hle, -⟩ : (patternOf source partValue (pieceOf partValue c) c).length ≤ _ ∧ _ :=
    length_patternOf hsource (le_of_lt hc)
  have hlength : (pieceOf partValue c).length = min c.stop.toNat partValue.length - c.start.toNat :=
    length_slice _ _ _
  unfold doneBehind
  omega

theorem clearText_foldl_redactPiece (hsource : source.Redacted) (sourceIndex : ℕ)
    (cs : List RedactionContext) (parts : List ValuePart) (hcs : Chain offset cs) :
    ∃ s : PartState, cs.foldl (redactPiece source sourceIndex partValue)
        ⟨parts, partValue.drop offset, offset⟩ = s ∧
      clearText s.valueParts ++ s.value = clearText parts ++ shownFrom source partValue offset cs := by
  induction cs generalizing parts offset with
  | nil => exact ⟨_, rfl, rfl⟩
  | cons c cs ih =>
    obtain ⟨hoffset, hc, -, hcs⟩ := hcs
    obtain ⟨parts', hstep, hparts'⟩ := redactPiece_spec source partValue sourceIndex parts hc hoffset
    obtain ⟨s, hs, htext⟩ := ih parts' (hcs.mono (doneBehind_le hsource hc))
    refine ⟨s, ?_, ?_⟩
    · rw [foldl_cons, hstep]
      exact hs
    · rw [htext, hparts', append_assoc]
      rfl

/-- From an earlier offset, more is written. -/
theorem shownFrom_eq {offset' : ℕ} (hle : offset ≤ offset') (hcs : Chain offset' cs) :
    shownFrom source partValue offset cs =
      slice partValue offset offset' ++ shownFrom source partValue offset' cs := by
  cases cs with
  | nil =>
    show partValue.drop offset = slice partValue offset offset' ++ partValue.drop offset'
    by_cases hlen : offset' ≤ partValue.length
    · rw [drop_eq_slice, drop_eq_slice, slice_append_slice _ hle hlen]
    · rw [drop_eq_nil_of_le (by omega : partValue.length ≤ offset'), append_nil,
        slice_of_length_le _ (by omega), drop_eq_slice]
  | cons c cs =>
    show slice partValue offset c.start.toNat ++ _ =
      slice partValue offset offset' ++ (slice partValue offset' c.start.toNat ++ _)
    rw [← append_assoc, slice_append_slice _ hle hcs.1]

/-- **The loop shows what should be kept exactly when every piece fits.** -/
theorem shown_shownFrom (hsource : source.Redacted) (hcs : Chain offset cs) :
    Shown (shownFrom source partValue offset cs) (keptFrom partValue offset cs)
      (∀ c ∈ cs, Fits source.value partValue (pieceOf partValue c)) := by
  induction cs generalizing offset with
  | nil => exact (Shown.of_eq rfl).congr ⟨fun _ c hc => absurd hc not_mem_nil, fun _ => trivial⟩
  | cons c cs ih =>
    obtain ⟨hoffset, hc, hstop, hcs⟩ := hcs
    obtain ⟨hle, hfits⟩ :
        (patternOf source partValue (pieceOf partValue c) c).length ≤ _ ∧ (_ ↔ _) :=
      length_patternOf hsource (le_of_lt hc)
    have hdone : doneBehind source partValue c ≤ _ := doneBehind_le hsource hc
    have hrest : Shown (slice partValue (doneBehind source partValue c) c.stop.toNat) []
        (Fits source.value partValue (pieceOf partValue c)) := by
      have hlength : (slice partValue (doneBehind source partValue c) c.stop.toNat).length =
          (pieceOf partValue c).length -
            (patternOf source partValue (pieceOf partValue c) c).length := by
        rw [length_slice]
        unfold doneBehind
        rw [pieceOf, length_slice]
        omega
      refine ⟨fun h => ?_, Nat.zero_le _, fun h => ?_⟩
      · rw [← length_eq_zero_iff, hlength, hfits.mpr h, Nat.sub_self]
      · have hne : (patternOf source partValue (pieceOf partValue c) c).length ≠
            (pieceOf partValue c).length := fun he => h (hfits.mp he)
        show 0 < _
        omega
    have hall := (Shown.of_eq (rfl : slice partValue offset c.start.toNat = _)).append
      (hrest.append (ih hcs))
    rw [← shownFrom_eq hdone hcs] at hall
    refine hall.congr ⟨fun h => ?_, fun h => ⟨trivial, h c mem_cons_self, fun d hd =>
      h d (mem_cons_of_mem _ hd)⟩⟩
    intro d hd
    rcases mem_cons.mp hd with rfl | hd
    · exact h.2.1
    · exact h.2.2 d hd

/-! ## What is visible of the range -/

/-- A position of the range is in one of the pieces. -/
def InPieces (cs : List RedactionContext) (p : ℕ) : Prop := ∃ c ∈ cs, c.start ≤ p ∧ (p : ℤ) < c.stop

theorem Chain.le (h : Chain offset cs) :
    ∀ c ∈ cs, offset ≤ c.start.toNat := by
  induction cs generalizing offset with
  | nil => exact fun c hc => absurd hc not_mem_nil
  | cons c cs ih =>
    obtain ⟨hfirst, hc, -, hrest⟩ := h
    intro d hd
    rcases mem_cons.mp hd with rfl | hd
    · exact hfirst
    · have hlater := ih hrest d hd
      omega

/-- What should be kept is what is visible when the pieces are hidden. -/
theorem keptFrom_eq_visible {hidden : ℕ → Bool} {stop : ℕ}
    (hstop : partValue.length ≤ stop) (hstops : ∀ c ∈ cs, c.stop.toNat ≤ stop)
    (hcs : Chain offset cs)
    (hhidden : ∀ p, offset ≤ p → p < partValue.length → (hidden p = true ↔ InPieces cs p)) :
    keptFrom partValue offset cs = visible hidden partValue offset stop := by
  induction cs generalizing offset with
  | nil =>
    show partValue.drop offset = _
    have hnone : ∀ p, offset ≤ p → p < stop → p < partValue.length → hidden p = false := by
      intro p hp _ hlen
      rw [← Bool.not_eq_true, hhidden p hp hlen]
      rintro ⟨c, hc, -⟩
      exact absurd hc not_mem_nil
    rw [visible_eq_slice hnone, drop_eq_slice, slice_of_length_le _ hstop]
  | cons c cs ih =>
    obtain ⟨hfirst, hc, hpos, hrest⟩ := hcs
    have hlater := hrest.le
    have hcstop := hstops c mem_cons_self
    have hbefore : visible hidden partValue offset c.start.toNat =
        slice partValue offset c.start.toNat := by
      refine visible_eq_slice fun p hp hpc hlen => ?_
      rw [← Bool.not_eq_true, hhidden p hp hlen]
      rintro ⟨d, hd, hdp, -⟩
      rcases mem_cons.mp hd with rfl | hd
      · omega
      · have hle := hlater d hd
        omega
    have hpiece : visible hidden partValue c.start.toNat c.stop.toNat = [] := by
      refine visible_eq_nil fun p hp hpc hlen => ?_
      rw [hhidden p (hfirst.trans hp) hlen]
      exact ⟨c, mem_cons_self, by omega, by omega⟩
    have hbehind := ih (forall_mem_cons.mp hstops).2 hrest fun p hp hlen => by
      rw [hhidden p (by omega) hlen]
      constructor
      · rintro ⟨d, hd, hdp, hpd⟩
        rcases mem_cons.mp hd with rfl | hd
        · omega
        · exact ⟨d, hd, hdp, hpd⟩
      · rintro ⟨d, hd, hdp, hpd⟩
        exact ⟨d, mem_cons_of_mem _ hd, hdp, hpd⟩
    show slice partValue offset c.start.toNat ++ keptFrom partValue c.stop.toNat cs = _
    have hfront : visible hidden partValue offset c.start.toNat ++
        visible hidden partValue c.start.toNat stop = visible hidden partValue offset stop :=
      visible_append hfirst (by omega)
    have hback : visible hidden partValue c.start.toNat c.stop.toNat ++
        visible hidden partValue c.stop.toNat stop = visible hidden partValue c.start.toNat stop :=
      visible_append (by omega) hcstop
    rw [hbehind, ← hbefore, ← hfront, ← hback, hpiece, List.nil_append]

/-- The contexts are all different, so none of them is left out. -/
theorem foldl_addContext (hcs : Chain offset cs) :
    cs.foldl addContext [] = cs := by
  have hfold : ∀ (cs : List RedactionContext) (done : List RedactionContext) (offset : ℕ),
      Chain offset cs → (∀ d ∈ done, d.start < d.stop ∧ d.stop.toNat ≤ offset) →
      cs.foldl addContext done = done ++ cs := by
    intro cs
    induction cs with
    | nil => exact fun done _ _ _ => (append_nil done).symm
    | cons c cs ih =>
      intro done offset hcs hdone
      obtain ⟨hfirst, hc, hpos, hrest⟩ := hcs
      have hnew : done.any (fun d => decide (d.start = c.start) && decide (d.stop = c.stop)) =
          false := by
        rw [any_eq_false]
        intro d hd
        obtain ⟨hd1, hd2⟩ := hdone d hd
        rw [Bool.and_eq_true, decide_eq_true_iff, decide_eq_true_iff]
        omega
      rw [foldl_cons, addContext, hnew, if_neg Bool.false_ne_true,
        ih (done ++ [c]) c.stop.toNat hrest fun d hd => ?_, append_assoc]
      · rfl
      · rcases mem_append.mp hd with hd | hd
        · have hold := hdone d hd
          exact ⟨hold.1, by omega⟩
        · rw [mem_singleton] at hd
          rw [hd]
          exact ⟨hc, Nat.le_refl _⟩
  exact hfold cs [] offset hcs fun d hd => absurd hd not_mem_nil

/-- **The parts of a range.**  They show what is visible of it exactly when all of its pieces fit. -/
theorem shown_redactedPart (hsource : source.Redacted) (sourceIndex : ℕ)
    (hcs : Chain 0 cs) {hidden : ℕ → Bool} {stop : ℕ}
    (hstop : partValue.length ≤ stop)
    (hhidden : ∀ p, p < partValue.length → (hidden p = true ↔ InPieces cs p)) :
    Shown (clearText (redactedPart source sourceIndex partValue cs false))
      (visible hidden partValue 0 stop)
      (∀ c ∈ cs, Fits source.value partValue (pieceOf partValue c)) := by
  have htext : clearText (redactedPart source sourceIndex partValue cs false) =
      shownFrom source partValue 0 cs := by
    unfold redactedPart
    rw [if_neg Bool.false_ne_true, foldl_addContext hcs]
    obtain ⟨s, hs, hclear⟩ := clearText_foldl_redactPiece hsource sourceIndex cs [] hcs
    rw [drop_zero] at hs
    rw [show ((0 : ℕ) : ℤ) = 0 from rfl] at hs
    rw [hs]
    by_cases hlen : s.value.length ≠ 0
    · rw [if_pos hlen, clearText_concat]
      exact hclear
    · rw [if_neg hlen]
      rw [length_eq_zero_iff.mp (not_not.mp hlen), append_nil] at hclear
      exact hclear
  obtain ⟨m, hm, hms⟩ : ∃ m, partValue.length ≤ m ∧ ∀ c ∈ cs, c.stop.toNat ≤ m := by
    clear htext hhidden hcs
    induction cs with
    | nil => exact ⟨_, Nat.le_refl _, fun c hc => absurd hc not_mem_nil⟩
    | cons c cs ih =>
      obtain ⟨m, hm, hms⟩ := ih
      refine ⟨max m c.stop.toNat, by omega, fun d hd => ?_⟩
      rcases mem_cons.mp hd with rfl | hd
      · exact Nat.le_max_right _ _
      · exact (hms d hd).trans (Nat.le_max_left _ _)
  rw [htext, visible_of_le hidden hstop hm,
    ← keptFrom_eq_visible hm hms hcs fun p _ hp => hhidden p hp]
  exact shown_shownFrom hsource hcs

end DdTrace.Appsec
