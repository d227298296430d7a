import DdTrace.Library.Forall2
import DdTrace.Library.Number

/-!
# Ranges of status codes

`setGRPCRange` of the configuration reads a list of status codes.  A part without a dash is
converted to a number; of a part with one, both sides are, and the numbers from the first to the
second are counted.  Nothing that the conversion yields is looked at.

A range whose upper end is `2 ^ 53` or more is counted without an end, as is one up to `Infinity`.
A part that is no number is kept as what is none, a blank one as zero.

* `mem_pushRange`: from a natural, and to an end below `2 ^ 53`, a range is counted to its end.
* `pushRange_diverges`: any other from a natural is not.
* `run_iff`: the list of a text is made of the lists of its parts.
* `correct_iff`: **the codes that a text denotes are returned exactly when every part that is not
  valid adds no other code**.
-/

open Library

namespace DdTrace.Config

open Number List Option

/-! ## The source -/

/-- The loop over a range, in at most as many turns as there is fuel. -/
def pushRange : ℕ → Number → Number → List Number → Option (List Number)
  | 0, _, _, _ => none
  | fuel + 1, i, stop, result =>
    if le i stop then pushRange fuel (succ i) stop (result ++ [i]) else some result

/-- The body of the loop of `setGRPCRange`. -/
def pushPart (fuel : ℕ) (result : List Number) (val : Str) : Option (List Number) :=
  match Str.cut (unit '-') val with
  | none => some (result ++ [ofStr val])
  | some (start, stop) => pushRange fuel (ofStr start) (ofStr stop) result

/-- `setGRPCRange` of a text. -/
def setGRPCRange (fuel : ℕ) (value : Str) : Option (List Number) :=
  (Str.split (unit ',') value).foldlM (pushPart fuel) []

/-! ## The codes of a text -/

/-- The code that a text is: not blank, and a natural that is held exactly. -/
def code? (text : Str) : Option ℕ :=
  if Str.trim text = [] then none
  else (ofStr text).toNat?.filter fun n => n ≤ Binary64.MAX_SAFE_INTEGER

/-- The codes of a part that is valid, from one to another. -/
def interval? (val : Str) : Option (ℕ × ℕ) :=
  match Str.cut (unit '-') val with
  | none => (code? val).map fun n => (n, n)
  | some (start, stop) => (code? start).bind fun a => (code? stop).map fun b => (a, b)

/-- The codes that a text denotes. -/
def Denotes (value : Str) (n : ℕ) : Prop :=
  ∃ val ∈ Str.split (unit ',') value, ∃ a b, interval? val = some (a, b) ∧ a ≤ n ∧ n ≤ b

/-- The loop comes to its end, with the codes that the text denotes. -/
def Correct (value : Str) : Prop :=
  ∃ fuel result, setGRPCRange fuel value = some result ∧
    ∀ x, x ∈ result ↔ ∃ n, Denotes value n ∧ x = ofNat n

/-- A part that adds no code to those of the text. -/
def Harmless (value val : Str) : Prop :=
  match Str.cut (unit '-') val with
  | none => ∃ n, Denotes value n ∧ ofStr val = ofNat n
  | some (start, stop) => le (ofStr start) (ofStr stop) = true →
      (∃ a, ofStr start = ofNat a) ∧ le (ofNat (2 ^ 53)) (ofStr stop) = false ∧
        ∀ n, le (ofStr start) (ofNat n) = true → le (ofNat n) (ofStr stop) = true → Denotes value n

/-! ## The loop -/

theorem pushRange_append (fuel : ℕ) (i stop : Number) (result : List Number) :
    pushRange fuel i stop result = (pushRange fuel i stop []).map (result ++ ·) := by
  induction fuel generalizing i result with
  | zero => rfl
  | succ fuel ih =>
    rw [pushRange, pushRange]
    by_cases hle : le i stop = true
    · rw [if_pos hle, if_pos hle, ih, ih _ ([] ++ [i]), Option.map_map]
      congr 1
      funext xs
      simp
    · rw [if_neg hle, if_neg hle, map_some, append_nil]

variable {xs : List Number} {val : Str} {n : ℕ} {value : Str} {fuel : ℕ} {stop : Number}
  {result : List Number}

theorem pushRange_mono {fuel' : ℕ} (hle : fuel ≤ fuel') {i : Number}
    (h : pushRange fuel i stop result = some xs) :
    pushRange fuel' i stop result = some xs := by
  induction fuel generalizing fuel' i result with
  | zero => cases h
  | succ fuel ih =>
    obtain ⟨fuel', rfl⟩ : ∃ k, fuel' = k + 1 := ⟨fuel' - 1, by omega⟩
    rw [pushRange] at h ⊢
    by_cases hi : le i stop = true
    · rw [if_pos hi] at h ⊢
      exact ih (by omega) h
    · rw [if_neg hi] at h ⊢
      exact h

/-- **A range is counted to its end** from a natural, when the end is below `2 ^ 53`. -/
theorem mem_pushRange (hstop : le (ofNat (2 ^ 53)) stop = false) (hn : n ≤ 2 ^ 53) :
    ∃ fuel xs, pushRange fuel (ofNat n) stop [] = some xs ∧
      ∀ x, x ∈ xs ↔ ∃ k, n ≤ k ∧ le (ofNat k) stop = true ∧ x = ofNat k := by
  have hend : ∀ n, le (ofNat n) stop = false →
      ∃ fuel xs, pushRange fuel (ofNat n) stop [] = some xs ∧
        ∀ x, x ∈ xs ↔ ∃ k, n ≤ k ∧ le (ofNat k) stop = true ∧ x = ofNat k := by
    intro n hle
    have hlt : ¬le (ofNat n) stop = true := by
      rw [hle]
      exact Bool.false_ne_true
    refine ⟨1, [], by rw [pushRange, if_neg hlt], fun x => ?_⟩
    simp only [not_mem_nil, false_iff, not_exists, not_and]
    intro k hk hkstop
    exact absurd (le_trans ((le_ofNat n k).mpr hk) hkstop) hlt
  induction hd : 2 ^ 53 - n generalizing n with
  | zero =>
    obtain rfl : n = 2 ^ 53 := by omega
    exact hend _ hstop
  | succ d ih =>
    cases hle : le (ofNat n) stop with
    | false => exact hend n hle
    | true =>
      obtain ⟨fuel, xs, hxs, hmem⟩ := ih (n := n + 1) (by omega) (by omega)
      refine ⟨fuel + 1, ofNat n :: xs, ?_, fun x => ?_⟩
      · rw [pushRange, if_pos hle, succ_ofNat (by omega), pushRange_append, hxs]
        rfl
      · rw [mem_cons, hmem]
        constructor
        · rintro (rfl | ⟨k, hk, hkstop, rfl⟩)
          · exact ⟨n, le_rfl, hle, rfl⟩
          · exact ⟨k, by omega, hkstop, rfl⟩
        · rintro ⟨k, hk, hkstop, rfl⟩
          rcases hk.eq_or_lt with rfl | hlt
          · exact .inl rfl
          · exact .inr ⟨k, hlt, hkstop, rfl⟩

/-- **Any other range** from a natural is not. -/
theorem pushRange_diverges (hstop : le (ofNat (2 ^ 53)) stop = true) (hn : n ≤ 2 ^ 53) (fuel : ℕ)
    (result : List Number) :
    pushRange fuel (ofNat n) stop result = none := by
  induction fuel generalizing n result with
  | zero => rfl
  | succ fuel ih =>
    have hle : le (ofNat n) stop = true := le_trans ((le_ofNat n (2 ^ 53)).mpr hn) hstop
    rw [pushRange, if_pos hle]
    rcases hn.lt_or_eq with hlt | rfl
    · rw [succ_ofNat hlt]
      exact ih hlt _
    · rw [succ_ofNat_top]
      exact ih le_rfl _

/-! ## The parts -/

/-- What a part adds to the list. -/
def Pushes (val : Str) (xs : List Number) : Prop := ∃ fuel, pushPart fuel [] val = some xs

theorem pushPart_append (fuel : ℕ) (result : List Number) (val : Str) :
    pushPart fuel result val = (pushPart fuel [] val).map (result ++ ·) := by
  unfold pushPart
  cases Str.cut (unit '-') val with
  | none => rfl
  | some p => exact pushRange_append fuel _ _ result

theorem pushPart_mono {fuel' : ℕ} (hle : fuel ≤ fuel') (h : pushPart fuel [] val = some xs) :
    pushPart fuel' [] val = some xs := by
  unfold pushPart at h ⊢
  cases hcut : Str.cut (unit '-') val with
  | none =>
    rw [hcut] at h
    exact h
  | some p =>
    rw [hcut] at h
    exact pushRange_mono hle h

theorem Pushes.unique {ys : List Number} (hx : Pushes val xs) (hy : Pushes val ys) :
    xs = ys := by
  obtain ⟨fuel, hx⟩ := hx
  obtain ⟨fuel', hy⟩ := hy
  have hxs := pushPart_mono (Nat.le_max_left fuel fuel') hx
  rw [pushPart_mono (Nat.le_max_right fuel fuel') hy] at hxs
  exact (some.inj hxs).symm

/-- The list of a loop is made of the lists of its parts. -/
theorem foldlM_eq_some {vals : List Str} : vals.foldlM (pushPart fuel) result = some xs ↔
      ∃ xss, List.Forall₂ (fun val ys => pushPart fuel [] val = some ys) vals xss ∧
        xs = result ++ xss.flatten := by
  induction vals generalizing result with
  | nil => simp [eq_comm]
  | cons val vals ih =>
    rw [foldlM_cons, pushPart_append]
    cases hval : pushPart fuel [] val with
    | none =>
      constructor
      · intro h
        cases h
      · rintro ⟨xss, hxss, -⟩
        cases hxss with
        | cons hys _ =>
          rw [hval] at hys
          cases hys
    | some ys =>
      show vals.foldlM (pushPart fuel) (result ++ ys) = some xs ↔ _
      rw [ih]
      constructor
      · rintro ⟨xss, hxss, rfl⟩
        exact ⟨ys :: xss, .cons hval hxss, by rw [flatten_cons, append_assoc]⟩
      · rintro ⟨xss, hxss, rfl⟩
        cases hxss with
        | cons hys hxss =>
          rw [hval] at hys
          cases hys
          exact ⟨_, hxss, by rw [flatten_cons, append_assoc]⟩

theorem exists_fuel {vals : List Str} {xss : List (List Number)}
    (h : List.Forall₂ Pushes vals xss) :
    ∃ fuel, List.Forall₂ (fun val ys => pushPart fuel [] val = some ys) vals xss := by
  induction h with
  | nil => exact ⟨0, .nil⟩
  | cons hval _ ih =>
    obtain ⟨fuel, hval⟩ := hval
    obtain ⟨fuel', hrest⟩ := ih
    exact ⟨max fuel fuel', .cons (pushPart_mono (Nat.le_max_left _ _) hval)
      (hrest.imp fun _ _ h => pushPart_mono (Nat.le_max_right _ _) h)⟩

/-- **The list of a text** is made of the lists of its parts. -/
theorem run_iff : (∃ fuel, setGRPCRange fuel value = some result) ↔
      ∃ xss, List.Forall₂ Pushes (Str.split (unit ',') value) xss ∧ result = xss.flatten := by
  constructor
  · rintro ⟨fuel, h⟩
    obtain ⟨xss, hxss, rfl⟩ := foldlM_eq_some.mp h
    exact ⟨xss, hxss.imp fun _ _ h => ⟨fuel, h⟩, rfl⟩
  · rintro ⟨xss, hxss, rfl⟩
    obtain ⟨fuel, hfuel⟩ := exists_fuel hxss
    exact ⟨fuel, foldlM_eq_some.mpr ⟨xss, hfuel, rfl⟩⟩

/-! ## Codes -/

theorem ofStr_of_code? {text : Str} (h : code? text = some n) :
    ofStr text = ofNat n ∧ n < 2 ^ 53 := by
  unfold code? at h
  split at h
  · cases h
  · rw [filter_eq_some_iff, toNat?_eq_some, decide_eq_true_eq] at h
    exact ⟨h.1, Nat.lt_of_le_pred (by decide) h.2⟩

theorem le_top_ofNat {b : ℕ} (h : b < 2 ^ 53) : le (ofNat (2 ^ 53)) (ofNat b) = false := by
  rw [Bool.eq_false_iff, Ne, le_ofNat]
  exact Nat.not_le.mpr h

/-- **A part that is valid** adds its codes. -/
theorem pushes_of_interval? {a b : ℕ} (h : interval? val = some (a, b)) : b < 2 ^ 53 ∧
      ∃ xs, Pushes val xs ∧ ∀ x, x ∈ xs ↔ ∃ n, (a ≤ n ∧ n ≤ b) ∧ x = ofNat n := by
  unfold interval? at h
  unfold Pushes pushPart
  cases hcut : Str.cut (unit '-') val with
  | none =>
    rw [hcut] at h
    obtain ⟨n, hn, heq⟩ := map_eq_some_iff.mp h
    obtain ⟨rfl, rfl⟩ := Prod.mk.inj heq
    obtain ⟨hval, hlt⟩ := ofStr_of_code? hn
    refine ⟨hlt, [ofStr val], ⟨0, rfl⟩, fun x => ?_⟩
    rw [mem_singleton, hval]
    constructor
    · rintro rfl
      exact ⟨n, ⟨le_rfl, le_rfl⟩, rfl⟩
    · rintro ⟨m, ⟨hle, hge⟩, rfl⟩
      rw [le_antisymm hge hle]
  | some p =>
    rw [hcut] at h
    obtain ⟨m, hm, h⟩ := bind_eq_some_iff.mp h
    obtain ⟨n, hn, heq⟩ := map_eq_some_iff.mp h
    cases heq
    obtain ⟨hstart, hlt⟩ := ofStr_of_code? hm
    obtain ⟨hstop, hlt'⟩ := ofStr_of_code? hn
    obtain ⟨fuel, xs, hxs, hmem⟩ := mem_pushRange (le_top_ofNat hlt') hlt.le
    refine ⟨hlt', xs, ⟨fuel, ?_⟩, fun x => ?_⟩
    · dsimp only
      rw [hstart, hstop]
      exact hxs
    · simp only [hmem, le_ofNat, and_assoc]

theorem Denotes.lt (h : Denotes value n) : n < 2 ^ 53 := by
  obtain ⟨val, -, a, b, hval, -, hle⟩ := h
  exact hle.trans_lt (pushes_of_interval? hval).1

/-- **A part that is harmless** adds no other code. -/
theorem pushes_of_harmless (h : Harmless value val) :
    ∃ xs, Pushes val xs ∧ ∀ x ∈ xs, ∃ n, Denotes value n ∧ x = ofNat n := by
  unfold Harmless at h
  unfold Pushes pushPart
  cases hcut : Str.cut (unit '-') val with
  | none =>
    rw [hcut] at h
    refine ⟨[ofStr val], ⟨0, rfl⟩, fun x hx => ?_⟩
    rw [mem_singleton.mp hx]
    exact h
  | some p =>
    obtain ⟨start, stop⟩ := p
    rw [hcut] at h
    dsimp only at h ⊢
    cases hle : le (ofStr start) (ofStr stop) with
    | false =>
      refine ⟨[], ⟨1, ?_⟩, fun x hx => absurd hx not_mem_nil⟩
      rw [pushRange, if_neg (by rw [hle]; exact Bool.false_ne_true)]
    | true =>
      obtain ⟨⟨a, ha⟩, hstop, hall⟩ := h hle
      rw [ha] at hle hall ⊢
      have hlt : a ≤ 2 ^ 53 := by
        by_contra hge
        have htop : le (ofNat (2 ^ 53)) (ofStr stop) = true :=
          le_trans ((le_ofNat _ _).mpr (Nat.le_of_not_le hge)) hle
        rw [hstop] at htop
        cases htop
      obtain ⟨fuel, xs, hxs, hmem⟩ := mem_pushRange hstop hlt
      refine ⟨xs, ⟨fuel, hxs⟩, fun x hx => ?_⟩
      obtain ⟨n, hn, hnstop, rfl⟩ := (hmem x).mp hx
      exact ⟨n, hall n ((le_ofNat a n).mpr hn) hnstop, rfl⟩

/-- A part that adds no other code is harmless. -/
theorem harmless_of_pushes (hxs : Pushes val xs)
    (h : ∀ x ∈ xs, ∃ n, Denotes value n ∧ x = ofNat n) : Harmless value val := by
  have hpushes := hxs
  obtain ⟨fuel, hxs⟩ := hxs
  unfold pushPart at hxs
  unfold Harmless
  cases hcut : Str.cut (unit '-') val with
  | none =>
    rw [hcut] at hxs
    cases hxs
    exact h _ mem_cons_self
  | some p =>
    obtain ⟨start, stop⟩ := p
    rw [hcut] at hxs
    dsimp only at hxs ⊢
    intro hle
    -- the first number of the range is one of the list
    have hfirst : ofStr start ∈ xs := by
      cases fuel with
      | zero => cases hxs
      | succ fuel =>
        rw [pushRange, if_pos hle, pushRange_append] at hxs
        obtain ⟨ys, -, rfl⟩ := map_eq_some_iff.mp hxs
        exact mem_append_left _ (mem_append_right _ (mem_singleton_self _))
    obtain ⟨a, hdenotes, ha⟩ := h _ hfirst
    have hlt : a ≤ 2 ^ 53 := hdenotes.lt.le
    have hstop : le (ofNat (2 ^ 53)) (ofStr stop) = false := by
      rw [Bool.eq_false_iff]
      intro htop
      rw [ha, pushRange_diverges htop hlt] at hxs
      cases hxs
    obtain ⟨fuel', ys, hys, hmem⟩ := mem_pushRange hstop hlt
    have hsame : ys = xs := by
      refine Pushes.unique ⟨fuel', ?_⟩ hpushes
      unfold pushPart
      rw [hcut]
      dsimp only
      rw [ha]
      exact hys
    subst hsame
    refine ⟨⟨a, ha⟩, hstop, fun n hn hnstop => ?_⟩
    rw [ha, le_ofNat] at hn
    obtain ⟨m, hm, heq⟩ := h _ ((hmem (ofNat n)).mpr ⟨n, hn, hnstop, rfl⟩)
    rwa [ofNat_inj.mp heq]

/-- **The codes that a text denotes are returned** exactly when every part that is not valid adds no
other code. -/
theorem correct_iff (value : Str) : Correct value ↔
      ∀ val ∈ Str.split (unit ',') value, interval? val = none → Harmless value val := by
  constructor
  · rintro ⟨fuel, result, hrun, hmem⟩ val hval -
    obtain ⟨xss, hxss, rfl⟩ := run_iff.mp ⟨fuel, hrun⟩
    obtain ⟨xs, hxs, hpushes⟩ := exists_of_forall₂ hxss hval
    exact harmless_of_pushes hpushes fun x hx =>
      (hmem x).mp (mem_flatten.mpr ⟨xs, hxs, hx⟩)
  · intro h
    have hparts : ∀ val ∈ Str.split (unit ',') value, ∃ xs, Pushes val xs ∧
        (∀ x ∈ xs, ∃ n, Denotes value n ∧ x = ofNat n) ∧
        ∀ a b n, interval? val = some (a, b) → a ≤ n → n ≤ b → ofNat n ∈ xs := by
      intro val hval
      cases hinterval : interval? val with
      | none =>
        obtain ⟨xs, hpushes, hmem⟩ := pushes_of_harmless (h val hval hinterval)
        exact ⟨xs, hpushes, hmem, fun a b n heq => by cases heq⟩
      | some r =>
        obtain ⟨a, b⟩ := r
        obtain ⟨-, xs, hpushes, hmem⟩ := pushes_of_interval? hinterval
        refine ⟨xs, hpushes, fun x hx => ?_, fun a' b' n heq ha hb => ?_⟩
        · obtain ⟨n, ⟨ha, hb⟩, rfl⟩ := (hmem x).mp hx
          exact ⟨n, ⟨val, hval, a, b, hinterval, ha, hb⟩, rfl⟩
        · cases heq
          exact (hmem _).mpr ⟨n, ⟨ha, hb⟩, rfl⟩
    obtain ⟨xss, hxss⟩ := exists_forall₂ hparts
    obtain ⟨fuel, hrun⟩ := run_iff.mpr ⟨xss, hxss.imp fun _ _ h => h.1, rfl⟩
    refine ⟨fuel, xss.flatten, hrun, fun x => ?_⟩
    rw [mem_flatten]
    constructor
    · rintro ⟨xs, hxs, hx⟩
      obtain ⟨val, -, -, hmem, -⟩ := exists_of_forall₂_right hxss hxs
      exact hmem x hx
    · rintro ⟨n, ⟨val, hval, a, b, hinterval, ha, hb⟩, rfl⟩
      obtain ⟨xs, hxs, -, -, hmem⟩ := exists_of_forall₂ hxss hval
      exact ⟨xs, hxs, hmem a b n hinterval ha hb⟩

/-- **A part that is no number** is kept as what is none, and a range without an end is counted
without one. -/
theorem not_correct_endless : ¬Correct (lit "x") ∧ ¬Correct (lit "1-Infinity") := by
  constructor
  · rintro ⟨fuel, result, hrun, hmem⟩
    cases hrun
    obtain ⟨n, -, hn⟩ := (hmem .nan).mp mem_cons_self
    cases hn
  · rintro ⟨fuel, result, hrun, -⟩
    have hstart : ofStr (lit "1") = ofNat 1 := ofStr_natString (n := 1) (by decide)
    have hloop : setGRPCRange fuel (lit "1-Infinity") =
        (pushRange fuel (ofStr (lit "1")) (ofStr (lit "Infinity")) []).bind some := rfl
    rw [hloop, hstart, pushRange_diverges rfl (by decide)] at hrun
    cases hrun

end DdTrace.Config
