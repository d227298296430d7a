import DdTrace.Library.JsonReader

/-!
# The bytes of JSON text

The text of a value ends in a letter, a digit, a quote or a bracket, so that what is written behind
it neither joins a surrogate pair nor an escape of it (`Closed`).  The bytes of a list are therefore
counted item by item, with one more for each comma.

* `closed_stringify`: the text of every value is closed.
* `byteLength_join`: the bytes of closed texts with commas between them (`joinedBytes`).
* `byteLength_stringify_arr`: the bytes of an array.
-/

namespace Library.Json

open Unicode List

/-! ## Closed texts -/

/-- The text ends in an ASCII character other than a backslash. -/
def Closed (s : Str) : Prop := ∃ start u, s = start ++ [u] ∧ u.toNat ≤ 127 ∧ u ≠ unit '\\'

theorem closed_concat (s : Str) {u : UInt16} (hu : u.toNat ≤ 127) (hslash : u ≠ unit '\\') :
    Closed (s ++ [u]) :=
  ⟨s, u, rfl, hu, hslash⟩

variable {s : Str}

theorem Closed.last (h : Closed s) : ∀ u ∈ s.getLast?, u.toNat ≤ 127 ∧ u ≠ unit '\\' := by
  obtain ⟨start, u, rfl, hu, hslash⟩ := h
  intro w hw
  rw [getLast?_concat] at hw
  cases hw
  exact ⟨hu, hslash⟩

theorem Closed.notHigh (h : Closed s) : ∀ u ∈ s.getLast?, isHigh u = false := by
  intro u hu
  have hle := (h.last u hu).1
  unfold isHigh
  rw [decide_eq_false (by omega), Bool.false_and]

theorem byteLength_append (h : Closed s) (t : Str) :
    byteLength (s ++ t) = byteLength s + byteLength t := Unicode.byteLength_append h.notHigh t

theorem closed_quote (s : Str) : Closed (quote s) := by
  have h := closed_concat (unit '"' :: quoteBody s) (u := unit '"') (by decide) (by decide)
  rwa [cons_append] at h

/-- The text of a number is made of digits, signs, a point and an exponent. -/
theorem closed_of_all (hs : s ≠ []) (h : s.all isNumberUnit = true) : Closed s := by
  have hlast := all_eq_true.mp h _ (getLast_mem hs)
  have hle : (s.getLast hs).toNat ≤ 127 := by
    unfold isNumberUnit at hlast
    simp only [Bool.or_eq_true, beq_iff_eq] at hlast
    rcases hlast with (((hd | hu) | hu) | hu) | hu
    · unfold isDecimalDigit at hd
      rw [Bool.and_eq_true, decide_eq_true_eq, decide_eq_true_eq] at hd
      exact le_trans (UInt16.le_iff_toNat_le.mp hd.2) (by decide)
    all_goals
      rw [hu]
      decide
  have hslash : s.getLast hs ≠ unit '\\' := by
    intro hu
    rw [hu] at hlast
    exact absurd hlast (by decide)
  refine ⟨s.dropLast, s.getLast hs, (dropLast_append_getLast hs).symm, hle, hslash⟩

/-- **The text of every value is closed.** -/
theorem closed_stringify (v : Json) : Closed v.stringify := by
  cases v with
  | null => exact closed_concat (lit "nul") (u := unit 'l') (by decide) (by decide)
  | bool b =>
    cases b with
    | false => exact closed_concat (lit "fals") (u := unit 'e') (by decide) (by decide)
    | true => exact closed_concat (lit "tru") (u := unit 'e') (by decide) (by decide)
  | num n =>
    rw [stringify]
    split
    · next hfinite =>
      obtain ⟨hall, u, s, htext, -⟩ := Numeral.text_of_isFinite hfinite
      exact closed_of_all (by rw [htext]; exact cons_ne_nil _ _) hall
    · exact closed_concat (lit "nul") (u := unit 'l') (by decide) (by decide)
  | str s => exact closed_quote s
  | arr items => exact closed_concat _ (u := 93) (by decide) (by decide)
  | obj members => exact closed_concat _ (u := 125) (by decide) (by decide)

/-! ## Lists of texts -/

/-- The bytes of texts with commas between them. -/
def joinedBytes : List ℕ → ℕ
  | [] => 0
  | [n] => n
  | n :: ns => n + (1 + joinedBytes ns)

theorem joinedBytes_cons (n : ℕ) {ns : List ℕ} (h : ns ≠ []) :
    joinedBytes (n :: ns) = n + (1 + joinedBytes ns) := by
  obtain ⟨m, ns, rfl⟩ := exists_cons_of_ne_nil h
  rfl

theorem byteLength_comma (s : Str) : byteLength (unit ',' :: s) = 1 + byteLength s := by
  have hclosed := closed_concat [] (u := unit ',') (by decide) (by decide)
  exact byteLength_append hclosed s

/-- **The bytes of texts with commas between them**, and of what follows. -/
theorem byteLength_join {texts : List Str} (h : ∀ s ∈ texts, Closed s) (t : Str) :
    byteLength (Str.join (unit ',') texts ++ t) =
      joinedBytes (texts.map byteLength) + byteLength t := by
  induction texts with
  | nil => exact (Nat.zero_add _).symm
  | cons s texts ih =>
    have hs := h s mem_cons_self
    have hrest := ih (forall_mem_cons.mp h).2
    by_cases htexts : texts = []
    · subst htexts
      rw [Str.join_singleton, byteLength_append hs]
      rfl
    · have hbytes : texts.map byteLength ≠ [] := by simpa using htexts
      rw [Str.join_cons _ _ htexts, append_assoc, byteLength_append hs, cons_append,
        byteLength_comma, map_cons, joinedBytes_cons _ hbytes]
      omega

theorem stringifyItems_eq_join (items : List Json) :
    stringifyItems items = Str.join (unit ',') (items.map stringify) := by
  induction items with
  | nil => rfl
  | cons item items ih =>
    cases items with
    | nil => exact (Str.join_singleton _ _).symm
    | cons next items =>
      have hne : (next :: items).map stringify ≠ [] := cons_ne_nil _ _
      have htail := Str.join_cons (unit ',') item.stringify hne
      rw [stringifyItems, ih, append_assoc]
      · exact htail.symm
      · exact cons_ne_nil _ _

/-- **The bytes of an array.** -/
theorem byteLength_stringify_arr (items : List Json) (t : Str) :
    byteLength ((arr items).stringify ++ t) =
      2 + joinedBytes (items.map fun v => byteLength v.stringify) + byteLength t := by
  have hopen : Closed [91] := closed_concat [] (by decide) (by decide)
  have hclose : Closed [93] := closed_concat [] (by decide) (by decide)
  have hitems : ∀ s ∈ items.map stringify, Closed s := by
    intro s hs
    obtain ⟨v, -, rfl⟩ := mem_map.mp hs
    exact closed_stringify v
  have hbytes : byteLength [91] = 1 ∧ byteLength [93] = 1 := by decide
  rw [stringify, stringifyItems_eq_join]
  show byteLength ([91] ++ _ ++ [93] ++ t) = _
  rw [append_assoc _ [93], append_assoc _ _ ([93] ++ t), byteLength_append hopen,
    byteLength_join hitems, byteLength_append hclose, map_map]
  show 1 + (joinedBytes (items.map fun v => byteLength v.stringify) + (1 + byteLength t)) = _
  omega

end Library.Json
