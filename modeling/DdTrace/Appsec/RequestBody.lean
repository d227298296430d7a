import DdTrace.Library.JsonReader

/-!
# Request bodies that are collected

`truncateRequestBody` of `appsec/reporter.js` copies the body of a request down to a depth, a number
of entries and a length of strings, and says whether it has left anything out.  Objects are copied
key by key with assignments, and an assignment to `__proto__` makes no property: such an entry is
lost without a word.

* `Fits`: the bounds on the copy; `fits_truncate`: they always hold.
* `truncate_spec`: the flag says just that, and the copy is the body when moreover no key is
  `__proto__`.
* `truncateRequestBody_iff`: **the flag is right exactly when something is over a limit or no key is
  `__proto__`**.
-/

namespace DdTrace.Appsec.RequestBody

open Library List Bool

/-! ## The code -/

def COLLECTED_REQUEST_BODY_MAX_STRING_LENGTH : ℕ := 4096

def COLLECTED_REQUEST_BODY_MAX_DEPTH : ℕ := 20

def COLLECTED_REQUEST_BODY_MAX_ELEMENTS_PER_NODE : ℕ := 256

/-- What is collected of a value.  Beyond the depth there is `undefined`. -/
inductive Collected where
  | undefined
  | null
  | bool (b : Bool)
  | num (n : Numeral)
  | str (s : Str)
  | arr (items : List Collected)
  | obj (members : List (Str × Collected))

def PROTO : Str := lit "__proto__"

/-- `truncatedObject[key] = value`, where the other keys are still to come. -/
def setMember (key : Str) (value : Collected) (members : List (Str × Collected)) :
    List (Str × Collected) :=
  if key = PROTO then members else (key, value) :: members

mutual

/-- `truncateRequestBody` below some objects: the value, and whether it was truncated. -/
def truncate (depth : ℕ) : Json → Collected × Bool
  | .null => (.null, false)
  | .bool b => (.bool b, false)
  | .num n => (.num n, false)
  | .str s =>
    if COLLECTED_REQUEST_BODY_MAX_STRING_LENGTH < s.length then
      (.str (s.take COLLECTED_REQUEST_BODY_MAX_STRING_LENGTH), true)
    else (.str s, false)
  | .arr items =>
    if COLLECTED_REQUEST_BODY_MAX_DEPTH ≤ depth then (.undefined, true)
    else
      let r := truncateItems (depth + 1) COLLECTED_REQUEST_BODY_MAX_ELEMENTS_PER_NODE items
      (.arr r.1, decide (COLLECTED_REQUEST_BODY_MAX_ELEMENTS_PER_NODE < items.length) || r.2)
  | .obj members =>
    if COLLECTED_REQUEST_BODY_MAX_DEPTH ≤ depth then (.undefined, true)
    else
      let r := truncateMembers (depth + 1) COLLECTED_REQUEST_BODY_MAX_ELEMENTS_PER_NODE members
      (.obj r.1, decide (COLLECTED_REQUEST_BODY_MAX_ELEMENTS_PER_NODE < members.length) || r.2)

/-- The first `n` items. -/
def truncateItems (depth : ℕ) : ℕ → List Json → List Collected × Bool
  | 0, _ | _, [] => ([], false)
  | n + 1, item :: items =>
    let r := truncate depth item
    let rs := truncateItems depth n items
    (r.1 :: rs.1, r.2 || rs.2)

/-- The first `n` keys. -/
def truncateMembers (depth : ℕ) : ℕ → List (Str × Json) → List (Str × Collected) × Bool
  | 0, _ | _, [] => ([], false)
  | n + 1, (key, value) :: members =>
    let r := truncate depth value
    let rs := truncateMembers depth n members
    (setMember key r.1 rs.1, r.2 || rs.2)

end

def truncateRequestBody (target : Json) : Collected × Bool := truncate 0 target

/-! ## What is asked of the copy -/

mutual

/-- A value as it is. -/
def whole : Json → Collected
  | .null => .null
  | .bool b => .bool b
  | .num n => .num n
  | .str s => .str s
  | .arr items => .arr (wholeItems items)
  | .obj members => .obj (wholeMembers members)

def wholeItems : List Json → List Collected
  | [] => []
  | item :: items => whole item :: wholeItems items

def wholeMembers : List (Str × Json) → List (Str × Collected)
  | [] => []
  | (key, value) :: members => (key, whole value) :: wholeMembers members

end

mutual

/-- No more than `depth` objects one within the other, and the other bounds. -/
def Fits (depth : ℕ) : Collected → Prop
  | .str s => s.length ≤ COLLECTED_REQUEST_BODY_MAX_STRING_LENGTH
  | .arr items => 0 < depth ∧ items.length ≤ COLLECTED_REQUEST_BODY_MAX_ELEMENTS_PER_NODE ∧
      FitsItems (depth - 1) items
  | .obj members => 0 < depth ∧ members.length ≤ COLLECTED_REQUEST_BODY_MAX_ELEMENTS_PER_NODE ∧
      FitsMembers (depth - 1) members
  | _ => True

def FitsItems (depth : ℕ) : List Collected → Prop
  | [] => True
  | item :: items => Fits depth item ∧ FitsItems depth items

def FitsMembers (depth : ℕ) : List (Str × Collected) → Prop
  | [] => True
  | (_, value) :: members => Fits depth value ∧ FitsMembers depth members

end

/-- **What the copy is for**: it is bounded, and the flag says whether it differs from the body. -/
def Faithful (r : Collected × Bool) (body : Json) : Prop :=
  Fits COLLECTED_REQUEST_BODY_MAX_DEPTH r.1 ∧ (r.2 = true ↔ r.1 ≠ whole body)

mutual

/-- Nothing in the value is over a limit. -/
def within (depth : ℕ) : Json → Bool
  | .str s => s.length ≤ COLLECTED_REQUEST_BODY_MAX_STRING_LENGTH
  | .arr items => depth < COLLECTED_REQUEST_BODY_MAX_DEPTH &&
      items.length ≤ COLLECTED_REQUEST_BODY_MAX_ELEMENTS_PER_NODE && withinItems (depth + 1) items
  | .obj members => depth < COLLECTED_REQUEST_BODY_MAX_DEPTH &&
      members.length ≤ COLLECTED_REQUEST_BODY_MAX_ELEMENTS_PER_NODE &&
      withinMembers (depth + 1) members
  | _ => true

def withinItems (depth : ℕ) : List Json → Bool
  | [] => true
  | item :: items => within depth item && withinItems depth items

def withinMembers (depth : ℕ) : List (Str × Json) → Bool
  | [] => true
  | (_, value) :: members => within depth value && withinMembers depth members

end

/-- No key in the body is `__proto__`. -/
def NoProto (body : Json) : Prop := PROTO ∉ body.keys

/-! ## The bounds -/

mutual

/-- **The bounds hold.** -/
theorem fits_truncate {depth : ℕ} (h : depth ≤ COLLECTED_REQUEST_BODY_MAX_DEPTH) :
    ∀ body : Json, Fits (COLLECTED_REQUEST_BODY_MAX_DEPTH - depth) (truncate depth body).1
  | .null | .bool _ | .num _ => trivial
  | .str s => by
    rw [truncate]
    split
    · exact length_take_le _ s
    · exact Nat.le_of_not_lt ‹_›
  | .arr items => by
    rw [truncate]
    split
    · trivial
    · obtain ⟨hlength, hitems⟩ := fitsItems_truncate (show depth + 1 ≤ _ by omega)
        COLLECTED_REQUEST_BODY_MAX_ELEMENTS_PER_NODE items
      exact ⟨by omega, hlength, hitems⟩
  | .obj members => by
    rw [truncate]
    split
    · trivial
    · obtain ⟨hlength, hmembers⟩ := fitsMembers_truncate (show depth + 1 ≤ _ by omega)
        COLLECTED_REQUEST_BODY_MAX_ELEMENTS_PER_NODE members
      exact ⟨by omega, hlength, hmembers⟩

theorem fitsItems_truncate {depth : ℕ} (h : depth ≤ COLLECTED_REQUEST_BODY_MAX_DEPTH) :
    ∀ (n : ℕ) (items : List Json), (truncateItems depth n items).1.length ≤ n ∧
      FitsItems (COLLECTED_REQUEST_BODY_MAX_DEPTH - depth) (truncateItems depth n items).1
  | 0, [] | 0, _ :: _ | _ + 1, [] => ⟨Nat.zero_le _, trivial⟩
  | n + 1, item :: items => by
    obtain ⟨hlength, hitems⟩ := fitsItems_truncate h n items
    exact ⟨Nat.succ_le_succ hlength, fits_truncate h item, hitems⟩

theorem fitsMembers_truncate {depth : ℕ} (h : depth ≤ COLLECTED_REQUEST_BODY_MAX_DEPTH) :
    ∀ (n : ℕ) (members : List (Str × Json)), (truncateMembers depth n members).1.length ≤ n ∧
      FitsMembers (COLLECTED_REQUEST_BODY_MAX_DEPTH - depth) (truncateMembers depth n members).1
  | 0, [] | 0, _ :: _ | _ + 1, [] => ⟨Nat.zero_le _, trivial⟩
  | n + 1, (key, value) :: members => by
    obtain ⟨hlength, hmembers⟩ := fitsMembers_truncate h n members
    rw [truncateMembers, setMember]
    split
    · exact ⟨Nat.le_succ_of_le hlength, hmembers⟩
    · exact ⟨Nat.succ_le_succ hlength, fits_truncate h value, hmembers⟩

end

/-! ## The flag and the copy -/

theorem length_truncateMembers_le (depth n : ℕ) (members : List (Str × Json)) :
    (truncateMembers depth n members).1.length ≤ (wholeMembers members).length := by
  induction members generalizing n with
  | nil => cases n <;> exact Nat.le_refl 0
  | cons m members ih =>
    cases n with
    | zero => exact Nat.zero_le _
    | succ n =>
      rw [truncateMembers, wholeMembers, setMember]
      split
      · exact Nat.le_succ_of_le (ih n)
      · exact Nat.succ_le_succ (ih n)

mutual

/-- **The flag says that nothing is over a limit**, and the copy is then the body, but for the
entries of `__proto__`. -/
theorem truncate_spec (depth : ℕ) : ∀ body : Json,
    ((truncate depth body).2 = false ↔ within depth body = true) ∧
      ((truncate depth body).1 = whole body ↔ within depth body = true ∧ NoProto body)
  | .null | .bool _ | .num _ => by simp [truncate, within, whole, NoProto, Json.keys]
  | .str s => by
    have hkeys : NoProto (.str s) := not_mem_nil
    rw [truncate, within, decide_eq_true_iff]
    split
    · refine ⟨iff_of_false (by simp) (by omega), iff_of_false (fun he => ?_) (by omega)⟩
      have hlength := congrArg List.length (Collected.str.inj he)
      rw [length_take] at hlength
      omega
    · exact ⟨iff_of_true rfl (by omega), iff_of_true rfl ⟨by omega, hkeys⟩⟩
  | .arr items => by
    obtain ⟨hflag, hcopy⟩ := truncateItems_spec (depth + 1)
      COLLECTED_REQUEST_BODY_MAX_ELEMENTS_PER_NODE items
    rw [truncate, within, whole]
    split
    · simp [*]
    · simp only [or_eq_false_iff, decide_eq_false_iff_not, and_eq_true,
        decide_eq_true_iff, Collected.arr.injEq, hcopy, NoProto, Json.keys]
      have hdepth : depth < COLLECTED_REQUEST_BODY_MAX_DEPTH := by omega
      refine ⟨?_, by tauto⟩
      constructor
      · rintro ⟨hlength, hitems⟩
        rw [hflag, take_of_length_le (by omega)] at hitems
        exact ⟨⟨hdepth, by omega⟩, hitems⟩
      · rintro ⟨⟨-, hlength⟩, hitems⟩
        rw [hflag, take_of_length_le (by omega)]
        exact ⟨by omega, hitems⟩
  | .obj members => by
    obtain ⟨hflag, hcopy⟩ := truncateMembers_spec (depth + 1)
      COLLECTED_REQUEST_BODY_MAX_ELEMENTS_PER_NODE members
    rw [truncate, within, whole]
    split
    · simp [*]
    · simp only [or_eq_false_iff, decide_eq_false_iff_not, and_eq_true,
        decide_eq_true_iff, Collected.obj.injEq, hcopy, NoProto, Json.keys]
      have hdepth : depth < COLLECTED_REQUEST_BODY_MAX_DEPTH := by omega
      refine ⟨?_, by tauto⟩
      constructor
      · rintro ⟨hlength, hmembers⟩
        rw [hflag, take_of_length_le (by omega)] at hmembers
        exact ⟨⟨hdepth, by omega⟩, hmembers⟩
      · rintro ⟨⟨-, hlength⟩, hmembers⟩
        rw [hflag, take_of_length_le (by omega)]
        exact ⟨by omega, hmembers⟩

theorem truncateItems_spec (depth : ℕ) : ∀ (n : ℕ) (items : List Json),
    ((truncateItems depth n items).2 = false ↔ withinItems depth (items.take n) = true) ∧
      ((truncateItems depth n items).1 = wholeItems items ↔
        items.length ≤ n ∧ withinItems depth items = true ∧ PROTO ∉ Json.keysOfItems items)
  | 0, [] | n + 1, [] => by simp [truncateItems, withinItems, wholeItems, Json.keysOfItems]
  | 0, item :: items => by simp [truncateItems, withinItems, wholeItems]
  | n + 1, item :: items => by
    obtain ⟨hflag, hcopy⟩ := truncate_spec depth item
    obtain ⟨hflags, hcopies⟩ := truncateItems_spec depth n items
    simp only [truncateItems, withinItems, wholeItems, Json.keysOfItems, take_succ_cons,
      or_eq_false_iff, and_eq_true, cons.injEq, mem_append, length_cons,
      Nat.add_le_add_iff_right, hflag, hcopy, hflags, hcopies]
    exact ⟨trivial, by tauto⟩

theorem truncateMembers_spec (depth : ℕ) : ∀ (n : ℕ) (members : List (Str × Json)),
    ((truncateMembers depth n members).2 = false ↔ withinMembers depth (members.take n) = true) ∧
      ((truncateMembers depth n members).1 = wholeMembers members ↔ members.length ≤ n ∧
        withinMembers depth members = true ∧ PROTO ∉ Json.keysOfMembers members)
  | 0, [] | n + 1, [] => by simp [truncateMembers, withinMembers, wholeMembers, Json.keysOfMembers]
  | 0, (key, value) :: members => by simp [truncateMembers, withinMembers, wholeMembers]
  | n + 1, (key, value) :: members => by
    obtain ⟨hflag, hcopy⟩ := truncate_spec depth value
    obtain ⟨hflags, hcopies⟩ := truncateMembers_spec depth n members
    unfold NoProto at hcopy
    -- An entry that is lost is missing from the copy.
    have hset : setMember key (truncate depth value).1 (truncateMembers depth n members).1 =
        (key, whole value) :: wholeMembers members ↔ key ≠ PROTO ∧
          (truncate depth value).1 = whole value ∧
          (truncateMembers depth n members).1 = wholeMembers members := by
      unfold setMember
      split
      · refine iff_of_false (fun he => ?_) (fun h => h.1 ‹_›)
        have hlength := length_truncateMembers_le depth n members
        rw [he, length_cons] at hlength
        omega
      · rw [cons.injEq, Prod.mk.injEq]
        tauto
    simp only [truncateMembers, withinMembers, wholeMembers, Json.keysOfMembers, take_succ_cons,
      or_eq_false_iff, and_eq_true, mem_cons, mem_append, length_cons,
      Nat.add_le_add_iff_right, hset, hflag, hcopy, hflags, hcopies]
    rw [ne_comm]
    tauto

end

/-! ## The result -/

/-- **The flag is right** exactly when something is over a limit or no key is `__proto__`. -/
theorem truncateRequestBody_iff (body : Json) : Faithful (truncateRequestBody body) body ↔
    within 0 body = false ∨ NoProto body := by
  obtain ⟨hflag, hcopy⟩ := truncate_spec 0 body
  have hfits := fits_truncate (Nat.zero_le _) body
  unfold Faithful truncateRequestBody
  rw [ne_eq, ← not_eq_false, hflag, ← not_eq_true]
  tauto

/-- The entry of `{"__proto__": null}` is lost. -/
theorem not_faithful_proto : ¬Faithful (truncateRequestBody (.obj [(PROTO, .null)]))
    (.obj [(PROTO, .null)]) := by
  rintro ⟨-, hflag⟩
  have hlost : truncateRequestBody (.obj [(PROTO, .null)]) = (.obj [], false) := rfl
  rw [hlost] at hflag
  exact Bool.false_ne_true (hflag.mpr (by simp [whole, wholeMembers]))

end DdTrace.Appsec.RequestBody
