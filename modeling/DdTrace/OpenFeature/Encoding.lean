import DdTrace.Library.Base64
import DdTrace.Library.Leb128

/-!
# Serial ids as delta varints

`openfeature/encoding.js` writes a set of serial ids as the base64 form of the varints of their
differences.  A varint is meant to be LEB128, but its groups are cut off with `>>>`, which takes a
number modulo `2 ^ 32` first.  A difference from there on is not written.

* `encodeVarint_of_lt`: below `2 ^ 32` the bytes are those of LEB128.
* `decode_encodeVarint`: any number is read as what is left of it modulo `2 ^ 32`.
* `decodeDeltaVarint_iff`: **the ids are read back, in increasing order, exactly when none is
  `2 ^ 32` or more above the one before it**.
-/

open Library

namespace DdTrace.OpenFeature

open List Option

/-! ## The source -/

/-- `encodeVarint`.  A number that is shifted is taken modulo `2 ^ 32`. -/
def encodeVarint (value : ℕ) : List UInt8 :=
  if value > 0x7F then (value % 128 + 0x80).toUInt8 :: encodeVarint (value % 2 ^ 32 / 128)
  else [value.toUInt8]
termination_by value
decreasing_by omega

/-- The differences of a list of ids, of which the last was `prev`. -/
def encodeDeltas : ℕ → List ℕ → List UInt8
  | _, [] => []
  | prev, id :: ids => encodeVarint (id - prev) ++ encodeDeltas id ids

/-- `encodeDeltaVarint`, of the ids in the order in which they were added. -/
def encodeDeltaVarint (serialIds : List ℕ) : Str :=
  if serialIds = [] then []
  else Base64.encode (encodeDeltas 0 (serialIds.insertionSort (· ≤ ·)))

/-! ## What a reader does -/

/-- The sums of the differences. -/
def prefixSums : ℕ → List ℕ → List ℕ
  | _, [] => []
  | prev, delta :: deltas => (prev + delta) :: prefixSums (prev + delta) deltas

/-- The ids that a string of base64 stands for. -/
def decodeDeltaVarint (s : Str) : Option (List ℕ) :=
  (Leb128.decodeAll (Base64.decode s)).map (prefixSums 0)

/-! ## Varints -/

theorem encodeVarint_of_lt {n : ℕ} (h : n < 2 ^ 32) : encodeVarint n = Leb128.encode n := by
  induction n using Leb128.encode.induct with
  | case1 n hn => rw [encodeVarint, if_neg (by omega), Leb128.encode_of_lt hn]
  | case2 n hn ih =>
    rw [encodeVarint, if_pos (by omega), Leb128.encode_of_ge (by omega), Nat.mod_eq_of_lt h,
      ih (by omega)]

/-- **What is written of any number** is read as what is left of it, in front of anything. -/
theorem decode_encodeVarint (n : ℕ) (rest : List UInt8) :
    Leb128.decode (encodeVarint n ++ rest) = some (n % 2 ^ 32, rest) := by
  by_cases hn : n > 0x7F
  · have hbyte : (n % 128 + 128).toUInt8.toNat = n % 128 + 128 :=
      Leb128.toNat_toUInt8 (by omega)
    rw [encodeVarint, if_pos hn, encodeVarint_of_lt (by omega), cons_append, Leb128.decode,
      if_neg (by omega), Leb128.decode_encode, map_some, some_inj,
      Prod.mk.injEq]
    exact ⟨by omega, rfl⟩
  · rw [encodeVarint_of_lt (by omega), Leb128.decode_encode, Nat.mod_eq_of_lt (by omega)]

/-! ## Lists of ids -/

/-- The differences of a list of ids. -/
def deltas : ℕ → List ℕ → List ℕ
  | _, [] => []
  | prev, id :: ids => (id - prev) :: deltas id ids

theorem encodeDeltas_eq (prev : ℕ) (ids : List ℕ) :
    encodeDeltas prev ids = (deltas prev ids).flatMap encodeVarint := by
  induction ids generalizing prev with
  | nil => rfl
  | cons id ids ih => rw [encodeDeltas, deltas, flatMap_cons, ih]

/-- **What is read** is what is left of the differences. -/
theorem decodeDeltaVarint_eq (serialIds : List ℕ) :
    decodeDeltaVarint (encodeDeltaVarint serialIds) =
      some (prefixSums 0 ((deltas 0 (serialIds.insertionSort (· ≤ ·))).map (· % 2 ^ 32))) := by
  unfold decodeDeltaVarint encodeDeltaVarint
  by_cases hnil : serialIds = []
  · rw [hnil]
    rfl
  · rw [if_neg hnil, Base64.decode_encode, encodeDeltas_eq,
      Leb128.decodeAll_flatMap decode_encodeVarint, map_some]

theorem prefixSums_injective (prev : ℕ) : Function.Injective (prefixSums prev) := by
  intro ds
  induction ds generalizing prev with
  | nil =>
    intro ds' h
    cases ds' with
    | nil => rfl
    | cons d' ds' => cases h
  | cons d ds ih =>
    intro ds' h
    cases ds' with
    | nil => cases h
    | cons d' ds' =>
      rw [prefixSums, prefixSums, List.cons.injEq] at h
      have hd : d = d' := by omega
      subst hd
      rw [ih (prev + d) h.2]

/-- The sums of the differences are the ids. -/
theorem prefixSums_deltas {prev : ℕ} {ids : List ℕ} (hsorted : ids.Pairwise (· ≤ ·))
    (hprev : ∀ id ∈ ids, prev ≤ id) : prefixSums prev (deltas prev ids) = ids := by
  induction ids generalizing prev with
  | nil => rfl
  | cons id ids ih =>
    obtain ⟨hle, hrest⟩ := pairwise_cons.mp hsorted
    have hsum : prev + (id - prev) = id := by
      have := hprev id mem_cons_self
      omega
    rw [deltas, prefixSums, hsum, ih hrest hle]

/-- An id is less than `2 ^ 32`, or less than that above another one. -/
def Near (ids : List ℕ) (id : ℕ) : Prop := id < 2 ^ 32 ∨ ∃ b ∈ ids, b < id ∧ id < b + 2 ^ 32

theorem forall_deltas_iff {prev : ℕ} {ids : List ℕ} (hsorted : ids.Pairwise (· ≤ ·))
    (hprev : ∀ id ∈ ids, prev ≤ id) : (∀ d ∈ deltas prev ids, d < 2 ^ 32) ↔
      ∀ id ∈ ids, id < prev + 2 ^ 32 ∨ ∃ b ∈ ids, b < id ∧ id < b + 2 ^ 32 := by
  induction ids generalizing prev with
  | nil => exact ⟨fun _ => forall_mem_nil _, fun _ => forall_mem_nil _⟩
  | cons id ids ih =>
    obtain ⟨hle, hrest⟩ := pairwise_cons.mp hsorted
    have hid := hprev id mem_cons_self
    rw [deltas, forall_mem_cons, forall_mem_cons, ih hrest hle]
    constructor
    · rintro ⟨hfirst, hall⟩
      refine ⟨.inl (by omega), fun a ha => ?_⟩
      rcases hall a ha with hlt | ⟨b, hb, hba, hab⟩
      · rcases Nat.eq_or_lt_of_le (hle a ha) with rfl | hgt
        · exact .inl (by omega)
        · exact .inr ⟨id, mem_cons_self, hgt, hlt⟩
      · exact .inr ⟨b, mem_cons_of_mem _ hb, hba, hab⟩
    · rintro ⟨hfirst, hall⟩
      refine ⟨?_, fun a ha => ?_⟩
      · rcases hfirst with hlt | ⟨b, hb, hba, -⟩
        · omega
        · rcases mem_cons.mp hb with rfl | hb
          · omega
          · have := hle b hb
            omega
      · rcases hall a ha with hlt | ⟨b, hb, hba, hab⟩
        · exact .inl (by omega)
        · rcases mem_cons.mp hb with rfl | hb
          · exact .inl hab
          · exact .inr ⟨b, hb, hba, hab⟩

/-- **The ids are read back**, in increasing order, exactly when none is `2 ^ 32` or more above the
one before it. -/
theorem decodeDeltaVarint_iff (serialIds : List ℕ) :
    decodeDeltaVarint (encodeDeltaVarint serialIds) =
      some (serialIds.insertionSort (· ≤ ·)) ↔ ∀ id ∈ serialIds, Near serialIds id := by
  have hsorted : (serialIds.insertionSort (· ≤ ·)).Pairwise (· ≤ ·) :=
    pairwise_insertionSort (· ≤ ·) serialIds
  have hmem : ∀ id, id ∈ serialIds.insertionSort (· ≤ ·) ↔ id ∈ serialIds := fun id =>
    mem_insertionSort (· ≤ ·)
  have hzero : ∀ id ∈ serialIds.insertionSort (· ≤ ·), 0 ≤ id := fun _ _ => Nat.zero_le _
  have hiff := forall_deltas_iff hsorted hzero
  simp only [hmem, Nat.zero_add] at hiff
  have hkept : ∀ ds : List ℕ, ds.map (· % 2 ^ 32) = ds ↔ ∀ d ∈ ds, d < 2 ^ 32 := by
    intro ds
    conv_lhs => rhs; rw [← List.map_id ds]
    rw [map_inj_left]
    exact forall₂_congr fun d _ => Nat.mod_eq_iff_lt (by decide)
  rw [decodeDeltaVarint_eq, some_inj]
  unfold Near
  rw [← hiff, ← hkept]
  have hinj := (prefixSums_injective 0).eq_iff (a := (deltas 0
    (serialIds.insertionSort (· ≤ ·))).map (· % 2 ^ 32)) (b := deltas 0
    (serialIds.insertionSort (· ≤ ·)))
  rwa [prefixSums_deltas hsorted hzero] at hinj

/-- **`2 ^ 32`** is read as zero. -/
theorem not_decodeDeltaVarint_large :
    ¬decodeDeltaVarint (encodeDeltaVarint [2 ^ 32]) = some ([2 ^ 32].insertionSort (· ≤ ·)) := by
  rw [decodeDeltaVarint_eq]
  decide

end DdTrace.OpenFeature
