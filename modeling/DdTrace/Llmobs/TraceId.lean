import DdTrace.Llmobs.Injection
import DdTrace.Propagation.IdAgreement

/-!
# LLMObs trace ids on the wire

`llmobs/util.js` keeps an LLMObs trace id as 32 hexadecimal digits and sends it in decimal.  What
arrives may be in either spelling, or no number at all; a decimal number of at most 64 bits is a
trace id of its own and stays as it is.  So an id below `2 ^ 64` does not come back in the spelling
in which it was sent.

* `normalizeLlmObsTraceId`, beside `llmObsTraceIdToWire`: the two directions.
* `internalId`, `wireId`: the trace id that a text spells, as it is kept and on the wire.
* `padStart_natString`: a numeral is what one gets of its value, but for the zeros in front.
* `traceId_kept`: **an id of more than 64 bits comes back as it was, and neither direction makes one
  of two trace ids**.
-/

namespace DdTrace.Llmobs

open Library TextMap List Option Str Bool

/-! ## The code -/

/-- `HEX_TRACE_ID_REGEX`, `/^[0-9a-f]{32}$/i`. -/
def isHexTraceId (s : Str) : Bool := isHexOfLength 32 s

/-- `DECIMAL_TRACE_ID_REGEX`, `/^\d+$/`. -/
def isDecimalTraceId (s : Str) : Bool := s != [] && s.all fun u => (Str.digit? 10 u).isSome

def MAX_UINT_64 : ℕ := 2 ^ 64 - 1

/-- The wire form of a text that is not empty, as `llmObsTraceIdToWire` gives it. -/
def wire (traceId : Str) : Str :=
  if isHexTraceId traceId then Str.natString 10 (Str.readDigits 16 0 traceId) else traceId

/-- The normal form of a text that is not empty. -/
def normal (traceId : Str) : Str :=
  if isHexTraceId traceId ∧ (traceId.head? = some (unit '0') ∨ isDecimalTraceId traceId = false) then
    traceId
  else if isDecimalTraceId traceId = false then traceId
  else
    let identifier := Str.readDigits 10 0 traceId
    if MAX_UINT_64 < identifier then padStart (Str.natString 16 identifier) 32 else traceId

/-- `normalizeLlmObsTraceId` -/
def normalizeLlmObsTraceId (traceId : Str) : Option Str :=
  if traceId = [] then none else some (normal traceId)

/-! ## What a text spells -/

inductive TraceId where
  | number (n : ℕ)
  | custom (s : Str)
  deriving DecidableEq

/-- The number of a decimal text; any other text is a trace id of its own. -/
def decimalId (s : Str) : TraceId :=
  if isDecimalTraceId s then .number (Str.readDigits 10 0 s) else .custom s

/-- The trace id of a text as it is kept: 32 hexadecimal digits are a number, even where all of them
are decimal. -/
def internalId (s : Str) : TraceId :=
  if isHexTraceId s then .number (Str.readDigits 16 0 s) else decimalId s

/-- The trace id of a text on the wire: 32 decimal digits without a zero in front are a decimal
number. -/
def wireId (s : Str) : TraceId :=
  if isHexTraceId s ∧ (s.head? = some (unit '0') ∨ isDecimalTraceId s = false) then
    .number (Str.readDigits 16 0 s)
  else decimalId s

/-- 32 lower-case hexadecimal digits. -/
def IsTraceId (s : Str) : Prop :=
  s.length = 32 ∧ ∀ u ∈ s, ∃ d < 16, u = unit (Nat.digitChar d)

/-- No decimal number beyond 128 bits. -/
def Within128 (s : Str) : Prop := isDecimalTraceId s = true → Str.readDigits 10 0 s < 2 ^ 128

/-! ## Numerals -/

variable {s : Str} {radix : ℕ}

/-- What has been read before a text of digits, and the text itself. -/
theorem readDigits_eq (hs : ∀ u ∈ s, (Str.digit? radix u).isSome = true) (acc : ℕ) :
    Str.readDigits radix acc s = acc * radix ^ s.length + Str.readDigits radix 0 s := by
  have h := readDigits_append_of_isSome hs acc []
  rwa [append_nil] at h

theorem readDigits_lt (hr : 0 < radix) (acc : ℕ) (s : Str) :
    Str.readDigits radix acc s < (acc + 1) * radix ^ s.length := by
  induction s generalizing acc with
  | nil => simp [Str.readDigits]
  | cons u s ih =>
    have hpos : 0 < radix ^ (s.length + 1) := Nat.pow_pos hr
    rw [Str.readDigits]
    rcases hd : Str.digit? radix u with _ | d
    · exact Nat.lt_of_lt_of_le (Nat.lt_succ_self acc) (Nat.le_mul_of_pos_right _ hpos)
    · refine (ih (acc * radix + d)).trans_le ?_
      have hlt := digit?_lt hd
      have hle : acc * radix + d + 1 ≤ (acc + 1) * radix := by
        rw [Nat.succ_mul]
        omega
      calc (acc * radix + d + 1) * radix ^ s.length
          ≤ (acc + 1) * radix * radix ^ s.length := Nat.mul_le_mul_right _ hle
        _ = (acc + 1) * radix ^ (s.length + 1) := by ring

/-- **A numeral is that of its value**, with zeros in front up to its length. -/
theorem padStart_natString (hr : 1 < radix) (hr' : radix ≤ 16) (hne : s ≠ [])
    (hs : ∀ u ∈ s, ∃ d < radix, u = unit (Nat.digitChar d)) :
    padStart (Str.natString radix (Str.readDigits radix 0 s)) s.length = s := by
  induction s using List.reverseRecOn with
  | nil => exact absurd rfl hne
  | append_singleton s u ih =>
    obtain ⟨d, hd, rfl⟩ := hs u (by simp)
    have hdigits : ∀ u ∈ s, (Str.digit? radix u).isSome = true := by
      intro u hu
      obtain ⟨e, he, rfl⟩ := hs u (mem_append_left _ hu)
      rw [digit?_digitChar hr' he]
      rfl
    have hvalue : Str.readDigits radix 0 (s ++ [unit (Nat.digitChar d)]) =
        Str.readDigits radix 0 s * radix + d := by
      rw [readDigits_append_of_isSome hdigits, Nat.zero_mul, Nat.zero_add, Str.readDigits,
        digit?_digitChar hr' hd]
      rfl
    rw [hvalue, length_append]
    by_cases hnil : s = []
    · subst hnil
      rw [Str.readDigits, Nat.zero_mul, Nat.zero_add, natString_of_lt hd]
      rfl
    have hrec := ih hnil (forall_mem_append.mp hs).1
    rcases Nat.eq_zero_or_pos (Str.readDigits radix 0 s) with hzero | hpos
    · -- the digits before the last are zeros
      rw [hzero] at hrec ⊢
      have hlength := length_pos_iff.mpr hnil
      have hz : Str.natString radix 0 = [unit '0'] := natString_of_lt (by omega)
      rw [hz, padStart, length_singleton, ← replicate_succ', Nat.sub_add_cancel hlength] at hrec
      rw [Nat.zero_mul, Nat.zero_add, natString_of_lt hd, padStart, length_singleton,
        Nat.add_sub_cancel, hrec]
    · have hle : radix ≤ Str.readDigits radix 0 s * radix + d :=
        (Nat.le_mul_of_pos_left radix hpos).trans (Nat.le_add_right _ _)
      have hdiv : (Str.readDigits radix 0 s * radix + d) / radix = Str.readDigits radix 0 s := by
        rw [Nat.mul_comm, Nat.mul_add_div (by omega), Nat.div_eq_of_lt hd, Nat.add_zero]
      have hmod : (Str.readDigits radix 0 s * radix + d) % radix = d := by
        rw [Nat.mul_comm, Nat.mul_add_mod, Nat.mod_eq_of_lt hd]
      rw [natString_of_le hr hle, hdiv, hmod, padStart, length_append,
        length_singleton, Nat.add_sub_add_right, ← append_assoc]
      exact congrArg (· ++ [unit (Nat.digitChar d)]) hrec

/-! ## What is kept -/

theorem isDecimalTraceId_natString (n : ℕ) : isDecimalTraceId (Str.natString 10 n) = true := by
  rw [isDecimalTraceId, and_eq_true, bne_iff_ne, List.all_eq_true]
  refine ⟨natString_ne_nil 10 n, fun u hu => ?_⟩
  obtain ⟨d, hd⟩ := digit?_of_mem_natString (by omega) (by omega) hu
  rw [hd]
  rfl

/-- No decimal numeral of 32 digits has a zero in front. -/
theorem head?_natString_ne_zero {n : ℕ} (h : isHexTraceId (Str.natString 10 n) = true) :
    (Str.natString 10 n).head? ≠ some (unit '0') := by
  intro hhead
  rw [isHexTraceId, isHexOfLength, and_eq_true, beq_iff_eq] at h
  obtain ⟨s, hs⟩ : ∃ s, Str.natString 10 n = unit '0' :: s := by
    cases hn : Str.natString 10 n with
    | nil => exact absurd hn (natString_ne_nil 10 n)
    | cons u s =>
      rw [hn, head?_cons, some_inj] at hhead
      exact ⟨s, by rw [hhead]⟩
  have hvalue : Str.readDigits 10 0 (unit '0' :: s) = n := by
    rw [← hs, readDigits_natString (by omega) (by omega)]
  have hlength : s.length = 31 := by
    rw [hs, length_cons] at h
    omega
  have hlt := readDigits_lt (by omega : 0 < 10) 0 s
  rw [hlength, Nat.one_mul] at hlt
  have hn : n < 10 ^ 31 := by
    rw [← hvalue]
    exact hlt
  have := (length_natString_le_iff (r := 10) (by omega) (by omega)).mpr hn
  omega

/-- **The wire form spells the trace id of the text.** -/
theorem wireId_wire (s : Str) : wireId (wire s) = internalId s := by
  rw [wire, internalId]
  by_cases hhex : isHexTraceId s = true
  · rw [if_pos hhex, if_pos hhex, wireId, if_neg, decimalId, if_pos (isDecimalTraceId_natString _),
      readDigits_natString (by omega) (by omega)]
    rintro ⟨hhex, hhead | hdecimal⟩
    · exact head?_natString_ne_zero hhex hhead
    · rw [isDecimalTraceId_natString] at hdecimal
      cases hdecimal
  · rw [if_neg hhex, if_neg hhex, wireId, if_neg fun h => hhex h.1]

/-- A number below `2 ^ 128` in hexadecimal, with 32 digits. -/
theorem internalId_padStart {n : ℕ} (h : n < 2 ^ 128) :
    internalId (padStart (Str.natString 16 n) 32) = .number n := by
  have hlength : (Str.natString 16 n).length ≤ 32 :=
    (length_natString_le_iff (by omega) (by omega)).mpr (h.trans_eq (by norm_num))
  have hhex : isHexTraceId (padStart (Str.natString 16 n) 32) = true := by
    rw [isHexTraceId, isHexOfLength, and_eq_true, beq_iff_eq, List.all_eq_true, length_padStart]
    refine ⟨max_eq_left hlength, fun u hu => ?_⟩
    rw [padStart, mem_append] at hu
    rcases hu with hu | hu
    · rw [eq_of_mem_replicate hu]
      rfl
    · obtain ⟨d, hd⟩ := digit?_of_mem_natString (by omega) (by omega) hu
      rw [isHexDigit, hd]
      rfl
  rw [internalId, if_pos hhex, readDigits_padStart (by omega),
    readDigits_natString (by omega) (by omega)]

/-- A decimal number of no more than 64 bits is not taken for hexadecimal digits. -/
theorem isHexTraceId_of_le (hs : isDecimalTraceId s = true)
    (hhead : s.head? ≠ some (unit '0')) (hle : Str.readDigits 10 0 s ≤ MAX_UINT_64) :
    isHexTraceId s = false := by
  rw [← not_eq_true, isHexTraceId, isHexOfLength, and_eq_true, beq_iff_eq]
  rintro ⟨hlength, -⟩
  rw [isDecimalTraceId, and_eq_true, List.all_eq_true] at hs
  obtain ⟨u, s, rfl⟩ : ∃ u t, s = u :: t := exists_cons_of_length_eq_add_one hlength
  obtain ⟨d, hd⟩ := isSome_iff_exists.mp (hs.2 u mem_cons_self)
  have hpos : d ≠ 0 := by
    rintro rfl
    refine hhead (congrArg some ?_)
    rw [Str.digit?, ite_none_right_eq_some, some_inj] at hd
    apply UInt16.toNat_inj.mp
    show u.toNat = 48
    split_ifs at hd <;> omega
  rw [Str.readDigits, hd] at hle
  dsimp only at hle
  rw [readDigits_eq (forall_mem_cons.mp hs.2).2] at hle
  rw [Nat.succ.inj hlength, MAX_UINT_64] at hle
  omega

/-- **The normal form spells the trace id that arrived.** -/
theorem internalId_normal (hs : Within128 s) : internalId (normal s) = wireId s := by
  rw [normal, wireId]
  by_cases hhex : isHexTraceId s = true ∧ (s.head? = some (unit '0') ∨ isDecimalTraceId s = false)
  · rw [if_pos hhex, if_pos hhex, internalId, if_pos hhex.1]
  rw [if_neg hhex, if_neg hhex]
  by_cases hdecimal : isDecimalTraceId s = false
  · rw [if_pos hdecimal, internalId, if_neg fun h => hhex ⟨h, .inr hdecimal⟩]
  rw [if_neg hdecimal]
  rw [not_eq_false] at hdecimal
  by_cases hmax : MAX_UINT_64 < Str.readDigits 10 0 s
  · rw [if_pos hmax, internalId_padStart (hs hdecimal), decimalId, if_pos hdecimal]
  · rw [if_neg hmax, internalId, if_neg]
    rw [not_eq_true]
    by_cases hhead : s.head? = some (unit '0')
    · rw [← not_eq_true]
      exact fun h => hhex ⟨h, .inl hhead⟩
    · exact isHexTraceId_of_le hdecimal hhead (Nat.not_lt.mp hmax)

theorem llmObsTraceIdToWire_eq {s : Str} (h : s ≠ []) : llmObsTraceIdToWire s = some (wire s) := by
  rw [llmObsTraceIdToWire, if_neg h, wire, isHexTraceId]
  by_cases hhex : isHexOfLength 32 s = true
  · rw [if_pos hhex, if_neg (by rw [hhex]; simp)]
  · rw [if_neg hhex, if_pos (not_eq_true _ ▸ hhex)]

theorem eq_wire {s w : Str} (h : llmObsTraceIdToWire s = some w) : s ≠ [] ∧ wire s = w := by
  have hne : s ≠ [] := by
    rintro rfl
    cases h
  rw [llmObsTraceIdToWire_eq hne] at h
  exact ⟨hne, some.inj h⟩

theorem eq_normal {s w : Str} (h : normalizeLlmObsTraceId s = some w) : normal s = w := by
  rw [normalizeLlmObsTraceId] at h
  split at h
  · cases h
  · exact some.inj h

/-! ## Main results -/

/-- What comes back of a trace id. -/
theorem normal_wire (hs : IsTraceId s) : normal (wire s) =
    if MAX_UINT_64 < Str.readDigits 16 0 s then s
    else Str.natString 10 (Str.readDigits 16 0 s) := by
  have hne : s ≠ [] := by
    rintro rfl
    cases hs.1
  have hhex : isHexTraceId s = true := by
    rw [isHexTraceId, isHexOfLength, and_eq_true, beq_iff_eq, List.all_eq_true]
    refine ⟨hs.1, fun u hu => ?_⟩
    obtain ⟨d, hd, rfl⟩ := hs.2 u hu
    rw [isHexDigit, digit?_digitChar (by omega) hd]
    rfl
  have hpad := padStart_natString (by omega) (by omega) hne hs.2
  rw [hs.1] at hpad
  rw [wire, if_pos hhex, normal, if_neg, if_neg (by rw [isDecimalTraceId_natString]; simp),
    readDigits_natString (by omega) (by omega)]
  · dsimp only
    rw [hpad]
  rintro ⟨hhex, hhead | hdecimal⟩
  · exact head?_natString_ne_zero hhex hhead
  · rw [isDecimalTraceId_natString] at hdecimal
    cases hdecimal

/-- **Trace ids on the wire.**  A trace id of more than 64 bits comes back as it was sent, and a
smaller one as its decimal numeral.  Two texts with one wire form are one trace id, and so are two
texts with one normal form, unless one of them is a decimal number beyond 128 bits. -/
theorem traceId_kept : (∀ s, IsTraceId s → (llmObsTraceIdToWire s).bind normalizeLlmObsTraceId =
      some (if MAX_UINT_64 < Str.readDigits 16 0 s then s
        else Str.natString 10 (Str.readDigits 16 0 s))) ∧
    (∀ s t w, llmObsTraceIdToWire s = some w → llmObsTraceIdToWire t = some w →
      internalId s = internalId t) ∧
    ∀ s t w, Within128 s → Within128 t → normalizeLlmObsTraceId s = some w →
      normalizeLlmObsTraceId t = some w → wireId s = wireId t := by
  refine ⟨fun s hs => ?_, fun s t w hs ht => ?_, fun s t w hs128 ht128 hs ht => ?_⟩
  · have hne : s ≠ [] := by
      rintro rfl
      cases hs.1
    have hwire : wire s ≠ [] := by
      rw [wire]
      split
      · exact natString_ne_nil _ _
      · exact hne
    rw [llmObsTraceIdToWire_eq hne, bind_some, normalizeLlmObsTraceId, if_neg hwire, normal_wire hs]
  · rw [← wireId_wire, ← wireId_wire, (eq_wire hs).2, (eq_wire ht).2]
  · rw [← internalId_normal hs128, ← internalId_normal ht128, eq_normal hs, eq_normal ht]

/-- The trace id 1 comes back in decimal. -/
theorem not_comesBack_one : IsTraceId (lit "00000000000000000000000000000001") ∧
    (llmObsTraceIdToWire (lit "00000000000000000000000000000001")).bind normalizeLlmObsTraceId ≠
      some (lit "00000000000000000000000000000001") := by
  refine ⟨⟨by decide, ?_⟩, by decide⟩
  exact forall_mem_of_all (by decide)

end DdTrace.Llmobs
