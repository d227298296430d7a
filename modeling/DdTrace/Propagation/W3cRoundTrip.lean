import DdTrace.Propagation.W3cArrival

/-!
# The W3C round trip

`SameContext` is what the propagation of a context by `traceparent` and `tracestate` is for: the
trace id, the span id, the priority, the origin and the tags `_dd.p.*` arrive as they were, but for
the characters that `tracestate` cannot hold.  `Survives` is the condition on the context under
which it happens, and `roundTrips_iff` says that it is the exact one.

## What goes wrong

The filter of keys replaces the separators of the outer list but neither `:` nor `;`, the ones of
the list inside: the tag `_dd.p.x;s:2` writes the priority 2 (`not_roundTrips`).  The other clauses
of `Survives` are about the ends of the format: at most 32 entries are read, the ones that joined
the member last; a number from `10 ^ 21` on prints with an exponent; a blank behind an origin is
cut off; a mechanism is read as a number; and an entry that the context inherited from an earlier
process without the tag for it arrives as a tag.
-/

namespace DdTrace.TextMap

open Library List Option OrderedMap Integral

variable {ctx : SpanContext}

/-! ## What is read back under each key -/

theorem head?_tagEntry (x : Str) : (tagEntry x).head? = some (unit 't') := rfl

variable {z : Integral} {x v k y : Str}

theorem lastValue_tagWrites_of_head (hk : k.head? ≠ some (unit 't')) :
    OrderedMap.lastValue (tagWrites ctx) k = none := by
  rw [lastValue_eq_none_iff, tagWrites, List.map_map, List.mem_map]
  rintro ⟨e, -, rfl⟩
  exact hk rfl

theorem lastValue_originWrites_of_ne (hk : k ≠ lit "o") :
    OrderedMap.lastValue (originWrites ctx) k = none := by
  rw [lastValue_eq_none_iff, originWrites]
  split <;> simp [hk]

theorem lastValue_mechanismWrites_of_ne (hk : k ≠ lit "t.dm") :
    OrderedMap.lastValue (mechanismWrites ctx) k = none := by
  rw [lastValue_eq_none_iff, mechanismWrites]
  split <;> simp [hk]

theorem lastValue_ddWrites (k : Str) : OrderedMap.lastValue (ddWrites ctx) k =
      (((OrderedMap.lastValue (tagWrites ctx) k).or (OrderedMap.lastValue (originWrites ctx) k)).or
          (OrderedMap.lastValue (mechanismWrites ctx) k)).or
            ((if lit "s" = k then some ((ctx.sampling.priority.map .number).getD .undefined)
              else none).or (OrderedMap.lastValue (parentWrites ctx) k)) := by
  rw [ddWrites, lastValue_append, OrderedMap.lastValue, lastValue_append,
    lastValue_append, Option.or_assoc]

theorem get_ddState_s (hz : ctx.sampling.priority = some z) :
    (ddState ctx).get? (lit "s") = some (.number z) := by
  rw [get_ddState, lastValue_ddWrites, lastValue_tagWrites_of_head (by decide),
    lastValue_originWrites_of_ne (by decide), lastValue_mechanismWrites_of_ne (by decide),
    hz]
  rfl

theorem get_ddState_o : (ddState ctx).get? (lit "o") =
    (ctx.trace.origin.map fun o => .text (originValue o)).or ((inherited ctx).get? (lit "o")) := by
  rw [get_ddState, lastValue_ddWrites, lastValue_tagWrites_of_head (by decide),
    lastValue_mechanismWrites_of_ne (by decide), lastValue_parentWrites_of_ne (by decide),
    originWrites]
  rcases ctx.trace.origin with _ | o <;> rfl

/-- The value of `t.dm` when there is no tag for it. -/
def mechanismEntry (ctx : SpanContext) : Option DataValue :=
  ((truthy ctx.sampling.mechanism).map fun m => .text (unit '-' :: m.toString)).or
    ((inherited ctx).get? (tagEntry (lit "dm")))

theorem get_ddState_tag (x : Str) : (ddState ctx).get? (tagEntry x) =
    (OrderedMap.lastValue (tagWrites ctx) (tagEntry x)).or
      (if x = lit "dm" then mechanismEntry ctx else (inherited ctx).get? (tagEntry x)) := by
  have hne : ∀ k : Str, k.head? ≠ some (unit 't') → tagEntry x ≠ k :=
    fun k hk he => hk (he ▸ head?_tagEntry x)
  rw [get_ddState, lastValue_ddWrites, lastValue_originWrites_of_ne (hne _ (by decide)),
    lastValue_parentWrites_of_ne (hne _ (by decide)), if_neg fun he => hne _ (by decide) he.symm,
    or_none, or_none, or_none, Option.or_assoc]
  by_cases hx : x = lit "dm"
  · subst hx
    rw [mechanismEntry, mechanismWrites]
    rcases truthy ctx.sampling.mechanism with _ | m <;> rfl
  · rw [if_neg hx, lastValue_mechanismWrites_of_ne fun he => hx (tagEntry_injective he), none_or]

/-- The last write to an entry `t.x` is that of a tag, when there is one. -/
theorem lastValue_tagWrites_eq_some {dv : DataValue}
    (h : OrderedMap.lastValue (tagWrites ctx) (tagEntry x) = some dv) :
    ∃ y v, traceTag ctx y = some v ∧ replacedKey y = x ∧ dv = .text (tagValue v) := by
  have hmem := mem_of_lastValue h
  rw [tagWrites, List.mem_map] at hmem
  obtain ⟨⟨k, v⟩, he, heq⟩ := hmem
  rw [mem_filter, isInjected, Bool.and_eq_true] at he
  obtain ⟨y, hy⟩ := isPrefixOf_iff.mp he.2.2
  rw [Prod.mk.injEq] at heq
  subst hy
  exact ⟨y, v, mem_entries_iff.mp he.1, tagEntry_injective heq.1, heq.2.symm⟩

theorem lastValue_tagWrites_ne_none (hy : traceTag ctx y = some v) (hv : v ≠ []) :
    OrderedMap.lastValue (tagWrites ctx) (tagEntry (replacedKey y)) ≠ none := by
  rw [Ne, lastValue_eq_none_iff, not_not, tagWrites, List.map_map, List.mem_map]
  refine ⟨(tagPrefix ++ y, v), mem_filter.mpr ⟨mem_entries_iff.mpr hy, ?_⟩, tagKey_append y⟩
  rw [isInjected, Bool.and_eq_true, bne_iff_ne]
  exact ⟨hv, isPrefixOf_iff.mpr ⟨y, rfl⟩⟩

/-! ## Values -/

/-- The replacement of one code unit of a value. -/
def valueChar (u : UInt16) : UInt16 :=
  let w := if tracestateTagValueFilter u then u else unit '_'
  if w = unit '=' then unit '~' else w

theorem tagValue_eq_map (v : Str) : tagValue v = v.map valueChar := by
  rw [tagValue, Str.replace, Str.replaceUnless, List.map_map]
  rfl

theorem isSpace_valueChar {u : UInt16} : Str.isSpace (valueChar u) = true ↔ u = unit ' ' := by
  constructor
  · intro h
    rw [valueChar] at h
    by_cases hk : tracestateTagValueFilter u = true
    · rw [if_pos hk] at h
      split at h
      · exact absurd h (by decide)
      · have hblank : u.toNat = 0x20 := by
          simp only [tracestateTagValueFilter, inRange, Bool.or_eq_true, Bool.and_eq_true,
            decide_eq_true_eq] at hk
          simp only [Str.isSpace, Bool.or_eq_true, Bool.and_eq_true, decide_eq_true_eq,
            beq_iff_eq] at h
          omega
        exact UInt16.toNat_inj.mp hblank
    · rw [if_neg hk] at h
      exact absurd h (by decide)
  · rintro rfl
    decide

theorem length_tagValue (v : Str) : (tagValue v).length = v.length := by
  rw [tagValue_eq_map, length_map]

theorem trimEnd_tagValue (h : v.getLast? ≠ some (unit ' ')) :
    (tagValue v).trimEnd = tagValue v := by
  refine Str.trimEnd_of_getLast fun u hu => ?_
  rw [tagValue_eq_map, getLast?_map, mem_def, map_eq_some_iff] at hu
  obtain ⟨w, hw, rfl⟩ := hu
  rw [Bool.eq_false_iff]
  intro hspace
  exact h (isSpace_valueChar.mp hspace ▸ hw)

theorem length_trimEnd_tagValue (h : v.getLast? = some (unit ' ')) :
    (tagValue v).trimEnd.length < v.length := by
  obtain ⟨w, rfl⟩ := getLast?_eq_some_iff.mp h
  have hlen : (Str.trimEnd (w.map valueChar)).length ≤ (w.map valueChar).length :=
    ( rdropWhile_prefix _ _).length_le
  rw [length_map] at hlen
  rw [tagValue_eq_map, map_append, map_singleton, Str.trimEnd,
    rdropWhile_concat_pos _ _ _ (isSpace_valueChar.mpr rfl), length_append]
  exact Nat.lt_succ_of_le hlen

theorem replace_tagValue (v : Str) :
    Str.replace (unit '~') (unit '=') (tagValue v) = replacedValue v := by
  refine Str.replace_replace fun hmem => ?_
  rcases Str.mem_replaceUnless hmem with ⟨hk, -⟩ | he
  · exact absurd hk (by decide)
  · exact absurd he (by decide)

theorem readValue_of_not_kept (hk : ¬ Kept ctx k) : readValue ctx k = none :=
  if_neg hk

/-- A tag is read back from the entry that is kept for its key, whichever tag wrote it last. -/
theorem readValue_tag (h : LocalContext ctx) {w : Str} (hy : traceTag ctx y = some w)
    (hk : Kept ctx (tagEntry (replacedKey y))) :
    ∃ y' v, traceTag ctx y' = some v ∧ replacedKey y' = replacedKey y ∧
      readValue ctx (tagEntry (replacedKey y)) = some (tagValue v) := by
  rcases hlast : OrderedMap.lastValue (tagWrites ctx) (tagEntry (replacedKey y)) with _ | dv
  · exact absurd hlast (lastValue_tagWrites_ne_none hy (h.tags y w hy).2.2.1)
  · obtain ⟨y', v, hy', hkey, rfl⟩ := lastValue_tagWrites_eq_some hlast
    obtain ⟨-, -, hne, hblank⟩ := h.tags y' v hy'
    refine ⟨y', v, hy', hkey, ?_⟩
    have htrim : DataValue.toString (.text (tagValue v)) = tagValue v := rfl
    have hne' : tagValue v ≠ [] := by
      rw [Ne, ← length_eq_zero_iff, length_tagValue, length_eq_zero_iff]
      exact hne
    rw [readValue, if_pos hk, get_ddState_tag, hlast, some_or, bind_some, htrim,
      trimEnd_tagValue hblank, if_neg hne']

/-- The tag that an entry of the mechanism or of the inherited member is read as. -/
theorem readValue_no_tag (hno : ∀ y v, traceTag ctx y = some v → replacedKey y ≠ x)
    (hk : Kept ctx (tagEntry x)) :
    readValue ctx (tagEntry x) =
      (if x = lit "dm" then mechanismEntry ctx else (inherited ctx).get? (tagEntry x)).bind
        fun dv => if dv.toString.trimEnd = [] then none else some dv.toString.trimEnd := by
  rw [readValue, if_pos hk, get_ddState_tag]
  rcases hlast : OrderedMap.lastValue (tagWrites ctx) (tagEntry x) with _ | dv
  · rw [none_or]
  · obtain ⟨y, v, hy, hkey, -⟩ := lastValue_tagWrites_eq_some hlast
    exact absurd hkey (hno y v hy)

/-- A replacement without the replacing character changed nothing. -/
theorem eq_of_replaceUnless {keep : UInt16 → Bool} {new : UInt16} {s t : Str}
    (h : Str.replaceUnless keep new s = t) (hnew : new ∉ t) : s = t := by
  rw [← h] at hnew ⊢
  refine (Str.replaceUnless_eq_self fun u hu => ?_).symm
  by_contra hk
  refine hnew (List.mem_map.mpr ⟨u, hu, if_neg hk⟩)

theorem replacedKey_dm : replacedKey y = lit "dm" ↔ y = lit "dm" := by
  constructor
  · exact fun h => eq_of_replaceUnless h (by decide)
  · rintro rfl
    decide

theorem replacedKey_tid : replacedKey y = lit "tid" ↔ y = lit "tid" := by
  constructor
  · exact fun h => eq_of_replaceUnless h (by decide)
  · rintro rfl
    decide

/-! ## The round trip -/

/-- The context that arrives is the one that was injected, up to the replacement of the characters
that `tracestate` cannot hold. -/
structure SameContext (ctx out : SpanContext) : Prop where
  traceId : out.toTraceId = ctx.toTraceId
  spanId : out.spanId = ctx.spanId
  priority : out.sampling.priority = ctx.sampling.priority
  tags : ∀ x v, traceTag out x = some v ↔
    ∃ y w, traceTag ctx y = some w ∧ replacedKey y = x ∧ replacedValue w = v
  origin : out.trace.origin.getD [] = (ctx.trace.origin.map replacedOrigin).getD []

/-- The condition for the round trip. -/
structure Survives (ctx : SpanContext) : Prop where
  traceId : invalidSegment ctx.toTraceId = false
  tid : traceTag ctx (lit "tid") ≠ some (lit "0000000000000000")
  separator : NoSeparator ctx
  /-- tags that share an entry have one value -/
  functional : ∀ x v y w, traceTag ctx x = some v → traceTag ctx y = some w →
    replacedKey x = replacedKey y → replacedValue v = replacedValue w
  priority : ∀ z, ctx.sampling.priority = some z →
    (Kept ctx (lit "s") ∧ z.val.natAbs < 10 ^ 21) ∨ z.val = 0 ∨ z.val = 1
  /-- the tag of the mechanism is what it reads as -/
  mechanism : ∀ v, traceTag ctx (lit "dm") = some v → Kept ctx (tagEntry (lit "dm")) ∧
    (readMechanism (tagValue v)).map Prod.snd = some (replacedValue v)
  /-- without the tag nothing else reads as a mechanism -/
  noMechanism : traceTag ctx (lit "dm") = none → Kept ctx (tagEntry (lit "dm")) →
    ∀ dv, mechanismEntry ctx = some dv → readMechanism dv.toString.trimEnd = none
  tags : ∀ x v, traceTag ctx x = some v → x ≠ lit "tid" → x ≠ lit "dm" →
    Kept ctx (tagEntry (replacedKey x))
  /-- no entry of an earlier process is left without its tag -/
  inheritedTags : ∀ x, x ≠ lit "tid" → x ≠ lit "dm" → Kept ctx (tagEntry x) →
    tagEntry x ∈ (inherited ctx).keys → ∃ y v, traceTag ctx y = some v ∧ replacedKey y = x
  origin : ∀ o, ctx.trace.origin = some o → o ≠ [] →
    Kept ctx (lit "o") ∧ o.getLast? ≠ some (unit ' ')
  inheritedOrigin : ctx.trace.origin = none → Kept ctx (lit "o") → lit "o" ∉ (inherited ctx).keys

theorem isKept_eq (hz : ctx.sampling.priority = some z) : ctx.isKept = decide (1 ≤ z.val) := by
  rw [SpanContext.isKept, hz]
  rfl

theorem printedFlag_of_pos (hz : ctx.sampling.priority = some z)
    (h : 1 ≤ z.val) : printedFlag ctx = .one := by
  rw [printedFlag, isKept_eq hz, if_pos (decide_eq_true h)]

theorem printedFlag_of_le (hz : ctx.sampling.priority = some z)
    (h : ¬ 1 ≤ z.val) : printedFlag ctx = .zero := by
  rw [printedFlag, isKept_eq hz, decide_eq_false h, if_neg Bool.false_ne_true]

theorem val_one : Integral.one.val = 1 := rfl

theorem val_zero : Integral.zero.val = 0 := rfl

/-- The priority that was printed refines the flag that was printed. -/
theorem refinePriority_printed (hz : ctx.sampling.priority = some z) :
    refinePriority (some (printedFlag ctx)) z = some z := by
  by_cases hpos : 1 ≤ z.val
  · rw [printedFlag_of_pos hz hpos, refinePriority, if_pos]
    exact Or.inl ⟨by rw [map_some, val_one], by omega⟩
  · rw [printedFlag_of_le hz hpos, refinePriority]
    by_cases hneg : z.val < 0
    · rw [if_pos (Or.inr ⟨by rw [map_some, val_zero], hneg⟩)]
    · rw [if_neg, some_inj]
      · exact ext_val (by rw [val_zero]; omega)
      · rintro (⟨-, h⟩ | ⟨-, h⟩) <;> omega

/-- The flag alone stands for the priorities 0 and 1. -/
theorem printedFlag_eq_iff (hz : ctx.sampling.priority = some z) :
    printedFlag ctx = z ↔ z.val = 0 ∨ z.val = 1 := by
  by_cases hpos : 1 ≤ z.val
  · rw [printedFlag_of_pos hz hpos]
    constructor
    · intro h
      exact Or.inr (by rw [← h, val_one])
    · rintro (h | h)
      · omega
      · exact ext_val (val_one.trans h.symm)
  · rw [printedFlag_of_le hz hpos]
    constructor
    · intro h
      exact Or.inl (by rw [← h, val_zero])
    · rintro (h | h)
      · exact ext_val (val_zero.trans h.symm)
      · omega

theorem trimEnd_toString (z : Integral) : Str.trimEnd z.toString = z.toString := by
  refine Str.trimEnd_of_getLast fun u hu => ?_
  rcases mem_toString (mem_of_mem_getLast? hu) with ⟨d, hd⟩ | hu
  · exact isSpace_of_digit hd
  · have hlit : ∀ c ∈ lit "-.e+", Str.isSpace c = false :=
      Str.forall_mem_of_all (by decide)
    exact hlit u hu

/-- What is read back of the priority. -/
theorem readValue_s (hz : ctx.sampling.priority = some z) :
    (readValue ctx (lit "s")).bind (Integral.parseInt 10) =
      if Kept ctx (lit "s") then Integral.parseInt 10 z.toString else none := by
  by_cases hk : Kept ctx (lit "s")
  · have hnil : Integral.parseInt 10 [] = none := rfl
    have hnum : DataValue.toString (.number z) = z.toString := rfl
    rw [readValue, if_pos hk, if_pos hk, get_ddState_s hz, bind_some, hnum, trimEnd_toString]
    by_cases hne : z.toString = []
    · rw [hne]
      rfl
    · rw [if_neg hne]
      rfl
  · rw [readValue_of_not_kept hk, if_neg hk]
    rfl

/-- The priority that arrives is the one injected exactly under the clause for it. -/
theorem priority_arrives_iff (hz : ctx.sampling.priority = some z) :
    (((readValue ctx (lit "s")).bind (Integral.parseInt 10)).map
        (refinePriority (some (printedFlag ctx)))).getD (some (printedFlag ctx)) = some z ↔
      (Kept ctx (lit "s") ∧ z.val.natAbs < 10 ^ 21) ∨ z.val = 0 ∨ z.val = 1 := by
  rw [readValue_s hz]
  by_cases hk : Kept ctx (lit "s")
  · rw [if_pos hk]
    by_cases hlt : z.val.natAbs < 10 ^ 21
    · rw [parseInt_toString hlt, map_some, refinePriority_printed hz]
      exact iff_of_true rfl (Or.inl ⟨hk, hlt⟩)
    · refine iff_of_false (fun h => ?_) (by omega)
      have hflag : printedFlag ctx ≠ z := by
        rw [Ne, printedFlag_eq_iff hz]
        omega
      rcases hw : Integral.parseInt 10 z.toString with _ | w
      · rw [hw, map_none, getD_none, some_inj] at h
        exact hflag h
      · have hsmall := parseInt_toString_of_le (not_lt.mp hlt) hw
        rw [hw, map_some, getD_some, refinePriority] at h
        split at h
        · rw [some_inj] at h
          rw [h] at hsmall
          omega
        · rw [some_inj] at h
          exact hflag h
  · rw [if_neg hk, map_none, getD_none, some_inj, printedFlag_eq_iff hz]
    constructor
    · exact Or.inr
    · rintro (⟨h, -⟩ | h)
      · exact absurd h hk
      · exact h

theorem length_replacedOrigin (o : Str) : (replacedOrigin o).length = o.length :=
  length_map _

/-- The origin that arrives is the one injected exactly under the clauses for it. -/
theorem origin_arrives_iff (h : LocalContext ctx) :
    ((readValue ctx (lit "o")).map (Str.replace (unit '~') (unit '='))).getD [] =
        (ctx.trace.origin.map replacedOrigin).getD [] ↔
      (∀ o, ctx.trace.origin = some o → o ≠ [] →
        Kept ctx (lit "o") ∧ o.getLast? ≠ some (unit ' ')) ∧
      (ctx.trace.origin = none → Kept ctx (lit "o") → lit "o" ∉ (inherited ctx).keys) := by
  rcases ho : ctx.trace.origin with _ | o
  · -- nothing was injected: only an inherited entry can arrive
    simp only [map_none, getD_none, reduceCtorEq, false_implies, implies_true,
      true_and, forall_const]
    by_cases hk : Kept ctx (lit "o")
    · rw [readValue, if_pos hk, get_ddState_o, ho, map_none, none_or]
      rcases hget : (inherited ctx).get? (lit "o") with _ | dv
      · exact iff_of_true rfl fun _ => get?_eq_none_iff.mp hget
      · obtain ⟨-, -, htrim, hne⟩ := wire_inherited h.tracestate hget
        refine iff_of_false (fun hnil => ?_) fun hc =>
          hc hk (OrderedMap.mem_keys_iff.mpr ⟨dv, hget⟩)
        rw [bind_some, htrim, if_neg hne, map_some, getD_some, Str.replace, map_eq_nil_iff] at hnil
        exact hne hnil
    · rw [readValue_of_not_kept hk]
      exact iff_of_true rfl fun hk' => absurd hk' hk
  · have hvalue : DataValue.toString (.text (originValue o)) = tagValue o := rfl
    simp only [map_some, getD_some, some_inj, forall_eq', reduceCtorEq, false_implies, and_true]
    by_cases hk : Kept ctx (lit "o")
    · rw [readValue, if_pos hk, get_ddState_o, ho, map_some, some_or, bind_some, hvalue]
      by_cases hblank : o.getLast? = some (unit ' ')
      · have hne : o ≠ [] := by
          rintro rfl
          cases hblank
        refine iff_of_false (fun heq => ?_) fun hc => (hc hne).2 hblank
        have hlt := length_trimEnd_tagValue hblank
        have hlen := congrArg List.length heq
        rw [length_replacedOrigin] at hlen
        split at hlen
        · exact hne (length_eq_zero_iff.mp hlen.symm)
        · rw [map_some, getD_some, Str.replace, length_map] at hlen
          omega
      · refine iff_of_true ?_ fun _ => ⟨hk, hblank⟩
        rw [trimEnd_tagValue hblank]
        by_cases hnil : tagValue o = []
        · have ho : o = [] := by
            rw [← length_eq_zero_iff, ← length_tagValue, hnil]
            rfl
          rw [ho]
          rfl
        · rw [if_neg hnil, map_some]
          exact replace_tagValue o
    · rw [readValue_of_not_kept hk, map_none]
      constructor
      · intro heq hne
        have hlen := congrArg List.length heq
        rw [length_replacedOrigin] at hlen
        exact absurd (length_eq_zero_iff.mp hlen.symm) hne
      · intro hc
        by_cases hnil : o = []
        · rw [hnil]
          rfl
        · exact absurd (hc hnil).1 hk

/-! ## The tags -/

theorem readTag_dm (v : Str) : readTag (lit "dm") v = (readMechanism v).map Prod.snd := if_pos rfl

theorem readTag_tid (v : Str) : readTag (lit "tid") v = none := by
  rw [readTag, if_neg (by decide), if_pos rfl]

theorem readTag_of_ne (hdm : x ≠ lit "dm") (htid : x ≠ lit "tid") (v : Str) :
    readTag x v = some (Str.replace (unit '~') (unit '=') v) := by
  rw [readTag, if_neg hdm, if_neg htid]

/-- The tag `_dd.p.x` of the context that arrives. -/
def arrivedTag (ctx : SpanContext) (x : Str) : Option Str :=
  ((readValue ctx (tagEntry x)).bind (readTag x)).or
    (if x = lit "tid" then (traceTag ctx x).filter (· ≠ lit "0000000000000000") else none)

theorem arrivedTag_tid : arrivedTag ctx (lit "tid") =
    (traceTag ctx (lit "tid")).filter (· ≠ lit "0000000000000000") := by
  have hnone : (readValue ctx (tagEntry (lit "tid"))).bind (readTag (lit "tid")) = none := by
    rcases readValue ctx (tagEntry (lit "tid")) with _ | v
    · rfl
    · exact readTag_tid v
  rw [arrivedTag, hnone, if_pos rfl, none_or]

theorem arrivedTag_dm : arrivedTag ctx (lit "dm") =
    (readValue ctx (tagEntry (lit "dm"))).bind fun v => (readMechanism v).map Prod.snd := by
  rw [arrivedTag, if_neg (by decide), or_none]
  rcases readValue ctx (tagEntry (lit "dm")) with _ | v
  · rfl
  · exact readTag_dm v

theorem arrivedTag_of_ne (hdm : x ≠ lit "dm") (htid : x ≠ lit "tid") : arrivedTag ctx x =
      (readValue ctx (tagEntry x)).map (Str.replace (unit '~') (unit '=')) := by
  rw [arrivedTag, if_neg htid, or_none]
  rcases readValue ctx (tagEntry x) with _ | v
  · rfl
  · exact readTag_of_ne hdm htid v

/-- Only a kept entry arrives. -/
theorem kept_of_arrivedTag (htid : x ≠ lit "tid") (h : arrivedTag ctx x = some v) :
    Kept ctx (tagEntry x) := by
  by_contra hk
  rw [arrivedTag, readValue_of_not_kept hk, if_neg htid] at h
  cases h

theorem replacedValue_hex (l : List UInt8) : replacedValue (Bytes.hex l) = Bytes.hex l := by
  refine Str.replaceUnless_eq_self fun u hu => ?_
  have hb : ∀ n < 16, tracestateTagValueFilter (unit n.digitChar) = true := by decide
  obtain ⟨b, -, hu⟩ := mem_flatMap.mp hu
  have hlt := b.toNat_lt
  rw [Bytes.hexByte, mem_cons, mem_singleton] at hu
  rcases hu with rfl | rfl
  · exact hb _ (by omega)
  · exact hb _ (by omega)

/-- A tag that is injected, as it should arrive. -/
def Expected (ctx : SpanContext) (x v : Str) : Prop :=
  ∃ y w, traceTag ctx y = some w ∧ replacedKey y = x ∧ replacedValue w = v

/-- When the tags arrive as they should, the clauses for them hold. -/
theorem survives_of_tags (h : LocalContext ctx)
    (hall : ∀ x v, arrivedTag ctx x = some v ↔ Expected ctx x v) :
    traceTag ctx (lit "tid") ≠ some (lit "0000000000000000") ∧
    (∀ x v y w, traceTag ctx x = some v → traceTag ctx y = some w →
      replacedKey x = replacedKey y → replacedValue v = replacedValue w) ∧
    (∀ v, traceTag ctx (lit "dm") = some v → Kept ctx (tagEntry (lit "dm")) ∧
      (readMechanism (tagValue v)).map Prod.snd = some (replacedValue v)) ∧
    (traceTag ctx (lit "dm") = none → Kept ctx (tagEntry (lit "dm")) →
      ∀ dv, mechanismEntry ctx = some dv → readMechanism dv.toString.trimEnd = none) ∧
    (∀ x v, traceTag ctx x = some v → x ≠ lit "tid" → x ≠ lit "dm" →
      Kept ctx (tagEntry (replacedKey x))) ∧
    (∀ x, x ≠ lit "tid" → x ≠ lit "dm" → Kept ctx (tagEntry x) →
      tagEntry x ∈ (inherited ctx).keys → ∃ y v, traceTag ctx y = some v ∧ replacedKey y = x) := by
  have harrives : ∀ y w, traceTag ctx y = some w →
      arrivedTag ctx (replacedKey y) = some (replacedValue w) := fun y w hy =>
    (hall _ _).mpr ⟨y, w, hy, rfl, rfl⟩
  refine ⟨fun htid => ?_, fun x v y w hx hy hxy => ?_, fun v hv => ?_, fun hnone hk dv hdv => ?_,
    fun x v hx htid _ => ?_, fun x htid hdm hk hmem => ?_⟩
  · have hkey : replacedKey (lit "tid") = lit "tid" := replacedKey_tid.mpr rfl
    have harr := harrives _ _ htid
    rw [hkey, arrivedTag_tid, htid] at harr
    cases harr
  · have hx' := harrives x v hx
    have hy' := harrives y w hy
    rw [hxy, hy', some_inj] at hx'
    exact hx'.symm
  · have hkey : replacedKey (lit "dm") = lit "dm" := replacedKey_dm.mpr rfl
    have harr := harrives _ _ hv
    rw [hkey] at harr
    have hk := kept_of_arrivedTag (by decide) harr
    refine ⟨hk, ?_⟩
    obtain ⟨y, w, hy, hyk, hread⟩ := readValue_tag h hv (by exact hk)
    rw [hkey] at hyk hread
    rw [replacedKey_dm] at hyk
    subst hyk
    rw [hv, some_inj] at hy
    subst hy
    rw [arrivedTag_dm, hread] at harr
    exact harr
  · have hno : ∀ y v, traceTag ctx y = some v → replacedKey y ≠ lit "dm" := by
      intro y v hy hkey
      rw [replacedKey_dm.mp hkey, hnone] at hy
      cases hy
    rcases hread : readMechanism dv.toString.trimEnd with _ | ⟨m, t⟩
    · rfl
    · have hne : dv.toString.trimEnd ≠ [] := by
        intro hnil
        rw [hnil] at hread
        cases hread
      have harr : arrivedTag ctx (lit "dm") = some t := by
        rw [arrivedTag_dm, readValue_no_tag hno hk, if_pos rfl, hdv, bind_some, if_neg hne,
          bind_some, hread]
        rfl
      obtain ⟨y, w, hy, hkey, -⟩ := (hall _ _).mp harr
      exact absurd hkey (hno y w hy)
  · refine kept_of_arrivedTag (fun hkey => htid (replacedKey_tid.mp hkey)) (harrives x v hx)
  · by_contra hno
    have hno' : ∀ y v, traceTag ctx y = some v → replacedKey y ≠ x := fun y v hy hkey =>
      hno ⟨y, v, hy, hkey⟩
    obtain ⟨dv, hdv⟩ := OrderedMap.mem_keys_iff.mp hmem
    obtain ⟨-, -, htrim, hne⟩ := wire_inherited h.tracestate hdv
    have harr : arrivedTag ctx x = some (Str.replace (unit '~') (unit '=') dv.toString) := by
      rw [arrivedTag_of_ne hdm htid, readValue_no_tag hno' hk, if_neg hdm, hdv, bind_some,
        htrim, if_neg hne, map_some]
    obtain ⟨y, w, hy, hkey, -⟩ := (hall _ _).mp harr
    exact hno' y w hy hkey

/-- Under the clauses for them the tags arrive as they should. -/
theorem tags_of_survives (h : LocalContext ctx) (hs : Survives ctx) (x v : Str) :
    arrivedTag ctx x = some v ↔ Expected ctx x v := by
  by_cases htid : x = lit "tid"
  · subst htid
    rw [arrivedTag_tid, filter_eq_some_iff]
    constructor
    · rintro ⟨hv, -⟩
      obtain ⟨upper, -, rfl, -⟩ := h.tid_some v hv
      exact ⟨_, _, hv, replacedKey_tid.mpr rfl, replacedValue_hex upper⟩
    · rintro ⟨y, w, hy, hkey, rfl⟩
      rw [replacedKey_tid] at hkey
      subst hkey
      obtain ⟨upper, -, rfl, -⟩ := h.tid_some w hy
      rw [replacedValue_hex]
      refine ⟨hy, ?_⟩
      have hne : Bytes.hex upper ≠ lit "0000000000000000" := fun he => hs.tid (he ▸ hy)
      simpa using hne
  by_cases hdm : x = lit "dm"
  · subst hdm
    rcases ht : traceTag ctx (lit "dm") with _ | w
    · have hno : ∀ y v, traceTag ctx y = some v → replacedKey y ≠ lit "dm" := by
        intro y v hy hkey
        rw [replacedKey_dm.mp hkey, ht] at hy
        cases hy
      refine iff_of_false (fun harr => ?_) fun ⟨y, w, hy, hkey, _⟩ => hno y w hy hkey
      have hk := kept_of_arrivedTag htid harr
      rw [arrivedTag_dm, readValue_no_tag hno hk, if_pos rfl] at harr
      rcases hm : mechanismEntry ctx with _ | dv
      · rw [hm] at harr
        cases harr
      · have hnone := hs.noMechanism ht hk dv hm
        rw [hm, bind_some] at harr
        split at harr
        · cases harr
        · rw [bind_some, hnone] at harr
          cases harr
    · obtain ⟨hk, hread⟩ := hs.mechanism w ht
      have hkey : replacedKey (lit "dm") = lit "dm" := replacedKey_dm.mpr rfl
      obtain ⟨y, w', hy, hyk, hvalue⟩ := readValue_tag h ht (by exact hk)
      rw [hkey] at hyk hvalue
      rw [replacedKey_dm] at hyk
      subst hyk
      rw [ht, some_inj] at hy
      subst hy
      rw [arrivedTag_dm, hvalue, bind_some, hread, some_inj]
      constructor
      · intro hv
        exact ⟨_, w, ht, hkey, hv⟩
      · rintro ⟨y, w', hy, hyk, rfl⟩
        rw [replacedKey_dm.mp hyk, ht, some_inj] at hy
        rw [hy]
  · rw [arrivedTag_of_ne hdm htid]
    by_cases hex : ∃ y w, traceTag ctx y = some w ∧ replacedKey y = x
    · obtain ⟨y, w, hy, rfl⟩ := hex
      have hk := hs.tags y w hy (fun he => htid (by rw [he]; exact replacedKey_tid.mpr rfl))
        (fun he => hdm (by rw [he]; exact replacedKey_dm.mpr rfl))
      obtain ⟨y', w', hy', hkey', hvalue⟩ := readValue_tag h hy hk
      rw [hvalue, map_some, replace_tagValue, some_inj]
      constructor
      · intro hv
        exact ⟨y', w', hy', hkey', hv⟩
      · rintro ⟨y'', w'', hy'', hkey'', rfl⟩
        exact hs.functional y' w' y'' w'' hy' hy'' (hkey'.trans hkey''.symm)
    · have hno : ∀ y w, traceTag ctx y = some w → replacedKey y ≠ x := fun y w hy hkey =>
        hex ⟨y, w, hy, hkey⟩
      refine iff_of_false (fun harr => ?_) fun ⟨y, w, hy, hkey, _⟩ => hno y w hy hkey
      by_cases hk : Kept ctx (tagEntry x)
      · rw [readValue_no_tag hno hk, if_neg hdm] at harr
        rcases hget : (inherited ctx).get? (tagEntry x) with _ | dv
        · rw [hget] at harr
          cases harr
        · exact hex (hs.inheritedTags x htid hdm hk (OrderedMap.mem_keys_iff.mpr ⟨dv, hget⟩))
      · rw [readValue_of_not_kept hk] at harr
        cases harr

/-- A separator in a key is not replaced. -/
theorem mem_replacedKey {u : UInt16} (hu : tracestateTagKeyFilter u = true) (h : u ∈ x) :
    u ∈ replacedKey x :=
  List.mem_map.mpr ⟨u, h, if_pos hu⟩

/-- **The W3C round trip.**  The context of a span of this process arrives as it was injected, up to
the replacement of the characters that `tracestate` cannot hold, exactly under `Survives`. -/
theorem roundTrips_iff (h : LocalContext ctx) (random : Identifier) (carrier : Carrier) :
    (∃ out, Arrives random carrier ctx out ∧ SameContext ctx out) ↔ Survives ctx := by
  obtain ⟨z, hz⟩ := h.priority
  constructor
  · rintro ⟨out, hout, hsame⟩
    have hsep : NoSeparator ctx := by
      intro x v hx
      have harr := (hsame.tags (replacedKey x) (replacedValue v)).mpr ⟨x, v, hx, rfl, rfl⟩
      obtain ⟨hcolon, hsemi⟩ := separator_of_arrives h hout harr
      exact ⟨fun hu => hcolon (mem_replacedKey (by decide) hu),
        fun hu => hsemi (mem_replacedKey (by decide) hu)⟩
    obtain ⟨-, -, hpriority, horigin, htags⟩ := arrives_spec h hsep hout
    obtain ⟨htid, hfun, hmech, hno, hkept, hinh⟩ := survives_of_tags h fun x v => by
      have hx := hsame.tags x v
      rw [htags x] at hx
      exact hx
    have horg := hsame.origin
    rw [horigin, origin_arrives_iff h] at horg
    have hprio := hsame.priority
    rw [hpriority, hz, priority_arrives_iff hz] at hprio
    refine ⟨((arrives_iff h).mp hout).1, htid, hsep, hfun, fun z' hz' => ?_, hmech, hno, hkept,
      hinh, horg.1, horg.2⟩
    rw [hz, some_inj] at hz'
    exact hz' ▸ hprio
  · intro hs
    obtain ⟨out, hout⟩ := exists_arrives h random carrier hs.traceId
    obtain ⟨htrace, hspan, hpriority, horigin, htags⟩ := arrives_spec h hs.separator hout
    refine ⟨out, hout, htrace, hspan, ?_, fun x v => ?_, ?_⟩
    · rw [hpriority, hz]
      exact (priority_arrives_iff hz).mpr (hs.priority z hz)
    · rw [htags x]
      exact tags_of_survives h hs x v
    · rw [horigin]
      exact (origin_arrives_iff h).mpr ⟨hs.origin, hs.inheritedOrigin⟩

/-- A context with one tag. -/
def oneTagContext (key value : Str) : SpanContext where
  traceId := .word 9
  spanId := some (.word 2)
  isRemote := false
  sampling := { priority := some .one }
  trace := { origin := some (lit "rum"), tags := .ofEntries [(key, value)] }

theorem traceTag_oneTagContext {key value : Str}
    (h : traceTag (oneTagContext key value) x = some v) : tagPrefix ++ x = key ∧ v = value := by
  have hmem := mem_entries_iff.mpr h
  rw [show (oneTagContext key value).trace.tags.entries = [(key, value)] from rfl,
    mem_singleton, Prod.mk.injEq] at hmem
  exact hmem

theorem localContext_oneTagContext {key value : Str} (hkey : tagKeyExpr key = true)
    (hvalue : tagValueExpr value = true) (hne : value ≠ [])
    (hblank : value.getLast? ≠ some (unit ' ')) (htid : key ≠ TRACE_ID_128) :
    LocalContext (oneTagContext key value) where
  isLocal := rfl
  spanId := ⟨_, rfl, by decide, by decide⟩
  priority := ⟨_, rfl⟩
  traceId := Or.inl rfl
  tid_some := fun t ht => absurd (traceTag_oneTagContext ht).1.symm htid
  tid_none := fun _ hlen => absurd (show 8 = 16 from hlen) (by decide)
  version := fun v hv => by cases hv
  tags := fun x v hx => by
    obtain ⟨hk, rfl⟩ := traceTag_oneTagContext hx
    rw [hk]
    exact ⟨hkey, hvalue, hne, hblank⟩
  tracestate := fun ts hts => by cases hts

/-- The round trip of a context with a sampling mechanism. -/
theorem roundTrips_iff_mechanism :
    (∃ out, Arrives .zeroId {} (oneTagContext (lit "_dd.p.dm") (lit "-4")) out ∧
      SameContext (oneTagContext (lit "_dd.p.dm") (lit "-4")) out) ↔
        Survives (oneTagContext (lit "_dd.p.dm") (lit "-4")) :=
  roundTrips_iff (localContext_oneTagContext (by decide) (by decide) (by decide) (by decide)
    (by decide)) .zeroId {}

/-- **A tag can write another entry**: the tag `_dd.p.x;s:2` does not arrive; it is read as the
entry `s`, the priority. -/
theorem not_roundTrips :
    ¬ ∀ ctx, LocalContext ctx → ∃ out, Arrives .zeroId {} ctx out ∧ SameContext ctx out := by
  intro h
  have hlocal : LocalContext (oneTagContext (lit "_dd.p.x;s:2") (lit "1")) :=
    localContext_oneTagContext (by decide) (by decide) (by decide) (by decide) (by decide)
  obtain ⟨out, hout, hsame⟩ := h _ hlocal
  have harr := (hsame.tags (lit "x;s:2") (lit "1")).mpr
    ⟨lit "x;s:2", lit "1", by decide, by decide, by decide⟩
  exact (separator_of_arrives hlocal hout harr).2 (by decide)

end DdTrace.TextMap
