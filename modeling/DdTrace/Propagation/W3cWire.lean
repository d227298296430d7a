import DdTrace.Propagation.DdMember

/-!
# The `dd` member on the wire

A span of this process injects its context and another process extracts it.  Between the two the
member `dd` is a text: entries between semicolons, inside a vendor between commas.

* `LocalContext`: the contexts that are injected.
* `wire_ddState`: no key and no value of the member holds a separator, provided that no key of a
  tag holds a colon or a semicolon, which the filter of keys lets through (`NoSeparator`).
* `lastValue_readEntries`: what is read back under each key.  At most 32 entries are, the ones that
  joined last (`Kept`), and each without the blanks behind its value.
* `contextOfMatch_injected`: extraction folds over these entries.
-/

namespace DdTrace.TextMap

open Library List Option OrderedMap Str Tracestate

/-! ## The entries of the member can be told apart -/

/-- A code unit that separates nothing: neither the entries of the member, nor the vendors, nor a
tab. -/
def isPlain (u : UInt16) : Bool := u != unit ';' && u != unit ',' && u != unit '\t'

def Plain (s : Str) : Prop := ∀ u ∈ s, isPlain u = true

variable {k s : Str} {u : UInt16} {dv : DataValue}

theorem Plain.notMem (h : Plain s) : unit ';' ∉ s ∧ unit ',' ∉ s ∧ unit '\t' ∉ s :=
  ⟨fun hu => absurd (h _ hu) (by decide), fun hu => absurd (h _ hu) (by decide),
    fun hu => absurd (h _ hu) (by decide)⟩

theorem plain_of_notMem (h : unit ';' ∉ s) (h' : unit ',' ∉ s) (h'' : unit '\t' ∉ s) :
    Plain s := by
  intro u hu
  simp only [isPlain, Bool.and_eq_true, bne_iff_ne]
  exact ⟨⟨fun he => h (he ▸ hu), fun he => h' (he ▸ hu)⟩, fun he => h'' (he ▸ hu)⟩

theorem Plain.cons (hu : isPlain u = true) (h : Plain s) : Plain (u :: s) := by
  intro c hc
  rcases mem_cons.mp hc with rfl | hc
  · exact hu
  · exact h c hc

theorem isPlain_of_digit {d : ℕ} (h : Str.digit? 10 u = some d) :
    isPlain u = true := by
  obtain ⟨-, h48, h57⟩ := Integral.digit?_ten h
  simp only [isPlain, Bool.and_eq_true, bne_iff_ne]
  refine ⟨⟨?_, ?_⟩, ?_⟩ <;> rintro rfl <;> revert h48 h57 <;> decide

theorem plain_toString (z : Integral) : Plain z.toString := by
  intro u hu
  rcases Integral.mem_toString hu with ⟨d, hd⟩ | hu
  · exact isPlain_of_digit hd
  · have hlit : ∀ c ∈ lit "-.e+", isPlain c = true :=
      forall_mem_of_all (by decide)
    exact hlit u hu

theorem plain_hex (l : List UInt8) : Plain (Bytes.hex l) := by
  intro u hu
  obtain ⟨b, -, hu⟩ := mem_flatMap.mp hu
  have hb := b.toNat_lt
  have hdigit : ∀ n < 16, isPlain (unit n.digitChar) = true := by decide
  rw [Bytes.hexByte, mem_cons, mem_singleton] at hu
  rcases hu with rfl | rfl
  · exact hdigit _ (by omega)
  · exact hdigit _ (by omega)

/-- What the filters let through is plain. -/
theorem plain_filtered {keep : UInt16 → Bool} (hkeep : ∀ u, keep u = true → isPlain u = true)
    (s : Str) : Plain (Str.replaceUnless keep (unit '_') s) := by
  intro u hu
  rcases mem_replaceUnless hu with ⟨hk, -⟩ | rfl
  · exact hkeep u hk
  · decide

theorem Plain.replace (h : Plain s) {new : UInt16} (hnew : isPlain new = true)
    (old : UInt16) : Plain (Str.replace old new s) := by
  intro u hu
  rcases mem_replace hu with ⟨-, hu⟩ | rfl
  · exact h u hu
  · exact hnew

theorem isPlain_of_valueFilter (u : UInt16) (h : tracestateTagValueFilter u = true) :
    isPlain u = true := by
  simp only [isPlain, Bool.and_eq_true, bne_iff_ne]
  refine ⟨⟨?_, ?_⟩, ?_⟩ <;> rintro rfl <;> revert h <;> decide

theorem plain_tagValue (s : Str) : Plain (tagValue s) :=
  (plain_filtered isPlain_of_valueFilter s).replace (by decide) _

theorem plain_originValue (s : Str) : Plain (originValue s) :=
  (plain_filtered isPlain_of_valueFilter s).replace (by decide) _

/-! ## Keys -/

/-- A key that is read as it is written. -/
structure WireKey (k : Str) : Prop where
  ne_nil : k ≠ []
  trim : Str.trim k = k
  blank : unit ' ' ∉ k ∧ unit '\t' ∉ k
  colon : unit ':' ∉ k
  plain : Plain k

theorem trim_trim (s : Str) : Str.trim (Str.trim s) = Str.trim s := by
  refine trim_of_ends ?_ ?_
  · intro u hu
    have hpre : Str.trim s <+: Str.trimStart s := rdropWhile_prefix _ _
    obtain ⟨t, ht⟩ := hpre
    have hhead : (Str.trimStart s).head? = some u := by
      rw [← ht, head?_append, mem_def.mp hu, some_or]
    have := head?_dropWhile_not Str.isSpace s
    rw [Str.trimStart] at hhead
    rw [hhead] at this
    simpa using this
  · intro u hu
    have hne : Str.trim s ≠ [] := by
      intro h
      rw [h] at hu
      cases hu
    have hlast := rdropWhile_last_not Str.isSpace (Str.trimStart s) hne
    rw [getLast?_eq_some_getLast hne, mem_def, some_inj] at hu
    rw [← hu]
    exact Bool.eq_false_iff.mpr hlast

theorem wireKey_of_forall (hne : k ≠ [])
    (h : ∀ u ∈ k, Str.isSpace u = false ∧ u ≠ unit ':' ∧ isPlain u = true) : WireKey k where
  ne_nil := hne
  trim := trim_of_ends (fun u hu => (h u (mem_of_mem_head? hu)).1)
    (fun u hu => (h u (mem_of_mem_getLast? hu)).1)
  blank := ⟨fun hu => absurd (h _ hu).1 (by decide), fun hu => absurd (h _ hu).1 (by decide)⟩
  colon := fun hu => (h _ hu).2.1 rfl
  plain := fun u hu => (h u hu).2.2

theorem WireKey.cleanEntry {v : Str} (h : WireKey k) {r : Bool} (hv : unit '\t' ∉ v)
    (hne : v.trimEnd ≠ []) :
    Tracestate.cleanEntry r (k, v) = some (k, v.trimEnd) := by
  have htab : unit '\t' ∉ v.trimEnd := fun ht => hv (( rdropWhile_prefix _ _).subset ht)
  simp only [Tracestate.cleanEntry, h.trim]
  rw [if_neg (by simp [h.ne_nil, h.blank]), if_neg (by simp [hne, htab])]

theorem cleanEntry_of_blank {v : Str} {r : Bool} (hne : v.trimEnd = []) :
    Tracestate.cleanEntry r (k, v) = none := by
  simp only [Tracestate.cleanEntry]
  split
  · rfl
  · rw [if_pos (Or.inl hne)]

/-! ## Local contexts -/

/-- The trace tag `_dd.p.x`. -/
def traceTag (ctx : SpanContext) (x : Str) : Option Str := ctx.trace.tags.get? (tagPrefix ++ x)

/-- The key of a tag after the replacement of the characters that `tracestate` cannot hold. -/
def replacedKey (x : Str) : Str := Str.replaceUnless tracestateTagKeyFilter (unit '_') x

/-- The value of a tag after that replacement. -/
def replacedValue (v : Str) : Str := Str.replaceUnless tracestateTagValueFilter (unit '_') v

/-- The origin after that replacement. -/
def replacedOrigin (o : Str) : Str := Str.replaceUnless tracestateOriginFilter (unit '_') o

/-- The member `dd` holds no comma and no tab, as in any header that is read. -/
def Readable (ts : TraceState) : Prop :=
  ∀ v, ts.get (lit "dd") = some v → unit ',' ∉ v ∧ unit '\t' ∉ v

/-- The context of a span of this process. -/
structure LocalContext (ctx : SpanContext) : Prop where
  isLocal : ctx.isRemote = false
  /-- eight bytes, not all zero -/
  spanId : ∃ i, ctx.spanId = some i ∧ i.buffer.length = 8 ∧ i.buffer ≠ List.replicate 8 0
  priority : ∃ z, ctx.sampling.priority = some z
  traceId : ctx.traceId.buffer.length = 8 ∨ ctx.traceId.buffer.length = 16
  /-- the tag holds the upper half of the trace id -/
  tid_some : ∀ t, traceTag ctx (lit "tid") = some t → ∃ upper : List UInt8, upper.length = 8 ∧
    t = Bytes.hex upper ∧ (ctx.traceId.buffer.length = 16 → ctx.traceId.buffer.take 8 = upper)
  tid_none : traceTag ctx (lit "tid") = none → ctx.traceId.buffer.length = 16 →
    ctx.traceId.buffer.take 8 = List.replicate 8 0
  version : ∀ v, ctx.traceparent = some v → isHexOfLength 2 v = true ∧ v ≠ lit "ff"
  /-- tags pass the validation of `x-datadog-tags`, are not empty and do not end in a blank -/
  tags : ∀ x v, traceTag ctx x = some v → tagKeyExpr (tagPrefix ++ x) = true ∧
    tagValueExpr v = true ∧ v ≠ [] ∧ v.getLast? ≠ some (unit ' ')
  tracestate : ∀ ts, ctx.tracestate = some ts → Readable ts

/-- No key of a tag holds a separator of the member. -/
def NoSeparator (ctx : SpanContext) : Prop :=
  ∀ x v, traceTag ctx x = some v → unit ':' ∉ x ∧ unit ';' ∉ x

/-! ## The state of the member -/

theorem tagKey_append (x : Str) : tagKey (tagPrefix ++ x) = tagEntry (replacedKey x) := by
  have hdrop : (tagPrefix ++ x).drop 6 = x := drop_left' rfl
  rw [tagKey, hdrop, tagEntry, replacedKey]

theorem isPlain_of_keyFilter (h : tracestateTagKeyFilter u = true)
    (hsemi : u ≠ unit ';') : isPlain u = true ∧ Str.isSpace u = false := by
  constructor
  · simp only [isPlain, Bool.and_eq_true, bne_iff_ne]
    refine ⟨⟨hsemi, ?_⟩, ?_⟩ <;> rintro rfl <;> revert h <;> decide
  · simp only [tracestateTagKeyFilter, inRange, Bool.or_eq_true, Bool.and_eq_true,
      decide_eq_true_eq] at h
    unfold Str.isSpace
    simp
    omega

theorem wireKey_tagEntry {x : Str} (h : unit ':' ∉ x ∧ unit ';' ∉ x) :
    WireKey (tagEntry (replacedKey x)) := by
  refine wireKey_of_forall (by simp [tagEntry, lit]) fun u hu => ?_
  rcases mem_append.mp hu with hu | hu
  · have hlit : ∀ u ∈ lit "t.", Str.isSpace u = false ∧ u ≠ unit ':' ∧ isPlain u = true :=
      forall_mem_of_all (by decide)
    exact hlit u hu
  · rcases mem_replaceUnless hu with ⟨hk, hx⟩ | rfl
    · have hsemi : u ≠ unit ';' := fun he => h.2 (he ▸ hx)
      have := isPlain_of_keyFilter hk hsemi
      exact ⟨this.2, fun he => h.1 (he ▸ hx), this.1⟩
    · decide

/-- The writes of a local injection, one by one. -/
theorem mem_ddWrites {ctx : SpanContext} (h : ctx.isRemote = false)
    (hmem : (k, dv) ∈ ddWrites ctx) :
    (k = lit "p" ∧ dv = (ctx.spanId.map .identifier).getD .undefined) ∨
    (k = lit "s" ∧ dv = (ctx.sampling.priority.map .number).getD .undefined) ∨
    (k = lit "t.dm" ∧ ∃ m, truthy ctx.sampling.mechanism = some m ∧
      dv = .text (unit '-' :: m.toString)) ∨
    (k = lit "o" ∧ ∃ o, ctx.trace.origin = some o ∧ dv = .text (originValue o)) ∨
    ∃ x v, traceTag ctx x = some v ∧ v ≠ [] ∧ k = tagEntry (replacedKey x) ∧
      dv = .text (tagValue v) := by
  rw [ddWrites, mem_append, mem_cons, mem_append, mem_append] at hmem
  rcases hmem with hmem | hmem | hmem | hmem | hmem
  · rw [parentWrites, if_pos h, mem_singleton, Prod.mk.injEq] at hmem
    exact Or.inl hmem
  · rw [Prod.mk.injEq] at hmem
    exact Or.inr (Or.inl hmem)
  · rw [mechanismWrites] at hmem
    split at hmem
    · next m hm =>
      rw [mem_singleton, Prod.mk.injEq] at hmem
      exact Or.inr (Or.inr (Or.inl ⟨hmem.1, m, hm, hmem.2⟩))
    · cases hmem
  · rw [originWrites] at hmem
    split at hmem
    · next o ho =>
      rw [mem_singleton, Prod.mk.injEq] at hmem
      exact Or.inr (Or.inr (Or.inr (Or.inl ⟨hmem.1, o, ho, hmem.2⟩)))
    · cases hmem
  · rw [tagWrites, List.mem_map] at hmem
    obtain ⟨⟨key, v⟩, he, heq⟩ := hmem
    rw [mem_filter, isInjected, Bool.and_eq_true, bne_iff_ne] at he
    obtain ⟨x, hx⟩ := isPrefixOf_iff.mp he.2.2
    rw [Prod.mk.injEq] at heq
    subst hx
    refine Or.inr (Or.inr (Or.inr (Or.inr ⟨x, v, ?_, he.2.1, ?_, heq.2.symm⟩)))
    · exact mem_entries_iff.mp he.1
    · rw [← heq.1, tagKey_append]

/-- The inherited entries are texts that were read. -/
theorem get_inherited {ctx : SpanContext} (h : (inherited ctx).get? k = some dv) :
    ∃ value v, (ctx.tracestate.getD {}).get (lit "dd") = some value ∧ dv = .text v ∧
      (k, v) ∈ Tracestate.parseEntries value (unit ';') (unit ':') false := by
  rw [← lastValue_entries, inherited, TraceStateData.fromString] at h
  rw [lastValue_map, lastValue_entries, map_eq_some_iff] at h
  obtain ⟨v, hv, rfl⟩ := h
  rcases hvalue : (ctx.tracestate.getD {}).get (lit "dd") with _ | value
  · rw [hvalue] at hv
    cases hv
  · rw [hvalue, Tracestate.fromString] at hv
    split at hv
    · cases hv
    · rw [get?_ofEntries] at hv
      exact ⟨value, v, rfl, rfl, mem_of_lastValue hv⟩

theorem cleanEntry_eq_some {r : Bool} {v k' v' : Str}
    (h : Tracestate.cleanEntry r (k, v) = some (k', v')) :
    k' = Str.trim k ∧ v' = v.trimEnd ∧ k' ≠ [] ∧ v' ≠ [] ∧ unit ' ' ∉ k' ∧ unit '\t' ∉ k' := by
  simp only [Tracestate.cleanEntry] at h
  split at h
  · cases h
  · next hk =>
    split at h
    · cases h
    · next hv =>
      obtain ⟨rfl, rfl⟩ := h
      rw [not_or, not_or] at hk
      rw [not_or] at hv
      exact ⟨rfl, rfl, hk.1, hv.1, hk.2.1, hk.2.2⟩

/-- An inherited entry is read as it is written. -/
theorem wire_inherited {ctx : SpanContext}
    (hread : ∀ ts, ctx.tracestate = some ts → Readable ts) (h : (inherited ctx).get? k = some dv) :
    WireKey k ∧ Plain dv.toString ∧ dv.toString.trimEnd = dv.toString ∧ dv.toString ≠ [] := by
  obtain ⟨value, v, hvalue, rfl, hmem⟩ := get_inherited h
  obtain ⟨k₀, v₀, hclean, hcolon, hsemi, hsemi', hk₀, hv₀⟩ := mem_parseEntries hmem
  obtain ⟨rfl, rfl, hkne, hvne, hblank, htab⟩ := cleanEntry_eq_some hclean
  have hcomma : unit ',' ∉ value ∧ unit '\t' ∉ value := by
    rcases hts : ctx.tracestate with _ | ts
    · rw [hts] at hvalue
      cases hvalue
    · rw [hts] at hvalue
      exact hread ts hts value hvalue
  have hsub : ∀ u ∈ Str.trimEnd v₀, u ∈ v₀ := fun u hu => ( rdropWhile_prefix _ _).subset hu
  refine ⟨⟨hkne, trim_trim k₀, ⟨hblank, htab⟩, fun hu => hcolon (mem_of_mem_trim hu), ?_⟩, ?_,
    trimEnd_trimEnd v₀, hvne⟩
  · exact plain_of_notMem (fun hu => hsemi (mem_of_mem_trim hu))
      (fun hu => hcomma.1 (hk₀ _ (mem_of_mem_trim hu)))
      (fun hu => hcomma.2 (hk₀ _ (mem_of_mem_trim hu)))
  · exact plain_of_notMem (fun hu => hsemi' (hsub _ hu)) (fun hu => hcomma.1 (hv₀ _ (hsub _ hu)))
      (fun hu => hcomma.2 (hv₀ _ (hsub _ hu)))

theorem plain_undefined : Plain (DataValue.toString .undefined) :=
  forall_mem_of_all (by decide)

/-- Every entry of the member after injection is read as it is written, but for blanks behind its
value. -/
theorem wire_ddState {ctx : SpanContext} (h : LocalContext ctx) (hsep : NoSeparator ctx)
    (hget : (ddState ctx).get? k = some dv) : WireKey k ∧ Plain dv.toString := by
  rw [get_ddState, or_eq_some_iff] at hget
  rcases hget with hget | ⟨-, hget⟩
  · rcases mem_ddWrites h.isLocal (mem_of_lastValue hget) with
      ⟨rfl, rfl⟩ | ⟨rfl, rfl⟩ | ⟨rfl, m, -, rfl⟩ | ⟨rfl, o, -, rfl⟩ | ⟨x, v, hx, -, rfl, rfl⟩
    · refine ⟨wireKey_of_forall (by decide) (forall_mem_of_all (by decide)), ?_⟩
      rcases ctx.spanId with _ | i
      · exact plain_undefined
      · exact plain_hex _
    · refine ⟨wireKey_of_forall (by decide) (forall_mem_of_all (by decide)), ?_⟩
      rcases ctx.sampling.priority with _ | z
      · exact plain_undefined
      · exact plain_toString z
    · exact ⟨wireKey_of_forall (by decide) (forall_mem_of_all (by decide)),
        (plain_toString m).cons (by decide)⟩
    · exact ⟨wireKey_of_forall (by decide) (forall_mem_of_all (by decide)), plain_originValue o⟩
    · exact ⟨wireKey_tagEntry (hsep x v hx), plain_tagValue v⟩
  · have := wire_inherited h.tracestate hget
    exact ⟨this.1, this.2.1⟩

/-! ## The member on the wire -/

/-- The entries of the member as they are printed. -/
def ddEntries (ctx : SpanContext) : List (Str × Str) :=
  (ddState ctx).entries.map fun e => (e.1, e.2.toString)

/-- The member as it is printed. -/
def ddValue (ctx : SpanContext) : Str := Tracestate.render (unit ':') (unit ';') (ddEntries ctx)

/-- The entries that are read back: those of the last 32 that have a value. -/
def readEntries (ctx : SpanContext) : List (Str × Str) :=
  ((ddEntries ctx).drop ((ddEntries ctx).length - Tracestate.maxListMembers)).filterMap
    (Tracestate.cleanEntry false)

/-- The key is among the last 32 that joined the member. -/
def Kept (ctx : SpanContext) (k : Str) : Prop :=
  k ∈ (ddKeys ctx).drop ((ddKeys ctx).length - Tracestate.maxListMembers)

instance (ctx : SpanContext) (k : Str) : Decidable (Kept ctx k) :=
  inferInstanceAs (Decidable (k ∈ List.drop _ _))

/-- What is read back under a key. -/
def readValue (ctx : SpanContext) (k : Str) : Option Str :=
  if Kept ctx k then
    ((ddState ctx).get? k).bind fun dv =>
      if dv.toString.trimEnd = [] then none else some dv.toString.trimEnd
  else none

theorem map_fst_ddEntries (ctx : SpanContext) : (ddEntries ctx).map Prod.fst = ddKeys ctx := by
  rw [ddEntries, List.map_map, ← keys_ddState]
  rfl

theorem nodup_ddEntries (ctx : SpanContext) : ((ddEntries ctx).map Prod.fst).Nodup := by
  rw [map_fst_ddEntries, ← keys_ddState]
  exact (ddState ctx).nodup_keys

theorem lastValue_ddEntries (ctx : SpanContext) (k : Str) :
    OrderedMap.lastValue (ddEntries ctx) k = ((ddState ctx).get? k).map DataValue.toString := by
  rw [ddEntries, lastValue_map, lastValue_entries]

variable {ctx : SpanContext}

theorem mem_ddEntries (h : LocalContext ctx) (hsep : NoSeparator ctx) {e : Str × Str}
    (he : e ∈ ddEntries ctx) : WireKey e.1 ∧ Plain e.2 := by
  obtain ⟨⟨k, dv⟩, hmem, rfl⟩ := List.mem_map.mp he
  exact wire_ddState h hsep (mem_entries_iff.mp hmem)

theorem cleanEntry_ddEntries (h : LocalContext ctx) (hsep : NoSeparator ctx) {e : Str × Str}
    (he : e ∈ ddEntries ctx) :
    Tracestate.cleanEntry false e =
      if e.2.trimEnd = [] then none else some (e.1, e.2.trimEnd) := by
  obtain ⟨hkey, hplain⟩ := mem_ddEntries h hsep he
  split
  · next hne => exact cleanEntry_of_blank hne
  · next hne => exact hkey.cleanEntry hplain.notMem.2.2 hne

/-- **What is read back under each key.** -/
theorem lastValue_readEntries (h : LocalContext ctx) (hsep : NoSeparator ctx) (k : Str) :
    OrderedMap.lastValue (readEntries ctx) k = readValue ctx k := by
  have hdrop : ∀ e ∈ (ddEntries ctx).drop ((ddEntries ctx).length - Tracestate.maxListMembers),
      e ∈ ddEntries ctx := fun e he => mem_of_mem_drop he
  have hlen : (ddEntries ctx).length = (ddKeys ctx).length := by
    rw [← map_fst_ddEntries, length_map]
  rw [readEntries, lastValue_filterMap, lastValue_drop, map_fst_ddEntries,
    hlen, lastValue_ddEntries, readValue]
  · by_cases hk : Kept ctx k
    · have hk' := hk
      rw [Kept] at hk'
      rw [if_pos hk', if_pos hk]
      rcases hget : (ddState ctx).get? k with _ | dv
      · rfl
      · have hmem : (k, dv.toString) ∈ ddEntries ctx :=
          List.mem_map.mpr ⟨(k, dv), mem_entries_iff.mpr hget, rfl⟩
        rw [map_some, bind_some, bind_some, cleanEntry_ddEntries h hsep hmem]
        split <;> rfl
    · have hk' := hk
      rw [Kept] at hk'
      rw [if_neg hk', if_neg hk]
      rfl
  · exact (nodup_ddEntries ctx).sublist (List.Sublist.map _ (drop_sublist _ _))
  · intro e he e' hclean
    rw [cleanEntry_ddEntries h hsep (hdrop e he)] at hclean
    split at hclean
    · cases hclean
    · rw [some_inj] at hclean
      rw [← hclean]

theorem nodup_readEntries (h : LocalContext ctx) (hsep : NoSeparator ctx) :
    ((readEntries ctx).map Prod.fst).Nodup := by
  have hmap : ∀ l : List (Str × Str), (∀ e ∈ l, e ∈ ddEntries ctx) →
      ((l.filterMap (Tracestate.cleanEntry false)).map Prod.fst).Sublist (l.map Prod.fst) := by
    intro l hl
    induction l with
    | nil => exact List.Sublist.slnil
    | cons e l ih =>
      have ih := ih (forall_mem_cons.mp hl).2
      have hclean := cleanEntry_ddEntries h hsep (hl e mem_cons_self)
      split at hclean
      · rw [filterMap_cons_none hclean]
        exact ih.cons e.1
      · rw [filterMap_cons_some hclean, map_cons]
        exact ih.cons_cons e.1
  refine (nodup_ddEntries ctx).sublist ((hmap _ fun e he => mem_of_mem_drop he).trans ?_)
  exact List.Sublist.map _ (drop_sublist _ _)

/-! ## Injecting the member -/

theorem mem_render {p f : UInt16} {l : List (Str × Str)} (h : u ∈ Tracestate.render p f l) :
    u = p ∨ u = f ∨ ∃ e ∈ l, u ∈ e.1 ∨ u ∈ e.2 := by
  induction l using List.reverseRecOn with
  | nil => cases h
  | append_singleton l e ih =>
    rw [render_append_singleton, Tracestate.segment, mem_append, mem_append, mem_cons] at h
    have hlift : ∀ x, x ∈ l → x ∈ l ++ [e] := fun x hx => mem_append_left _ hx
    rcases h with (h | h | h) | h
    · exact Or.inr (Or.inr ⟨e, by simp, Or.inl h⟩)
    · exact Or.inl h
    · exact Or.inr (Or.inr ⟨e, by simp, Or.inr h⟩)
    · split at h
      · cases h
      · rcases mem_cons.mp h with h | h
        · exact Or.inr (Or.inl h)
        · rcases ih h with h | h | ⟨x, hx, h⟩
          · exact Or.inl h
          · exact Or.inr (Or.inl h)
          · exact Or.inr (Or.inr ⟨x, hlift x hx, h⟩)

theorem separable_ddEntries (h : LocalContext ctx) (hsep : NoSeparator ctx) :
    Tracestate.Separable (unit ':') (unit ';') (ddEntries ctx) := by
  intro e he
  obtain ⟨hkey, hplain⟩ := mem_ddEntries h hsep he
  exact ⟨hkey.colon, hkey.plain.notMem.1, hplain.notMem.1⟩

theorem ddEntries_ne_nil (ctx : SpanContext) : ddEntries ctx ≠ [] := by
  intro hnil
  have hs : lit "s" ∈ (ddState ctx).keys := by
    rw [OrderedMap.mem_keys_iff, ← isSome_iff_exists, get_ddState, isSome_or]
    have : (OrderedMap.lastValue (ddWrites ctx) (lit "s")).isSome = true := by
      rw [isSome_iff_ne_none, Ne, lastValue_eq_none_iff]
      simp [ddWrites]
    rw [this, Bool.true_or]
  rw [keys_ddState, ← map_fst_ddEntries, hnil] at hs
  cases hs

theorem ddValue_chars (h : LocalContext ctx) (hsep : NoSeparator ctx) :
    unit ',' ∉ ddValue ctx ∧ unit '\t' ∉ ddValue ctx := by
  have key : ∀ u ∈ ddValue ctx, u ≠ unit ',' ∧ u ≠ unit '\t' := by
    intro u hu
    rcases mem_render hu with rfl | rfl | ⟨e, he, hu⟩
    · decide
    · decide
    · obtain ⟨hkey, hplain⟩ := mem_ddEntries h hsep he
      have hu' : isPlain u = true := hu.elim (hkey.plain u) (hplain u)
      simp only [isPlain, Bool.and_eq_true, bne_iff_ne] at hu'
      exact ⟨hu'.1.2, hu'.2⟩
  exact ⟨fun hu => (key _ hu).1 rfl, fun hu => (key _ hu).2 rfl⟩

theorem trimEnd_ddValue_ne_nil (ctx : SpanContext) : (ddValue ctx).trimEnd ≠ [] := by
  rw [Ne, Str.trimEnd, rdropWhile_eq_nil_iff]
  intro hall
  have hcolon : unit ':' ∈ ddValue ctx := by
    obtain ⟨l, e, hl⟩ := (eq_nil_or_concat (ddEntries ctx)).resolve_left (ddEntries_ne_nil ctx)
    rw [ddValue, hl, concat_eq_append, render_append_singleton, Tracestate.segment]
    simp
  exact absurd (hall _ hcolon) (by decide)

/-- The vendors that the context came with. -/
def vendors (ctx : SpanContext) : TraceState := ctx.tracestate.getD {}

theorem lastValue_parentWrites_of_ne (hk : k ≠ lit "p") :
    OrderedMap.lastValue (parentWrites ctx) k = none := by
  rw [lastValue_eq_none_iff, parentWrites]
  split
  · simp [hk]
  · split
    · split <;> simp [hk]
    · simp

/-- The priority is written over a text or over nothing, so that the member has changed. -/
theorem changed_injectDd (ctx : SpanContext) :
    (injectDd ctx (.fromString ((vendors ctx).get (lit "dd")))).changed = true := by
  rw [injectDd_eq, ddWrites, applyWrites_append, applyWrites_cons]
  refine changed_applyWrites ?_ _
  set state := applyWrites (.fromString ((vendors ctx).get (lit "dd"))) (parentWrites ctx)
    with hstate
  have hget : state.map.get? (lit "s") = (inherited ctx).get? (lit "s") := by
    rw [map_applyWrites, get?_foldl_set, lastValue_parentWrites_of_ne (by decide)]
    rfl
  rw [TraceStateData.set, if_neg]
  intro hsame
  rw [hget] at hsame
  obtain ⟨value, v, -, hdv, -⟩ := get_inherited hsame
  revert hdv
  rcases ctx.sampling.priority with _ | z
  all_goals exact DataValue.noConfusion

/-- **The member is always written**, before the other vendors. -/
theorem forVendor_injectDd (ctx : SpanContext) : (vendors ctx).forVendor (lit "dd") (injectDd ctx) =
      (vendors ctx).set (lit "dd") (ddValue ctx) := by
  have hvalue : (injectDd ctx (.fromString ((vendors ctx).get (lit "dd")))).toString =
      ddValue ctx := by
    rw [injectDd_eq, TraceStateData.toString, TraceStateData.entries, map_applyWrites]
    rfl
  have hne : ddValue ctx ≠ [] := by
    intro hnil
    exact trimEnd_ddValue_ne_nil ctx (by rw [hnil]; rfl)
  rw [TraceState.forVendor]
  simp only [changed_injectDd, hvalue]
  rw [if_pos trivial, if_pos hne]

/-- The context that extraction starts from, before it reads the member. -/
def startContext (m : TraceparentMatch) (traceId spanId : Identifier) (tracestate : TraceState) :
    SpanContext :=
  extract128BitTraceId m.traceId
    { traceId, spanId := some spanId, isRemote := true,
      sampling := { priority := some (flagPriority m.flags) },
      traceparent := some m.version, tracestate := some tracestate }

/-- **The member is read back**: extraction folds over the entries of `readEntries`. -/
theorem contextOfMatch_injected (h : LocalContext ctx) (hsep : NoSeparator ctx)
    (m : TraceparentMatch) (traceId spanId : Identifier) :
    ∃ ts, TraceState.fromString (some ((vendors ctx).set (lit "dd") (ddValue ctx)).toString) = ts ∧
      contextOfMatch m traceId spanId ts =
        (readEntries ctx).foldl extractDdEntry (startContext m traceId spanId ts) := by
  refine ⟨_, rfl, ?_⟩
  obtain ⟨hcomma, htab⟩ := ddValue_chars h hsep
  have hdd : WireKey (lit "dd") := wireKey_of_forall (by decide) (forall_mem_of_all (by decide))
  have hread := TraceState.get_fromString_toString_set (vendors ctx)
    (hdd.cleanEntry htab (trimEnd_ddValue_ne_nil ctx)) (by decide) ⟨by decide, hcomma⟩
  have hentries : (TraceStateData.fromString (some (ddValue ctx).trimEnd)).entries =
      readEntries ctx := by
    have hparse : Tracestate.fromString (some (ddValue ctx).trimEnd) (unit ';') (unit ':') false =
        .ofEntries (readEntries ctx) := by
      rw [Tracestate.fromString, if_neg (trimEnd_ddValue_ne_nil ctx), ddValue,
        parseEntries_trimEnd_render (by decide) (by decide) (separable_ddEntries h hsep)
          (ddEntries_ne_nil ctx)]
      rfl
    rw [TraceStateData.entries_fromString, hparse, entries_ofEntries (nodup_readEntries h hsep)]
  rw [contextOfMatch, hread, hentries]
  rfl

end DdTrace.TextMap
