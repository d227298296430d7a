import DdTrace.Propagation.W3cWire

/-!
# The members of `tracestate` on their way through

A context that was extracted with a `tracestate` header is injected with the member `dd` renewed and
with the members of the other vendors as they came.  The header may hold 32 members; `PassesThrough`
says what follows for an intermediary: `dd` is the first member, the other vendors follow as they
stood, as far as the limit lets them, and nothing of the incoming `dd` is lost that is not written
anew.

The code cuts the incoming header after 32 segments, wherever `dd` stands and whatever the segments
hold, and cuts the list inside `dd` the same way; it adds `dd` afterwards.  So 32 members of other
vendors go out as 33, a `dd` behind the first 32 is lost, and a vendor in the place behind it with
it.  `WithinLimits` is what a header has to meet.

* `emitted_eq`: the members that go out.
* `vendors_emitted_iff`: when the other vendors pass through.
* `passesThrough_iff`: **a header passes through exactly when it is within the limits.**
* `not_passesThrough`: 32 vendors do not.
-/

namespace DdTrace.TextMap

open Library Tracestate List Option OrderedMap

/-! ## Members of a header -/

/-- The list members of a header, those with a key and a value. -/
def listMembers (header : Str) : List (Str × Str) :=
  (header.split (unit ',')).filterMap (parseSegment (unit '=') true)

/-- The members among the first 32 segments. -/
def readMembers (header : Str) : List (Str × Str) :=
  ((header.split (unit ',')).take maxListMembers).filterMap (parseSegment (unit '=') true)

/-- The members behind them. -/
def cutMembers (header : Str) : List (Str × Str) :=
  ((header.split (unit ',')).drop maxListMembers).filterMap (parseSegment (unit '=') true)

/-- The members of the other vendors. -/
def otherVendors (l : List (Str × Str)) : List (Str × Str) := l.filter fun e => e.1 ≠ lit "dd"

/-- The value of the first member `dd`. -/
def ddMember (l : List (Str × Str)) : Option Str := l.lookup (lit "dd")

/-- The entries of a member `dd`. -/
def subEntries (value : Str) : List (Str × Str) :=
  (value.split (unit ';')).filterMap (parseSegment (unit ':') false)

/-- The entries among its first 32 segments. -/
def readSubEntries (value : Str) : List (Str × Str) :=
  ((value.split (unit ';')).take maxListMembers).filterMap (parseSegment (unit ':') false)

theorem listMembers_eq (header : Str) :
    listMembers header = readMembers header ++ cutMembers header := by
  rw [listMembers, readMembers, cutMembers, ← filterMap_append, take_append_drop]

theorem length_readMembers_le (header : Str) :
    (otherVendors (readMembers header)).length ≤ maxListMembers := by
  calc (otherVendors (readMembers header)).length ≤ (readMembers header).length :=
        length_filter_le _ _
    _ ≤ ((header.split (unit ',')).take maxListMembers).length := length_filterMap_le _ _
    _ ≤ maxListMembers := length_take_le _ _

/-- The vendors of a header are its read members, in reverse. -/
theorem map_fromString (header : Str) :
    (TraceState.fromString (some header)).map = .ofEntries (readMembers header).reverse := by
  show Tracestate.fromString (some header) (unit ',') (unit '=') true = _
  rw [Tracestate.fromString]
  split
  · next h =>
    subst h
    rfl
  · rfl

/-! ## What goes out -/

variable {ctx : SpanContext} {header : Str}

/-- The members that are printed, in the order of the wire. -/
def emitted (ctx : SpanContext) : List (Str × Str) :=
  ((vendors ctx).forVendor (lit "dd") (injectDd ctx)).map.entries.reverse

/-- They are what the header holds. -/
theorem tracestate_injectTraceparent {carrier c : Carrier} {ctx' : SpanContext}
    (h : injectTraceparent ctx carrier = some (ctx', c)) :
    c.tracestate = some (Str.join (unit ',') ((emitted ctx).map (segment (unit '=')))) := by
  rw [injectTraceparent, map_eq_some_iff] at h
  obtain ⟨traceparent, -, heq⟩ := h
  rw [Prod.mk.injEq] at heq
  rw [← heq.2, emitted, ← render_eq_join]
  rfl

/-- **What goes out**: the member `dd`, and the other vendors of the map. -/
theorem emitted_eq (ctx : SpanContext) : emitted ctx =
      (lit "dd", ddValue ctx) :: ((vendors ctx).map.delete (lit "dd")).entries.reverse := by
  rw [emitted, forVendor_injectDd, TraceState.entries_set, reverse_append]
  rfl

/-- The other vendors that go out. -/
theorem vendors_emitted (h : ctx.tracestate = some (.fromString (some header))) :
    (emitted ctx).tail =
      (OrderedMap.ofEntries (otherVendors (readMembers header)).reverse).entries.reverse := by
  rw [emitted_eq, vendors, h, getD_some, map_fromString, delete_ofEntries, filter_reverse]
  rfl

/-- The other vendors pass through: up to 31 of them, none twice, and none behind them that there
would be room for; or 32 of them, when the last two have one key. -/
def VendorsFit (header : Str) : Prop :=
  (((otherVendors (readMembers header)).map Prod.fst).Nodup ∧
    ((otherVendors (readMembers header)).length = 31 ∨
      (otherVendors (readMembers header)).length ≤ 31 ∧ otherVendors (cutMembers header) = [])) ∨
  ∃ l x y, otherVendors (readMembers header) = l ++ [x, y] ∧ l.length + 1 = 31 ∧ x.1 = y.1 ∧
    ((l ++ [x]).map Prod.fst).Nodup

theorem vendors_emitted_iff (h : ctx.tracestate = some (.fromString (some header))) :
    (emitted ctx).tail = (otherVendors (listMembers header)).take 31 ↔ VendorsFit header := by
  have hsplit : otherVendors (listMembers header) =
      otherVendors (readMembers header) ++ otherVendors (cutMembers header) := by
    rw [listMembers_eq, otherVendors, filter_append]
    rfl
  rw [vendors_emitted h, hsplit]
  exact reverse_ofEntries_reverse_eq_take_iff (length_readMembers_le header)

/-! ## The member `dd` -/

/-- The first pair with a key is the last one of the reversed list. -/
theorem lastValue_reverse (l : List (Str × Str)) (k : Str) :
    OrderedMap.lastValue l.reverse k = l.lookup k := by
  induction l with
  | nil => rfl
  | cons e l ih =>
    obtain ⟨i, v⟩ := e
    rw [reverse_cons, lastValue_append, ih, List.lookup_cons]
    by_cases hk : k = i
    · rw [hk]
      simp [OrderedMap.lastValue]
    · rw [beq_false_of_ne hk]
      simp [OrderedMap.lastValue, Ne.symm hk]

/-- The member that is found. -/
theorem get_vendors (h : ctx.tracestate = some (.fromString (some header))) :
    (vendors ctx).get (lit "dd") = ddMember (readMembers header) := by
  rw [vendors, h, getD_some, TraceState.get, map_fromString, get?_ofEntries, lastValue_reverse]
  rfl

/-- The first member `dd` is found unless it stands behind the first 32 segments. -/
theorem ddMember_iff (header : Str) :
    ddMember (readMembers header) = ddMember (listMembers header) ↔
      (ddMember (readMembers header) = none → ddMember (cutMembers header) = none) := by
  rw [listMembers_eq]
  simp only [ddMember, lookup_append]
  rcases List.lookup (lit "dd") (readMembers header) with _ | v
  · simp [eq_comm]
  · simp

/-- The entries that the context came with are the first ones of their keys. -/
theorem get_inherited_of_member {v : Str} (h : (vendors ctx).get (lit "dd") = some v) (k : Str) :
    (inherited ctx).get? k = ((readSubEntries v).lookup k).map .text := by
  have hmap : (inherited ctx).get? k =
      ((Tracestate.fromString (some v) (unit ';') (unit ':') false).get? k).map .text := by
    rw [← lastValue_entries]
    show OrderedMap.lastValue (TraceStateData.fromString ((vendors ctx).get (lit "dd"))).map.entries
      k = _
    rw [h, TraceStateData.fromString, lastValue_map, lastValue_entries]
  have hread : Tracestate.fromString (some v) (unit ';') (unit ':') false =
      .ofEntries (readSubEntries v).reverse := by
    rw [Tracestate.fromString]
    split
    · next hnil =>
      subst hnil
      rfl
    · rfl
  rw [hmap, hread, get?_ofEntries, lastValue_reverse]

/-- The keys that injection writes. -/
def writtenKeys (ctx : SpanContext) : List Str := (ddWrites ctx).map Prod.fst

theorem mem_ddEntries_iff {k x : Str} :
    (k, x) ∈ ddEntries ctx ↔ ∃ dv, (ddState ctx).get? k = some dv ∧ dv.toString = x := by
  rw [← lastValue_eq_some_iff (nodup_ddEntries ctx), lastValue_ddEntries, map_eq_some_iff]

/-- An entry that injection does not write goes out when it was read. -/
theorem mem_ddEntries_of_member {v : Str} (h : (vendors ctx).get (lit "dd") = some v) {k x : Str}
    (hk : k ∉ writtenKeys ctx) :
    (k, x) ∈ ddEntries ctx ↔ (readSubEntries v).lookup k = some x := by
  rw [mem_ddEntries_iff, get_ddState, lastValue_eq_none_iff.mpr hk, none_or,
    get_inherited_of_member h]
  constructor
  · rintro ⟨dv, hdv, rfl⟩
    obtain ⟨y, hy, rfl⟩ := map_eq_some_iff.mp hdv
    exact hy
  · intro hx
    exact ⟨.text x, by rw [hx, map_some], rfl⟩

/-! ## Passing through -/

/-- What the specification of `tracestate` asks of an intermediary, and Datadog of its member. -/
structure PassesThrough (ctx : SpanContext) (header : Str) : Prop where
  length_le : (emitted ctx).length ≤ 32
  head : (emitted ctx).head? = some (lit "dd", ddValue ctx)
  /-- The other vendors follow as they stood, dropped from the right at the limit. -/
  vendors : (emitted ctx).tail = (otherVendors (listMembers header)).take 31
  /-- The member `dd` is found wherever it stands. -/
  found : (TextMap.vendors ctx).get (lit "dd") = ddMember (listMembers header)
  /-- Its entries go out, unless they are written anew. -/
  entries : ∀ v, ddMember (listMembers header) = some v → ∀ e ∈ subEntries v,
    e.1 ∉ writtenKeys ctx → e ∈ ddEntries ctx

/-- What a header has to meet for it. -/
structure WithinLimits (ctx : SpanContext) (header : Str) : Prop where
  vendors : VendorsFit header
  /-- The first `dd` is not behind the first 32 segments. -/
  found : ddMember (readMembers header) = none → ddMember (cutMembers header) = none
  /-- Nor is any of its entries, unless it is written anew; and no key has two values. -/
  entries : ∀ v, ddMember (listMembers header) = some v → ∀ e ∈ subEntries v,
    e.1 ∉ writtenKeys ctx → (readSubEntries v).lookup e.1 = some e.2

/-- **A header passes through exactly when it is within the limits.** -/
theorem passesThrough_iff (h : ctx.tracestate = some (.fromString (some header))) :
    (∀ carrier ctx' c, injectTraceparent ctx carrier = some (ctx', c) →
      c.tracestate = some (Str.join (unit ',') ((emitted ctx).map (segment (unit '='))))) ∧
    (PassesThrough ctx header ↔ WithinLimits ctx header) := by
  refine ⟨fun carrier ctx' c hinject => tracestate_injectTraceparent hinject, ?_⟩
  have hfound : (vendors ctx).get (lit "dd") = ddMember (listMembers header) ↔
      (ddMember (readMembers header) = none → ddMember (cutMembers header) = none) := by
    rw [get_vendors h]
    exact ddMember_iff header
  constructor
  · intro hp
    refine ⟨(vendors_emitted_iff h).mp hp.vendors, hfound.mp hp.found, fun v hv e he hk => ?_⟩
    have hget : (vendors ctx).get (lit "dd") = some v := hp.found.trans hv
    exact (mem_ddEntries_of_member hget hk).mp (hp.entries v hv e he hk)
  · intro hw
    have htail := (vendors_emitted_iff h).mpr hw.vendors
    have hmember := hfound.mpr hw.found
    have hhead : (emitted ctx).head? = some (lit "dd", ddValue ctx) := by
      rw [emitted_eq, head?_cons]
    refine ⟨?_, hhead, htail, hmember, fun v hv e he hk => ?_⟩
    · have hlen := length_take_le 31 (otherVendors (listMembers header))
      rw [← htail, length_tail] at hlen
      omega
    · have hget : (vendors ctx).get (lit "dd") = some v := hmember.trans hv
      exact (mem_ddEntries_of_member hget hk).mpr (hw.entries v hv e he hk)

/-- A context that came with a header. -/
def contextWith (header : Str) : SpanContext where
  traceId := .word 1
  spanId := some (.word 2)
  tracestate := some (.fromString (some header))

/-- A header that passes through, with `dd` behind another vendor. -/
theorem passesThrough_iff_behind :
    (∀ carrier ctx' c, injectTraceparent (contextWith (lit "a=1,dd=s:2;x:y,b=3")) carrier =
      some (ctx', c) → c.tracestate = some (Str.join (unit ',')
        ((emitted (contextWith (lit "a=1,dd=s:2;x:y,b=3"))).map (segment (unit '='))))) ∧
    (PassesThrough (contextWith (lit "a=1,dd=s:2;x:y,b=3")) (lit "a=1,dd=s:2;x:y,b=3") ↔
      WithinLimits (contextWith (lit "a=1,dd=s:2;x:y,b=3")) (lit "a=1,dd=s:2;x:y,b=3")) :=
  passesThrough_iff rfl

/-- A header of 32 vendors. -/
def fullHeader : Str :=
  Str.join (unit ',') ((List.range 32).map fun n => Str.natString 10 n ++ lit "=v")

/-- **A full header does not pass through**: it goes out with 33 members. -/
theorem not_passesThrough :
    (contextWith fullHeader).tracestate = some (.fromString (some fullHeader)) ∧
      ¬ PassesThrough (contextWith fullHeader) fullHeader := by
  refine ⟨rfl, fun hp => ?_⟩
  have hlen := hp.length_le
  have hcame : (contextWith fullHeader).tracestate = some (.fromString (some fullHeader)) := rfl
  have htail := vendors_emitted hcame
  have hcount : ((OrderedMap.ofEntries
      (otherVendors (readMembers fullHeader)).reverse).entries.reverse).length = 32 := by
    decide +kernel
  rw [← htail, length_tail] at hcount
  omega

end DdTrace.TextMap
