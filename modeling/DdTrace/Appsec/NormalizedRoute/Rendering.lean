import DdTrace.Appsec.NormalizedRoute.Route
import Mathlib.Data.List.ReduceOption

/-!
# The text of a normalized route

`renderRoute` writes the tokens that are active, and `exists_rendered` says that this is a
`Rendered` route of them.

* `resolvedNames_spec`: the names are distinct.  The loop keeps the last of each name and makes up
  one for those before it, which no name in use has (`paramN_freshCounter_notMem`).
* `elementText_ne_nil`, `slash_notMem_elementText`: an element with a token has a text, and there is
  no slash in it.
* `Output.Says`: what the third pass has written and what it holds of the current element, by their
  tokens.  `Output.Says.run` is the run over the segments, in which each parameter takes the next
  of the names (`labelled`).
-/

namespace DdTrace.Appsec

open Library List Option
open Library.PercentEncoding

namespace NormalizedRoute

open OrderedMap

/-! ## The names -/

theorem paramN_injective {m n : ℕ} (h : paramN m = paramN n) : m = n :=
  Str.natString_injective (append_cancel_left h)

/-- The loop stops at a counter that is free, or has passed a used one with each turn. -/
theorem freshCounter_cases (used : List Str) (fuel counter : ℕ) :
    paramN (freshCounter used fuel counter) ∉ used ∨
      freshCounter used fuel counter = counter + fuel ∧
        ∀ i < fuel, paramN (counter + i) ∈ used := by
  induction fuel generalizing counter with
  | zero => exact .inr ⟨rfl, fun i hi => by omega⟩
  | succ fuel ih =>
    by_cases hmem : paramN counter ∈ used
    · rw [freshCounter, if_pos (includes_eq_true_iff.mpr hmem)]
      rcases ih (counter + 1) with h | ⟨h, hall⟩
      · exact .inl h
      · refine .inr ⟨by omega, fun i hi => ?_⟩
        rcases i with _ | i
        · exact hmem
        · have hi := hall i (by omega)
          rwa [Nat.add_assoc, Nat.add_comm 1] at hi
    · rw [freshCounter, if_neg (by simpa using hmem)]
      exact .inl hmem

/-- The name that is made up is not used. -/
theorem paramN_freshCounter_notMem (used : List Str) (counter : ℕ) :
    paramN (freshCounter used used.length counter) ∉ used := by
  rcases freshCounter_cases used used.length counter with h | ⟨h, hall⟩
  · exact h
  · intro hmem
    rw [h] at hmem
    have hnodup : ((List.range (used.length + 1)).map fun i => paramN (counter + i)).Nodup :=
      nodup_range.map fun i j hij => Nat.add_left_cancel (paramN_injective hij)
    have hsubset : (List.range (used.length + 1)).map (fun i => paramN (counter + i)) ⊆ used := by
      intro name hname
      obtain ⟨i, hi, rfl⟩ := List.mem_map.mp hname
      rw [mem_range] at hi
      rcases Nat.lt_or_ge i used.length with hlt | hle
      · exact hall i hlt
      · have hi : i = used.length := by omega
        rw [hi]
        exact hmem
    have hle := (hnodup.subperm hsubset).length_le
    rw [length_map, length_range] at hle
    omega

/-- The index of a name is its last one when the name does not come again. -/
theorem get?_lastIndexByName_iff (before : List Str) (name : Str) (after : List Str) :
    (lastIndexByName (before ++ name :: after)).get? name = some before.length ↔ name ∉ after := by
  rw [lastIndexByName, get?_foldl_set, get?_empty, zipIdx_append, zipIdx_cons, lastValue_append, OrderedMap.lastValue]
  rcases hlast : OrderedMap.lastValue (after.zipIdx (0 + before.length + 1)) name with _ | idx
  · rw [lastValue_eq_none_iff] at hlast
    simpa using hlast
  · have hmem := mem_of_lastValue hlast
    have hle := le_snd_of_mem_zipIdx hmem
    have hname : name ∈ after := fst_mem_of_mem_zipIdx hmem
    simp only [some_or, some_inj, not_true_eq_false, hname, iff_false]
    omega

/-- Each name is the last of its kind, or one that is made up. -/
def Resolves : List Str → List Str → Prop
  | [], resolved => resolved = []
  | name :: names, resolved => ∃ first others, resolved = first :: others ∧
      (if name ∈ names then ∃ n, first = paramN n else first = name) ∧ Resolves names others

/-- What the loop knows of the names it has still to resolve. -/
structure Known (lastIndex : OrderedMap Str ℕ) (names : List Str) (idx : ℕ) (used : List Str) :
    Prop where
  isLast_iff : ∀ before name after, names = before ++ name :: after →
    (lastIndex.get? name = some (idx + before.length) ↔ name ∉ after)
  mem_used : ∀ name ∈ names, name ∈ used

variable {names resolved : List Str} {contents : List Content}

theorem Known.tail {lastIndex : OrderedMap Str ℕ} {name : Str} {idx : ℕ}
    {used used' : List Str} (h : Known lastIndex (name :: names) idx used) (hused : used ⊆ used') :
    Known lastIndex names (idx + 1) used' where
  isLast_iff := by
    intro before name' after hnames
    have hlast := h.isLast_iff (name :: before) name' after (by rw [hnames]; rfl)
    rwa [length_cons, ← Nat.add_assoc, Nat.add_right_comm] at hlast
  mem_used := fun name' hname => hused (h.mem_used name' (mem_cons_of_mem _ hname))

theorem resolve_spec (lastIndex : OrderedMap Str ℕ) (names : List Str) (idx counter : ℕ)
    (used : List Str) (h : Known lastIndex names idx used) :
    Resolves names (resolve lastIndex (names.zipIdx idx) counter used) ∧
      (resolve lastIndex (names.zipIdx idx) counter used).Nodup ∧
      ∀ name ∈ resolve lastIndex (names.zipIdx idx) counter used, name ∈ used → name ∈ names := by
  induction names generalizing idx counter used with
  | nil => exact ⟨rfl, nodup_nil, fun name hname => (not_mem_nil hname).elim⟩
  | cons name names ih =>
    have hlast := h.isLast_iff [] name names rfl
    rw [length_nil, Nat.add_zero] at hlast
    rw [zipIdx_cons, resolve]
    by_cases hmem : name ∈ names
    · rw [if_neg fun hget => hlast.mp hget hmem]
      have hfresh := paramN_freshCounter_notMem used counter
      obtain ⟨hresolves, hnodup, hold⟩ := ih (idx + 1) (freshCounter used used.length counter + 1)
        (used ++ [paramN (freshCounter used used.length counter)])
        (h.tail (subset_append_left _ _))
      refine ⟨⟨_, _, rfl, ?_, hresolves⟩, nodup_cons.mpr ⟨?_, hnodup⟩, ?_⟩
      · rw [if_pos hmem]
        exact ⟨_, rfl⟩
      · intro hagain
        have hname := hold _ hagain (mem_append_right _ (mem_singleton_self _))
        exact hfresh (h.mem_used _ (mem_cons_of_mem _ hname))
      · intro name' hname' hused
        rcases mem_cons.mp hname' with rfl | hname'
        · exact (hfresh hused).elim
        · exact mem_cons_of_mem _ (hold name' hname' (mem_append_left _ hused))
    · rw [if_pos (hlast.mpr hmem)]
      obtain ⟨hresolves, hnodup, hold⟩ := ih (idx + 1) counter used (h.tail (List.Subset.refl _))
      refine ⟨⟨_, _, rfl, ?_, hresolves⟩, nodup_cons.mpr ⟨?_, hnodup⟩, ?_⟩
      · rw [if_neg hmem]
      · exact fun hagain => hmem (hold name hagain (h.mem_used name (mem_cons_self ..)))
      · intro name' hname' hused
        rcases mem_cons.mp hname' with rfl | hname'
        · exact mem_cons_self ..
        · exact mem_cons_of_mem _ (hold name' hname' hused)

theorem exists_last {name : Str} (h : name ∈ names) :
    ∃ before after, names = before ++ name :: after ∧ name ∉ after := by
  obtain ⟨after, before, hreverse, hnotMem⟩ :=
    eq_append_cons_of_mem (mem_reverse.mpr h)
  refine ⟨before.reverse, after.reverse, ?_, by rwa [mem_reverse]⟩
  rw [← reverse_reverse names, hreverse]
  simp

/-- **The names of a rendering** are distinct, and the last of a kind is kept. -/
theorem resolvedNames_spec (names : List Str) :
    Resolves names (resolvedNames names) ∧ (resolvedNames names).Nodup := by
  have hlast (before : List Str) (name : Str) (after : List Str)
      (hnames : names = before ++ name :: after) :
      (lastIndexByName names).get? name = some (0 + before.length) ↔ name ∉ after := by
    rw [hnames, Nat.zero_add]
    exact get?_lastIndexByName_iff before name after
  have hknown : Known (lastIndexByName names) names 0
      ((names.zipIdx.filter fun e => (lastIndexByName names).get? e.1 == some e.2).map (·.1)) := by
    refine ⟨hlast, fun name hname => ?_⟩
    obtain ⟨before, after, hnames, hafter⟩ := exists_last hname
    refine List.mem_map.mpr ⟨(name, before.length), mem_filter.mpr ⟨?_, ?_⟩, rfl⟩
    · rw [mem_zipIdx_iff_getElem?, hnames, getElem?_append_right le_rfl, Nat.sub_self]
      rfl
    · have hget := (hlast before name after hnames).mpr hafter
      simpa using hget
  obtain ⟨hresolves, hnodup, -⟩ := resolve_spec _ _ 0 1 _ hknown
  exact ⟨hresolves, hnodup⟩

/-! ## The texts of the elements -/

theorem slash_notMem_escapeByte (b : UInt8) : unit '/' ∉ escapeByte b := by
  have hb := b.toNat_lt
  intro h
  rw [escapeByte, mem_cons, mem_cons, mem_singleton] at h
  have hdigit {n : ℕ} (hn : n < 16) : unit '/' ≠ upperDigit n := fun hslash =>
    absurd (hslash ▸ upperDigit_isKept hn) (by decide)
  rcases h with h | h | h
  · exact absurd h (by decide)
  · exact hdigit (by omega) h
  · exact hdigit (by omega) h

theorem slash_notMem_units {c : ℕ} (h : isStaticChar c = true) : unit '/' ∉ Unicode.units c := by
  have hc : c < 0x80 := by
    simp only [isStaticChar, Bool.or_eq_true, Bool.and_eq_true, decide_eq_true_eq, beq_iff_eq] at h
    omega
  have hunits : ∀ c < 0x80, isStaticChar c = true → unit '/' ∉ Unicode.units c := by decide
  exact hunits c hc h

theorem slash_notMem_encodeStaticSegment (str : Str) :
    unit '/' ∉ encodeStaticSegment str := by
  intro h
  obtain ⟨c, -, h⟩ := mem_flatMap.mp h
  by_cases hstatic : isStaticChar c = true
  · rw [if_pos hstatic] at h
    exact slash_notMem_units hstatic h
  · rw [if_neg hstatic] at h
    by_cases hascii : c < 0x80
    · rw [if_pos hascii] at h
      exact slash_notMem_escapeByte _ h
    · rw [if_neg hascii] at h
      rcases hencode : encodeURIComponent (Unicode.units c) with _ | e
      · rw [hencode] at h
        exact absurd h (by decide)
      · rw [hencode] at h
        rcases isKept_or_percent_of_encode hencode _ h with h | h
        all_goals exact absurd h (by decide)

theorem encodeStaticSegment_ne_nil {str : Str} (h : str ≠ []) : encodeStaticSegment str ≠ [] := by
  have hunits (c : ℕ) : Unicode.units c ≠ [] := by
    rw [Unicode.units]
    split <;> exact cons_ne_nil _ _
  intro hnil
  rw [encodeStaticSegment, flatMap_eq_nil_iff] at hnil
  rcases hchars : Unicode.chars str with _ | ⟨c, cs⟩
  · have hback := Unicode.units_chars str
    rw [hchars] at hback
    exact h hback.symm
  · have hc := hnil c (by rw [hchars]; exact mem_cons_self ..)
    by_cases hstatic : isStaticChar c = true
    · rw [if_pos hstatic] at hc
      exact hunits c hc
    · rw [if_neg hstatic] at hc
      by_cases hascii : c < 0x80
      · rw [if_pos hascii] at hc
        exact cons_ne_nil _ _ hc
      · rw [if_neg hascii] at hc
        rcases hencode : encodeURIComponent (Unicode.units c) with _ | e
        · rw [hencode] at hc
          exact absurd hc (by decide)
        · rw [hencode] at hc
          exact hunits c ((encode_eq_nil_iff hencode).mp hc)

theorem slash_notMem_encodeParamName (name : Str) : unit '/' ∉ encodeParamName name := by
  intro h
  obtain ⟨u, -, h⟩ := mem_flatMap.mp h
  by_cases hreserved : isReservedInName u = true
  · rw [if_pos hreserved] at h
    exact slash_notMem_escapeByte _ h
  · rw [if_neg hreserved, mem_singleton] at h
    exact hreserved (h ▸ by decide)

theorem slash_notMem_paramN (n : ℕ) : unit '/' ∉ paramN n := by
  intro h
  rcases mem_append.mp h with h | h
  · exact absurd h (by decide)
  · obtain ⟨d, hd⟩ := Str.digit?_of_mem_natString (by omega) (by omega) h
    exact absurd hd (by simp [Str.digit?, unit])

/-! ## Parts -/

/-- The tokens of the elements, which take the names one after the other. -/
def labelled : List Content → List Str → List Part
  | [], _ => []
  | content :: contents, names =>
    if content.name?.isSome then ⟨content, names.headD []⟩ :: labelled contents names.tail
    else ⟨content, []⟩ :: labelled contents names

/-- How many names contents take. -/
def dynamicCount (contents : List Content) : ℕ := contents.countP fun c => c.name?.isSome

theorem dynamicCount_cons (content : Content) (contents : List Content) :
    dynamicCount (content :: contents) =
      dynamicCount contents + if content.name?.isSome then 1 else 0 := countP_cons ..

theorem map_content_labelled (contents : List Content) (names : List Str) :
    (labelled contents names).map (·.content) = contents := by
  induction contents generalizing names with
  | nil => rfl
  | cons content contents ih =>
    rw [labelled]
    split <;> rw [map_cons, ih]

theorem labelled_append (contents contents' : List Content) (names : List Str) :
    labelled (contents ++ contents') names =
      labelled contents names ++ labelled contents' (names.drop (dynamicCount contents)) := by
  induction contents generalizing names with
  | nil => rfl
  | cons content contents ih =>
    rw [cons_append, labelled, labelled, dynamicCount_cons]
    split
    · rw [ih, cons_append, drop_tail]
    · rw [ih, cons_append, Nat.add_zero]

theorem filterMap_name?_labelled (h : names.length = dynamicCount contents) :
    (labelled contents names).filterMap Part.name? = names := by
  induction contents generalizing names with
  | nil => exact (length_eq_zero_iff.mp h).symm
  | cons content contents ih =>
    rw [dynamicCount_cons] at h
    rw [labelled]
    by_cases hname : content.name?.isSome = true
    · rw [if_pos hname] at h ⊢
      rcases names with _ | ⟨name, names⟩
      · simp at h
      · obtain ⟨n, hn⟩ := isSome_iff_exists.mp hname
        have hpart : Part.name? ⟨content, name⟩ = some name := by rw [Part.name?, hn]; rfl
        rw [headD_cons, tail_cons, filterMap_cons_some hpart, ih (by simpa using h)]
    · rw [if_neg hname] at h ⊢
      have hpart : Part.name? ⟨content, []⟩ = none := by
        rw [Part.name?, not_isSome_iff_eq_none.mp hname]
        rfl
      rw [filterMap_cons_none hpart, ih h]

/-- The names of contents, as they are encoded. -/
def encodedNames (contents : List Content) : List Str :=
  contents.filterMap fun c => c.name?.map encodeParamName

theorem length_encodedNames (contents : List Content) :
    (encodedNames contents).length = dynamicCount contents := by
  induction contents with
  | nil => rfl
  | cons content contents ih =>
    rw [dynamicCount_cons, ← ih, encodedNames, filterMap_cons]
    cases content.name? with
    | none => rfl
    | some name => rfl

theorem length_of_resolves (h : Resolves names resolved) :
    resolved.length = names.length := by
  induction names generalizing resolved with
  | nil => exact congrArg List.length (show resolved = [] from h)
  | cons name names ih =>
    obtain ⟨first, others, rfl, -, h⟩ := h
    rw [length_cons, length_cons, ih h]

theorem named_labelled (h : Resolves (encodedNames contents) resolved) :
    Named (labelled contents resolved) := by
  induction contents generalizing resolved with
  | nil => trivial
  | cons content contents ih =>
    have hlater (names : List Str) : (labelled contents names).filterMap
        (fun q => q.content.name?.map encodeParamName) = encodedNames contents := by
      rw [encodedNames]
      conv_rhs => rw [← map_content_labelled contents names, filterMap_map]
      rfl
    rw [encodedNames, filterMap_cons] at h
    rcases hname : content.name? with _ | name
    · rw [hname] at h
      rw [labelled, if_neg (by rw [hname]; simp)]
      refine ⟨fun name hn => ?_, ih h⟩
      rw [hname] at hn
      cases hn
    · rw [hname] at h
      obtain ⟨first, others, rfl, hfirst, h⟩ := h
      rw [labelled, if_pos (by rw [hname]; rfl)]
      refine ⟨fun name' hn => ?_, ih h⟩
      rw [hname, mem_some_iff] at hn
      rw [hlater, ← hn]
      exact hfirst

/-! ## The elements -/

/-- What is to be rendered: a new element, or a token of the current one. -/
def Output.event (s : Output) : Option Content → Output
  | none => s.flush
  | some (.static text) => { s with staticText := s.staticText ++ text }
  | some content => { s with
      names := s.names.tail
      paramNames := s.paramNames ++ s.names.take 1
      isCatchAll := s.isCatchAll || content.isWildcard }

/-- The events of a segment. -/
def eventsOf (groupParent : OrderedMap ℕ ℕ) (present : List ℕ) (seg : RouteSegment) :
    List (Option Content) :=
  (if groupActive seg.group groupParent present then [none] else []) ++
    (seg.tokens.filter fun t => groupActive t.group groupParent present).map (some ·.content)

variable (groupParent : OrderedMap ℕ ℕ)

theorem foldl_token (present : List ℕ) (tokens : List RouteToken)
    (s : Output) : tokens.foldl (Output.token groupParent present) s =
      ((tokens.filter fun t => groupActive t.group groupParent present).map
        (some ·.content)).foldl Output.event s := by
  induction tokens generalizing s with
  | nil => rfl
  | cons t tokens ih =>
    rw [foldl_cons, ih, filter_cons, Output.token]
    by_cases hactive : groupActive t.group groupParent present = true
    · rw [if_pos hactive, if_pos hactive, map_cons, foldl_cons]
      rcases t.content with _ | text | name | name <;> rfl
    · rw [if_neg hactive, if_neg hactive]

theorem foldl_segment (present : List ℕ) (segments : List RouteSegment) (s : Output) :
    segments.foldl (Output.segment groupParent present) s =
      (segments.flatMap (eventsOf groupParent present)).foldl Output.event s := by
  induction segments generalizing s with
  | nil => rfl
  | cons seg segments ih =>
    rw [foldl_cons, ih, flatMap_cons, Output.segment, foldl_token, eventsOf, foldl_append]
    split <;> rfl

/-- The output says these elements and this current one. -/
structure Output.Says (s : Output) (elements : List (List Part)) (current : List Part) : Prop where
  out_eq : s.out = elements.map elementText
  staticText_eq : s.staticText = current.flatMap fun p => p.content.staticText
  paramNames_eq : s.paramNames = current.filterMap Part.name?
  isCatchAll_eq : s.isCatchAll = current.any fun p => p.content.isWildcard

theorem Content.isSome_name?_of_isWildcard {content : Content} (h : content.isWildcard = true) :
    content.name?.isSome = true := by
  cases content with
  | slash => cases h
  | static text => cases h
  | param name => cases h
  | wildcard name => rfl

theorem Content.staticText_ne_nil {content : Content} (h : content.IsProper)
    (hname : content.name? = none) : content.staticText ≠ [] := by
  cases content with
  | slash => exact (h.1 rfl).elim
  | static text => exact fun hnil => h.2 (congrArg Content.static hnil)
  | param name | wildcard name => cases hname

namespace Output.Says

variable {s : Output} {elements : List (List Part)} {current : List Part}

/-- `flush` writes the current element, if there is one. -/
theorem element_eq (h : s.Says elements current) (hproper : ∀ p ∈ current, p.content.IsProper) :
    s.element = if current.isEmpty then [] else [elementText current] := by
  rcases hnames : current.filterMap Part.name? with _ | ⟨name, names⟩
  · have hnone : ∀ p ∈ current, p.content.name? = none := by
      intro p hp
      have hp := filterMap_eq_nil_iff.mp hnames p hp
      rwa [Part.name?, map_eq_none_iff] at hp
    have hcatchAll : s.isCatchAll = false := by
      rw [h.isCatchAll_eq, List.any_eq_false]
      intro p hp hwildcard
      have hname := Content.isSome_name?_of_isWildcard hwildcard
      rw [hnone p hp] at hname
      cases hname
    rw [element, hcatchAll, if_neg Bool.false_ne_true, h.paramNames_eq, hnames, if_neg (by simp),
      if_neg (by simp)]
    rcases current with _ | ⟨p, current⟩
    · rw [h.staticText_eq]
      rfl
    · have hstatic : s.staticText.isEmpty = false := by
        rw [h.staticText_eq, isEmpty_eq_false_iff]
        exact fun hnil => Content.staticText_ne_nil (hproper p (mem_cons_self ..))
          (hnone p (mem_cons_self ..)) (append_eq_nil_iff.mp hnil).1
      rw [hstatic, if_neg Bool.false_ne_true, if_neg (by simp), elementText, hnames,
        isEmpty_nil, if_pos rfl, h.staticText_eq]
  · have hne : current.isEmpty = false := by
      rw [isEmpty_eq_false_iff]
      rintro rfl
      cases hnames
    have htext : elementText current = braced (Str.join (unit '+') (name :: names)) := by
      rw [elementText, hnames]
      rfl
    rw [hne, if_neg Bool.false_ne_true, htext, element, h.paramNames_eq, hnames]
    by_cases hcatchAll : s.isCatchAll = true
    · rw [if_pos hcatchAll]
    · rw [if_neg hcatchAll]
      rcases names with _ | ⟨name', names⟩
      · rw [Str.join_singleton]
        rfl
      · rw [if_neg (by simp), if_pos (by simp)]

theorem flush (h : s.Says elements current) (hproper : ∀ p ∈ current, p.content.IsProper) :
    s.flush.Says (elements ++ if current.isEmpty then [] else [current]) [] where
  out_eq := by
    show s.out ++ s.element = _
    rw [h.element_eq hproper, h.out_eq, map_append]
    split <;> rfl
  staticText_eq := rfl
  paramNames_eq := rfl
  isCatchAll_eq := rfl

/-- A token of the current element takes the next name if it is a parameter. -/
theorem content (h : s.Says elements current) {content : Content} (hproper : content.IsProper)
    (hlength : content.name?.isSome = true → s.names ≠ []) :
    (s.event (some content)).Says elements (current ++ labelled [content] s.names) ∧
      (s.event (some content)).names = s.names.drop (dynamicCount [content]) := by
  have hout := h.out_eq
  have hstatic := h.staticText_eq
  have hparam := h.paramNames_eq
  have hcatchAll := h.isCatchAll_eq
  cases content with
  | slash => exact (hproper.1 rfl).elim
  | static text =>
    refine ⟨⟨hout, ?_, ?_, ?_⟩, rfl⟩
    · show s.staticText ++ text = _
      rw [hstatic, flatMap_append]
      exact congrArg _ (append_nil text).symm
    · show s.paramNames = _
      rw [hparam, filterMap_append]
      exact (append_nil _).symm
    · show s.isCatchAll = _
      rw [hcatchAll, any_append]
      exact (Bool.or_false _).symm
  | param name =>
    obtain ⟨first, names, hnames⟩ := exists_cons_of_ne_nil (hlength rfl)
    refine ⟨⟨hout, ?_, ?_, ?_⟩, by show s.names.tail = _; rw [hnames]; rfl⟩
    · show s.staticText = _
      rw [hstatic, flatMap_append]
      exact (append_nil _).symm
    · show s.paramNames ++ s.names.take 1 = _
      rw [hparam, filterMap_append, hnames]
      rfl
    · show (s.isCatchAll || false) = _
      rw [hcatchAll, any_append]
      rfl
  | wildcard name =>
    obtain ⟨first, names, hnames⟩ := exists_cons_of_ne_nil (hlength rfl)
    refine ⟨⟨hout, ?_, ?_, ?_⟩, by show s.names.tail = _; rw [hnames]; rfl⟩
    · show s.staticText = _
      rw [hstatic, flatMap_append]
      exact (append_nil _).symm
    · show s.paramNames ++ s.names.take 1 = _
      rw [hparam, filterMap_append, hnames]
      rfl
    · show (s.isCatchAll || true) = _
      rw [hcatchAll, any_append]
      rfl

end Output.Says

/-- The run over the events: the tokens of the elements are those of the events, in their order. -/
theorem Output.Says.run {s : Output} {elements : List (List Part)} {current : List Part}
    (h : s.Says elements current) (events : List (Option Content))
    (hproper : ∀ p ∈ current, p.content.IsProper)
    (hevents : ∀ content, some content ∈ events → content.IsProper)
    (hlength : s.names.length = dynamicCount events.reduceOption)
    (hne : ∀ parts ∈ elements, parts ≠ []) :
    ∃ elements' current', (events.foldl Output.event s).Says elements' current' ∧
      (∀ p ∈ current', p.content.IsProper) ∧ (∀ parts ∈ elements', parts ≠ []) ∧
      elements'.flatten ++ current' =
        elements.flatten ++ current ++ labelled events.reduceOption s.names := by
  induction events generalizing s elements current with
  | nil => exact ⟨elements, current, h, hproper, hne, (append_nil _).symm⟩
  | cons event events ih =>
    have htail : ∀ content, some content ∈ events → content.IsProper := fun content hmem =>
      hevents content (mem_cons_of_mem _ hmem)
    rcases event with _ | content
    · obtain ⟨elements', current', hstates, hproper', hne', hflatten⟩ := ih (h.flush hproper)
        (fun p hp => (not_mem_nil hp).elim) htail hlength (by
          intro parts hparts
          rcases mem_append.mp hparts with hparts | hparts
          · exact hne parts hparts
          · by_cases hempty : current.isEmpty = true
            · rw [if_pos hempty] at hparts
              cases hparts
            · rw [if_neg hempty, mem_singleton] at hparts
              rw [hparts]
              simpa using hempty)
      refine ⟨elements', current', hstates, hproper', hne', ?_⟩
      rw [hflatten, append_nil, flatten_append]
      congr 2
      rcases current with _ | ⟨p, current⟩
      · rfl
      · exact append_nil _
    · have hcontent := hevents content (mem_cons_self ..)
      rw [reduceOption_cons_of_some, dynamicCount_cons] at hlength
      obtain ⟨hstates, hnames⟩ := h.content hcontent fun hname => by
        rw [if_pos hname] at hlength
        rintro hnil
        rw [hnil] at hlength
        simp at hlength
      have hcount : dynamicCount [content] = if content.name?.isSome then 1 else 0 := by
        rw [dynamicCount_cons]
        exact Nat.zero_add _
      have happend := labelled_append [content] events.reduceOption s.names
      rw [← hnames] at happend
      obtain ⟨elements', current', hstates', hproper', hne', hflatten⟩ := ih hstates (by
          intro p hp
          rcases mem_append.mp hp with hp | hp
          · exact hproper p hp
          · have hmem : p.content ∈ (labelled [content] s.names).map (·.content) :=
              List.mem_map_of_mem hp
            rw [map_content_labelled, mem_singleton] at hmem
            rwa [hmem]) htail (by
          rw [hnames, length_drop, hcount]
          omega) hne
      refine ⟨elements', current', hstates', hproper', hne', ?_⟩
      rw [singleton_append] at happend
      rw [hflatten, reduceOption_cons_of_some, happend]
      simp only [append_assoc]

theorem dropLast_filter_subset {α : Type*} (f : α → Bool) (l : List α) :
    (l.filter f).dropLast ⊆ l.dropLast := by
  rcases eq_nil_or_concat l with rfl | ⟨init, a, rfl⟩
  · exact List.Subset.refl _
  · rw [concat_eq_append, filter_append, dropLast_concat]
    rcases ha : f a with _ | _
    · rw [filter_singleton, ha, cond_false, append_nil]
      exact List.Subset.trans (dropLast_subset _) (filter_subset_self init)
    · rw [filter_singleton, ha, cond_true, dropLast_concat]
      exact filter_subset_self init

theorem mem_or_paramN_of_resolves (h : Resolves names resolved) :
    ∀ name ∈ resolved, name ∈ names ∨ ∃ n, name = paramN n := by
  induction names generalizing resolved with
  | nil =>
    rw [show resolved = [] from h]
    exact fun name hname => (not_mem_nil hname).elim
  | cons name names ih =>
    obtain ⟨first, others, rfl, hfirst, h⟩ := h
    intro name' hname'
    rcases mem_cons.mp hname' with rfl | hname'
    · split at hfirst
      · exact .inr hfirst
      · exact .inl (hfirst ▸ mem_cons_self ..)
    · exact (ih h name' hname').imp_left (mem_cons_of_mem _)

theorem slash_notMem_of_resolves (h : Resolves (encodedNames contents) resolved) :
    ∀ name ∈ resolved, unit '/' ∉ name := by
  intro name hname
  rcases mem_or_paramN_of_resolves h name hname with hname | ⟨n, rfl⟩
  · obtain ⟨content, -, hcontent⟩ := mem_filterMap.mp hname
    obtain ⟨original, -, rfl⟩ := map_eq_some_iff.mp hcontent
    exact slash_notMem_encodeParamName original
  · exact slash_notMem_paramN n

theorem elementText_ne_nil {parts : List Part} (hne : parts ≠ [])
    (hproper : ∀ p ∈ parts, p.content.IsProper) : elementText parts ≠ [] := by
  rw [elementText]
  rcases hnames : parts.filterMap Part.name? with _ | ⟨name, names⟩
  · obtain ⟨p, parts, rfl⟩ := exists_cons_of_ne_nil hne
    have hname := filterMap_eq_nil_iff.mp hnames p (mem_cons_self ..)
    rw [Part.name?, map_eq_none_iff] at hname
    refine encodeStaticSegment_ne_nil fun hnil => ?_
    exact Content.staticText_ne_nil (hproper p (mem_cons_self ..)) hname
      (append_eq_nil_iff.mp hnil).1
  · exact cons_ne_nil _ _

theorem slash_notMem_elementText {parts : List Part}
    (h : ∀ name ∈ parts.filterMap Part.name?, unit '/' ∉ name) :
    unit '/' ∉ elementText parts := by
  rw [elementText]
  split
  · exact slash_notMem_encodeStaticSegment _
  · intro hmem
    rw [braced, mem_cons, mem_append] at hmem
    rcases hmem with hmem | hmem | hmem
    · exact absurd hmem (by decide)
    · rcases Str.mem_join hmem with hmem | ⟨name, hname, hmem⟩
      · exact absurd hmem (by decide)
      · exact h name hname hmem
    · exact absurd hmem (by decide)

theorem reduceOption_events (present : List ℕ) (segments : List RouteSegment) :
    (segments.flatMap (eventsOf groupParent present)).reduceOption =
      ((segments.flatMap (·.tokens)).filter fun t =>
        groupActive t.group groupParent present).map (·.content) := by
  induction segments with
  | nil => rfl
  | cons seg segments ih =>
    have hsome (l : List RouteToken) :
        (l.map (some ·.content)).reduceOption = l.map (·.content) := by
      rw [List.reduceOption, filterMap_map]
      exact congrFun filterMap_eq_map l
    rw [flatMap_cons, flatMap_cons, reduceOption_append, ih, filter_append,
      map_append, eventsOf, reduceOption_append, hsome]
    split <;> rfl

theorem map_presentDynamic (compiled : Template) (present : List ℕ) :
    (presentDynamic compiled present).map (fun t => encodeParamName t.name) =
      encodedNames (activeContents compiled present) := by
  rw [presentDynamic, activeContents]
  induction compiled.segments.flatMap (·.tokens) with
  | nil => rfl
  | cons t tokens ih =>
    rw [filter_cons, filter_cons]
    by_cases hactive : groupActive t.group compiled.groupParent present = true
    · rw [hactive, if_pos rfl, map_cons, encodedNames, filterMap_cons, isDynamic]
      rcases hname : t.content.name? with _ | name
      · exact ih
      · rw [if_pos (by rfl), map_cons, ih, RouteToken.name, hname]
        rfl
    · rw [Bool.not_eq_true] at hactive
      rw [hactive, Bool.and_false, if_neg Bool.false_ne_true]
      exact ih

/-- **What `renderRoute` writes** is the rendering of what is active. -/
theorem exists_rendered (compiled : Template) (present : List ℕ)
    (hproper : ∀ t ∈ compiled.segments.flatMap (·.tokens), t.content.IsProper)
    (hlast : ∀ t ∈ (compiled.segments.flatMap (·.tokens)).dropLast, t.content.isWildcard = false) :
    ∃ r : Rendered (activeContents compiled present), r.text = renderRoute compiled present := by
  obtain ⟨hresolves, hnodup⟩ := resolvedNames_spec (encodedNames (activeContents compiled present))
  have hevents := reduceOption_events compiled.groupParent present compiled.segments
  have hstates : Output.Says ⟨[], resolvedNames (encodedNames (activeContents compiled present)), [],
      [], false⟩ [] [] := ⟨rfl, rfl, rfl, rfl⟩
  obtain ⟨elements, current, hstates, hcurrent, hne, hflatten⟩ := hstates.run
    (compiled.segments.flatMap (eventsOf compiled.groupParent present))
    (fun p hp => (not_mem_nil hp).elim) (by
      intro content hcontent
      rw [← reduceOption_mem_iff, hevents] at hcontent
      obtain ⟨t, ht, rfl⟩ := List.mem_map.mp hcontent
      exact hproper t (mem_filter.mp ht).1) (by
      rw [length_of_resolves hresolves, length_encodedNames, hevents]
      rfl) (fun parts hparts => (not_mem_nil hparts).elim)
  have hflush := hstates.flush hcurrent
  rw [← foldl_segment] at hflush
  have hlabelled : (elements ++ if current.isEmpty then [] else [current]).flatten =
      labelled (activeContents compiled present)
        (resolvedNames (encodedNames (activeContents compiled present))) := by
    rw [hevents] at hflatten
    rw [flatten_append]
    refine Eq.trans ?_ hflatten
    congr 1
    rcases current with _ | ⟨p, current⟩
    · rfl
    · exact append_nil _
  have hne' : ∀ parts ∈ elements ++ (if current.isEmpty then [] else [current]), parts ≠ [] := by
    intro parts hparts
    rcases mem_append.mp hparts with hparts | hparts
    · exact hne parts hparts
    · rcases current with _ | ⟨p, current⟩
      · cases hparts
      · rw [if_neg (by simp), mem_singleton] at hparts
        rw [hparts]
        exact cons_ne_nil _ _
  generalize (elements ++ if current.isEmpty then [] else [current]) = elements at *
  have hcontent : elements.flatten.map (·.content) = activeContents compiled present := by
    rw [hlabelled, map_content_labelled]
  have hnames : elements.flatten.filterMap Part.name? =
      resolvedNames (encodedNames (activeContents compiled present)) := by
    rw [hlabelled, filterMap_name?_labelled]
    rw [length_of_resolves hresolves, length_encodedNames]
  have hparts : ∀ parts ∈ elements, ∀ p ∈ parts, p.content ∈ activeContents compiled present := by
    intro parts hparts p hp
    rw [← hcontent]
    exact List.mem_map_of_mem (mem_flatten.mpr ⟨parts, hparts, hp⟩)
  have htext : ∀ parts ∈ elements, elementText parts ≠ [] := by
    intro parts hmem
    refine elementText_ne_nil (hne' parts hmem) fun p hp => ?_
    obtain ⟨t, ht, hcontent⟩ := List.mem_map.mp (hparts parts hmem p hp)
    rw [← hcontent]
    exact hproper t (mem_filter.mp ht).1
  have hslash : ∀ parts ∈ elements, unit '/' ∉ elementText parts := by
    intro parts hmem
    refine slash_notMem_elementText fun name hname => slash_notMem_of_resolves hresolves name ?_
    rw [← hnames]
    obtain ⟨p, hp, hname⟩ := mem_filterMap.mp hname
    exact mem_filterMap.mpr ⟨p, mem_flatten.mpr ⟨parts, hmem, hp⟩, hname⟩
  have hcatchAll : ∀ before parts after, elements = before ++ parts :: after →
      (∃ p ∈ parts, p.content.isWildcard = true) → after = [] := by
    rintro before parts after hsplit ⟨p, hp, hwildcard⟩
    by_contra hafter
    obtain ⟨next, others, rfl⟩ := exists_cons_of_ne_nil hafter
    have hnext : next ≠ [] := hne' next (by rw [hsplit]; simp)
    have hmem : p.content ∈ (activeContents compiled present).dropLast := by
      rw [← hcontent, hsplit, ← map_dropLast, flatten_append, flatten_cons,
        ← append_assoc, dropLast_append_of_ne_nil (by simp [hnext])]
      exact List.mem_map_of_mem (mem_append_left _ (mem_append_right _ hp))
    rw [activeContents, ← map_dropLast] at hmem
    obtain ⟨t, ht, htcontent⟩ := List.mem_map.mp hmem
    have hnot := hlast t (dropLast_filter_subset _ _ ht)
    rw [htcontent, hwildcard] at hnot
    cases hnot
  refine ⟨⟨elements, compiled.trailingSlash, hcontent, htext, hslash, ?_, ?_, hcatchAll⟩, ?_⟩
  · rw [hlabelled]
    exact named_labelled hresolves
  · rw [hnames]
    exact hnodup
  · rw [Rendered.text, renderRoute, map_presentDynamic, hflush.out_eq]
    rcases elements with _ | ⟨parts, elements⟩
    · rw [map_nil, Str.join_nil, isEmpty_nil, bne_self_eq_false, Bool.not_true, Bool.and_false]
      rfl
    · have hjoin : unit '/' :: Str.join (unit '/') ((parts :: elements).map elementText) ≠
          [unit '/'] := fun hjoin => htext parts (mem_cons_self ..)
        (Str.join_eq_nil_iff.mp (List.cons.inj hjoin).2).1
      rw [isEmpty_cons, bne_iff_ne.mpr hjoin, Bool.not_false]
      split
      · rfl
      · rw [append_nil]

end NormalizedRoute
end DdTrace.Appsec
