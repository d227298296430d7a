import DdTrace.Encode.AgentEncoder

/-!
# What the v0.4 encoder writes

The image of a part of a span is the msgpack value a reader is meant to see, and each part of the
encoder is shown to add bytes that are read as the image of its part.  The maps and arrays whose
entries are chosen one by one have the chosen ones, as many as their heads say.

* `adds_count`, `adds_countRel`: a loop that chooses.
* `adds_encodeString`, `adds_encodeMap`, `adds_encodeMetaEntries`: strings and maps.
* `adds_encodeSpanEvents`: the events of a span.
-/

open Library

namespace DdTrace.Encode

open MsgpackChunk List Log.Growth Msgpack

/-! ## Images -/

/-- A string as it is read. -/
def textImage (s : Str) : Msgpack := .str (Unicode.toWellFormed s)

def keyed (key : String) (v : Msgpack) : Msgpack × Msgpack := (.str (lit key), v)

/-- What is read of an entry, if it is written at all. -/
def scalarImage (number : Binary64 → Msgpack) : Scalar → Option Msgpack
  | .str s => some (textImage s)
  | .num d => some (number d)
  | _ => none

def entryImage (number : Binary64 → Msgpack) (e : Str × Scalar) : Option (Msgpack × Msgpack) :=
  (scalarImage number e.2).map fun v => (textImage e.1, v)

def entriesImage (number : Binary64 → Msgpack) (m : OrderedMap Str Scalar) :
    List (Msgpack × Msgpack) :=
  m.entries.filterMap (entryImage number)

/-- The wrapper of an attribute: the number of its type and the value under the key of that. -/
def attr (type : ℕ) (key : String) (v : Msgpack) : Msgpack :=
  .map [keyed "type" (.int type), keyed key v]

/-- An attribute that is no array, or an item of one. -/
def itemImage : Attribute → Option Msgpack
  | .str s => some (attr 0 "string_value" (textImage s))
  | .num d =>
    some (if d.isInteger then attr 2 "int_value" (numberRead d)
      else attr 3 "double_value" (numberRead d))
  | .bool b => some (attr 1 "bool_value" (.bool b))
  | _ => none

/-- An attribute, if there is anything in it that can be written. -/
def attributeImage : Attribute → Option Msgpack
  | .array items =>
    match items.filterMap itemImage with
    | [] => none
    | vs => some (attr 4 "array_value" (.map [keyed "values" (.array vs)]))
  | value => itemImage value

def attributesImage (attributes : OrderedMap Str Attribute) : List (Msgpack × Msgpack) :=
  match attributes.entries.filterMap fun e => (attributeImage e.2).map (textImage e.1, ·) with
  | [] => []
  | es => [keyed "attributes" (.map es)]

/-- An event that has a name. -/
def eventImage (env : Env) (event : SpanEvent) : Option Msgpack :=
  event.name.map fun name =>
    .map ([keyed "name" (textImage name),
      keyed "time_unix_nano" (.float (env.eventTimeNano event.startTime))] ++
        (event.attributes.map attributesImage).getD [])

/-! ### What is chosen -/

/-- What is chosen or left out is read as `o` says. -/
def Chosen {α : Type*} (p : ℕ → List UInt8 → Option (α × List UInt8)) (o : Option α) (c : Bool)
    (l : List UInt8) : Prop :=
  match o with
  | some x => c = true ∧ Msgpack.Encodes p x l
  | none => c = false ∧ l = []

/-- What is chosen or left out is read as something that `Rel` relates to what `o` says. -/
def ChosenRel {κ α : Type*} (p : ℕ → List UInt8 → Option (α × List UInt8)) (Rel : κ → α → Prop)
    (o : Option κ) (c : Bool) (l : List UInt8) : Prop :=
  match o with
  | some y => c = true ∧ ∃ x, Rel y x ∧ Msgpack.Encodes p x l
  | none => c = false ∧ l = []

theorem ChosenRel.mono {κ α : Type*} {p : ℕ → List UInt8 → Option (α × List UInt8)}
    {Rel Rel' : κ → α → Prop} {o : Option κ} {c : Bool} {l : List UInt8}
    (h : ChosenRel p Rel o c l) (hrel : ∀ y x, Rel y x → Rel' y x) : ChosenRel p Rel' o c l := by
  cases o with
  | none => exact h
  | some y =>
    obtain ⟨hc, x, hx, hl⟩ := h
    exact ⟨hc, x, hrel y x hx, hl⟩

section Count

variable {ε : Type} {Inv : StringTable ε → Prop} {α β : Type}
  {p : ℕ → List UInt8 → Option (α × List UInt8)}

variable {Fail : Failure → Prop} {f : β → Writer ε Bool}

/-- **A loop that chooses** writes what it chose, and counts it. -/
theorem emits_countRel {κ : Type} {R : StringTable ε → κ → α → Prop} {bs : List β}
    {g : β → Option κ} (hmono : ∀ s t y x, s.Le t → R s y x → R t y x)
    (hf : ∀ b ∈ bs, (growth Inv).Emits Fail (f b) (fun t => ChosenRel p (R t.strings) (g b))) :
    (growth Inv).Emits Fail (Prog.count bs f) (fun t n l => ∃ xs,
      List.Forall₂ (R t.strings) (bs.filterMap g) xs ∧ n = xs.length ∧
        Msgpack.EncodesAll p xs l) := by
  refine emits_count (Q := fun b (t : Chunks ε) => ChosenRel p (R t.strings) (g b))
    (R := fun bs (t : Chunks ε) n l => ∃ xs, List.Forall₂ (R t.strings) (bs.filterMap g) xs ∧
      n = xs.length ∧ Msgpack.EncodesAll p xs l)
    hf (fun b s t c l hle h => h.mono (hmono _ _ · · hle))
    (fun _ => ⟨[], .nil, rfl, encodesAll_nil⟩) ?_
  rintro b bs t c n l m hb ⟨xs, hrel, rfl, hbs⟩
  cases hg : g b with
  | none =>
    rw [hg] at hb
    obtain ⟨rfl, rfl⟩ := hb
    rw [filterMap_cons_none hg]
    exact ⟨xs, hrel, rfl, hbs⟩
  | some y =>
    rw [hg] at hb
    obtain ⟨rfl, x, hx, hl⟩ := hb
    rw [filterMap_cons_some hg]
    exact ⟨x :: xs, .cons hx hrel, rfl, encodesAll_cons hl hbs⟩

theorem adds_countRel {κ : Type} {R : κ → α → Prop} {bs : List β} {g : β → Option κ}
    (hf : ∀ b ∈ bs, (growth Inv).Adds Fail (f b) (ChosenRel p R (g b))) :
    (growth Inv).Adds Fail (Prog.count bs f) (fun n l => ∃ xs,
      List.Forall₂ R (bs.filterMap g) xs ∧ n = xs.length ∧ Msgpack.EncodesAll p xs l) :=
  emits_countRel (R := fun _ => R) (fun _ _ _ _ _ h => h) hf

theorem adds_count {bs : List β} {g : β → Option α}
    (hf : ∀ b ∈ bs, (growth Inv).Adds Recovers (f b) (Chosen p (g b))) :
    (growth Inv).Adds Recovers (Prog.count bs f)
      (fun n l => n = (bs.filterMap g).length ∧ Msgpack.EncodesAll p (bs.filterMap g) l) := by
  have hrel : ∀ b ∈ bs, (growth Inv).Adds Recovers (f b) (ChosenRel p Eq (g b)) := by
    intro b hb
    refine (hf b hb).mono fun c l h => ?_
    cases hg : g b with
    | none =>
      rw [hg] at h
      exact h
    | some x =>
      rw [hg] at h
      exact ⟨h.1, x, rfl, h.2⟩
  refine (adds_countRel hrel).mono ?_
  rintro n l ⟨xs, hxs, hn, hl⟩
  rw [List.forall₂_eq_eq_eq] at hxs
  subst hxs
  exact ⟨hn, hl⟩

theorem adds_put {Q : Unit → List UInt8 → Prop} {l : List UInt8} (h : Q () l) :
    (growth Inv).Adds Recovers (put l) Q := adds_append (fun _ hlen => hlen) h

/-- What is counted stands behind a head that says how many there are. -/
theorem adds_counted {head : List UInt8} {number : α → ℕ} {body : Writer ε α}
    {Q R : α → List UInt8 → Prop} (hfull : ∀ n, MAX_SIZE < n → Fail (.overflow n))
    (hbody : (growth Inv).Adds Fail body Q)
    (h : ∀ a m, Q a m → R a (head ++ int32 (number a) ++ m)) :
    (growth Inv).Adds Fail (counted head number body) R :=
  emits_counted hfull (fun _ => rfl) hbody (mono_const _)
    fun _ => h

theorem encodes_countedMap {n : ℕ} {es : List (Msgpack × Msgpack)} {m : List UInt8}
    (hn : n = es.length) (hm : Msgpack.EncodesAll Msgpack.entry es m) :
    Msgpack.Encodes Msgpack.decode (.map es) ([0xDF] ++ int32 n ++ m) := by
  subst hn
  exact encodes_map (d := writeMapPrefix es.length) (fun h => isHead_writeMapPrefix h)
    (Nat.succ_pos _) hm

theorem encodes_countedArray {n : ℕ} {vs : List Msgpack} {m : List UInt8}
    (hn : n = vs.length) (hm : Msgpack.EncodesAll Msgpack.decode vs m) :
    Msgpack.Encodes Msgpack.decode (.array vs) ([0xDD] ++ int32 n ++ m) := by
  subst hn
  exact encodes_array (d := writeArrayPrefix vs.length)
    (fun h => isHead_writeArrayPrefix h) (Nat.succ_pos _) hm

theorem adds_discard {x : Writer ε α} {Q : α → List UInt8 → Prop}
    {R : Unit → List UInt8 → Prop} (hx : (growth Inv).Adds Fail x Q)
    (h : ∀ a l, Q a l → R () l) : (growth Inv).Adds Fail (do let _ ← x) R := by
  refine Log.Growth.adds_bind hx fun a l hl => adds_pure ?_
  rw [append_nil]
  exact h a l hl

end Count

namespace V04

/-- The strings of v0.4. -/
abbrev strings : (traceLog Slice).Growth := growth Slices

variable {α : Type}

/-! ## Strings -/

theorem emitsAt_cached (k : Str) (s : Chunks Slice) : strings.EmitsAt Recovers (cached (.str k)) s
      (fun t entry l => l = [] ∧ t.strings.map.get? k = some entry) :=
  emitsAt_onStrings fun hs => runs_cacheSlice k hs

theorem emitsAt_cachedText (value : Text) (s : Chunks Slice) :
    strings.EmitsAt (Fails (value.isString = true)) (cached value) s
      (fun t entry l => l = [] ∧ t.strings.map.get? value.key = some entry) :=
  emitsAt_onStrings fun hs => runs_cacheSlice_text value hs

theorem emitsAt_shown {k : Str} {entry : Slice} {s : Chunks Slice}
    (h : s.strings.map.get? k = some entry) :
    strings.EmitsAt Recovers (shown entry) s (fun t b l => t = s ∧ b = write k ∧ l = []) := by
  intro hs hcap
  exact ⟨hs, strings.refl s, hcap, [], by rw [append_nil], rfl, hs.read_eq k entry h, rfl⟩

theorem adds_encodeString (k : Str) :
    strings.Adds Recovers (encodeString (.str k)) (fun _ l => l = write k) := by
  show strings.Adds Recovers (if k.length > STRING_CACHE_BYPASS_LIMIT then put (write k) else _) _
  by_cases hlen : k.length > STRING_CACHE_BYPASS_LIMIT
  · rw [if_pos hlen]
    exact adds_put rfl
  · rw [if_neg hlen]
    intro s
    refine emitsAt_bind (emitsAt_cached k s) ?_
    rintro t entry _ _ _ ⟨rfl, hentry⟩
    refine emitsAt_bind (emitsAt_shown hentry) ?_
    rintro u b _ _ _ ⟨-, rfl, rfl⟩
    exact adds_put rfl u

theorem adds_encodeText (k : Str) : strings.Adds Recovers (encodeString (.str k))
    (fun _ l => Msgpack.Encodes Msgpack.decode (textImage k) l) :=
  (adds_encodeString k).mono fun _ _ hl => hl ▸ encodes_write k

/-! ## Maps -/

variable {v : Msgpack} {l : List UInt8}

/-- A key and its value. -/
theorem adds_entry {k : Msgpack} {x y : Writer Slice Unit}
    (hx : strings.Adds Recovers x (fun _ l => Msgpack.Encodes Msgpack.decode k l))
    (hy : strings.Adds Recovers y (fun _ l => Msgpack.Encodes Msgpack.decode v l)) :
    strings.Adds Recovers (do x; y; pure true) (Chosen Msgpack.entry (some (k, v))) := by
  refine Log.Growth.adds_bind hx fun _ l hl => ?_
  refine Log.Growth.adds_bind hy fun _ m hm => adds_pure ?_
  rw [append_nil]
  exact ⟨rfl, encodes_entry hl hm⟩

theorem adds_skip {p : ℕ → List UInt8 → Option (α × List UInt8)} :
    strings.Adds Recovers (pure false : Writer Slice Bool) (Chosen p none) :=
  adds_pure ⟨rfl, rfl⟩

theorem adds_encodeMapEntry (e : Str × Scalar) :
    strings.Adds Recovers (encodeMapEntry e) (Chosen Msgpack.entry (entryImage .float e)) := by
  obtain ⟨k, v⟩ := e
  cases v with
  | str s => exact adds_entry (adds_encodeText k) (adds_encodeText s)
  | num d =>
    exact adds_entry (adds_encodeText k) (adds_put (encodes_of_reads (reads_writeFloat d)))
  | null | other => exact adds_skip

/-- **`_encodeMap`** writes the strings and the numbers of a map. -/
theorem adds_encodeMap (value : OrderedMap Str Scalar) : strings.Adds Recovers (encodeMap value)
      (fun _ l => Msgpack.Encodes Msgpack.decode (.map (entriesImage .float value)) l) :=
  adds_discard (adds_counted (fun _ h => h) (adds_count fun e _ => adds_encodeMapEntry e)
    fun _ _ h => encodes_countedMap h.1 h.2) fun _ _ h => h

/-- A string is cached and its bytes are at hand, whatever else is cached before they are used. -/
theorem emitsAt_cached_of {x : Slice → Writer Slice α} {Q : α → List UInt8 → Prop} (k : Str)
    (hx : ∀ t entry, t.strings.map.get? k = some entry →
      strings.EmitsAt Recovers (x entry) t fun _ => Q) :
    strings.Adds Recovers (do let entry ← cached (.str k); x entry) Q := by
  intro s
  refine emitsAt_bind (emitsAt_cached k s) ?_
  rintro t entry _ _ _ ⟨rfl, hentry⟩
  exact hx t entry hentry

theorem emitsAt_shown_of {k : Str} {entry : Slice} {s : Chunks Slice}
    {x : List UInt8 → Writer Slice α} {Q : α → List UInt8 → Prop}
    (h : s.strings.map.get? k = some entry)
    (hx : strings.EmitsAt Recovers (x (write k)) s fun _ => Q) :
    strings.EmitsAt Recovers (do let b ← shown entry; x b) s fun _ => Q := by
  refine emitsAt_bind (emitsAt_shown h) ?_
  rintro t b _ _ _ ⟨rfl, rfl, rfl⟩
  exact hx

theorem adds_encodeMetaEntry (e : Str × Scalar) :
    strings.Adds Recovers (encodeMetaEntry e) (Chosen Msgpack.entry (entryImage numberRead e)) := by
  obtain ⟨k, v⟩ := e
  cases v with
  | str s =>
    refine emitsAt_cached_of k fun t keyEntry hkey => ?_
    by_cases hlen : s.length > STRING_CACHE_BYPASS_LIMIT
    · rw [if_pos hlen]
      refine emitsAt_shown_of hkey (adds_entry (adds_put (encodes_write k))
        (adds_put (encodes_write s)) t)
    · rw [if_neg hlen]
      refine emitsAt_bind (emitsAt_cached s t) ?_
      rintro u valueEntry _ _ hle ⟨rfl, hvalue⟩
      refine emitsAt_shown_of (hle.map k keyEntry hkey) (emitsAt_shown_of hvalue ?_)
      refine Log.Growth.adds_bind (adds_put (Q := fun _ l => l = write k ++ write s) rfl) ?_ u
      rintro _ _ rfl
      refine adds_pure ?_
      rw [List.nil_append, append_nil]
      exact ⟨rfl, encodes_entry (encodes_write k) (encodes_write s)⟩
  | num d =>
    refine emitsAt_cached_of k fun t keyEntry hkey => ?_
    refine emitsAt_shown_of hkey ?_
    by_cases hfix : isFixint d = true
    · rw [if_pos hfix]
      refine Log.Growth.adds_bind (adds_put (Q := fun _ l => l = write k ++ [byte d.toInt 0]) rfl)
        ?_ t
      rintro _ _ rfl
      refine adds_pure ?_
      have hvalue := reads_writeIntOrFloat d
      rw [writeIntOrFloat, if_pos hfix] at hvalue
      rw [append_nil]
      exact ⟨rfl, encodes_entry (encodes_write k) (encodes_of_reads hvalue)⟩
    · rw [if_neg hfix]
      have hkey' : strings.Adds Recovers ((traceLog Slice).retract (write k) [0])
          (fun _ l => Msgpack.Encodes Msgpack.decode (textImage k) l) :=
        (emits_retract fun _ h => h).mono fun _ _ _ hl => hl ▸ encodes_write k
      exact adds_entry hkey' (adds_put (encodes_of_reads (reads_writeIntOrFloat d))) t
  | null | other => exact adds_skip

/-- **`#encodeMetaEntries`** writes them behind the key of the map, with short numbers. -/
theorem adds_encodeMetaEntries {key : List UInt8} {k : Msgpack}
    (hkey : Msgpack.Encodes Msgpack.decode k key) (value : OrderedMap Str Scalar) :
    strings.Adds Recovers (encodeMetaEntries (key ++ [0xDF]) (some value))
      (fun _ l => Msgpack.Encodes Msgpack.entry (k, .map (entriesImage numberRead value)) l) := by
  refine adds_discard
    (adds_counted (fun _ h => h) (adds_count fun e _ => adds_encodeMetaEntry e) ?_)
    fun _ _ h => h
  intro n m h
  have hentry := encodes_entry hkey (encodes_countedMap h.1 h.2)
  simp only [append_assoc] at hentry ⊢
  exact hentry

/-! ## Span events -/

/-- A key that is written in one piece: short, and without a lone surrogate. -/
def isKey (key : String) : Bool :=
  (Unicode.encodeUtf8 (lit key)).length < 0x20 && Unicode.toWellFormed (lit key) == lit key

theorem encodes_buildKey (key : String) (h : isKey key = true) :
    Msgpack.Encodes Msgpack.decode (.str (lit key)) (buildKey (lit key)) := by
  rw [isKey, Bool.and_eq_true, decide_eq_true_eq, beq_iff_eq] at h
  have hutf8 := Unicode.decodeUtf8_encodeUtf8_eq (lit key)
  rw [h.2] at hutf8
  exact encodes_of_reads (reads_str (isHead_fixstr h.1) hutf8)

/-- A key of its own and a value. -/
theorem encodes_keyed (key : String) (h : isKey key = true)
    (hl : Msgpack.Encodes Msgpack.decode v l) :
    Msgpack.Encodes Msgpack.entry (keyed key v) (buildKey (lit key) ++ l) :=
  encodes_entry (encodes_buildKey key h) hl

/-- A small map of entries that are known beforehand. -/
theorem encodes_fixmap {n : ℕ} (hn : n < 0x10) {es : List (Msgpack × Msgpack)}
    (hlen : es.length = n) (hes : Msgpack.EncodesAll Msgpack.entry es l) :
    Msgpack.Encodes Msgpack.decode (.map es) ((0x80 + n).toUInt8 :: l) := by
  subst hlen
  exact encodes_map (d := [(0x80 + es.length).toUInt8])
    (fun _ => isHead_fixmap hn) (Nat.succ_pos _) hes

theorem encodes_attr (type : ℕ) (ht : type < 0x80) (key : String) (hkey : isKey key = true)
    (hl : Msgpack.Encodes Msgpack.decode v l) :
    Msgpack.Encodes Msgpack.decode (attr type key v)
      (buildAttrPrefix type.toUInt8 (lit key) ++ l) := by
  have htype : Msgpack.Encodes Msgpack.entry (keyed "type" (.int type))
      (KEY_TYPE ++ [type.toUInt8]) :=
    encodes_keyed _ (by decide) (encodes_of_reads (reads_leaf (isHead_fixint ht)))
  have hall := encodesAll_cons htype (encodesAll_singleton (encodes_keyed key hkey hl))
  have hmap := encodes_fixmap (n := 2) (by decide) rfl hall
  exact hmap

theorem adds_emitArrayItem (a : Attribute) :
    strings.Adds Recovers (emitArrayItem a) (Chosen Msgpack.decode (itemImage a)) := by
  have hwrap : ∀ (type : ℕ) (key : String) {v : Msgpack} {x : Writer Slice Unit},
      type < 0x80 → isKey key = true →
      strings.Adds Recovers x (fun _ l => Msgpack.Encodes Msgpack.decode v l) →
      strings.Adds Recovers (do put (buildAttrPrefix type.toUInt8 (lit key)); x; pure true)
        (Chosen Msgpack.decode (some (attr type key v))) := by
    intro type key v x ht hkey hx
    refine Log.Growth.adds_bind
      (adds_put (Q := fun _ l => l = buildAttrPrefix type.toUInt8 (lit key)) rfl) ?_
    rintro _ _ rfl
    refine Log.Growth.adds_bind hx fun _ m hm => adds_pure ?_
    rw [append_nil]
    exact ⟨rfl, encodes_attr type ht key hkey hm⟩
  cases a with
  | str s => exact hwrap 0 "string_value" (by decide) (by decide) (adds_encodeText s)
  | num d =>
    have hnumber : strings.Adds Recovers (put (writeIntOrFloat d))
        (fun _ l => Msgpack.Encodes Msgpack.decode (numberRead d) l) :=
      adds_put (encodes_of_reads (reads_writeIntOrFloat d))
    unfold emitArrayItem itemImage
    dsimp only
    by_cases hint : d.isInteger = true
    · rw [if_pos hint, if_pos hint]
      exact hwrap 2 "int_value" (by decide) (by decide) hnumber
    · rw [if_neg hint, if_neg hint]
      exact hwrap 3 "double_value" (by decide) (by decide) hnumber
  | bool b =>
    refine Log.Growth.adds_bind (adds_put (Q := fun _ l => l = ATTR_PREFIX_BOOL ++ writeBoolean b)
      rfl) ?_
    rintro _ _ rfl
    refine adds_pure ?_
    exact ⟨rfl, encodes_attr 1 (by decide) "bool_value" (by decide)
      (encodes_of_reads (reads_writeBoolean b))⟩
  | array l | other => exact adds_skip

/-- A key and an attribute that is no array. -/
theorem adds_keyedItem (key : Str) {a : Attribute} (ha : itemImage a = some v) :
    strings.Adds Recovers (do encodeString (.str key); emitArrayItem a)
      (Chosen Msgpack.entry (some (textImage key, v))) := by
  refine Log.Growth.adds_bind (adds_encodeText key) fun _ l hl => ?_
  refine (adds_emitArrayItem a).mono fun c m hm => ?_
  rw [ha] at hm
  exact ⟨hm.1, encodes_entry hl hm.2⟩

theorem encodes_arrayAttribute {vs : List Msgpack} (hl : Msgpack.EncodesAll Msgpack.decode vs l) :
    Msgpack.Encodes Msgpack.decode (attr 4 "array_value" (.map [keyed "values" (.array vs)]))
      (ATTR_PREFIX_ARRAY ++ int32 vs.length ++ l) := by
  have hvalues := encodesAll_singleton
    (encodes_keyed "values" (by decide) (encodes_countedArray rfl hl))
  have hattr := encodes_attr 4 (by decide) "array_value" (by decide)
    (encodes_fixmap (n := 1) (by decide) rfl hvalues)
  exact hattr

theorem adds_emitAttribute (key : Str) (a : Attribute) : strings.Adds Recovers (emitAttribute key a)
      (Chosen Msgpack.entry ((attributeImage a).map (textImage key, ·))) := by
  cases a with
  | str s | num d | bool b => exact adds_keyedItem key rfl
  | other => exact adds_skip
  | array items =>
    have hbody : strings.Adds Recovers (do
          encodeString (.str key)
          counted ATTR_PREFIX_ARRAY id (Prog.count items emitArrayItem))
        (fun n l => n = (items.filterMap itemImage).length ∧ Msgpack.Encodes Msgpack.entry
          (textImage key, attr 4 "array_value"
            (.map [keyed "values" (.array (items.filterMap itemImage))])) l) := by
      refine Log.Growth.adds_bind (adds_encodeText key) fun _ l hl => ?_
      refine adds_counted (fun _ h => h) (adds_count fun b _ => adds_emitArrayItem b)
        fun n m h => ?_
      obtain ⟨rfl, hm⟩ := h
      exact ⟨rfl, encodes_entry hl (encodes_arrayAttribute hm)⟩
    refine emits_unlessNone hbody (mono_const _) ?_ ?_
    · rintro t l ⟨hn, -⟩
      have hnil := length_eq_zero_iff.mp hn.symm
      rw [attributeImage, hnil]
      exact ⟨rfl, rfl⟩
    · rintro t n l hn ⟨rfl, hl⟩
      have himage : attributeImage (.array items) = some (attr 4 "array_value"
          (.map [keyed "values" (.array (items.filterMap itemImage))])) := by
        rw [attributeImage]
        split
        · next hnil =>
          rw [hnil] at hn
          exact absurd rfl hn
        · rfl
      rw [himage]
      exact ⟨rfl, hl⟩

/-- The attributes of an event, as one more entry or none. -/
theorem adds_encodeAttributesIfAny (attributes : OrderedMap Str Attribute) :
    strings.Adds Recovers (encodeAttributesIfAny attributes)
      (fun c l => (attributesImage attributes).length = (if c then 1 else 0) ∧
        Msgpack.EncodesAll Msgpack.entry (attributesImage attributes) l) := by
  have hbody : strings.Adds Recovers (counted (KEY_EVENT_ATTRIBUTES ++ [0xDF]) id
        (Prog.count attributes.entries fun e => emitAttribute e.1 e.2))
      (fun n l => n = (attributes.entries.filterMap fun e =>
          (attributeImage e.2).map (textImage e.1, ·)).length ∧
        Msgpack.Encodes Msgpack.entry (keyed "attributes" (.map (attributes.entries.filterMap
          fun e => (attributeImage e.2).map (textImage e.1, ·)))) l) := by
    refine adds_counted (fun _ h => h) (adds_count fun e _ => adds_emitAttribute e.1 e.2)
      fun n m h => ?_
    refine ⟨h.1, ?_⟩
    have hentry := encodes_keyed "attributes" (by decide) (encodes_countedMap h.1 h.2)
    exact hentry
  refine emits_unlessNone hbody (mono_const _) ?_ ?_
  · rintro t l ⟨hn, -⟩
    have hnil := length_eq_zero_iff.mp hn.symm
    rw [attributesImage, hnil]
    exact ⟨rfl, encodesAll_nil⟩
  · rintro t n l hn ⟨rfl, hl⟩
    have himage : attributesImage attributes = [keyed "attributes"
        (.map (attributes.entries.filterMap fun e =>
          (attributeImage e.2).map (textImage e.1, ·)))] := by
      rw [attributesImage]
      split
      · next hnil =>
        rw [hnil] at hn
        exact absurd rfl hn
      · rfl
    rw [himage]
    exact ⟨rfl, encodesAll_singleton hl⟩

theorem adds_encodeSpanEvent (env : Env) (event : SpanEvent) :
    strings.Adds Recovers (encodeSpanEvent env event)
      (Chosen Msgpack.decode (eventImage env event)) := by
  unfold encodeSpanEvent eventImage
  cases hname : event.name with
  | none => exact adds_skip
  | some name =>
    have hattributes : strings.Adds Recovers (encodeAttributes event.attributes)
        (fun c l => ((event.attributes.map attributesImage).getD []).length = (if c then 1 else 0) ∧
          Msgpack.EncodesAll Msgpack.entry ((event.attributes.map attributesImage).getD []) l) := by
      cases event.attributes with
      | none => exact adds_pure ⟨rfl, encodesAll_nil⟩
      | some attributes => exact adds_encodeAttributesIfAny attributes
    have hbody : strings.Adds Recovers (do
          put KEY_NAME
          encodeString (.str name)
          put KEY_EVENT_TIME
          put (writeFloat (env.eventTimeNano event.startTime))
          encodeAttributes event.attributes)
        (fun c l => ((event.attributes.map attributesImage).getD []).length = (if c then 1 else 0) ∧
          Msgpack.EncodesAll Msgpack.entry ([keyed "name" (textImage name),
            keyed "time_unix_nano" (.float (env.eventTimeNano event.startTime))] ++
              (event.attributes.map attributesImage).getD []) l) := by
      refine Log.Growth.adds_bind (adds_put (Q := fun _ l => l = KEY_NAME) rfl) ?_
      rintro _ _ rfl
      refine Log.Growth.adds_bind (adds_encodeText name) fun _ l hl => ?_
      refine Log.Growth.adds_bind (adds_put (Q := fun _ l => l = KEY_EVENT_TIME) rfl) ?_
      rintro _ _ rfl
      refine Log.Growth.adds_bind (adds_put (Q := fun _ l =>
        l = writeFloat (env.eventTimeNano event.startTime)) rfl) ?_
      rintro _ _ rfl
      refine hattributes.mono fun c m hm => ⟨hm.1, ?_⟩
      have htime := encodes_keyed "time_unix_nano" (by decide)
        (encodes_of_reads (reads_writeFloat (env.eventTimeNano event.startTime)))
      have hall := encodesAll_cons (encodes_keyed "name" (by decide) hl)
        (encodesAll_cons htime hm.2)
      exact hall
    refine Log.Growth.adds_bind (emits_counted (R := fun _ _ l =>
      Msgpack.Encodes Msgpack.decode (.map ([keyed "name" (textImage name),
        keyed "time_unix_nano" (.float (env.eventTimeNano event.startTime))] ++
          (event.attributes.map attributesImage).getD [])) l)
      (fun _ h => h) (fun c => by cases c <;> rfl) hbody (mono_const _) ?_) ?_
    · rintro _ c m ⟨hlen, hm⟩
      cases c with
      | false => exact encodes_fixmap (n := 2) (by decide) (by
          rw [length_append, hlen]; rfl) hm
      | true => exact encodes_fixmap (n := 3) (by decide) (by
          rw [length_append, hlen]; rfl) hm
    · intro _ l hl
      refine adds_pure ?_
      rw [append_nil]
      exact ⟨rfl, hl⟩

/-- **`#encodeSpanEvents`** writes the events that have a name, with what can be written of their
attributes. -/
theorem adds_encodeSpanEvents (env : Env) (spanEvents : List SpanEvent) :
    strings.Adds Recovers (encodeSpanEvents env spanEvents) (fun _ l =>
      Msgpack.Encodes Msgpack.decode (.array (spanEvents.filterMap (eventImage env))) l) :=
  adds_discard (adds_counted (fun _ h => h) (adds_count fun e _ => adds_encodeSpanEvent env e)
    fun _ _ h => encodes_countedArray h.1 h.2) fun _ _ h => h

end V04
end DdTrace.Encode
