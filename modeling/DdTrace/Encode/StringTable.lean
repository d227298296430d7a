import DdTrace.Encode.Span
import DdTrace.Library.Emit
import DdTrace.Msgpack.Chunk

/-!
# The strings an encoder has written

Both agent encoders write a string once, into a chunk of its own, and remember it.  The v0.4
encoder remembers where its bytes are, as a view of the chunk, and copies them wherever the string
occurs again.  The v0.5 encoder remembers which one it is, and writes that number.

Neither copy nor number is looked at again before it is used, so that everything rests on the
chunk not having changed where it was written.  It is only written at the end, until a reset
forgets chunk and views together.  A view of the buffer that a grown chunk gave up shows the bytes
that were copied into the new one at the same place, and is modelled by that place.

* `runs_cacheSlice`: the view that `_cacheString` of v0.4 returns shows the string, and goes on
  showing it whatever is cached later.
* `runs_cacheIndex`: the number that `_cacheString` of v0.5 returns is the place of the string in
  the table, and stays so.
* `Slices.read_eq`, `Indices.getElem`: what the invariants say.
-/

open Library

namespace DdTrace.Encode

open List OrderedMap Prog

/-- An error that stops an encoder: a chunk that would outgrow `MAX_SIZE`, or any other. -/
inductive Failure where
  | overflow (needed : ℕ)
  | raised
  deriving DecidableEq

/-- The failures of a program that raises no error of its own where `quiet` holds: it only asks for
more than a chunk may hold. -/
def Fails (quiet : Prop) : Failure → Prop
  | .overflow needed => MsgpackChunk.MAX_SIZE < needed
  | .raised => ¬quiet

/-- The failures that `encode` recovers from. -/
abbrev Recovers : Failure → Prop := Fails True

theorem Fails.mono {quiet quiet' : Prop} {e : Failure} (h : Fails quiet e)
    (hq : quiet' → quiet) : Fails quiet' e := by
  cases e with
  | overflow needed => exact h
  | raised => exact fun hquiet => h (hq hquiet)

theorem Fails.of_recovers {quiet : Prop} {e : Failure} (h : Recovers e) : Fails quiet e :=
  h.mono fun _ => trivial

/-- `_stringCount`, `_stringBytes` and `_stringMap`. -/
structure StringTable (ε : Type) where
  count : ℕ
  bytes : List UInt8
  map : OrderedMap Str ε

variable {ε : Type}

/-- `_stringBytes.write`, which refuses what is not a string and returns the number of bytes. -/
def writeString (value : Text) : Prog Failure (StringTable ε) ℕ := fun s =>
  match value with
  | .str k =>
    match MsgpackChunk.append s.bytes (MsgpackChunk.write k) with
    | .ok bytes => (.ok (MsgpackChunk.write k).length, { s with bytes := bytes })
    | .error e => (.error (.overflow e.needed), s)
  | _ => (.error .raised, s)

theorem runs_writeString {k : Str} {s : StringTable ε} {Q : ℕ → StringTable ε → Prop}
    (h : s.bytes.length + (MsgpackChunk.write k).length ≤ MsgpackChunk.MAX_SIZE →
      Q (MsgpackChunk.write k).length { s with bytes := s.bytes ++ MsgpackChunk.write k }) :
    Prog.Runs (writeString (.str k)) s Q Recovers := by
  unfold Prog.Runs writeString MsgpackChunk.append
  dsimp only
  by_cases hlen : MsgpackChunk.MAX_SIZE < s.bytes.length + (MsgpackChunk.write k).length
  · rw [if_pos hlen]
    exact hlen
  · rw [if_neg hlen]
    exact h (by omega)

/-! ## Views -/

/-- A view of the string chunk. -/
structure Slice where
  start : ℕ
  length : ℕ
  deriving DecidableEq

/-- The bytes that a view shows. -/
def Slice.read (bytes : List UInt8) (entry : Slice) : List UInt8 :=
  (bytes.drop entry.start).take entry.length

/-- `_cacheString` of v0.4. -/
def cacheSlice (value : Text) : Prog Failure (StringTable Slice) Slice := do
  let s ← Prog.get
  match s.map.get? value.key with
  | some entry => pure entry
  | none =>
    Prog.modify fun s => { s with count := s.count + 1 }
    let written ← writeString value
    let entry : Slice := ⟨s.bytes.length, written⟩
    Prog.modify fun s => { s with map := s.map.set value.key entry }
    pure entry

/-- Every view shows the string it is kept for. -/
structure Slices (s : StringTable Slice) : Prop where
  read_eq : ∀ k entry, s.map.get? k = some entry → entry.read s.bytes = MsgpackChunk.write k
  bound : ∀ k entry, s.map.get? k = some entry → entry.start + entry.length ≤ s.bytes.length
  cap : s.bytes.length ≤ MsgpackChunk.MAX_SIZE

/-- A table that has grown: no bytes and no entries are lost. -/
structure StringTable.Le (s t : StringTable ε) : Prop where
  bytes : s.bytes <+: t.bytes
  map : ∀ k entry, s.map.get? k = some entry → t.map.get? k = some entry

namespace StringTable

theorem Le.refl (s : StringTable ε) : Le s s := ⟨prefix_refl _, fun _ _ h => h⟩

theorem Le.trans {s t u : StringTable ε} (hst : Le s t) (htu : Le t u) : Le s u :=
  ⟨hst.bytes.trans htu.bytes, fun k e h => htu.map k e (hst.map k e h)⟩

end StringTable

theorem Slice.read_append {bytes more : List UInt8} {entry : Slice}
    (h : entry.start + entry.length ≤ bytes.length) :
    entry.read (bytes ++ more) = entry.read bytes := by
  unfold Slice.read
  rw [drop_append_of_le_length (by omega), take_append_of_le_length (by rw [length_drop]; omega)]

/-- The view of what was written last. -/
theorem Slice.read_last (bytes l : List UInt8) :
    (Slice.mk bytes.length l.length).read (bytes ++ l) = l := by
  unfold Slice.read
  rw [drop_left, take_length]

/-- A new string leaves what is kept for the others. -/
theorem get?_set_of_new {m : OrderedMap Str ε} {k j : Str} {v w : ε} (hk : m.get? k = none)
    (hj : m.get? j = some w) : (m.set k v).get? j = some w := by
  rw [get?_set_of_ne _ (by rintro rfl; cases hk.symm.trans hj), hj]

/-- **A cached string of v0.4.** -/
theorem runs_cacheSlice (k : Str) {s : StringTable Slice} (hs : Slices s) :
    Prog.Runs (cacheSlice (.str k)) s (fun entry t => Slices t ∧ s.Le t ∧ t.map.get? k = some entry)
      Recovers := by
  show Prog.Runs (match s.map.get? k with
    | some entry => pure entry
    | none => _) s _ _
  cases hget : s.map.get? k with
  | some entry => exact runs_pure ⟨hs, StringTable.Le.refl s, hget⟩
  | none =>
    refine runs_bind (runs_modify ?_)
    refine runs_bind (runs_writeString fun hfit => ?_)
    refine ⟨⟨?_, ?_, ?_⟩, ⟨prefix_append _ _, fun _ _ => get?_set_of_new hget⟩, get?_set_self _ _ _⟩
    · intro j entry hj
      rw [get?_set] at hj
      split at hj
      · next heq =>
        cases hj
        rw [heq]
        exact Slice.read_last _ _
      · rw [Slice.read_append (hs.bound j entry hj), hs.read_eq j entry hj]
    · intro j entry hj
      dsimp only at hj ⊢
      rw [length_append]
      rw [get?_set] at hj
      split at hj
      · cases hj
        exact le_refl _
      · have hb := hs.bound j entry hj
        omega
    · rw [length_append]
      exact hfit

theorem slices_empty : Slices ⟨0, [], OrderedMap.empty⟩ :=
  ⟨fun _ _ h => (by cases h), fun _ _ h => (by cases h), Nat.zero_le _⟩

/-- What is no string is only found where its key is there already. -/
theorem runs_cacheSlice_text (value : Text) {s : StringTable Slice} (hs : Slices s) :
    Prog.Runs (cacheSlice value) s
      (fun entry t => Slices t ∧ s.Le t ∧ t.map.get? value.key = some entry)
      (Fails (value.isString = true)) := by
  cases value with
  | str k => exact runs_weaken (runs_cacheSlice k hs) fun _ => Fails.of_recovers
  | undefined | other k =>
    show Prog.Runs (match s.map.get? (Text.key _) with
      | some entry => pure entry
      | none => _) s _ _
    cases hget : s.map.get? (Text.key _) with
    | some entry => exact runs_pure ⟨hs, StringTable.Le.refl s, hget⟩
    | none => exact Bool.false_ne_true

/-! ## Numbers -/

/-- `_cacheString` of v0.5. -/
def cacheIndex (value : Text) : Prog Failure (StringTable ℕ) ℕ := do
  let s ← Prog.get
  match s.map.get? value.key with
  | some index => pure index
  | none =>
    let index := s.count
    Prog.modify fun s =>
      { s with count := s.count + 1, map := s.map.set value.key index }
    let _ ← writeString value
    pure index

/-- The strings are in the chunk in the order of their numbers. -/
structure Indices (s : StringTable ℕ) : Prop where
  count : s.count = s.map.keys.length
  bytes : s.bytes = s.map.keys.flatMap MsgpackChunk.write
  getElem : ∀ k i, s.map.get? k = some i → s.map.keys[i]? = some k
  cap : s.bytes.length ≤ MsgpackChunk.MAX_SIZE

/-- **A cached string of v0.5.** -/
theorem runs_cacheIndex (k : Str) {s : StringTable ℕ} (hs : Indices s) :
    Prog.Runs (cacheIndex (.str k)) s
      (fun index t => Indices t ∧ s.Le t ∧ t.map.get? k = some index)
      Recovers := by
  show Prog.Runs (match s.map.get? k with
    | some index => pure index
    | none => _) s _ _
  cases hget : s.map.get? k with
  | some index => exact runs_pure ⟨hs, StringTable.Le.refl s, hget⟩
  | none =>
    refine runs_bind (runs_modify ?_)
    refine runs_bind (runs_writeString fun hfit => runs_pure ?_)
    have hnot : k ∉ s.map.keys := get?_eq_none_iff.mp hget
    have hkeys : (s.map.set k s.count).keys = s.map.keys ++ [k] := by
      rw [keys_set, OrderedMap.addKey, if_neg hnot]
    refine ⟨⟨?_, ?_, ?_, ?_⟩, ⟨prefix_append _ _, fun _ _ => get?_set_of_new hget⟩,
      get?_set_self _ _ _⟩
    · show s.count + 1 = (s.map.set k s.count).keys.length
      rw [hkeys, length_append, length_singleton, hs.count]
    · show s.bytes ++ MsgpackChunk.write k = (s.map.set k s.count).keys.flatMap _
      rw [hkeys, flatMap_append, hs.bytes, flatMap_singleton]
    · intro j i hj
      show (s.map.set k s.count).keys[i]? = some j
      rw [hkeys]
      change (s.map.set k s.count).get? j = some i at hj
      rw [get?_set] at hj
      split at hj
      · next heq =>
        cases hj
        rw [heq, hs.count, getElem?_concat_length]
      · have hi := hs.getElem j i hj
        rw [getElem?_append_left (List.getElem?_eq_some_iff.mp hi).1, hi]
    · rw [length_append]
      exact hfit

theorem indices_empty : Indices ⟨0, [], OrderedMap.empty⟩ :=
  ⟨rfl, rfl, fun _ _ h => (by cases h), Nat.zero_le _⟩

theorem runs_cacheIndex_text (value : Text) {s : StringTable ℕ} (hs : Indices s) :
    Prog.Runs (cacheIndex value) s
      (fun index t => Indices t ∧ s.Le t ∧ t.map.get? value.key = some index)
      (Fails (value.isString = true)) := by
  cases value with
  | str k => exact runs_weaken (runs_cacheIndex k hs) fun _ => Fails.of_recovers
  | undefined | other k =>
    show Prog.Runs (match s.map.get? (Text.key _) with
      | some index => pure index
      | none => _) s _ _
    cases hget : s.map.get? (Text.key _) with
    | some index => exact runs_pure ⟨hs, StringTable.Le.refl s, hget⟩
    | none => exact Bool.false_ne_true

/-! ## The chunks of an encoder -/

/-- `_traceBytes` and the strings. -/
structure Chunks (ε : Type) where
  traceBytes : List UInt8
  strings : StringTable ε

/-- What an encoder does to its chunks. -/
abbrev Writer (ε α : Type) : Type := Prog Failure (Chunks ε) α

/-- `_traceBytes` as a log. -/
def traceLog (ε : Type) : Log Failure (Chunks ε) UInt8 where
  out := Chunks.traceBytes
  setOut s l := { s with traceBytes := l }
  cap := MsgpackChunk.MAX_SIZE
  full := .overflow
  out_setOut _ _ := rfl

/-- The strings grow beside the log. -/
def growth (Inv : StringTable ε → Prop) : (traceLog ε).Growth where
  Inv s := Inv s.strings
  Le s t := s.strings.Le t.strings
  inv_setOut _ _ h := h
  le_setOut s _ := StringTable.Le.refl s.strings
  refl s := StringTable.Le.refl s.strings
  trans _ _ _ h h' := h.trans h'

/-- `_traceBytes.set`, and every other write at the end. -/
def put (l : List UInt8) : Writer ε Unit := (traceLog ε).append l

/-- What is done to the strings alone. -/
def onStrings {α : Type} (x : Prog Failure (StringTable ε) α) : Writer ε α := fun s =>
  ((x s.strings).1, { s with strings := (x s.strings).2 })

variable {Inv : StringTable ε → Prop} {α : Type}

theorem emitsAt_onStrings {x : Prog Failure (StringTable ε) α} {s : Chunks ε}
    {Q : α → StringTable ε → Prop} {Fail : Failure → Prop}
    (h : Inv s.strings → Prog.Runs x s.strings (fun a t => Inv t ∧ s.strings.Le t ∧ Q a t) Fail) :
    (growth Inv).EmitsAt Fail (onStrings x) s (fun t a l => l = [] ∧ Q a t.strings) := by
  intro hs hcap
  rcases (h hs).cases with ⟨a, t, hx, ht, hle, hq⟩ | ⟨e, t, hx, he⟩
  · unfold Prog.Runs onStrings
    rw [hx]
    exact ⟨ht, hle, hcap, [], by rw [append_nil]; rfl, rfl, hq⟩
  · unfold Prog.Runs onStrings
    rw [hx]
    exact he

theorem emits_put (l : List UInt8) : (growth Inv).Emits Recovers (put l) (fun _ _ m => m = l) :=
  Log.Growth.emits_append l fun _ h => h

end DdTrace.Encode
