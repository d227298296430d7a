import DdTrace.Datastreams.Encoding
import DdTrace.Library.Base64

/-!
# The pathway context on the wire

`datastreams/pathway.js` writes the hash of a pathway and its two timestamps into twenty bytes: the
eight bytes of the hash, and the timestamps in milliseconds as varints.  The buffer is kept between
calls.  What is assigned beyond its end is lost, and what is left of it is filled with zeros, so
that nothing of an earlier call is seen.

Two timestamps of six groups each fill the buffer.  That is enough for every time below `2 ^ 41`
milliseconds.

* `encodePathwayContext_eq`: what is written for timestamps that fit.
* `decode_written`: it is read back, whatever fills the rest of the buffer.
* `decode_encodePathwayContext`: **a context whose timestamps are whole milliseconds is read back**,
  from the bytes and from their base64 form.
-/

open Library

namespace DdTrace.Datastreams

open List

/-! ## The source -/

/-- A pathway context.  All hashes are of eight bytes: `shaHash` cuts them so, and so does the
decoder. -/
structure PathwayContext where
  hash : List UInt8
  pathwayStartNs : ℤ
  edgeStartNs : ℤ
  length_hash : hash.length = 8
  deriving DecidableEq

def PATHWAY_CONTEXT_BYTES : ℕ := 20

/-- `pathwayScratch`. -/
def Scratch : Type := { bytes : List UInt8 // bytes.length = PATHWAY_CONTEXT_BYTES }

/-- `Math.round(ns / 1e6)`. -/
def toMs (ns : ℤ) : ℤ := Binary64.mathRound (Binary64.quotient ns 1000000)

/-- What is assigned to the buffer: the hash, the timestamps, and zeros from there on. -/
def fillScratch (scratch : List UInt8) (c : PathwayContext) : List UInt8 :=
  let target := Buffer.store scratch 0 c.hash
  let (target, offset) :=
    encodeVarintInto target (min c.hash.length scratch.length) (toMs c.pathwayStartNs)
  let (target, offset) := encodeVarintInto target offset (toMs c.edgeStartNs)
  Buffer.store target offset (List.replicate (PATHWAY_CONTEXT_BYTES - offset) 0)

theorem length_encodeLoop (left : ℕ) (target : List UInt8) (i : ℕ) (low high : BitVec 32) :
    (encodeLoop left target i low high).1.length = target.length := by
  induction left generalizing target i low high with
  | zero => exact length_set
  | succ left ih =>
    rw [encodeLoop]
    split
    · rw [ih, length_set]
    · exact length_set

theorem length_encodeVarintInto (target : List UInt8) (offset : ℕ) (value : ℤ) :
    (encodeVarintInto target offset value).1.length = target.length := by
  unfold encodeVarintInto
  dsimp only
  split
  · rfl
  · exact length_encodeLoop _ _ _ _ _

theorem length_fillScratch (scratch : List UInt8) (c : PathwayContext) :
    (fillScratch scratch c).length = scratch.length := by
  unfold fillScratch
  rw [Buffer.length_store, length_encodeVarintInto, length_encodeVarintInto, Buffer.length_store]

/-- `encodePathwayContext`: a copy of the buffer, and the buffer. -/
def encodePathwayContext (scratch : Scratch) (c : PathwayContext) : List UInt8 × Scratch :=
  let filled := fillScratch scratch.1 c
  (filled.take PATHWAY_CONTEXT_BYTES, ⟨filled, (length_fillScratch _ c).trans scratch.2⟩)

def encodePathwayContextBase64 (scratch : Scratch) (c : PathwayContext) : Str × Scratch :=
  let (encodedPathway, scratch) := encodePathwayContext scratch c
  (Base64.encode encodedPathway, scratch)

/-- `decodePathwayContext`. -/
def decodePathwayContext (pathwayContext : List UInt8) : Option PathwayContext :=
  if h : pathwayContext.length < 8 then none
  else
    match decodeVarint (pathwayContext.drop 8) with
    | (none, _) => none
    | (some pathwayStartMs, encodedTimeSincePrev) =>
      match decodeVarint encodedTimeSincePrev with
      | (none, _) => none
      | (some edgeStartMs, _) =>
        some {
          hash := pathwayContext.take 8
          pathwayStartNs := Binary64.nearest (pathwayStartMs * 1000000)
          edgeStartNs := Binary64.nearest (edgeStartMs * 1000000)
          length_hash := by
            rw [length_take]
            omega }

/-- What a carrier holds. -/
inductive Carried where
  | string (s : Str)
  | buffer (bytes : List UInt8)

def Carried.length : Carried → ℕ
  | .string s => s.length
  | .buffer bytes => bytes.length

/-- `pathwayContext.toString()`, of a buffer. -/
def Carried.text : Carried → Str
  | .string s => s
  | .buffer bytes => Unicode.decodeLossy bytes

def decodePathwayContextBase64 (pathwayContext : Carried) : Option PathwayContext :=
  if pathwayContext.length < 8 then none
  else decodePathwayContext (Base64.decode pathwayContext.text)

/-! ## What is written -/

/-- The groups of a time below `2 ^ 41` milliseconds. -/
def groups (ms : ℕ) : List UInt8 := Leb128.encode (code ms)

theorem code_natCast (ms : ℕ) : code ms = ms * 2 := by
  unfold code
  rw [if_pos (by omega)]
  omega

theorem length_groups_le {ms : ℕ} (h : ms < 2 ^ 41) : (groups ms).length ≤ 6 := by
  unfold groups
  rw [code_natCast]
  exact Leb128.length_encode_le (by decide) (by omega)

theorem encodeVarintInto_ms {ms : ℕ} (h : ms < 2 ^ 41) (target : List UInt8) (offset : ℕ) :
    encodeVarintInto target offset ms =
      (Buffer.store target offset (groups ms), offset + (groups ms).length) := by
  refine encodeVarintInto_eq target offset ?_
  unfold Binary64.MAX_SAFE_INTEGER
  omega

/-- **What is written for timestamps that fit**: the hash, the groups, and zeros. -/
theorem encodePathwayContext_eq (scratch : Scratch) (c : PathwayContext) {p e : ℕ}
    (hp : toMs c.pathwayStartNs = p) (he : toMs c.edgeStartNs = e) (hp' : p < 2 ^ 41)
    (he' : e < 2 ^ 41) : ∃ zeros,
      (encodePathwayContext scratch c).1 = c.hash ++ (groups p ++ (groups e ++ zeros)) ∧
      (encodePathwayContext scratch c).1.length = PATHWAY_CONTEXT_BYTES := by
  have hlen : scratch.1.length = 20 := scratch.2
  have hhash := c.length_hash
  have hplen := length_groups_le hp'
  have helen := length_groups_le he'
  have hstart : Buffer.store scratch.1 0 c.hash = c.hash ++ scratch.1.drop 8 := by
    rw [Buffer.store_eq (by omega), hhash]
    rfl
  have hrest : (scratch.1.drop 8).length = 12 := by
    rw [length_drop, hlen]
  have hfill : fillScratch scratch.1 c = (c.hash ++ groups p ++ groups e) ++
      List.replicate (20 - (8 + (groups p).length + (groups e).length)) 0 := by
    unfold fillScratch PATHWAY_CONTEXT_BYTES
    dsimp only
    rw [hp, he, hhash, hlen, Nat.min_eq_left (by decide), encodeVarintInto_ms hp', hstart]
    have hfirst : (c.hash ++ groups p).length = 8 + (groups p).length := by
      rw [length_append, hhash]
    have hboth : (c.hash ++ groups p ++ groups e).length =
        8 + (groups p).length + (groups e).length := by
      rw [length_append, hfirst]
    rw [Buffer.store_append hhash (by omega), encodeVarintInto_ms he',
      Buffer.store_append hfirst (by rw [length_drop]; omega)]
    dsimp only
    rw [Buffer.store_append hboth, drop_eq_nil_of_le, append_nil]
    all_goals
      simp only [length_drop, length_replicate]
      omega
  have hlength : (fillScratch scratch.1 c).length = PATHWAY_CONTEXT_BYTES :=
    (length_fillScratch _ c).trans scratch.2
  unfold encodePathwayContext
  dsimp only
  rw [take_of_length_le hlength.le]
  refine ⟨List.replicate (20 - (8 + (groups p).length + (groups e).length)) 0, ?_, hlength⟩
  rw [hfill, append_assoc, append_assoc]

/-! ## What is read -/

/-- A varint in front of anything. -/
theorem decodeVarint_groups {ms : ℕ} (h : ms < 2 ^ 41) (rest : List UInt8) :
    decodeVarint (groups ms ++ rest) = (some (ms : ℤ), rest) := by
  have hsafe : (ms : ℤ).natAbs * 2 ≤ Binary64.MAX_SAFE_INTEGER := by
    unfold Binary64.MAX_SAFE_INTEGER
    omega
  exact decodeVarint_code hsafe rest

/-- **What was written is read back**, whatever follows it. -/
theorem decode_written {hash : List UInt8} (hlen : hash.length = 8) {p e : ℕ} (hp : p < 2 ^ 41)
    (he : e < 2 ^ 41) (rest : List UInt8) :
    decodePathwayContext (hash ++ (groups p ++ (groups e ++ rest))) =
      some ⟨hash, Binary64.nearest (p * 1000000), Binary64.nearest (e * 1000000), hlen⟩ := by
  have hdrop : (hash ++ (groups p ++ (groups e ++ rest))).drop 8 =
      groups p ++ (groups e ++ rest) := drop_left' hlen
  have htake : (hash ++ (groups p ++ (groups e ++ rest))).take 8 = hash := take_left' hlen
  unfold decodePathwayContext
  rw [dif_neg (by rw [length_append]; omega)]
  simp only [hdrop, htake, decodeVarint_groups hp, decodeVarint_groups he]

/-- **A context whose timestamps are whole milliseconds is read back**, from the bytes and from
their base64 form, as a string or in a buffer. -/
theorem decode_encodePathwayContext (scratch : Scratch) (hash : List UInt8) (hlen : hash.length = 8)
    (pathwayStartMs edgeStartMs : ℕ)
    (hp : pathwayStartMs * 1000000 ≤ Binary64.MAX_SAFE_INTEGER)
    (he : edgeStartMs * 1000000 ≤ Binary64.MAX_SAFE_INTEGER) :
    let c : PathwayContext := ⟨hash, pathwayStartMs * 1000000, edgeStartMs * 1000000, hlen⟩
    decodePathwayContext (encodePathwayContext scratch c).1 = some c ∧
    decodePathwayContextBase64 (.string (encodePathwayContextBase64 scratch c).1) = some c ∧
    decodePathwayContextBase64
      (.buffer (Unicode.encodeUtf8 (encodePathwayContextBase64 scratch c).1)) = some c := by
  intro c
  have hms : ∀ ms : ℕ, ms * 1000000 ≤ Binary64.MAX_SAFE_INTEGER →
      ms < 2 ^ 41 ∧ toMs (ms * 1000000) = ms ∧ Binary64.nearest (ms * 1000000) = ms * 1000000 := by
    intro ms h
    unfold Binary64.MAX_SAFE_INTEGER at h
    refine ⟨by omega, ?_, Binary64.nearest_eq_self (by omega)⟩
    have hround : Binary64.mathRound (Binary64.quotient ((ms * 1000000 : ℕ) : ℤ) 1000000) = ms :=
      Binary64.mathRound_quotient (by decide) (by omega)
    rwa [Nat.cast_mul] at hround
  obtain ⟨hp', htoMs, hnearest⟩ := hms pathwayStartMs hp
  obtain ⟨he', htoMs', hnearest'⟩ := hms edgeStartMs he
  obtain ⟨zeros, hbytes, hlength⟩ := encodePathwayContext_eq scratch c htoMs htoMs' hp' he'
  have hdecode : decodePathwayContext (encodePathwayContext scratch c).1 = some c := by
    rw [hbytes, decode_written hlen hp' he']
    simp only [hnearest, hnearest']
    rfl
  have hlong : 8 ≤ (encodePathwayContextBase64 scratch c).1.length := by
    show 8 ≤ (Base64.encode (encodePathwayContext scratch c).1).length
    rw [Base64.length_encode, hlength]
    decide
  have hascii : Unicode.IsAscii (encodePathwayContextBase64 scratch c).1 :=
    Base64.isAscii_encode (encodePathwayContext scratch c).1
  have htext : Base64.decode (encodePathwayContextBase64 scratch c).1 =
      (encodePathwayContext scratch c).1 := Base64.decode_encode _
  have hread : ∀ x : Carried, 8 ≤ x.length → x.text = (encodePathwayContextBase64 scratch c).1 →
        decodePathwayContextBase64 x = some c := by
    intro x hx hxtext
    unfold decodePathwayContextBase64
    rw [if_neg (by omega), hxtext, htext, hdecode]
  refine ⟨hdecode, hread (.string _) hlong rfl, hread (.buffer _) ?_ ?_⟩
  · show 8 ≤ (Unicode.encodeUtf8 _).length
    rw [Unicode.encodeUtf8_of_ascii hascii, length_map]
    exact hlong
  · show Unicode.decodeLossy (Unicode.encodeUtf8 _) = _
    rw [Unicode.encodeUtf8_of_ascii hascii, Unicode.decodeLossy_of_ascii hascii]

/-- A context of a minute, and of an hour after the epoch. -/
theorem decode_encodePathwayContext_minute :
    let c : PathwayContext := ⟨List.replicate 8 1, (60000 : ℕ) * 1000000, (3600000 : ℕ) * 1000000,
      rfl⟩
    let scratch : Scratch := ⟨List.replicate 20 0xFF, rfl⟩
    decodePathwayContext (encodePathwayContext scratch c).1 = some c ∧
    decodePathwayContextBase64 (.string (encodePathwayContextBase64 scratch c).1) = some c ∧
    decodePathwayContextBase64
      (.buffer (Unicode.encodeUtf8 (encodePathwayContextBase64 scratch c).1)) = some c :=
  decode_encodePathwayContext _ _ rfl 60000 3600000 (by decide) (by decide)

end DdTrace.Datastreams
