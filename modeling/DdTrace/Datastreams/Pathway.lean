import DdTrace.Library.OrderedMap
import DdTrace.Library.Run
import DdTrace.Library.Sha256
import DdTrace.Library.Unicode

/-!
# The hash of a pathway and its cache

`datastreams/pathway.js` hashes a checkpoint in two steps.  The first eight bytes of the digest of
service, environment and edge tags, with the propagation hash behind a colon, are put before the
parent hash, and the first eight bytes of the digest of *the text of* these sixteen bytes are the
hash of the pathway.

`computeHash` keeps the hashes in an LRU cache.  The key of a call is one string, the concatenation
of service, environment, edge tags, the text of the parent hash and the propagation hash, so calls
with different arguments can have the same key: nothing separates the parts, a parent hash may hold
the text of a tag or of a propagation hash, and bytes that are not UTF-8 all read as U+FFFD.

What the package keeps is no concern of this model: `evict` may drop any entry at any moment, so
that every run of the code, with its limit of 500 entries, is a run of `step`.

* `transparent_of_run`: a run in which every hit is on an entry made from the same hash input and
  the same text returns to every call the hash that is computed without the cache.
* `not_transparent`: two calls of one service with one key and two hashes.
-/

namespace DdTrace.Datastreams

open Library OrderedMap

/-- A `Buffer`: the object and its bytes.  The entry hash is object 0. -/
structure Buf where
  ref : ℕ
  bytes : List UInt8
  deriving DecidableEq

/-- `crypto.createHash(…).update(…).digest()`. -/
abbrev HashFunction := List UInt8 → List UInt8

/-- The arguments of `computeHash`; `propagationHash` is none for `null`. -/
structure Arguments where
  service : Str
  env : Str
  edgeTags : List Str
  parentHash : List UInt8
  propagationHash : Option ℕ
  deriving DecidableEq

/-- `edgeTags.sort()`, by code units, in place. -/
def sortTags (edgeTags : List Str) : List Str := edgeTags.insertionSort (· ≤ ·)

/-- `shaHash`. -/
def shaHash (sha : HashFunction) (checkpointString : Str) : List UInt8 :=
  (sha (Unicode.encodeUtf8 checkpointString)).take 8

namespace Arguments

variable (a : Arguments)

def hashableEdgeTags : List Str :=
  let edgeTags := sortTags a.edgeTags
  if includes edgeTags (lit "manual_checkpoint:true") then
    edgeTags.filter fun item => item ≠ lit "manual_checkpoint:true"
  else edgeTags

def joinedEdgeTags : Str := a.hashableEdgeTags.flatten

/-- The propagation hash in base 16; nothing for `null` and `0n`. -/
def propagationHex : Str :=
  match a.propagationHash with
  | some (n + 1) => Str.natString 16 (n + 1)
  | _ => []

def propagationPart : Str := if a.propagationHex ≠ [] then lit ":" ++ a.propagationHex else []

/-- The key in the cache, with the parent hash as text. -/
def key : Str :=
  a.service ++ a.env ++ a.joinedEdgeTags ++ Unicode.decodeLossy a.parentHash ++ a.propagationPart

/-- What is hashed first. -/
def hashInput : Str :=
  let baseString := a.service ++ a.env ++ a.joinedEdgeTags
  if a.propagationHex ≠ [] then baseString ++ lit ":" ++ a.propagationHex else baseString

/-- The text that is hashed second: `Buffer.concat([currentHash, parentHash], 16).toString()`. -/
def combined (sha : HashFunction) : Str :=
  Unicode.decodeLossy ((shaHash sha a.hashInput ++ a.parentHash).takeD 16 0)

/-- The hash without the cache. -/
def uncached (sha : HashFunction) : List UInt8 := shaHash sha (a.combined sha)

end Arguments

/-- An entry: the buffer that `set` was given, and the call that made it. -/
structure Entry where
  value : Buf
  by_ : Arguments
  deriving DecidableEq

/-- The cache, with the number of the next buffer to be made. -/
structure Cache where
  entries : OrderedMap Str Entry
  next : ℕ

/-- An empty cache. -/
def Cache.empty : Cache := ⟨.empty, 1⟩

/-- `computeHash`: what it returns, and the cache it leaves. -/
def computeHash (sha : HashFunction) (c : Cache) (a : Arguments) : Buf × Cache :=
  match c.entries.get? a.key with
  | some e => (e.value, c)
  | none =>
    let value : Buf := ⟨c.next, a.uncached sha⟩
    (value, ⟨c.entries.set a.key ⟨value, a⟩, c.next + 1⟩)

/-- A call, or an entry that the package drops. -/
inductive CacheEvent
  | compute (a : Arguments)
  | evict (key : Str)
  deriving DecidableEq

/-- The cache and what was returned to each call so far. -/
structure Calls where
  cache : Cache
  returned : List (Arguments × Buf)

namespace Calls

def start : Calls := ⟨.empty, []⟩

def step (sha : HashFunction) (s : Calls) : CacheEvent → Option Calls
  | .compute a =>
    some ⟨(computeHash sha s.cache a).2, s.returned ++ [(a, (computeHash sha s.cache a).1)]⟩
  | .evict key => some { s with cache := { s.cache with entries := s.cache.entries.delete key } }

/-- **The cache is transparent**: each call was returned its own hash. -/
def Transparent (sha : HashFunction) (s : Calls) : Prop :=
  ∀ call ∈ s.returned, call.2.bytes = call.1.uncached sha

/-- A call that hits does so on an entry made from the same hash input, whose digest with the
parent hash of either call behind it reads as the same text. -/
def HitsOwn (sha : HashFunction) (s : Calls) : CacheEvent → Prop
  | .compute a => ∀ e, s.cache.entries.get? a.key = some e →
    e.by_.hashInput = a.hashInput ∧ e.by_.combined sha = a.combined sha
  | .evict _ => True

end Calls

/-- Every entry has the hash of the call that made it. -/
def Cache.Sound (sha : HashFunction) (c : Cache) : Prop :=
  ∀ key e, c.entries.get? key = some e → e.value.bytes = e.by_.uncached sha

theorem Cache.sound_empty (sha : HashFunction) : Cache.empty.Sound sha := by
  intro key e h
  cases h

variable {sha : HashFunction}

theorem sound_computeHash {c : Cache} (h : c.Sound sha) (a : Arguments) :
    (computeHash sha c a).2.Sound sha := by
  rw [computeHash]
  cases hget : c.entries.get? a.key with
  | some e => exact h
  | none =>
    intro key e he
    rw [get?_set] at he
    split at he
    · rw [← Option.some.inj he]
    · exact h key e he

/-- A hit on an entry made from the same texts is the hash of the call. -/
theorem bytes_computeHash {c : Cache} (h : c.Sound sha) {a : Arguments}
    (hown : ∀ e, c.entries.get? a.key = some e → e.by_.combined sha = a.combined sha) :
    (computeHash sha c a).1.bytes = a.uncached sha := by
  rw [computeHash]
  cases hget : c.entries.get? a.key with
  | some e =>
    rw [h _ e hget, Arguments.uncached, hown e hget, Arguments.uncached]
  | none => rfl

theorem sound_delete {c : Cache} (h : c.Sound sha) (key : Str) :
    Cache.Sound sha { c with entries := c.entries.delete key } := by
  intro key' e he
  by_cases hkey : key' = key
  · rw [hkey, get?_delete_self] at he
    cases he
  · rw [get?_delete_of_ne _ hkey] at he
    exact h key' e he

/-- **The cache is transparent** over every run of calls and evictions whose hits are on entries of
their own texts. -/
theorem transparent_of_run (sha : HashFunction) {run : List CacheEvent} {s : Calls}
    (hown : Run.Every (Calls.step sha) (Calls.HitsOwn sha) .start run)
    (hrun : Run.exec (Calls.step sha) .start run = some s) : s.Transparent sha := by
  refine (Run.invariant (I := fun s => s.cache.Sound sha ∧ s.Transparent sha) ?_
    ⟨Cache.sound_empty sha, fun _ h => absurd h List.not_mem_nil⟩ hown hrun).2
  rintro s e t ⟨hsound, htransparent⟩ hhits hstep
  cases e with
  | compute a =>
    rw [← Option.some.inj hstep]
    refine ⟨sound_computeHash hsound a, fun call hcall => ?_⟩
    rcases List.mem_append.mp hcall with hcall | hcall
    · exact htransparent call hcall
    · rw [List.mem_singleton.mp hcall]
      exact bytes_computeHash hsound fun e he => (hhits e he).2
  | evict key =>
    rw [← Option.some.inj hstep]
    exact ⟨sound_delete hsound key, htransparent⟩

/-- A checkpoint of a topic under a parent. -/
def topicCheckpoint (topic : Str) (parentHash : List UInt8) : Arguments where
  service := lit "svc"
  env := lit "prod"
  edgeTags := [lit "direction:in", topic]
  parentHash := parentHash
  propagationHash := none

/-- A call and the same call again, which hits. -/
def callTwice : List CacheEvent :=
  [.compute (topicCheckpoint (lit "topic:t") [0, 0, 0, 0, 0, 0, 0, 0]),
    .compute (topicCheckpoint (lit "topic:t") [0, 0, 0, 0, 0, 0, 0, 0])]

theorem hitsOwn_callTwice :
    Run.Every (Calls.step Sha256.digest) (Calls.HitsOwn Sha256.digest) .start callTwice := by
  constructor
  · intro e he
    cases he
  · intro t ht
    rw [← Option.some.inj ht]
    refine ⟨fun e he => ?_, fun _ _ => trivial⟩
    have hown : e.by_ = topicCheckpoint (lit "topic:t") [0, 0, 0, 0, 0, 0, 0, 0] := by
      rw [← Option.some.inj ((get?_set_self ..).symm.trans he)]
    rw [hown]
    exact ⟨rfl, rfl⟩

theorem transparent_of_run_twice :
    ∃ s, Run.exec (Calls.step Sha256.digest) .start callTwice = some s ∧
      s.Transparent Sha256.digest :=
  ⟨_, rfl, transparent_of_run Sha256.digest hitsOwn_callTwice rfl⟩

/-- A parent hash that begins with `ab` and goes on with a byte that is no UTF-8. -/
def firstCall : Arguments :=
  topicCheckpoint (lit "topic:t") [0x61, 0x62, 0x80, 0x63, 0x64, 0x65, 0x66, 0x67]

/-- A parent hash that begins with U+FFFD, behind a topic that ends in `ab`. -/
def secondCall : Arguments :=
  topicCheckpoint (lit "topic:tab") [0xEF, 0xBF, 0xBD, 0x63, 0x64, 0x65, 0x66, 0x67]

theorem key_secondCall : secondCall.key = firstCall.key := by decide +kernel

theorem uncached_ne : firstCall.uncached Sha256.digest ≠ secondCall.uncached Sha256.digest := by
  decide +kernel

/-- **Two pathways share a hash**: the second call has the key of the first one and is returned its
hash. -/
theorem not_transparent : ¬∀ (run : List CacheEvent) (s : Calls),
      Run.exec (Calls.step Sha256.digest) .start run = some s → s.Transparent Sha256.digest := by
  intro h
  have hcalls := h [.compute firstCall, .compute secondCall] _ rfl
  have hsecond := hcalls (secondCall, _) (List.mem_append_right _ (List.mem_singleton_self _))
  have hhit : (computeHash Sha256.digest (computeHash Sha256.digest .empty firstCall).2
      secondCall).1.bytes = firstCall.uncached Sha256.digest := by
    have hmiss : (computeHash Sha256.digest .empty firstCall).2 =
        ⟨OrderedMap.empty.set firstCall.key ⟨⟨1, firstCall.uncached Sha256.digest⟩, firstCall⟩, 2⟩ :=
      rfl
    rw [hmiss, computeHash, key_secondCall, get?_set_self]
  exact uncached_ne (hhit.symm.trans hsecond)

end DdTrace.Datastreams
