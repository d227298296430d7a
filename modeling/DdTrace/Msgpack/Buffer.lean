import DdTrace.Library.Buffer
import DdTrace.Library.Emit
import DdTrace.Library.Run
import DdTrace.Msgpack.Chunk

/-!
# The buffer of `MsgpackChunk`

`msgpack/chunk.js` writes into a `Buffer` that it replaces by a larger one when a write does not
fit, and by a smaller one when it was hardly used for `SHRINK_AFTER_FLUSHES` flushes.  Some writers
go through a `DataView` over the same memory, callers assign to reserved bytes themselves and set
`length` back.  Here the memory is a table of slices, each of which `Buffer.allocUnsafe` handed out
with whatever was in it, and the buffer and the view name a slice each.

What the chunk is for is a log of bytes: a write adds to it unless it would then be longer than
`Settings.cap`, a reservation adds room that holds anything, and a rewind cuts it back.

* `Chunk`, `Chunk.reserve`, `Chunk.reset`, and the writers: the code.
* `Refines`: the first `length` bytes show the log, the view is over the buffer, and the capacity
  is between its bounds.
* `run_cases`: one operation, which is refused just where the log would become too long.
* `refines_exec`: every run.  A refused write leaves the chunk as it was, and a refused `writeBin`
  may leave its prefix: the prefix and the bytes are reserved apart, which
  `refused_writeBin_changes` shows.
* `fill_append`: the writers on lists of bytes that the encoders are modelled with.
-/

open Library

namespace DdTrace.MsgpackChunk

open List

/-! ## The chunk -/

def SHRINK_AFTER_FLUSHES : ℕ := 32

def SHRINK_USAGE_RATIO : ℕ := 4

/-- What a chunk is made with.  Doubling an empty buffer does not make it larger, and no caller
asks for one. -/
structure Settings where
  minSize : ℕ
  pos : 0 < minSize
  /-- What is in the memory that an allocation hands out. -/
  uninitialised : ℕ → ℕ → UInt8

/-- The largest capacity. -/
def Settings.cap (S : Settings) : ℕ := max S.minSize MAX_SIZE

structure View where
  slice : ℕ
  byteLength : ℕ
  deriving DecidableEq

structure Chunk where
  memory : ℕ → List UInt8
  allocated : ℕ
  buffer : ℕ
  view : View
  length : ℕ
  lowUsageStreak : ℕ

inductive Failure
  | overflow (error : OverflowError)
  /-- A setter of the view that is called beyond its end. -/
  | range

namespace Chunk

/-- What is in the buffer. -/
def bytes (c : Chunk) : List UInt8 := c.memory c.buffer

/-- `buffer.length`. -/
def capacity (c : Chunk) : ℕ := c.bytes.length

/-- What was written, the first `length` bytes of the buffer. -/
def contents (c : Chunk) : List UInt8 := c.bytes.take c.length

/-- `Buffer.allocUnsafe` and the view over it. -/
def allocate (S : Settings) (size : ℕ) (c : Chunk) : Chunk :=
  { c with
    memory := Function.update c.memory c.allocated
      ((List.range size).map (S.uninitialised c.allocated))
    allocated := c.allocated + 1
    buffer := c.allocated
    view := ⟨c.allocated, size⟩ }

/-- The constructor. -/
def create (S : Settings) : Chunk := allocate S S.minSize ⟨fun _ => [], 0, 0, ⟨0, 0⟩, 0, 0⟩

/-- Assignments to `this.buffer`. -/
def assigned (offset : ℕ) (l : List UInt8) (c : Chunk) : Chunk :=
  { c with memory := Function.update c.memory c.buffer (Buffer.store c.bytes offset l) }

/-- `#resize`. -/
def resize (S : Settings) (size : ℕ) (c : Chunk) : Chunk :=
  assigned 0 (c.bytes.take c.length) (allocate S size c)

/-- `while (newSize < needed) newSize *= 2`, at most so many times. -/
def doubled (needed : ℕ) : ℕ → ℕ → ℕ
  | 0, newSize => newSize
  | n + 1, newSize => if newSize < needed then doubled needed n (newSize * 2) else newSize

def reserve (S : Settings) (size : ℕ) : Prog Failure Chunk Unit := fun c =>
  let needed := c.length + size
  if c.capacity < needed then
    if MAX_SIZE < needed then (.error (.overflow ⟨needed⟩), c)
    else
      let grown := c.resize S (min (doubled needed needed c.capacity) MAX_SIZE)
      (.ok (), { grown with length := grown.length + size })
  else (.ok (), { c with length := c.length + size })

def reset (S : Settings) : Prog Failure Chunk Unit := Prog.modify fun c =>
  let peak := c.length
  let cleared := { c with length := 0 }
  if S.minSize < c.capacity ∧ peak * SHRINK_USAGE_RATIO < c.capacity then
    if SHRINK_AFTER_FLUSHES ≤ c.lowUsageStreak + 1 then
      { cleared.allocate S (max S.minSize (c.capacity / 2)) with lowUsageStreak := 0 }
    else { cleared with lowUsageStreak := c.lowUsageStreak + 1 }
  else { cleared with lowUsageStreak := 0 }

/-! ### The writers -/

def assign (offset : ℕ) (l : List UInt8) : Prog Failure Chunk Unit :=
  Prog.modify (assigned offset l)

/-- The setters of `this.view`. -/
def assignView (offset : ℕ) (l : List UInt8) : Prog Failure Chunk Unit := fun c =>
  if c.view.byteLength < offset + l.length then (.error .range, c)
  else
    let stored := Buffer.store (c.memory c.view.slice) offset l
    (.ok (), { c with memory := Function.update c.memory c.view.slice stored })

/-- A writer that reserves its bytes and then assigns them. -/
def fill (S : Settings) (l : List UInt8) : Prog Failure Chunk Unit := do
  let c ← Prog.get
  reserve S l.length
  assign c.length l

/-- A writer that assigns one byte and lets the view set the others. -/
def fillView (S : Settings) (tag : UInt8) (l : List UInt8) : Prog Failure Chunk Unit := do
  let c ← Prog.get
  reserve S (1 + l.length)
  assign c.length [tag]
  assignView (c.length + 1) l

def write (S : Settings) (value : Str) : Prog Failure Chunk Unit :=
  fill S (MsgpackChunk.write value)

def set (S : Settings) (array : List UInt8) : Prog Failure Chunk Unit := fill S array

def writeNull (S : Settings) : Prog Failure Chunk Unit := fill S MsgpackChunk.writeNull

def writeBoolean (S : Settings) (value : Bool) : Prog Failure Chunk Unit :=
  fill S (MsgpackChunk.writeBoolean value)

def writeFixArray (S : Settings) (size : ℕ) : Prog Failure Chunk Unit :=
  fill S (MsgpackChunk.writeFixArray size)

def writeArrayPrefix (S : Settings) (length : ℕ) : Prog Failure Chunk Unit :=
  fill S (MsgpackChunk.writeArrayPrefix length)

def writeMapPrefix (S : Settings) (keysLength : ℕ) : Prog Failure Chunk Unit :=
  fill S (MsgpackChunk.writeMapPrefix keysLength)

def writeByte (S : Settings) (value : ℤ) : Prog Failure Chunk Unit := fill S [byte value 0]

/-- The prefix and the bytes are reserved one after the other. -/
def writeBin (S : Settings) (value : List UInt8) : Prog Failure Chunk Unit := do
  fill S (binPrefix value.length)
  set S value

def writeInteger (S : Settings) (value : ℤ) : Prog Failure Chunk Unit :=
  fill S (MsgpackChunk.writeInteger value)

def writeLong (S : Settings) (value : ℤ) : Prog Failure Chunk Unit :=
  fill S (MsgpackChunk.writeLong value)

def writeUnsigned (S : Settings) (value : ℤ) : Prog Failure Chunk Unit :=
  fill S (MsgpackChunk.writeUnsigned value)

def writeSigned (S : Settings) (value : ℤ) : Prog Failure Chunk Unit :=
  fill S (MsgpackChunk.writeSigned value)

def writeBigInt (S : Settings) (value : ℤ) : Prog Failure Chunk Unit :=
  if 0 ≤ value then fillView S 0xCF (setBigInt64 value) else fillView S 0xD3 (setBigInt64 value)

def writeFloat (S : Settings) (value : Binary64) : Prog Failure Chunk Unit :=
  fillView S 0xCB (Bytes.toBytes 8 value.bits)

/-- An integer, by its sign. -/
def writeInt (S : Settings) (value : ℤ) : Prog Failure Chunk Unit :=
  if value ≥ 0 then writeUnsigned S value else writeSigned S value

def writeNumber (S : Settings) (value : Binary64) : Prog Failure Chunk Unit :=
  if value.isNaN then writeInt S 0
  else if value.isInteger then writeInt S value.toInt
  else writeFloat S value

def writeIntOrFloat (S : Settings) (value : Binary64) : Prog Failure Chunk Unit :=
  if isFixint value then fill S [byte value.toInt 0]
  else if value.isInteger then writeInt S value.toInt
  else writeFloat S value

/-- `chunk.length = n`. -/
def rewind (n : ℕ) : Prog Failure Chunk Unit := Prog.modify fun c => { c with length := n }

end Chunk

/-! ## Operations -/

/-- What is done to a chunk: its methods, and what callers do to `buffer`, `view` and `length`. -/
inductive Op
  | reserve (size : ℕ)
  | write (value : Str)
  | set (array : List UInt8)
  | writeNull
  | writeBoolean (value : Bool)
  | writeFixArray (size : ℕ)
  | writeArrayPrefix (length : ℕ)
  | writeMapPrefix (keysLength : ℕ)
  | writeByte (value : ℤ)
  | writeBin (value : List UInt8)
  | writeInteger (value : ℤ)
  | writeLong (value : ℤ)
  | writeUnsigned (value : ℤ)
  | writeSigned (value : ℤ)
  | writeBigInt (value : ℤ)
  | writeFloat (value : Binary64)
  | writeNumber (value : Binary64)
  | writeIntOrFloat (value : Binary64)
  | assign (offset : ℕ) (l : List UInt8)
  | assignView (offset : ℕ) (l : List UInt8)
  | rewind (n : ℕ)
  | reset

namespace Op

/-- Callers assign to what was reserved, and set `length` back only. -/
def Enabled (length : ℕ) : Op → Prop
  | assign offset l | assignView offset l => offset + l.length ≤ length
  | rewind n => n ≤ length
  | _ => True

instance (length : ℕ) : (op : Op) → Decidable (op.Enabled length)
  | assign offset l | assignView offset l =>
    inferInstanceAs (Decidable (offset + l.length ≤ length))
  | rewind n => inferInstanceAs (Decidable (n ≤ length))
  | reserve _ | write _ | set _ | writeNull | writeBoolean _ | writeFixArray _ | writeArrayPrefix _
  | writeMapPrefix _ | writeByte _ | writeBin _ | writeInteger _ | writeLong _ | writeUnsigned _
  | writeSigned _ | writeBigInt _ | writeFloat _ | writeNumber _ | writeIntOrFloat _ | reset =>
    isTrue trivial

def run (S : Settings) : Op → Prog Failure Chunk Unit
  | reserve size => Chunk.reserve S size
  | write value => Chunk.write S value
  | set array => Chunk.set S array
  | writeNull => Chunk.writeNull S
  | writeBoolean value => Chunk.writeBoolean S value
  | writeFixArray size => Chunk.writeFixArray S size
  | writeArrayPrefix length => Chunk.writeArrayPrefix S length
  | writeMapPrefix keysLength => Chunk.writeMapPrefix S keysLength
  | writeByte value => Chunk.writeByte S value
  | writeBin value => Chunk.writeBin S value
  | writeInteger value => Chunk.writeInteger S value
  | writeLong value => Chunk.writeLong S value
  | writeUnsigned value => Chunk.writeUnsigned S value
  | writeSigned value => Chunk.writeSigned S value
  | writeBigInt value => Chunk.writeBigInt S value
  | writeFloat value => Chunk.writeFloat S value
  | writeNumber value => Chunk.writeNumber S value
  | writeIntOrFloat value => Chunk.writeIntOrFloat S value
  | assign offset l => Chunk.assign offset l
  | assignView offset l => Chunk.assignView offset l
  | rewind n => Chunk.rewind n
  | reset => Chunk.reset S

/-! ### The log -/

/-- The bytes of a writer. -/
def written : Op → List UInt8
  | write value => MsgpackChunk.write value
  | set array => array
  | writeNull => MsgpackChunk.writeNull
  | writeBoolean value => MsgpackChunk.writeBoolean value
  | writeFixArray size => MsgpackChunk.writeFixArray size
  | writeArrayPrefix length => MsgpackChunk.writeArrayPrefix length
  | writeMapPrefix keysLength => MsgpackChunk.writeMapPrefix keysLength
  | writeByte value => [byte value 0]
  | writeBin value => binPrefix value.length ++ value
  | writeInteger value => MsgpackChunk.writeInteger value
  | writeLong value => MsgpackChunk.writeLong value
  | writeUnsigned value => MsgpackChunk.writeUnsigned value
  | writeSigned value => MsgpackChunk.writeSigned value
  | writeBigInt value => MsgpackChunk.writeBigInt value
  | writeFloat value => MsgpackChunk.writeFloat value
  | writeNumber value => MsgpackChunk.writeNumber value
  | writeIntOrFloat value => MsgpackChunk.writeIntOrFloat value
  | reserve _ | assign _ _ | assignView _ _ | rewind _ | reset => []

/-- What an operation adds at the end of the log: its bytes, or room. -/
def entries : Op → List (Option UInt8)
  | reserve size => List.replicate size none
  | op => op.written.map some

/-- What becomes of a log of at most `cap` entries. -/
def apply (cap : ℕ) (log : List (Option UInt8)) : Op → List (Option UInt8)
  | assign offset l | assignView offset l => Buffer.store log offset (l.map some)
  | rewind n => log.take n
  | reset => []
  | writeBin value =>
    if log.length + (writeBin value).entries.length ≤ cap then log ++ (writeBin value).entries
    else if log.length + (binPrefix value.length).length ≤ cap then
      log ++ (binPrefix value.length).map some
    else log
  | op => if log.length + op.entries.length ≤ cap then log ++ op.entries else log

end Op

/-- A step of the code: what an operation leaves behind, refused or not. -/
def step (S : Settings) (c : Chunk) (op : Op) : Option Chunk :=
  if op.Enabled c.length then some (op.run S c).2 else none

/-- A step of the log. -/
def logStep (cap : ℕ) (log : List (Option UInt8)) (op : Op) : Option (List (Option UInt8)) :=
  if op.Enabled log.length then some (op.apply cap log) else none

theorem step_of_enabled {S : Settings} {c : Chunk} {op : Op} (h : op.Enabled c.length) :
    step S c op = some (op.run S c).2 := if_pos h

/-! ## What holds of a chunk -/

structure Refines (S : Settings) (c : Chunk) (log : List (Option UInt8)) : Prop where
  shows : Buffer.Shows c.contents log
  length_le : c.length ≤ c.capacity
  view_eq : c.view = ⟨c.buffer, c.capacity⟩
  minSize_le : S.minSize ≤ c.capacity
  capacity_le : c.capacity ≤ S.cap

/-- What an operation answers: it is refused where the log would become too long, and then only
`writeBin` may have changed the chunk, by its prefix. -/
def Answers (S : Settings) (c : Chunk) (log : List (Option UInt8)) (op : Op) : Prop :=
  if log.length + op.entries.length ≤ S.cap then (op.run S c).1 = .ok ()
  else (∃ needed, (op.run S c).1 = .error (.overflow ⟨needed⟩)) ∧
    ((op.run S c).2 = c ∨ ∃ value, op = .writeBin value ∧
      (op.run S c).2.contents = c.contents ++ binPrefix value.length)

variable {S : Settings} {c : Chunk} {log : List (Option UInt8)}

namespace Refines

theorem length_eq (h : Refines S c log) : log.length = c.length := by
  rw [← h.shows.length_eq, Chunk.contents, length_take]
  exact Nat.min_eq_left h.length_le

/-- A chunk refines the log of all the bytes that are in it. -/
theorem self (h : Refines S c log) : Refines S c (c.contents.map some) :=
  ⟨Buffer.shows_map_some_iff.mpr rfl, h.length_le, h.view_eq, h.minSize_le, h.capacity_le⟩

end Refines

namespace Chunk

/-! ### Allocations -/

@[simp] theorem bytes_allocate (size : ℕ) :
    (allocate S size c).bytes = (List.range size).map (S.uninitialised c.allocated) :=
  Function.update_self _ _ _

@[simp] theorem capacity_allocate (size : ℕ) : (allocate S size c).capacity = size := by
  rw [capacity, bytes_allocate, length_map, length_range]

@[simp] theorem bytes_assigned (offset : ℕ) (l : List UInt8) :
    (assigned offset l c).bytes = Buffer.store c.bytes offset l := Function.update_self _ _ _

@[simp] theorem capacity_assigned (offset : ℕ) (l : List UInt8) :
    (assigned offset l c).capacity = c.capacity := by
  rw [capacity, bytes_assigned, Buffer.length_store, capacity]

/-- The doubled size is large enough, and the loop has ended. -/
theorem le_doubled {needed n size : ℕ} (hpos : 0 < size) (h : needed ≤ size + n) :
    needed ≤ doubled needed n size ∧ size ≤ doubled needed n size := by
  induction n generalizing size with
  | zero => exact ⟨h, le_refl size⟩
  | succ n ih =>
    rw [doubled]
    split
    · obtain ⟨hneeded, hsize⟩ := @ih (size * 2) (by omega) (by omega)
      exact ⟨hneeded, by omega⟩
    · exact ⟨by omega, le_refl size⟩

/-- What `#resize` keeps. -/
theorem refines_resize {size : ℕ} (h : Refines S c log) (hlen : c.length ≤ size)
    (hmin : S.minSize ≤ size) (hcap : size ≤ S.cap) : Refines S (c.resize S size) log := by
  have hcapacity : (c.resize S size).capacity = size := by
    rw [resize, capacity_assigned, capacity_allocate]
  have htake : (c.bytes.take c.length).length = c.length := by
    rw [length_take]
    exact Nat.min_eq_left h.length_le
  have hbytes : (c.resize S size).contents = c.contents := by
    have hstore := @Buffer.take_store _ (allocate S size c).bytes 0 (c.bytes.take c.length)
      (by rw [htake]; simpa [capacity] using hlen)
    rw [htake, Nat.zero_add, take_zero] at hstore
    rw [contents, resize, bytes_assigned]
    exact hstore
  exact ⟨by rw [hbytes]; exact h.shows, by rw [hcapacity]; exact hlen,
    by rw [hcapacity]; rfl, by rw [hcapacity]; exact hmin, by rw [hcapacity]; exact hcap⟩

/-! ### Room -/

/-- A reservation that is granted. -/
theorem reserve_ok {size : ℕ} (h : Refines S c log) (hsize : log.length + size ≤ S.cap) :
    ∃ d, reserve S size c = (.ok (), d) ∧ Refines S d (log ++ List.replicate size none) := by
  have hgrant : ∀ d : Chunk, Refines S d log → d.length = c.length → c.length + size ≤ d.capacity →
      Refines S { d with length := d.length + size } (log ++ List.replicate size none) := by
    intro d hd hlen hroom
    have hrest : ((d.bytes.drop d.length).take size).length = size := by
      rw [length_take, length_drop]
      exact Nat.min_eq_left (by unfold capacity at hroom; omega)
    have hcontents : Chunk.contents { d with length := d.length + size } =
        d.contents ++ (d.bytes.drop d.length).take size := take_add
    refine ⟨?_, by show d.length + size ≤ d.capacity; omega, hd.view_eq, hd.minSize_le,
      hd.capacity_le⟩
    rw [hcontents]
    have hshows := Buffer.shows_room ((d.bytes.drop d.length).take size)
    rw [hrest] at hshows
    exact hd.shows.append hshows
  rw [h.length_eq] at hsize
  unfold reserve
  by_cases hfit : c.capacity < c.length + size
  · -- a capacity above `MAX_SIZE` is `minSize`, and then also `cap`
    have hmax : c.length + size ≤ MAX_SIZE := by
      have hmin := h.minSize_le
      unfold Settings.cap at hsize
      omega
    have hpos : 0 < c.capacity := Nat.lt_of_lt_of_le S.pos h.minSize_le
    obtain ⟨hneeded, hlarger⟩ := le_doubled (n := c.length + size) hpos
      (Nat.le_add_left (c.length + size) c.capacity)
    have hle : c.length + size ≤
        min (doubled (c.length + size) (c.length + size) c.capacity) MAX_SIZE := le_min hneeded hmax
    have hmin := h.minSize_le
    have hgrown := refines_resize h (le_trans (Nat.le_add_right _ size) hle) (by omega)
      (le_trans (Nat.min_le_right _ _) (Nat.le_max_right _ _))
    rw [if_pos hfit, if_neg (by omega)]
    refine ⟨_, rfl, hgrant _ hgrown rfl ?_⟩
    rw [resize, capacity_assigned, capacity_allocate]
    exact hle
  · rw [if_neg hfit]
    exact ⟨_, rfl, hgrant c h rfl (by omega)⟩

/-- A reservation that is refused. -/
theorem reserve_error {size : ℕ} (h : Refines S c log) (hsize : S.cap < log.length + size) :
    reserve S size c = (.error (.overflow ⟨c.length + size⟩), c) := by
  have hcap := h.capacity_le
  rw [h.length_eq] at hsize
  unfold reserve
  rw [if_pos (by omega), if_pos (lt_of_le_of_lt (Nat.le_max_right _ _) hsize)]

/-- Assignments to what was reserved. -/
theorem refines_assigned {offset : ℕ} {l : List UInt8} (h : Refines S c log)
    (hle : offset + l.length ≤ c.length) :
    Refines S (assigned offset l c) (Buffer.store log offset (l.map some)) := by
  have hcontents : (assigned offset l c).contents = Buffer.store c.contents offset l := by
    rw [contents, bytes_assigned]
    exact Buffer.take_store_of_le hle h.length_le
  have hlen : offset + l.length ≤ c.contents.length := by
    rw [h.shows.length_eq, h.length_eq]
    exact hle
  refine ⟨?_, ?_, ?_, ?_, ?_⟩
  · rw [hcontents]
    exact h.shows.store (Buffer.shows_map_some_iff.mpr rfl) hlen
  all_goals rw [capacity_assigned]
  · exact h.length_le
  · exact h.view_eq
  · exact h.minSize_le
  · exact h.capacity_le

/-- The view is over the buffer, so that its setters assign to the buffer. -/
theorem assignView_eq {offset : ℕ} {l : List UInt8} (h : Refines S c log)
    (hle : offset + l.length ≤ c.length) :
    assignView offset l c = (.ok (), assigned offset l c) := by
  have hlen := h.length_le
  have hview := h.view_eq
  unfold assignView
  rw [if_neg (by rw [hview]; dsimp only; omega)]
  simp only [hview, assigned, bytes]

/-- The bytes of a writer in the room that it reserved. -/
theorem store_room (log : List (Option UInt8)) (l : List UInt8) :
    Buffer.store (log ++ List.replicate l.length none) log.length (l.map some) =
      log ++ l.map some := by
  rw [Buffer.store_eq (by simp), take_left, drop_of_length_le (by simp), append_nil]

/-! ### The writers -/

/-- **A write** that fits, and one that does not. -/
theorem fill_cases (h : Refines S c log) (l : List UInt8) : (log.length + l.length ≤ S.cap ∧
      ∃ d, fill S l c = (.ok (), d) ∧ Refines S d (log ++ l.map some)) ∨
    (S.cap < log.length + l.length ∧
      fill S l c = (.error (.overflow ⟨c.length + l.length⟩), c)) := by
  have hget : fill S l c = (reserve S l.length >>= fun _ => assign c.length l) c := rfl
  rcases Nat.lt_or_ge S.cap (log.length + l.length) with hlt | hle
  · exact .inr ⟨hlt, by rw [hget, Prog.bind_error (reserve_error h hlt)]⟩
  · obtain ⟨d, hd, hrefines⟩ := reserve_ok h hle
    refine .inl ⟨hle, assigned c.length l d, by rw [hget, Prog.bind_ok hd]; rfl, ?_⟩
    have hlen := hrefines.length_eq
    rw [length_append, length_replicate, h.length_eq] at hlen
    have hassigned := @refines_assigned _ _ _ c.length l hrefines (by omega)
    rwa [← h.length_eq, store_room, h.length_eq] at hassigned

/-- A byte through the buffer and the others through the view are the bytes through the buffer. -/
theorem fillView_eq (h : Refines S c log) (tag : UInt8) (l : List UInt8) :
    fillView S tag l c = fill S (tag :: l) c := by
  have hsize : 1 + l.length = (tag :: l).length := Nat.add_comm 1 l.length
  have hview : fillView S tag l c = (reserve S (tag :: l).length >>= fun _ =>
      assign c.length [tag] >>= fun _ => assignView (c.length + 1) l) c := by
    rw [← hsize]
    rfl
  have hfill : fill S (tag :: l) c =
      (reserve S (tag :: l).length >>= fun _ => assign c.length (tag :: l)) c := rfl
  rw [hview, hfill]
  rcases Nat.lt_or_ge S.cap (log.length + (tag :: l).length) with hlt | hle
  · rw [Prog.bind_error (reserve_error h hlt), Prog.bind_error (reserve_error h hlt)]
  · obtain ⟨d, hd, hrefines⟩ := reserve_ok h hle
    have hlen := hrefines.length_eq
    rw [length_append, length_replicate, h.length_eq] at hlen
    have htag := @refines_assigned _ _ _ c.length [tag] hrefines (by rw [length_singleton]; omega)
    have hrest : c.length + 1 + l.length ≤ (assigned c.length [tag] d).length := by
      show c.length + 1 + l.length ≤ d.length
      omega
    have hassign : assign c.length [tag] d = (.ok (), assigned c.length [tag] d) := rfl
    rw [Prog.bind_ok hd, Prog.bind_ok hd, Prog.bind_ok hassign, assignView_eq htag hrest]
    show _ = (Except.ok (), assigned c.length (tag :: l) d)
    simp only [assigned, bytes, Function.update_idem, Function.update_self, Buffer.store]

/-- **`writeBin`** may stop behind its prefix. -/
theorem writeBin_cases (h : Refines S c log) (value : List UInt8) :
    (log.length + (binPrefix value.length ++ value).length ≤ S.cap ∧
      ∃ d, writeBin S value c = (.ok (), d) ∧
        Refines S d (log ++ (binPrefix value.length ++ value).map some)) ∨
    (S.cap < log.length + (binPrefix value.length ++ value).length ∧
      ∃ needed d, writeBin S value c = (.error (.overflow ⟨needed⟩), d) ∧
        ((S.cap < log.length + (binPrefix value.length).length ∧ d = c) ∨
          (log.length + (binPrefix value.length).length ≤ S.cap ∧
            Refines S d (log ++ (binPrefix value.length).map some) ∧
            d.contents = c.contents ++ binPrefix value.length))) := by
  rw [length_append, ← Nat.add_assoc]
  rcases fill_cases h (binPrefix value.length) with ⟨hle, d, hd, hrefines⟩ | ⟨hlt, hd⟩
  · have hset : writeBin S value c = fill S value d := Prog.bind_ok hd
    have hlen : (log ++ (binPrefix value.length).map some).length =
        log.length + (binPrefix value.length).length := by
      rw [length_append, length_map]
    rcases fill_cases hrefines value with ⟨hfit, e, he, hlast⟩ | ⟨hover, he⟩
    · refine .inl ⟨by rwa [hlen] at hfit, e, by rw [hset, he], ?_⟩
      rwa [append_assoc, ← map_append] at hlast
    · refine .inr ⟨by rwa [hlen] at hover, _, d, by rw [hset, he], .inr ⟨hle, hrefines, ?_⟩⟩
      -- the log of all bytes that are there says what the prefix was added to
      rcases fill_cases h.self (binPrefix value.length) with ⟨-, d', hd', hself⟩ | ⟨-, hd'⟩
      · rw [hd] at hd'
        cases hd'
        exact Buffer.shows_map_some_iff.mp (by rw [map_append]; exact hself.shows)
      · rw [hd] at hd'
        cases hd'
  · exact .inr ⟨by omega, _, c, Prog.bind_error hd, .inl ⟨hlt, rfl⟩⟩

/-- Nothing is left of the log after a reset, and the bounds are kept when the buffer shrinks. -/
theorem refines_reset (h : Refines S c log) : ∃ d, reset S c = (.ok (), d) ∧ Refines S d [] := by
  have hclear : ∀ (d : Chunk) (streak : ℕ), d.length = 0 → d.view = ⟨d.buffer, d.capacity⟩ →
      S.minSize ≤ d.capacity → d.capacity ≤ S.cap →
      Refines S { d with lowUsageStreak := streak } [] := by
    intro d streak hlen hview hmin hcap
    have hnone : d.contents = [] := by rw [contents, hlen, take_zero]
    refine ⟨?_, ?_, hview, hmin, hcap⟩
    · show Buffer.Shows d.contents []
      rw [hnone]
      exact Buffer.shows_nil
    · show d.length ≤ d.capacity
      omega
  have hcap := h.capacity_le
  have hmin := h.minSize_le
  refine ⟨_, rfl, ?_⟩
  dsimp only
  split
  · split
    · -- the smaller buffer
      refine hclear (allocate S _ { c with length := 0 }) 0 rfl ?_ ?_ ?_
      all_goals rw [capacity_allocate]
      · rfl
      · exact Nat.le_max_left _ _
      · omega
    · exact hclear { c with length := 0 } _ rfl h.view_eq hmin hcap
  · exact hclear { c with length := 0 } 0 rfl h.view_eq hmin hcap

theorem writeFloat_eq (h : Refines S c log) (value : Binary64) :
    writeFloat S value c = fill S (MsgpackChunk.writeFloat value) c := fillView_eq h 0xCB _

theorem writeInt_eq (value : ℤ) : writeInt S value = fill S (MsgpackChunk.writeInt value) := by
  unfold writeInt MsgpackChunk.writeInt
  split <;> rfl

theorem writeBigInt_eq (h : Refines S c log) (value : ℤ) :
    writeBigInt S value c = fill S (MsgpackChunk.writeBigInt value) c := by
  unfold writeBigInt MsgpackChunk.writeBigInt
  split
  · exact fillView_eq h 0xCF _
  · exact fillView_eq h 0xD3 _

theorem writeNumber_eq (h : Refines S c log) (value : Binary64) :
    writeNumber S value c = fill S (MsgpackChunk.writeNumber value) c := by
  unfold writeNumber MsgpackChunk.writeNumber
  split
  · rw [writeInt_eq]
  split
  · rw [writeInt_eq]
  · exact writeFloat_eq h value

theorem writeIntOrFloat_eq (h : Refines S c log) (value : Binary64) :
    writeIntOrFloat S value c = fill S (MsgpackChunk.writeIntOrFloat value) c := by
  unfold writeIntOrFloat MsgpackChunk.writeIntOrFloat
  split
  · rfl
  split
  · rw [writeInt_eq]
  · exact writeFloat_eq h value

end Chunk

/-! ## One operation -/

/-- An operation that reserves once and then assigns. -/
theorem run_of_fill (h : Refines S c log) {op : Op} (hrun : op.run S c = Chunk.fill S op.written c)
    (hentries : op.entries = op.written.map some)
    (happly : op.apply S.cap log =
      if log.length + op.entries.length ≤ S.cap then log ++ op.entries else log) :
    Answers S c log op ∧ Refines S (op.run S c).2 (op.apply S.cap log) := by
  have hlen : op.entries.length = op.written.length := by rw [hentries, length_map]
  unfold Answers
  rw [happly, hlen, hrun]
  rcases Chunk.fill_cases h op.written with ⟨hle, d, hd, hrefines⟩ | ⟨hlt, hd⟩
  · rw [if_pos hle, if_pos hle, hd, hentries]
    exact ⟨rfl, hrefines⟩
  · rw [if_neg (by omega), if_neg (by omega), hd]
    exact ⟨⟨⟨_, rfl⟩, .inl rfl⟩, h⟩

/-- An operation that reserves nothing. -/
theorem run_of_ok {d : Chunk} {op : Op} {log' : List (Option UInt8)} (h : Refines S c log)
    (hrun : op.run S c = (.ok (), d)) (hentries : op.entries = [])
    (happly : op.apply S.cap log = log') (hd : Refines S d log') :
    Answers S c log op ∧ Refines S (op.run S c).2 (op.apply S.cap log) := by
  have hlen := h.length_eq
  have hle := h.length_le
  have hcap := h.capacity_le
  unfold Answers
  rw [hentries, happly, hrun, length_nil, if_pos (by omega)]
  exact ⟨rfl, hd⟩

theorem run_reserve (h : Refines S c log) (size : ℕ) : Answers S c log (.reserve size) ∧
      Refines S (Op.run S (.reserve size) c).2 (Op.apply S.cap log (.reserve size)) := by
  have hlen : (Op.reserve size).entries.length = size := length_replicate
  have hrun : Op.run S (.reserve size) c = Chunk.reserve S size c := rfl
  have happly : Op.apply S.cap log (.reserve size) =
      if log.length + (Op.reserve size).entries.length ≤ S.cap then
        log ++ List.replicate size none else log := rfl
  unfold Answers
  rw [happly, hlen, hrun]
  rcases Nat.lt_or_ge S.cap (log.length + size) with hlt | hle
  · rw [if_neg (by omega), if_neg (by omega), Chunk.reserve_error h hlt]
    exact ⟨⟨⟨_, rfl⟩, .inl rfl⟩, h⟩
  · obtain ⟨d, hd, hrefines⟩ := Chunk.reserve_ok h hle
    rw [if_pos hle, if_pos hle, hd]
    exact ⟨rfl, hrefines⟩

theorem run_writeBin (h : Refines S c log) (value : List UInt8) :
    Answers S c log (.writeBin value) ∧
      Refines S (Op.run S (.writeBin value) c).2 (Op.apply S.cap log (.writeBin value)) := by
  have hentries : (Op.writeBin value).entries = (binPrefix value.length ++ value).map some := rfl
  have hrun : Op.run S (.writeBin value) c = Chunk.writeBin S value c := rfl
  have happly : Op.apply S.cap log (.writeBin value) =
      if log.length + (Op.writeBin value).entries.length ≤ S.cap then
        log ++ (Op.writeBin value).entries
      else if log.length + (binPrefix value.length).length ≤ S.cap then
        log ++ (binPrefix value.length).map some
      else log := rfl
  unfold Answers
  rw [happly, hentries, length_map, hrun]
  rcases Chunk.writeBin_cases h value with ⟨hle, d, hd, hrefines⟩ |
      ⟨hlt, needed, d, hd, ⟨hhead, rfl⟩ | ⟨hhead, hrefines, hcontents⟩⟩
  · rw [if_pos hle, if_pos hle, hd]
    exact ⟨rfl, hrefines⟩
  · rw [if_neg (by omega), if_neg (by omega), if_neg (by omega), hd]
    exact ⟨⟨⟨_, rfl⟩, .inl rfl⟩, h⟩
  · rw [if_neg (by omega), if_neg (by omega), if_pos hhead, hd]
    exact ⟨⟨⟨_, rfl⟩, .inr ⟨value, rfl, hcontents⟩⟩, hrefines⟩

/-- **One operation** answers as the log does, and leaves a chunk that refines what it leaves of the
log. -/
theorem run_cases (h : Refines S c log) {op : Op} (hop : op.Enabled c.length) :
    Answers S c log op ∧ Refines S (op.run S c).2 (op.apply S.cap log) := by
  cases op with
  | reserve size => exact run_reserve h size
  | writeBin value => exact run_writeBin h value
  | writeBigInt value => exact run_of_fill h (Chunk.writeBigInt_eq h value) rfl rfl
  | writeFloat value => exact run_of_fill h (Chunk.writeFloat_eq h value) rfl rfl
  | writeNumber value => exact run_of_fill h (Chunk.writeNumber_eq h value) rfl rfl
  | writeIntOrFloat value => exact run_of_fill h (Chunk.writeIntOrFloat_eq h value) rfl rfl
  | assign offset l => exact run_of_ok h rfl rfl rfl (Chunk.refines_assigned h hop)
  | assignView offset l =>
    exact run_of_ok h (Chunk.assignView_eq h hop) rfl rfl (Chunk.refines_assigned h hop)
  | rewind n =>
    have hlen := h.length_le
    have hle : n ≤ c.length := hop
    have hcontents : Chunk.contents { c with length := n } = c.contents.take n := by
      show c.bytes.take n = (c.bytes.take c.length).take n
      rw [take_take, Nat.min_eq_left hle]
    refine run_of_ok h rfl rfl rfl ⟨?_, le_trans hle hlen, h.view_eq, h.minSize_le, h.capacity_le⟩
    rw [hcontents]
    exact h.shows.take n
  | reset =>
    obtain ⟨d, hd, hrefines⟩ := Chunk.refines_reset h
    exact run_of_ok h hd rfl rfl hrefines
  | write | set | writeNull | writeBoolean | writeFixArray | writeArrayPrefix | writeMapPrefix
  | writeByte | writeInteger | writeLong | writeUnsigned | writeSigned =>
    exact run_of_fill h rfl rfl rfl

/-! ## Every run -/

theorem refines_create (S : Settings) : Refines S (Chunk.create S) [] := by
  have hcapacity : (Chunk.create S).capacity = S.minSize := Chunk.capacity_allocate S.minSize
  exact ⟨Buffer.shows_nil, Nat.zero_le _, by rw [hcapacity]; rfl, le_of_eq hcapacity.symm,
    by rw [hcapacity]; exact Nat.le_max_left _ _⟩

/-- A step of the chunk and the step of the log. -/
theorem rel_step (h : Refines S c log) (op : Op) :
    Option.Rel (Refines S) (step S c op) (logStep S.cap log op) := by
  unfold step logStep
  rw [h.length_eq]
  by_cases hop : op.Enabled c.length
  · rw [if_pos hop, if_pos hop]
    exact .some (run_cases h hop).2
  · rw [if_neg hop, if_neg hop]
    exact .none

theorem rel_exec (h : Refines S c log) (ops : List Op) :
    Option.Rel (Refines S) (Run.exec (step S) c ops) (Run.exec (logStep S.cap) log ops) := by
  induction ops generalizing c log with
  | nil => exact .some h
  | cons op ops ih =>
    rw [Run.exec_cons, Run.exec_cons]
    have hstep := rel_step h op
    cases hc : step S c op with
    | none =>
      cases hlog : logStep S.cap log op with
      | none => exact .none
      | some log' => rw [hc, hlog] at hstep; cases hstep
    | some c' =>
      cases hlog : logStep S.cap log op with
      | none => rw [hc, hlog] at hstep; cases hstep
      | some log' =>
        rw [hc, hlog] at hstep
        cases hstep with
        | some hnext => exact ih hnext

/-- Room is only left by `reserve`. -/
theorem isSome_of_mem_exec {cap : ℕ} {ops : List Op} {log log' : List (Option UInt8)}
    (hlog : ∀ entry ∈ log, entry.isSome) (hops : ∀ size, Op.reserve size ∉ ops)
    (h : Run.exec (logStep cap) log ops = some log') : ∀ entry ∈ log', entry.isSome := by
  have hmap : ∀ l : List UInt8, ∀ entry ∈ l.map some, entry.isSome := by
    intro l entry hmem
    obtain ⟨b, -, rfl⟩ := mem_map.mp hmem
    rfl
  have happend : ∀ l : List UInt8, ∀ log : List (Option UInt8), (∀ entry ∈ log, entry.isSome) →
      ∀ entry ∈ log ++ l.map some, entry.isSome := by
    intro l log hlog entry hmem
    exact (mem_append.mp hmem).elim (hlog entry) (hmap l entry)
  induction ops generalizing log with
  | nil =>
    rw [Run.exec_nil, Option.some_inj] at h
    rwa [← h]
  | cons op ops ih =>
    obtain ⟨next, hnext, hrest⟩ := Run.exec_cons_eq_some.mp h
    refine ih ?_ (fun size hmem => hops size (mem_cons_of_mem op hmem)) hrest
    have heq : op.apply cap log = next := by
      unfold logStep at hnext
      split at hnext
      · exact Option.some.inj hnext
      · cases hnext
    rw [← heq]
    cases op with
    | reserve size => exact absurd mem_cons_self (hops size)
    | assign offset l | assignView offset l => exact Buffer.isSome_of_mem_store hlog (hmap l)
    | rewind n => exact fun entry hmem => hlog entry (mem_of_mem_take hmem)
    | reset => exact fun entry hmem => absurd hmem not_mem_nil
    | writeBin value =>
      unfold Op.apply
      dsimp only
      split
      · exact happend _ log hlog
      split
      · exact happend _ log hlog
      · exact hlog
    | write | set | writeNull | writeBoolean | writeFixArray | writeArrayPrefix | writeMapPrefix
    | writeByte | writeInteger | writeLong | writeUnsigned | writeSigned | writeBigInt | writeFloat
    | writeNumber | writeIntOrFloat =>
      unfold Op.apply
      dsimp only
      split
      · exact happend _ log hlog
      · exact hlog

/-- **The chunk refines the log.**  Operations that callers may do are just those that may be done
to the log, and after each run of them the first `length` bytes of the buffer show the log, the view
is over the buffer, the capacity is between `minSize` and `cap`, and whatever comes next is refused
just where the log would become too long: then the chunk is as it was, or has the prefix of a
`writeBin` more.  Without reservations that nothing was assigned to, the log is all bytes, and the
first `length` bytes are these. -/
theorem refines_exec (S : Settings) (ops : List Op) :
    Option.Rel (fun c log => Refines S c log ∧ ∀ op : Op, op.Enabled c.length → Answers S c log op)
        (Run.exec (step S) (Chunk.create S) ops) (Run.exec (logStep S.cap) [] ops) ∧
      ((∀ size, Op.reserve size ∉ ops) → ∀ c, Run.exec (step S) (Chunk.create S) ops = some c →
        Run.exec (logStep S.cap) [] ops = some (c.contents.map some)) := by
  have hrel := rel_exec (refines_create S) ops
  constructor
  · cases hc : Run.exec (step S) (Chunk.create S) ops with
    | none =>
      cases hlog : Run.exec (logStep S.cap) [] ops with
      | none => exact .none
      | some log => rw [hc, hlog] at hrel; cases hrel
    | some c =>
      cases hlog : Run.exec (logStep S.cap) [] ops with
      | none => rw [hc, hlog] at hrel; cases hrel
      | some log =>
        rw [hc, hlog] at hrel
        cases hrel with
        | some h => exact .some ⟨h, fun op hop => (run_cases h hop).1⟩
  · intro hops c hc
    cases hlog : Run.exec (logStep S.cap) [] ops with
    | none => rw [hc, hlog] at hrel; cases hrel
    | some log =>
      rw [hc, hlog] at hrel
      cases hrel with
      | some h =>
        have hsome := isSome_of_mem_exec (fun entry hmem => absurd hmem not_mem_nil) hops hlog
        rw [h.shows.eq_map_some hsome]

/-- A chunk of 2 KiB. -/
def small : Settings := ⟨2048, by decide, fun _ _ => 0⟩

/-- What fills a chunk but for two bytes. -/
def filler : List UInt8 := List.replicate (MAX_SIZE - 2) 0

/-- The refused `writeBin` leaves its prefix in the two bytes that were left. -/
theorem refused_writeBin_changes :
    ¬∀ (S : Settings) (ops : List Op) (op : Op) (c : Chunk) (needed : ℕ),
      Run.exec (step S) (Chunk.create S) ops = some c → op.Enabled c.length →
      (op.run S c).1 = .error (.overflow ⟨needed⟩) →
      (op.run S c).2.length = c.length ∧ (op.run S c).2.contents = c.contents := by
  intro hall
  have hcap : small.cap = MAX_SIZE := by decide
  have hlen : filler.length = MAX_SIZE - 2 := length_replicate
  have hpos : 2 ≤ MAX_SIZE := by decide
  have hrefines := refines_create small
  rcases Chunk.fill_cases hrefines filler with ⟨-, c, hc, hfull⟩ | ⟨hlt, -⟩
  · have hexec : Run.exec (step small) (Chunk.create small) [.set filler] = some c := by
      have hrun : Op.run small (.set filler) (Chunk.create small) = (.ok (), c) := hc
      have hop : (Op.set filler).Enabled (Chunk.create small).length := trivial
      rw [Run.exec_cons, step_of_enabled hop, hrun]
      rfl
    have htwo : (binPrefix 1).length = 2 := rfl
    have hlog : ([] ++ filler.map some : List (Option UInt8)).length = MAX_SIZE - 2 := by
      rw [List.nil_append, length_map, hlen]
    rcases Chunk.writeBin_cases hfull [0] with ⟨hle, -⟩ | ⟨-, needed, d, hd, hd'⟩
    · rw [hlog, length_append, length_singleton] at hle
      omega
    · have hrun : Op.run small (.writeBin [0]) c = (.error (.overflow ⟨needed⟩), d) := hd
      have hkept := (hall small [.set filler] (.writeBin [0]) c needed hexec trivial
        (by rw [hrun])).2
      rcases hd' with ⟨hlt, -⟩ | ⟨-, -, hcontents⟩
      · rw [length_singleton] at hlt
        omega
      · rw [hrun, hcontents] at hkept
        have hnil := congrArg List.length hkept
        rw [length_append, length_singleton] at hnil
        omega
  · rw [length_nil, hcap] at hlt
    omega

/-! ## The log of the encoders -/

/-- A writer does to a chunk what `append` does to the list of its bytes. -/
def Appends (S : Settings) (c : Chunk) (l : List UInt8) : Prop :=
  (∃ d, Chunk.fill S l c = (.ok (), d) ∧ append c.contents l = .ok d.contents) ∨
    ∃ error, Chunk.fill S l c = (.error (.overflow error), c) ∧ append c.contents l = .error error

/-- **The encoders' chunk**, after every run, where `minSize` is not above `MAX_SIZE`. -/
theorem fill_append {ops : List Op} (hr : Run.exec (step S) (Chunk.create S) ops = some c)
    (hmin : S.minSize ≤ MAX_SIZE) (l : List UInt8) : Appends S c l := by
  have hrel := rel_exec (refines_create S) ops
  rw [hr] at hrel
  generalize Run.exec (logStep S.cap) [] ops = log at hrel
  obtain ⟨h⟩ := hrel
  have hcap : S.cap = MAX_SIZE := Nat.max_eq_right hmin
  have hlen : c.contents.length = c.length := by
    rw [h.shows.length_eq, h.length_eq]
  unfold Appends append
  rcases Chunk.fill_cases h.self l with ⟨hle, d, hd, hrefines⟩ | ⟨hlt, hd⟩
  · rw [length_map] at hle
    rw [← map_append] at hrefines
    refine .inl ⟨d, hd, ?_⟩
    rw [if_neg (by omega), Buffer.shows_map_some_iff.mp hrefines.shows]
  · rw [length_map, hcap] at hlt
    exact .inr ⟨_, hd, by rw [if_pos hlt, hlen]⟩

theorem fill_append_small : Appends small (Chunk.create small) filler :=
  fill_append (show Run.exec (step small) _ [] = _ from rfl) (by decide) filler

end DdTrace.MsgpackChunk
