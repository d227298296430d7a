import DdTrace.Library.Run
import Mathlib.Data.List.Count

/-!
# A request that several processes cache

With `ci-visibility/requests/fs-cache.js` the processes of a test run share the response of a
request: the first one takes a lock, fetches and writes the cache, and the others wait for it.  The
lock is a file that is created exclusively, holds the time of its last heartbeat, and is taken over
when that is too old.  `FsCache.step` is one file-system step of one process; between two steps of a
process the others can take any number of theirs.

The file is empty between its creation and its first stamp, and an empty file counts as very old.  A
waiter that has found the lock stale removes whatever lock is there when it comes to it.

* `Locked`: the process that holds the lock, and what it is about to do.
* `sound_step`: what a step keeps.
* `safe_of_undisturbed`: **in every run whose heartbeats are on time, in which no waiter reads a
  lock before it is stamped and nobody creates one while another waiter is about to remove the one
  it found missing, at most one process fetches, no process removes the lock of another, and `done`
  is called once**.
-/

namespace DdTrace.CiVisibility

open Library List Option

/-! ## The code -/

def CACHE_TTL_MS : ℕ := 30 * 60 * 1000

def CACHE_LOCK_TIMEOUT_MS : ℕ := 120000

/-- The step that a call of `withCache` takes next.  A lock that it made or wrote is known by its
inode. -/
inductive Phase (δ ε : Type) where
  | idle
  | acquiring
  | stamping (inode : ℕ)
  | polling
  | judging
  | removing
  | retaking
  | restamping (inode : ℕ)
  | rechecking
  | yielding (data : δ)
  | waiting
  | fetching
  | touching (inode : ℕ)
  | publishing (timestamp : ℕ) (data : δ)
  | releasing (result : Except ε δ)
  | finished

/-- The clock; the file at the path of the lock, with what each file holds, which process made it
and how many there are; the cache; the processes; the calls of `done`; and the locks that were
removed or overwritten, each with the process that did it and the one that had made it. -/
structure FsCache (δ ε : Type) where
  now : ℕ
  lock : Option ℕ := none
  content : ℕ → Option ℕ := fun _ => none
  maker : ℕ → ℕ := fun _ => 0
  inodes : ℕ := 0
  cache : Option (ℕ × δ) := none
  phase : ℕ → Phase δ ε := fun _ => .idle
  done : List (ℕ × Except ε δ) := []
  removed : List (ℕ × ℕ) := []

namespace FsCache

variable {δ ε : Type}

def readFromCache (s : FsCache δ ε) : Option δ :=
  s.cache.bind fun c => if CACHE_TTL_MS < s.now - c.1 then none else some c.2

/-- An empty file is read as the number 0. -/
def isLockStale (s : FsCache δ ε) : Bool :=
  match s.lock with
  | none => true
  | some k => CACHE_LOCK_TIMEOUT_MS < s.now - (s.content k).getD 0

/-- The process takes a step to a phase. -/
def enter (s : FsCache δ ε) (p : ℕ) (phase : Phase δ ε) : FsCache δ ε :=
  { s with phase := Function.update s.phase p phase }

/-- `done` -/
def finish (s : FsCache δ ε) (p : ℕ) (result : Except ε δ) : FsCache δ ε :=
  { s.enter p .finished with done := (p, result) :: s.done }

/-- A new file of the process. -/
def newFile (s : FsCache δ ε) (p : ℕ) (content : Option ℕ) : FsCache δ ε :=
  { s with
    content := Function.update s.content s.inodes content
    maker := Function.update s.maker s.inodes p
    inodes := s.inodes + 1 }

/-- The lock that is removed or overwritten by the process. -/
def noteRemoved (s : FsCache δ ε) (p : ℕ) : List (ℕ × ℕ) :=
  match s.lock with
  | none => s.removed
  | some k => (p, s.maker k) :: s.removed

/-- `fs.unlinkSync` of the lock. -/
def unlinkLock (s : FsCache δ ε) (p : ℕ) : FsCache δ ε :=
  { s with lock := none, removed := s.noteRemoved p }

/-- `fs.renameSync` of a file to the lock. -/
def renameToLock (s : FsCache δ ε) (p inode : ℕ) : FsCache δ ε :=
  { s with lock := some inode, removed := s.noteRemoved p }

/-- The first part of `tryAcquireLock`: the file is created, unless it is there. -/
def create (s : FsCache δ ε) (p : ℕ) (created : ℕ → Phase δ ε) (failed : Phase δ ε) : FsCache δ ε :=
  match s.lock with
  | none => { s.newFile p none with lock := some s.inodes }.enter p (created s.inodes)
  | some _ => s.enter p failed

/-- Its second part: the time is written to the file. -/
def stamp (s : FsCache δ ε) (inode : ℕ) : FsCache δ ε :=
  { s with content := Function.update s.content inode (some s.now) }

/-- The next step of a process that does not wait for its fetch. -/
def advance (s : FsCache δ ε) (p : ℕ) : Option (FsCache δ ε) :=
  match s.phase p with
  | .idle =>
    match s.readFromCache with
    | some data => some (s.finish p (.ok data))
    | none => some (s.enter p .acquiring)
  | .acquiring => some (s.create p .stamping .polling)
  | .stamping k => some ((s.stamp k).enter p .fetching)
  | .polling =>
    match s.readFromCache with
    | some data => some (s.finish p (.ok data))
    | none => some (s.enter p .judging)
  | .judging => some (s.enter p (if s.isLockStale then .removing else .waiting))
  | .removing => some ((s.unlinkLock p).enter p .retaking)
  | .retaking => some (s.create p .restamping .waiting)
  | .restamping k => some ((s.stamp k).enter p .rechecking)
  | .rechecking =>
    match s.readFromCache with
    | some data => some (s.enter p (.yielding data))
    | none => some (s.enter p .fetching)
  | .yielding data => some ((s.unlinkLock p).finish p (.ok data))
  | .waiting => some (s.enter p .polling)
  | .touching k => some ((s.renameToLock p k).enter p .fetching)
  | .publishing timestamp data =>
    some ({ s with cache := some (timestamp, data) }.enter p (.releasing (.ok data)))
  | .releasing result => some ((s.unlinkLock p).finish p result)
  | .fetching | .finished => none

/-- The heartbeat of a process that fetches: it writes its own file, which becomes the lock. -/
def heartbeat (s : FsCache δ ε) (p : ℕ) : Option (FsCache δ ε) :=
  match s.phase p with
  | .fetching => some ((s.newFile p (some s.now)).enter p (.touching s.inodes))
  | _ => none

/-- The fetch of a process completes.  What was fetched is written to the cache. -/
def complete (s : FsCache δ ε) (p : ℕ) (result : Except ε δ) : Option (FsCache δ ε) :=
  match s.phase p with
  | .fetching =>
    match result with
    | .ok data => some (s.enter p (.publishing s.now data))
    | .error e => some (s.enter p (.releasing (.error e)))
  | _ => none

end FsCache

/-- Time passes, or a process takes a step, has a heartbeat or gets its response. -/
inductive CacheEvent (δ ε : Type) where
  | tick (ms : ℕ)
  | advance (p : ℕ)
  | heartbeat (p : ℕ)
  | complete (p : ℕ) (result : Except ε δ)

def FsCache.step {δ ε : Type} (s : FsCache δ ε) : CacheEvent δ ε → Option (FsCache δ ε)
  | .tick ms => some { s with now := s.now + ms }
  | .advance p => s.advance p
  | .heartbeat p => s.heartbeat p
  | .complete p result => s.complete p result

/-! ## What is asked of a run -/

namespace Phase

variable {δ ε : Type}

/-- Between the first stamp of the lock and the end of the fetch. -/
def isFetching : Phase δ ε → Bool
  | .fetching | .touching _ | .publishing _ _ => true
  | _ => false

def isFinished : Phase δ ε → Bool
  | .finished => true
  | _ => false

def isRemoving : Phase δ ε → Bool
  | .removing => true
  | _ => false

/-- Its fetch has completed, and `done` has not been called. -/
def isCompleted : Phase δ ε → Bool
  | .publishing _ _ | .releasing _ => true
  | _ => false

end Phase

namespace FsCache

variable {δ ε : Type}

/-- At most one process fetches, no lock was removed or overwritten but by the process that had made
it, `done` was called once for each process that is finished, and for no other, and a process whose
fetch has completed gets there by its own steps. -/
structure Safe (s : FsCache δ ε) : Prop where
  one : ∀ p q, (s.phase p).isFetching = true → (s.phase q).isFetching = true → p = q
  own : ∀ e ∈ s.removed, e.1 = e.2
  once : ∀ p, (s.done.map Prod.fst).count p = if (s.phase p).isFinished then 1 else 0
  ends : ∀ p, (s.phase p).isCompleted = true →
    ∃ n t, Run.exec step s (List.replicate n (.advance p)) = some t ∧ (t.phase p).isFinished = true

/-- Heartbeats are on time: the stamp of the lock does not get as old as the timeout. -/
def OnTime (s : FsCache δ ε) : CacheEvent δ ε → Prop
  | .tick ms => ∀ k t, s.lock = some k → s.content k = some t →
      s.now + ms ≤ t + CACHE_LOCK_TIMEOUT_MS
  | .advance _ | .heartbeat _ | .complete _ _ => True

/-- No waiter reads a lock that is not stamped yet, and no lock is created while another waiter is
about to remove one. -/
def Undisturbed (s : FsCache δ ε) : CacheEvent δ ε → Prop
  | .advance p =>
    match s.phase p with
    | .judging => ∀ k, s.lock = some k → s.content k ≠ none
    | .acquiring | .retaking => s.lock = none → ∀ q, (s.phase q).isRemoving = false
    | _ => True
  | .tick _ | .heartbeat _ | .complete _ _ => True

end FsCache

/-! ## The lock -/

namespace Phase

variable {δ ε : Type}

/-- From the creation of the lock to its removal. -/
def holds : Phase δ ε → Bool
  | .stamping _ | .restamping _ | .rechecking | .yielding _ | .fetching | .touching _
  | .publishing _ _ | .releasing _ => true
  | .idle | .acquiring | .polling | .judging | .removing | .retaking | .waiting | .finished => false

theorem holds_of_isFetching {phase : Phase δ ε} (h : phase.isFetching = true) :
    phase.holds = true := by
  cases phase <;> first | rfl | cases h

end Phase

namespace FsCache

variable {δ ε : Type}

/-- The file holds a time that is not in the future and not older than the timeout. -/
def Stamped (s : FsCache δ ε) (k : ℕ) : Prop :=
  ∃ t, s.content k = some t ∧ t ≤ s.now ∧ s.now ≤ t + CACHE_LOCK_TIMEOUT_MS

/-- The stamp of the lock, as its process knows it. -/
def Good (s : FsCache δ ε) (k : ℕ) : Phase δ ε → Prop
  | .stamping j | .restamping j => j = k ∧ s.content k = none
  | .touching j => Stamped s k ∧ j < s.inodes ∧ s.maker j = s.maker k ∧
      ∃ t, s.content j = some t ∧ t ≤ s.now ∧ ∀ u, s.content k = some u → u ≤ t
  | _ => Stamped s k

/-- **The lock belongs to a process that knows it, and whoever is about to remove a stale one finds
none.** -/
structure Locked (s : FsCache δ ε) : Prop where
  fresh : ∀ k, s.lock = some k → k < s.inodes
  good : ∀ p, (s.phase p).holds = true → ∃ k, s.lock = some k ∧ s.maker k = p ∧ s.Good k (s.phase p)
  held : ∀ k, s.lock = some k → (s.phase (s.maker k)).holds = true
  missing : ∀ p, (s.phase p).isRemoving = true → s.lock = none
  own : ∀ e ∈ s.removed, e.1 = e.2

/-- Once the lock is stamped its stamp is fresh. -/
theorem Good.stamped {s : FsCache δ ε} {k : ℕ} {phase : Phase δ ε} (h : s.Good k phase)
    (hcontent : s.content k ≠ none) (hholds : phase.holds = true) : s.Stamped k := by
  cases phase with
  | stamping j | restamping j => exact absurd h.2 hcontent
  | touching j => exact h.1
  | rechecking | fetching => exact h
  | yielding | releasing | publishing => exact h
  | idle | acquiring | polling | judging | removing | retaking | waiting | finished => cases hholds

@[simp] theorem enter_phase_self (s : FsCache δ ε) (p : ℕ) (phase : Phase δ ε) :
    (s.enter p phase).phase p = phase := by
  simp [enter]

theorem enter_phase_of_ne (s : FsCache δ ε) {p q : ℕ} (phase : Phase δ ε) (h : q ≠ p) :
    (s.enter p phase).phase q = s.phase q := by
  simp [enter, h]

@[simp] theorem newFile_content_self (s : FsCache δ ε) (p : ℕ) (content : Option ℕ) :
    (s.newFile p content).content s.inodes = content := by
  simp [newFile]

@[simp] theorem newFile_maker_self (s : FsCache δ ε) (p : ℕ) (content : Option ℕ) :
    (s.newFile p content).maker s.inodes = p := by
  simp [newFile]

theorem newFile_content_of_ne (s : FsCache δ ε) (p : ℕ) (content : Option ℕ) {k : ℕ}
    (h : k ≠ s.inodes) : (s.newFile p content).content k = s.content k := by
  simp [newFile, h]

theorem newFile_maker_of_ne (s : FsCache δ ε) (p : ℕ) (content : Option ℕ) {k : ℕ}
    (h : k ≠ s.inodes) : (s.newFile p content).maker k = s.maker k := by
  simp [newFile, h]

@[simp] theorem stamp_content_self (s : FsCache δ ε) (k : ℕ) :
    (s.stamp k).content k = some s.now := by
  simp [stamp]

namespace Locked

variable {s : FsCache δ ε} {p : ℕ} {phase : Phase δ ε}

/-- There is one holder. -/
theorem holder_unique (h : s.Locked) {q : ℕ} (hp : (s.phase p).holds = true)
    (hq : (s.phase q).holds = true) : p = q := by
  obtain ⟨k, hk, hmaker, -⟩ := h.good p hp
  obtain ⟨j, hj, hmaker', -⟩ := h.good q hq
  rw [hk, some_inj] at hj
  rw [← hmaker, hj, hmaker']

/-- Nobody holds a lock that is missing. -/
theorem holds_eq_false (h : s.Locked) (hlock : s.lock = none) (q : ℕ) :
    (s.phase q).holds = false := by
  by_contra hq
  obtain ⟨k, hk, -⟩ := h.good q (by simpa using hq)
  rw [hlock] at hk
  cases hk

/-- A process that takes a step keeps the lock, or stays without it. -/
theorem enter (h : s.Locked) (hholds : phase.holds = (s.phase p).holds)
    (hgood : ∀ k, s.Good k (s.phase p) → phase.holds = true → s.Good k phase)
    (hmissing : phase.isRemoving = true → s.lock = none) : (s.enter p phase).Locked := by
  refine ⟨h.fresh, fun q hq => ?_, fun k hk => ?_, fun q hq => ?_, h.own⟩
  · by_cases hqp : q = p
    · subst hqp
      rw [enter_phase_self] at hq ⊢
      obtain ⟨k, hk, hmaker, hg⟩ := h.good q (hholds ▸ hq)
      exact ⟨k, hk, hmaker, hgood k hg hq⟩
    · rw [enter_phase_of_ne s phase hqp] at hq ⊢
      exact h.good q hq
  · have hheld := h.held k hk
    by_cases hqp : s.maker k = p
    · show ((s.enter p phase).phase (s.maker k)).holds = true
      rw [hqp, enter_phase_self, hholds, ← hqp]
      exact hheld
    · show ((s.enter p phase).phase (s.maker k)).holds = true
      rw [enter_phase_of_ne s phase hqp]
      exact hheld
  · by_cases hqp : q = p
    · subst hqp
      rw [enter_phase_self] at hq
      exact hmissing hq
    · rw [enter_phase_of_ne s phase hqp] at hq
      exact h.missing q hq

/-- A process without the lock takes a step that leaves it without. -/
theorem enter_free (h : s.Locked) (hfree : (s.phase p).holds = false) (hphase : phase.holds = false)
    (hmissing : phase.isRemoving = true → s.lock = none) : (s.enter p phase).Locked :=
  h.enter (hphase.trans hfree.symm) (fun _ _ hp => by rw [hphase] at hp; cases hp) hmissing

/-- `done` and the cache have no part in it. -/
theorem of_done (h : s.Locked) (cache : Option (ℕ × δ)) (done : List (ℕ × Except ε δ)) :
    Locked { s with cache := cache, done := done } :=
  ⟨h.fresh, h.good, h.held, h.missing, h.own⟩

/-- A lock that is created, when none is about to be removed. -/
theorem created (h : s.Locked) (hlock : s.lock = none) (hnone : ∀ q, (s.phase q).isRemoving = false)
    (hgood : phase = .stamping s.inodes ∨ phase = .restamping s.inodes) :
    ({ s.newFile p none with lock := some s.inodes }.enter p phase).Locked := by
  have hholds : phase.holds = true := by
    rcases hgood with rfl | rfl <;> rfl
  have hmaker : (s.newFile p none).maker s.inodes = p := newFile_maker_self s p none
  refine ⟨fun k hk => ?_, fun q hq => ?_, fun k hk => ?_, fun q hq => ?_, h.own⟩
  · cases hk
    exact Nat.lt_succ_self s.inodes
  · by_cases hqp : q = p
    · subst hqp
      refine ⟨s.inodes, rfl, hmaker, ?_⟩
      rw [enter_phase_self]
      rcases hgood with rfl | rfl
      all_goals exact ⟨rfl, newFile_content_self s q none⟩
    · rw [enter_phase_of_ne _ phase hqp] at hq
      have hfree := h.holds_eq_false hlock q
      exact absurd (hq.symm.trans hfree) (by decide)
  · cases hk
    show (Function.update s.phase p phase ((s.newFile p none).maker s.inodes)).holds = true
    rw [hmaker, Function.update_self]
    exact hholds
  · by_cases hqp : q = p
    · subst hqp
      rw [enter_phase_self] at hq
      rcases hgood with rfl | rfl <;> cases hq
    · rw [enter_phase_of_ne _ phase hqp] at hq
      exact absurd (hq.symm.trans (hnone q)) (by decide)

/-- The process that created the lock stamps it. -/
theorem stamped (h : s.Locked) {k : ℕ}
    (hphase : s.phase p = .stamping k ∨ s.phase p = .restamping k)
    (hnext : phase = .fetching ∨ phase = .rechecking) : ((s.stamp k).enter p phase).Locked := by
  have hholds : (s.phase p).holds = true := by
    rcases hphase with hp | hp <;> rw [hp] <;> rfl
  obtain ⟨j, hlock, hmaker, hgood⟩ := h.good p hholds
  have hj : k = j := by
    rcases hphase with hp | hp
    all_goals
      rw [hp] at hgood
      exact hgood.1
  subst hj
  have hstamp : (s.stamp k).Stamped k :=
    ⟨s.now, stamp_content_self s k, Nat.le_refl s.now, Nat.le_add_right s.now _⟩
  refine ⟨h.fresh, fun q hq => ?_, fun i hi => ?_, fun q hq => ?_, h.own⟩
  · by_cases hqp : q = p
    · subst hqp
      refine ⟨k, hlock, hmaker, ?_⟩
      rw [enter_phase_self]
      rcases hnext with rfl | rfl
      · exact hstamp
      · exact hstamp
    · rw [enter_phase_of_ne _ phase hqp] at hq
      exact absurd (h.holder_unique hq hholds) hqp
  · have hi' : k = i := some.inj (hlock.symm.trans hi)
    subst hi'
    show (Function.update s.phase p phase (s.maker k)).holds = true
    rw [hmaker, Function.update_self]
    rcases hnext with rfl | rfl <;> rfl
  · by_cases hqp : q = p
    · subst hqp
      rw [enter_phase_self] at hq
      rcases hnext with rfl | rfl <;> cases hq
    · rw [enter_phase_of_ne _ phase hqp] at hq
      exact h.missing q hq

/-- The process that has the lock removes it. -/
theorem unlinked (h : s.Locked) (hholds : (s.phase p).holds = true)
    (hphase : phase.holds = false) : ((s.unlinkLock p).enter p phase).Locked := by
  obtain ⟨k, hlock, hmaker, -⟩ := h.good p hholds
  refine ⟨fun k hk => (by cases hk), fun q hq => ?_, fun k hk => (by cases hk), fun q hq => rfl,
    fun e he => ?_⟩
  · by_cases hqp : q = p
    · subst hqp
      rw [enter_phase_self, hphase] at hq
      cases hq
    · rw [enter_phase_of_ne _ phase hqp] at hq
      exact absurd (h.holder_unique hq hholds) hqp
  · have he' : e ∈ s.noteRemoved p := he
    simp only [noteRemoved, hlock, mem_cons] at he'
    rcases he' with rfl | he'
    · exact hmaker.symm
    · exact h.own e he'

/-- A lock that is not there is not removed. -/
theorem unlinkLock_eq_self (hlock : s.lock = none) (p : ℕ) : s.unlinkLock p = s := by
  cases s
  cases hlock
  rfl

/-- The heartbeat writes a file of the process. -/
theorem beaten (h : s.Locked) (hphase : s.phase p = .fetching) :
    ((s.newFile p (some s.now)).enter p (.touching s.inodes)).Locked := by
  have hholds : (s.phase p).holds = true := by
    rw [hphase]
    rfl
  obtain ⟨k, hlock, hmaker, hgood⟩ := h.good p hholds
  have hne : k ≠ s.inodes := Nat.ne_of_lt (h.fresh k hlock)
  have hcontent : (s.newFile p (some s.now)).content k = s.content k :=
    newFile_content_of_ne s p (some s.now) hne
  have hmaker' : (s.newFile p (some s.now)).maker k = s.maker k :=
    newFile_maker_of_ne s p (some s.now) hne
  have hstamp : s.Stamped k := by
    rw [hphase] at hgood
    exact hgood
  obtain ⟨t, ht, hle, htimeout⟩ := hstamp
  refine ⟨fun i hi => Nat.lt_succ_of_lt (h.fresh i hi), fun q hq => ?_, fun i hi => ?_,
    fun q hq => ?_, h.own⟩
  · by_cases hqp : q = p
    · subst hqp
      refine ⟨k, hlock, hmaker'.trans hmaker, ?_⟩
      rw [enter_phase_self]
      refine ⟨⟨t, hcontent.trans ht, hle, htimeout⟩, Nat.lt_succ_self s.inodes, ?_, s.now,
        newFile_content_self s q (some s.now), Nat.le_refl s.now, fun u hu => ?_⟩
      · calc
          (s.newFile q (some s.now)).maker s.inodes = q := newFile_maker_self s q (some s.now)
          _ = (s.newFile q (some s.now)).maker k := (hmaker'.trans hmaker).symm
      · have hu' : some t = some u := ht.symm.trans (hcontent.symm.trans hu)
        rw [some_inj] at hu'
        exact hu' ▸ hle
    · rw [enter_phase_of_ne _ _ hqp] at hq
      exact absurd (h.holder_unique hq hholds) hqp
  · have hi' : k = i := some.inj (hlock.symm.trans hi)
    subst hi'
    show (Function.update s.phase p _ ((s.newFile p (some s.now)).maker k)).holds = true
    rw [hmaker', hmaker, Function.update_self]
    rfl
  · by_cases hqp : q = p
    · subst hqp
      rw [enter_phase_self] at hq
      cases hq
    · rw [enter_phase_of_ne _ _ hqp] at hq
      exact h.missing q hq

/-- The file that the heartbeat wrote becomes the lock. -/
theorem renamed (h : s.Locked) {j : ℕ} (hphase : s.phase p = .touching j) :
    ((s.renameToLock p j).enter p .fetching).Locked := by
  have hholds : (s.phase p).holds = true := by
    rw [hphase]
    rfl
  obtain ⟨k, hlock, hmaker, hgood⟩ := h.good p hholds
  rw [hphase] at hgood
  obtain ⟨⟨u, hu, -, htimeout⟩, hj, hmakers, t, ht, hle, hnewer⟩ := hgood
  have hut := hnewer u hu
  refine ⟨fun i hi => ?_, fun q hq => ?_, fun i hi => ?_, fun q hq => ?_, fun e he => ?_⟩
  · cases hi
    exact hj
  · by_cases hqp : q = p
    · subst hqp
      refine ⟨j, rfl, hmakers.trans hmaker, ?_⟩
      rw [enter_phase_self]
      exact ⟨t, ht, hle, Nat.le_trans htimeout (Nat.add_le_add_right hut _)⟩
    · rw [enter_phase_of_ne _ _ hqp] at hq
      exact absurd (h.holder_unique hq hholds) hqp
  · cases hi
    show (Function.update s.phase p _ (s.maker j)).holds = true
    rw [hmakers, hmaker, Function.update_self]
    rfl
  · by_cases hqp : q = p
    · subst hqp
      rw [enter_phase_self] at hq
      cases hq
    · rw [enter_phase_of_ne _ _ hqp] at hq
      have hmissing := h.missing q hq
      rw [hlock] at hmissing
      cases hmissing
  · have he' : e ∈ s.noteRemoved p := he
    simp only [noteRemoved, hlock, mem_cons] at he'
    rcases he' with rfl | he'
    · exact hmaker.symm
    · exact h.own e he'

/-- A clock that the heartbeats keep up with. -/
theorem ticked (h : s.Locked) {ms : ℕ} (hontime : ∀ k t, s.lock = some k → s.content k = some t →
      s.now + ms ≤ t + CACHE_LOCK_TIMEOUT_MS) : Locked { s with now := s.now + ms } := by
  have hstamp : ∀ k, s.lock = some k → s.Stamped k → Stamped { s with now := s.now + ms } k := by
    rintro k hk ⟨t, ht, hle, -⟩
    exact ⟨t, ht, Nat.le_trans hle (Nat.le_add_right _ _), hontime k t hk ht⟩
  refine ⟨h.fresh, fun q hq => ?_, h.held, h.missing, h.own⟩
  obtain ⟨k, hk, hmaker, hgood⟩ := h.good q hq
  refine ⟨k, hk, hmaker, ?_⟩
  cases hq' : s.phase q with
  | stamping j | restamping j =>
    rw [hq'] at hgood
    exact hgood
  | touching j =>
    rw [hq'] at hgood
    obtain ⟨hg, hj, hm, t, ht, hle, hnewer⟩ := hgood
    exact ⟨hstamp k hk hg, hj, hm, t, ht, Nat.le_trans hle (Nat.le_add_right _ _), hnewer⟩
  | rechecking | fetching | yielding | releasing | publishing =>
    rw [hq'] at hgood
    exact hstamp k hk hgood
  | idle | acquiring | polling | judging | removing | retaking | waiting | finished =>
    rw [hq'] at hq
    cases hq

end Locked

end FsCache

/-! ## Steps and runs -/

namespace FsCache

variable {δ ε : Type}

variable {s : FsCache δ ε}

/-- A waiter that meets a stamped lock does not find it stale. -/
theorem Locked.isLockStale_eq_false (h : s.Locked) {k : ℕ}
    (hlock : s.lock = some k) (hcontent : s.content k ≠ none) : s.isLockStale = false := by
  obtain ⟨j, hj, -, hgood⟩ := h.good (s.maker k) (h.held k hlock)
  rw [hlock, some_inj] at hj
  subst hj
  obtain ⟨t, ht, hle, htimeout⟩ := hgood.stamped hcontent (h.held k hlock)
  simp only [isLockStale, hlock, ht, getD_some, decide_eq_false_iff_not]
  omega

/-- `done` was called once for each process that is finished, and for no other. -/
def Counted (s : FsCache δ ε) : Prop :=
  ∀ p, (s.done.map Prod.fst).count p = if (s.phase p).isFinished then 1 else 0

theorem Counted.enter (h : s.Counted) {p : ℕ} {phase : Phase δ ε}
    (hphase : (s.phase p).isFinished = false) (hnext : phase.isFinished = false) :
    (s.enter p phase).Counted := by
  intro q
  by_cases hqp : q = p
  · subst hqp
    rw [enter_phase_self, hnext, ← hphase]
    exact h q
  · rw [enter_phase_of_ne s phase hqp]
    exact h q

theorem Counted.finish (h : s.Counted) {p : ℕ} (result : Except ε δ)
    (hphase : (s.phase p).isFinished = false) : (s.finish p result).Counted := by
  intro q
  have hq := h q
  show (p :: s.done.map Prod.fst).count q =
    if ((s.enter p .finished).phase q).isFinished then 1 else 0
  by_cases hqp : q = p
  · subst hqp
    rw [hphase] at hq
    rw [count_cons_self, hq, enter_phase_self]
    rfl
  · rw [count_cons_of_ne (Ne.symm hqp), hq, enter_phase_of_ne s _ hqp]

/-- What a run keeps. -/
structure Sound (s : FsCache δ ε) : Prop where
  locked : s.Locked
  counted : s.Counted

namespace Sound

variable {s : FsCache δ ε} {p : ℕ} {phase current : Phase δ ε}

/-- A process without the lock goes on without it. -/
theorem waits (h : s.Sound) (hphase : s.phase p = current) (hfree : current.holds = false)
    (hnot : current.isFinished = false) (hnext : phase.holds = false)
    (hopen : phase.isFinished = false) (hmissing : phase.isRemoving = true → s.lock = none) :
    (s.enter p phase).Sound := by
  subst hphase
  exact ⟨h.locked.enter_free hfree hnext hmissing, h.counted.enter hnot hopen⟩

/-- A process without the lock reads the cache. -/
theorem answers (h : s.Sound) (hphase : s.phase p = current) (result : Except ε δ)
    (hfree : current.holds = false) (hnot : current.isFinished = false) : (s.finish p result).Sound := by
  subst hphase
  have hlocked : (s.enter p .finished).Locked :=
    h.locked.enter_free hfree rfl fun hr => Bool.noConfusion hr
  exact ⟨hlocked.of_done s.cache _, h.counted.finish result hnot⟩

/-- The process that has the lock goes on with it. -/
theorem goesOn (h : s.Sound) (hphase : s.phase p = current) (hholds : current.holds = true)
    (hnot : current.isFinished = false) (hnext : phase.holds = true)
    (hopen : phase.isFinished = false) (hremoving : phase.isRemoving = false)
    (hgood : ∀ k, s.Good k current → s.Good k phase) : (s.enter p phase).Sound := by
  subst hphase
  refine ⟨h.locked.enter (hnext.trans hholds.symm) (fun k hk _ => hgood k hk) fun hr => ?_,
    h.counted.enter hnot hopen⟩
  rw [hremoving] at hr
  cases hr

/-- The process that has the lock removes it and is finished. -/
theorem releases (h : s.Sound) (hphase : s.phase p = current) (result : Except ε δ)
    (hholds : current.holds = true) (hnot : current.isFinished = false) : ((s.unlinkLock p).finish p result).Sound := by
  subst hphase
  have hlocked : ((s.unlinkLock p).enter p .finished).Locked := h.locked.unlinked hholds rfl
  have hcounted : (s.unlinkLock p).Counted := h.counted
  exact ⟨hlocked.of_done s.cache _, hcounted.finish result hnot⟩

/-- A process creates the lock, or finds one. -/
theorem creates (h : s.Sound) {created : ℕ → Phase δ ε} {failed : Phase δ ε}
    (hnone : s.lock = none → ∀ q, (s.phase q).isRemoving = false) (hphase : s.phase p = current)
    (hfree : current.holds = false) (hnot : current.isFinished = false)
    (hcreated : created = .stamping ∨ created = .restamping)
    (hfailed : failed = .polling ∨ failed = .waiting) : (s.create p created failed).Sound := by
  subst hphase
  unfold create
  cases hlock : s.lock with
  | none =>
    have hcounted : Counted { s.newFile p none with lock := some s.inodes } := h.counted
    rcases hcreated with rfl | rfl
    · exact ⟨h.locked.created hlock (hnone hlock) (.inl rfl), hcounted.enter hnot rfl⟩
    · exact ⟨h.locked.created hlock (hnone hlock) (.inr rfl), hcounted.enter hnot rfl⟩
  | some k =>
    rcases hfailed with rfl | rfl
    all_goals exact h.waits rfl hfree hnot rfl rfl fun hr => Bool.noConfusion hr

end Sound

/-- **A step of a process keeps the lock with one of them**, unless it reads a lock that is not
stamped or creates one that another is about to remove. -/
theorem sound_advance {t : FsCache δ ε} {p : ℕ} (h : s.Sound)
    (hund : s.Undisturbed (.advance p)) (hstep : s.advance p = some t) : t.Sound := by
  simp only [Undisturbed] at hund
  unfold advance at hstep
  cases hphase : s.phase p with
  | idle | polling =>
    simp only [hphase] at hstep
    cases hread : s.readFromCache with
    | some data =>
      rw [hread, some_inj] at hstep
      subst hstep
      exact h.answers hphase _ rfl rfl
    | none =>
      rw [hread, some_inj] at hstep
      subst hstep
      exact h.waits hphase rfl rfl rfl rfl fun hr => Bool.noConfusion hr
  | acquiring =>
    simp only [hphase, some_inj] at hstep hund
    subst hstep
    exact h.creates hund hphase rfl rfl (.inl rfl) (.inl rfl)
  | stamping k =>
    simp only [hphase, some_inj] at hstep
    subst hstep
    have hcounted : (s.stamp k).Counted := h.counted
    exact ⟨h.locked.stamped (.inl hphase) (.inl rfl), hcounted.enter (congrArg Phase.isFinished hphase) rfl⟩
  | judging =>
    simp only [hphase, some_inj] at hstep hund
    subst hstep
    cases hlock : s.lock with
    | none =>
      have hstale : s.isLockStale = true := by simp [isLockStale, hlock]
      rw [if_pos hstale]
      exact h.waits hphase rfl rfl rfl rfl fun _ => hlock
    | some k =>
      have hstale : s.isLockStale = false := h.locked.isLockStale_eq_false hlock (hund k hlock)
      rw [if_neg (by simp [hstale])]
      exact h.waits hphase rfl rfl rfl rfl fun hr => Bool.noConfusion hr
  | removing =>
    have hlock : s.lock = none := h.locked.missing p (by simp [hphase, Phase.isRemoving])
    simp only [hphase, some_inj, Locked.unlinkLock_eq_self hlock p] at hstep
    subst hstep
    exact h.waits hphase rfl rfl rfl rfl fun hr => Bool.noConfusion hr
  | retaking =>
    simp only [hphase, some_inj] at hstep hund
    subst hstep
    exact h.creates hund hphase rfl rfl (.inr rfl) (.inr rfl)
  | restamping k =>
    simp only [hphase, some_inj] at hstep
    subst hstep
    have hcounted : (s.stamp k).Counted := h.counted
    exact ⟨h.locked.stamped (.inr hphase) (.inr rfl), hcounted.enter (congrArg Phase.isFinished hphase) rfl⟩
  | rechecking =>
    simp only [hphase] at hstep
    cases hread : s.readFromCache with
    | some data | none =>
      rw [hread, some_inj] at hstep
      subst hstep
      exact h.goesOn hphase rfl rfl rfl rfl rfl fun _ hk => hk
  | yielding data | releasing result =>
    simp only [hphase, some_inj] at hstep
    subst hstep
    exact h.releases hphase _ rfl rfl
  | waiting =>
    simp only [hphase, some_inj] at hstep
    subst hstep
    exact h.waits hphase rfl rfl rfl rfl fun hr => Bool.noConfusion hr
  | touching k =>
    simp only [hphase, some_inj] at hstep
    subst hstep
    have hcounted : (s.renameToLock p k).Counted := h.counted
    exact ⟨h.locked.renamed hphase, hcounted.enter (congrArg Phase.isFinished hphase) rfl⟩
  | publishing timestamp data =>
    simp only [hphase, some_inj] at hstep
    subst hstep
    have hsound : Sound { s with cache := some (timestamp, data) } :=
      ⟨h.locked.of_done _ s.done, h.counted⟩
    exact hsound.goesOn hphase rfl rfl rfl rfl rfl fun _ hk => hk
  | fetching | finished =>
    simp only [hphase] at hstep
    cases hstep

/-- Neither does time that passes, a heartbeat or a fetch that completes take it away. -/
theorem sound_step (s : FsCache δ ε) (e : CacheEvent δ ε) (t : FsCache δ ε) (h : s.Sound)
    (hasked : s.OnTime e ∧ s.Undisturbed e) (hstep : s.step e = some t) : t.Sound := by
  cases e with
  | tick ms =>
    simp only [step, some_inj] at hstep
    subst hstep
    exact ⟨h.locked.ticked hasked.1, h.counted⟩
  | advance p => exact sound_advance h hasked.2 hstep
  | heartbeat p =>
    simp only [step, heartbeat] at hstep
    cases hphase : s.phase p <;> simp only [hphase, some_inj, reduceCtorEq] at hstep
    subst hstep
    have hcounted : (s.newFile p (some s.now)).Counted := h.counted
    exact ⟨h.locked.beaten hphase, hcounted.enter (congrArg Phase.isFinished hphase) rfl⟩
  | complete p result =>
    simp only [step, complete] at hstep
    cases hphase : s.phase p <;> simp only [hphase, reduceCtorEq] at hstep
    cases result with
    | ok data | error e =>
      rw [some_inj] at hstep
      subst hstep
      exact h.goesOn hphase rfl rfl rfl rfl rfl fun _ hk => hk

/-- A process whose fetch has completed publishes it, removes the lock and calls `done`. -/
theorem exists_isFinished (s : FsCache δ ε) (p : ℕ) (hphase : (s.phase p).isCompleted = true) :
    ∃ n t, Run.exec step s (List.replicate n (.advance p)) = some t ∧
      (t.phase p).isFinished = true := by
  have hreleasing : ∀ (s : FsCache δ ε) result, s.phase p = .releasing result →
      ∃ t, s.advance p = some t ∧ (t.phase p).isFinished = true := by
    intro s result hp
    refine ⟨(s.unlinkLock p).finish p result, by simp [advance, hp], ?_⟩
    show (((s.unlinkLock p).enter p .finished).phase p).isFinished = true
    rw [enter_phase_self]
    rfl
  cases hp : s.phase p <;> rw [hp] at hphase <;> try cases hphase
  case releasing result =>
    obtain ⟨t, ht, hfinished⟩ := hreleasing s result hp
    refine ⟨1, t, ?_, hfinished⟩
    show (s.advance p).bind _ = some t
    rw [ht]
    rfl
  case publishing timestamp data =>
    let u := FsCache.enter { s with cache := some (timestamp, data) } p (.releasing (.ok data))
    have hu : s.advance p = some u := by simp only [advance, hp, u]
    obtain ⟨t, ht, hfinished⟩ := hreleasing u _ (enter_phase_self _ p _)
    refine ⟨2, t, ?_, hfinished⟩
    show (s.advance p).bind (fun v => (v.advance p).bind _) = some t
    rw [hu, bind_some, ht]
    rfl

theorem Sound.safe (h : s.Sound) : s.Safe :=
  ⟨fun _ _ hp hq => h.locked.holder_unique (Phase.holds_of_isFetching hp)
    (Phase.holds_of_isFetching hq), h.locked.own, h.counted, exists_isFinished s⟩

/-- No process has started, and there is no lock. -/
def start (now : ℕ) (cache : Option (ℕ × δ)) : FsCache δ ε := { now := now, cache := cache }

theorem sound_start (now : ℕ) (cache : Option (ℕ × δ)) : (start now cache : FsCache δ ε).Sound where
  locked := {
    fresh := fun k hk => by cases hk
    good := fun p hp => by cases hp
    held := fun k hk => by cases hk
    missing := fun p hp => by cases hp
    own := fun e he => by cases he }
  counted := fun p => rfl

end FsCache

open FsCache in
/-- **One process fetches at a time**, it removes no lock but its own, and `done` is called once, in
every run with heartbeats on time in which no waiter reads a lock before it is stamped, and nobody
creates one while another waiter is about to remove the lock it found missing. -/
theorem safe_of_undisturbed {δ ε : Type} (now : ℕ) (cache : Option (ℕ × δ))
    (events : List (CacheEvent δ ε)) (s : FsCache δ ε)
    (hrun : Run.exec step (start now cache) events = some s)
    (hontime : Run.Every step OnTime (start now cache) events)
    (hund : Run.Every step Undisturbed (start now cache) events) : s.Safe :=
  (Run.invariant sound_step (sound_start now cache) (hontime.and hund) hrun).safe

/-- One process fetches, with a heartbeat, while another waits and then reads the cache. -/
def waitedEvents : List (CacheEvent ℕ ℕ) :=
  [.advance 0, .advance 0, .advance 0, .advance 1, .advance 1, .advance 1, .advance 1, .tick 30000,
    .heartbeat 0, .advance 0, .complete 0 (.ok 7), .advance 0, .advance 0, .advance 1, .advance 1]

open FsCache in
theorem safe_waitedEvents :
    ∃ s, Run.exec step (start 1700000000000 none) waitedEvents = some s ∧ s.Safe := by
  have hontime : Run.Every step OnTime (start 1700000000000 none) waitedEvents := by
    iterate 7
      refine ⟨trivial, fun _ h => ?_⟩
      cases h
    refine ⟨fun k t hk ht => ?_, fun _ h => ?_⟩
    · cases hk
      cases ht
      decide
    · exact Run.every_of_forall_mem (fun e he _ => by
        simp only [mem_cons, not_mem_nil, or_false] at he
        rcases he with rfl | rfl | rfl | rfl | rfl | rfl | rfl <;> trivial) _
  have hund : Run.Every step Undisturbed (start 1700000000000 none) waitedEvents := by
    refine ⟨trivial, fun _ h => ?_⟩
    cases h
    refine ⟨fun _ q => ?_, fun _ h => ?_⟩
    · by_cases hq : q = 0
      · subst hq
        rfl
      · rw [enter_phase_of_ne _ _ hq]
        rfl
    cases h
    iterate 2
      refine ⟨trivial, fun _ h => ?_⟩
      cases h
    refine ⟨fun hlock => (by cases hlock), fun _ h => ?_⟩
    cases h
    refine ⟨trivial, fun _ h => ?_⟩
    cases h
    refine ⟨fun k hk hcontent => ?_, fun _ h => ?_⟩
    · cases hk
      cases hcontent
    cases h
    iterate 8
      refine ⟨trivial, fun _ h => ?_⟩
      cases h
    trivial
  exact ⟨_, rfl, safe_of_undisturbed _ _ _ _ rfl hontime hund⟩

/-- A waiter reads the lock between its creation and its stamp. -/
def unstampedEvents : List (CacheEvent ℕ ℕ) :=
  [.advance 0, .advance 0, .advance 1, .advance 1, .advance 1, .advance 1, .advance 1, .advance 1,
    .advance 1, .advance 1, .advance 0]

open FsCache in
theorem not_safe_unstamped :
    ∃ s, Run.exec step (start 1700000000000 none) unstampedEvents = some s ∧
      Run.Every step OnTime (start 1700000000000 none) unstampedEvents ∧ ¬ s.Safe := by
  refine ⟨_, rfl, ?_, fun h => ?_⟩
  · refine Run.every_of_forall_mem (fun e he _ => ?_) _
    simp only [unstampedEvents, mem_cons, not_mem_nil, or_false] at he
    rcases he with rfl | rfl | rfl | rfl | rfl | rfl | rfl | rfl | rfl | rfl | rfl <;> trivial
  · exact absurd (h.one 0 1 rfl rfl) (by decide)

end DdTrace.CiVisibility
