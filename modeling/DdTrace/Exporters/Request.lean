import DdTrace.Library.Run
import DdTrace.Library.Tally
import DdTrace.Library.Text

/-!
# The requests of the exporters

`exporters/common/request.js` sends a body along the options that it is called with.  Each attempt
adds the `Content-Length` in the headers of the options to `activeBufferSize`, and takes it off
again when the attempt ends, however that comes about: a response, an error, a timeout and the end
of the connection race to be first.  A retry is a timer that starts the next attempt.
`Exports.step` is a call or one of these events, in any order.

The headers are an object of the caller, and it is read again at the end of an attempt and at a
retry.  A caller that keeps one object for all its requests writes the length of a later body into
it while an earlier one is in flight.

* `Exports.Accounted`: what is asked of a state.
* `Exports.Inv`, `inv_send`, `inv_attempt`, `inv_finalize`: the invariant and its steps.
* `accounted_of_apart`: **in every run in which requests of different length do not overlap on one
  headers object, every callback is called once, `activeBufferSize` is the sum of the bodies in
  flight and every attempt has the length of its own body**.
-/

namespace DdTrace.Exporters

open Library List Option

/-! ## The code -/

def maxActiveBufferSize : ℕ := 1024 * 1024 * 64

def STARTUP_MAX_ATTEMPTS : ℕ := 5

def POST_STARTUP_MAX_ATTEMPTS : ℕ := 2

def RETRIABLE_NETWORK_CODES : List Str :=
  [lit "EAI_AGAIN", lit "ECONNREFUSED", lit "ECONNRESET", lit "ENOENT", lit "EPIPE",
    lit "ETIMEDOUT"]

/-- The error has a code of the list. -/
def isRetriableNetworkError (code : Option Str) : Bool :=
  match code with
  | some code => includes RETRIABLE_NETWORK_CODES code
  | none => false

def getMaxAttempts (inStartupPhase : Bool) : ℕ :=
  if inStartupPhase then STARTUP_MAX_ATTEMPTS else POST_STARTUP_MAX_ATTEMPTS

/-- A call of `request`: the headers object of its options, whether they allow a retry, and the
bytes of its body. -/
structure Export where
  headers : ℕ
  retry : Bool
  length : ℕ

/-- An attempt of a request, with the `Content-Length` it was sent with. -/
structure Attempt where
  request : ℕ
  index : ℕ
  contentLength : ℕ
  finished : Bool
  settled : Bool

/-- A retry that waits for its timer. -/
structure Retry where
  request : ℕ
  index : ℕ

/-- The requests that were made, the `Content-Length` of each headers object, the bodies that are
still read from a stream, the attempts, the retries that wait, and the calls of callbacks. -/
structure Exports where
  requests : List Export := []
  contentLength : ℕ → Option ℕ := fun _ => none
  activeBufferSize : ℤ := 0
  streams : List ℕ := []
  attempts : List Attempt := []
  retries : List Retry := []
  callbacks : List ℕ := []

namespace Exports

/-- `options.headers['Content-Length'] ?? 0` -/
def lengthOf (s : Exports) (request : Export) : ℕ := (s.contentLength request.headers).getD 0

/-- `attempt`.  The client can throw when it is given the request. -/
def attempt (s : Exports) (i index : ℕ) (throws : Bool) : Exports :=
  match s.requests[i]? with
  | none => s
  | some request =>
    if maxActiveBufferSize ≤ s.activeBufferSize then { s with callbacks := i :: s.callbacks }
    else
      { s with
        activeBufferSize := s.activeBufferSize + s.lengthOf request
        attempts := if throws then s.attempts
          else s.attempts ++ [⟨i, index, s.lengthOf request, false, false⟩] }

/-- `request` with a body that is there. -/
def send (s : Exports) (i : ℕ) (throws : Bool) : Exports :=
  match s.requests[i]? with
  | none => s
  | some request =>
    { s with contentLength := fun h =>
        if h = request.headers then some request.length else s.contentLength h }.attempt i 1 throws

/-- `finalize` -/
def finalize (s : Exports) (j : ℕ) : Exports :=
  match s.attempts[j]? with
  | none => s
  | some a =>
    if a.finished then s
    else
      { s with
        activeBufferSize := s.activeBufferSize -
          ((s.requests[a.request]?.map s.lengthOf).getD 0 : ℕ)
        attempts := s.attempts.set j { a with finished := true } }

/-- The attempt settles, and is finalized. -/
def settle (s : Exports) (j : ℕ) (a : Attempt) : Exports :=
  { s with attempts := s.attempts.set j { a with settled := true } }.finalize j

/-- `complete` -/
def complete (s : Exports) (j : ℕ) : Exports :=
  match s.attempts[j]? with
  | none => s
  | some a =>
    if a.settled then s else { s.settle j a with callbacks := a.request :: s.callbacks }

/-- `handleError` -/
def handleError (s : Exports) (j : ℕ) (code : Option Str) (inStartupPhase : Bool) : Exports :=
  match s.attempts[j]? with
  | none => s
  | some a =>
    if a.settled then s
    else if (s.requests[a.request]?.map Export.retry).getD true ∧
        a.index < getMaxAttempts inStartupPhase ∧ isRetriableNetworkError code = true then
      { s.settle j a with retries := s.retries ++ [⟨a.request, a.index + 1⟩] }
    else s.complete j

end Exports

/-- What can happen: a call of `request` with a body or with a stream, the end of a stream or its
error, and of an attempt its response, an error, its timeout or the end of its connection; and the
timer of a retry. -/
inductive ExportEvent where
  | request (request : Export) (throws : Bool)
  | requestStream (request : Export)
  | streamEnd (k : ℕ) (throws : Bool)
  | streamError (k : ℕ)
  | respond (j : ℕ)
  | error (j : ℕ) (code : Option Str) (inStartupPhase : Bool)
  | close (j : ℕ)
  | retry (k : ℕ) (throws : Bool)

def Exports.step (s : Exports) : ExportEvent → Option Exports
  | .request request throws =>
    some ({ s with requests := s.requests ++ [request] }.send s.requests.length throws)
  | .requestStream request =>
    some { s with requests := s.requests ++ [request], streams := s.streams ++ [s.requests.length] }
  | .streamEnd k throws => (s.streams[k]?).map fun i =>
      { s with streams := s.streams.eraseIdx k }.send i throws
  | .streamError k => (s.streams[k]?).map fun i =>
      { s with streams := s.streams.eraseIdx k, callbacks := i :: s.callbacks }
  | .respond j => some (s.complete j)
  | .error j code inStartupPhase => some (s.handleError j code inStartupPhase)
  | .close j => some (s.finalize j)
  | .retry k throws => (s.retries[k]?).map fun t =>
      { s with retries := s.retries.eraseIdx k }.attempt t.request t.index throws

/-! ## What is asked of a run -/

namespace Exports

/-- The bytes of the body of an attempt that has not ended. -/
def bytesOf (s : Exports) (a : Attempt) : ℕ :=
  if a.finished then 0 else (s.requests[a.request]?.map Export.length).getD 0

/-- Whether the attempt is one of the request, and has not settled. -/
def unsettledOf (i : ℕ) (a : Attempt) : ℕ := if a.request = i ∧ a.settled = false then 1 else 0

def streamOf (i x : ℕ) : ℕ := if x = i then 1 else 0

def retryOf (i : ℕ) (t : Retry) : ℕ := if t.request = i then 1 else 0

/-- What is under way for a request: its stream, an attempt, or a retry. -/
def pending (s : Exports) (i : ℕ) : ℕ :=
  tally (streamOf i) s.streams + tally (unsettledOf i) s.attempts + tally (retryOf i) s.retries

/-- The callback of a request was called once, or exactly one thing is under way for it and it was
not called.  `activeBufferSize` is the sum of the bodies in flight, and every attempt was sent with
the length of its own body. -/
structure Accounted (s : Exports) : Prop where
  once : ∀ i < s.requests.length, s.callbacks.count i + s.pending i = 1
  active : s.activeBufferSize = (tally s.bytesOf s.attempts : ℕ)
  own : ∀ a ∈ s.attempts, ∃ request, s.requests[a.request]? = some request ∧
    a.contentLength = request.length

/-- No request of another length still uses the headers object. -/
def Free (s : Exports) (headers length : ℕ) : Prop :=
  (∀ a ∈ s.attempts, a.finished = false ∨ a.settled = false → ∀ request,
    s.requests[a.request]? = some request → request.headers = headers → request.length = length) ∧
  ∀ t ∈ s.retries, ∀ request, s.requests[t.request]? = some request →
    request.headers = headers → request.length = length

/-- A request is sent along headers that no request of another length uses, and the client takes
it. -/
def Apart (s : Exports) : ExportEvent → Prop
  | .request request throws => throws = false ∧ s.Free request.headers request.length
  | .streamEnd k throws => throws = false ∧ ∀ i request, s.streams[k]? = some i →
      s.requests[i]? = some request → s.Free request.headers request.length
  | .retry _ throws => throws = false
  | .requestStream _ | .streamError _ | .respond _ | .error _ _ _ | .close _ => True

/-- Headers are free when nothing is under way at all. -/
theorem free_of_idle {s : Exports} (ha : ∀ a ∈ s.attempts, a.finished = true ∧ a.settled = true)
    (ht : s.retries = []) (headers length : ℕ) : s.Free headers length := by
  constructor
  · intro a hmem hlive
    obtain ⟨hfinished, hsettled⟩ := ha a hmem
    rw [hfinished, hsettled] at hlive
    simp at hlive
  · intro t hmem
    rw [ht] at hmem
    cases hmem

/-! ## The invariant -/

/-- The headers of the request hold the length of its body. -/
def Holds (s : Exports) (i : ℕ) : Prop :=
  ∃ request, s.requests[i]? = some request ∧ s.contentLength request.headers = some request.length

/-- The invariant, while one thing is owed to a request, or nothing is. -/
structure Inv (owed : Option ℕ) (s : Exports) : Prop where
  once : ∀ i < s.requests.length,
    s.callbacks.count i + s.pending i + (if owed = some i then 1 else 0) = 1
  absent : ∀ i, s.requests.length ≤ i → s.callbacks.count i + s.pending i = 0
  active : s.activeBufferSize = (tally s.bytesOf s.attempts : ℕ)
  own : ∀ a ∈ s.attempts, ∃ request, s.requests[a.request]? = some request ∧
    a.contentLength = request.length
  live : ∀ a ∈ s.attempts, a.finished = false ∨ a.settled = false → s.Holds a.request
  waits : ∀ t ∈ s.retries, s.Holds t.request

variable {s s' : Exports} {owed : Option ℕ} {i j : ℕ} {request : Export}

theorem Inv.accounted (h : s.Inv none) : s.Accounted :=
  ⟨fun i hi => by simpa using h.once i hi, h.active, h.own⟩

theorem lengthOf_of_holds (h : s.Holds i) (hrequest : s.requests[i]? = some request) :
    s.lengthOf request = request.length := by
  obtain ⟨request', hfound, hlength⟩ := h
  rw [hrequest, some_inj] at hfound
  subst hfound
  rw [lengthOf, hlength, getD_some]

/-- A callback. -/
theorem inv_callback (h : s.Inv (some i)) (hi : i < s.requests.length) :
    Inv none { s with callbacks := i :: s.callbacks } := by
  refine ⟨fun k hk => ?_, fun k hk => ?_, h.active, h.own, h.live, h.waits⟩
  · have honce := h.once k hk
    show (i :: s.callbacks).count k + s.pending k + _ = 1
    by_cases hik : i = k
    · simp [hik] at honce ⊢
      omega
    · simpa [hik] using honce
  · have hnone := h.absent k hk
    have hik : i ≠ k := by
      rintro rfl
      exact absurd hi (Nat.not_lt.mpr hk)
    show (i :: s.callbacks).count k + s.pending k = 0
    simpa [hik] using hnone

/-- **The step of an attempt**, along headers that hold the length of its body. -/
theorem inv_attempt (h : s.Inv (some i)) (hholds : s.Holds i) (index : ℕ) :
    (s.attempt i index false).Inv none := by
  obtain ⟨request, hrequest, hlength⟩ := id hholds
  have hi : i < s.requests.length := (List.getElem?_eq_some_iff.mp hrequest).1
  unfold attempt
  rw [hrequest]
  dsimp only
  split
  · exact inv_callback h hi
  · have hown := lengthOf_of_holds hholds hrequest
    rw [hown, if_neg Bool.false_ne_true]
    have hpending : ∀ k, pending { s with
        activeBufferSize := s.activeBufferSize + request.length
        attempts := s.attempts ++ [⟨i, index, request.length, false, false⟩] } k =
        s.pending k + if i = k then 1 else 0 := by
      simp only [pending, tally_concat, unsettledOf, and_true]
      omega
    refine ⟨fun k hk => ?_, fun k hk => ?_, ?_, fun a ha => ?_, fun a ha hlive => ?_, h.waits⟩
    · have honce := h.once k hk
      rw [hpending]
      simp only [some.injEq, reduceCtorEq, if_false] at honce ⊢
      omega
    · have hnone := h.absent k hk
      have hik : i ≠ k := by
        rintro rfl
        exact absurd hi (Nat.not_lt.mpr hk)
      rw [hpending, if_neg hik]
      exact hnone
    · show s.activeBufferSize + request.length = (tally s.bytesOf (s.attempts ++ [_]) : ℕ)
      rw [tally_concat, h.active, bytesOf, hrequest]
      simp
    · rcases mem_append.mp ha with ha | ha
      · exact h.own a ha
      · rw [mem_singleton.mp ha]
        exact ⟨request, hrequest, rfl⟩
    · rcases mem_append.mp ha with ha | ha
      · exact h.live a ha hlive
      · rw [mem_singleton.mp ha]
        exact hholds

/-- **The step of a body**, along headers that no request of another length uses. -/
theorem inv_send (h : s.Inv (some i)) (hrequest : s.requests[i]? = some request)
    (hfree : s.Free request.headers request.length) : (s.send i false).Inv none := by
  unfold send
  rw [hrequest]
  have hkeep : ∀ k, s.Holds k → (∀ request', s.requests[k]? = some request' →
      request'.headers = request.headers → request'.length = request.length) →
      Holds { s with contentLength := fun h =>
        if h = request.headers then some request.length else s.contentLength h } k := by
    rintro k ⟨request', hfound, hlength⟩ hsame
    refine ⟨request', hfound, ?_⟩
    show (if request'.headers = request.headers then _ else _) = _
    by_cases hheaders : request'.headers = request.headers
    · rw [if_pos hheaders, hsame request' hfound hheaders]
    · rw [if_neg hheaders, hlength]
  have hstate : Inv (some i) { s with contentLength := fun h =>
      if h = request.headers then some request.length else s.contentLength h } := by
    refine ⟨h.once, h.absent, h.active, h.own, fun a ha hlive => ?_, fun t ht => ?_⟩
    · exact hkeep _ (h.live a ha hlive) (hfree.1 a ha hlive)
    · exact hkeep _ (h.waits t ht) (hfree.2 t ht)
  exact inv_attempt hstate ⟨request, hrequest, if_pos rfl⟩ 1

/-- What becomes of an attempt that is replaced. -/
theorem mem_set_cases {b x : Attempt} (hx : x ∈ s.attempts.set j b) :
    x = b ∨ x ∈ s.attempts := (mem_or_eq_of_mem_set hx).symm

/-- **The step of an end**: the size that is taken off is that of the attempt's own body. -/
theorem inv_finalize (h : s.Inv owed) (j : ℕ) : (s.finalize j).Inv owed := by
  unfold finalize
  cases ha : s.attempts[j]? with
  | none => exact h
  | some a =>
    dsimp only
    have hmem := mem_of_getElem? ha
    by_cases hfinished : a.finished = true
    · rwa [if_pos hfinished]
    · rw [if_neg hfinished]
      have hopen : a.finished = false := by simpa using hfinished
      have hholds := h.live a hmem (Or.inl hopen)
      obtain ⟨request, hrequest, hlength⟩ := id hholds
      have hown := lengthOf_of_holds hholds hrequest
      have hunsettled : ∀ k, tally (unsettledOf k) (s.attempts.set j { a with finished := true }) =
          tally (unsettledOf k) s.attempts := by
        intro k
        have hset := tally_set (unsettledOf k) ha { a with finished := true }
        have hsame : unsettledOf k { a with finished := true } = unsettledOf k a := rfl
        omega
      have hpending : ∀ k, pending { s with
          activeBufferSize := s.activeBufferSize -
            ((s.requests[a.request]?.map s.lengthOf).getD 0 : ℕ)
          attempts := s.attempts.set j { a with finished := true } } k = s.pending k := by
        intro k
        simp only [pending, hunsettled]
      refine ⟨fun k hk => ?_, fun k hk => ?_, ?_, fun x hx => ?_, fun x hx hlive => ?_, h.waits⟩
      · rw [hpending]
        exact h.once k hk
      · rw [hpending]
        exact h.absent k hk
      · have hset := tally_set s.bytesOf ha { a with finished := true }
        have hzero : s.bytesOf { a with finished := true } = 0 := if_pos rfl
        have hbytes : s.bytesOf a = request.length := by
          rw [bytesOf, if_neg hfinished, hrequest]
          rfl
        show s.activeBufferSize - _ = (tally s.bytesOf (s.attempts.set j _) : ℕ)
        rw [hrequest, map_some, getD_some, h.active]
        omega
      · rcases mem_set_cases hx with rfl | hx
        · exact h.own a hmem
        · exact h.own x hx
      · rcases mem_set_cases hx with rfl | hx
        · exact hholds
        · exact h.live x hx hlive

/-- An attempt that settles owes its request something. -/
theorem inv_settle (h : s.Inv none) {a : Attempt} (ha : s.attempts[j]? = some a)
    (hsettled : a.settled = false) : (s.settle j a).Inv (some a.request) := by
  have hmem := mem_of_getElem? ha
  have hset : ∀ k, tally (unsettledOf k) (s.attempts.set j { a with settled := true }) +
      (if a.request = k then 1 else 0) = tally (unsettledOf k) s.attempts := by
    intro k
    have htally := tally_set (unsettledOf k) ha { a with settled := true }
    have hzero : unsettledOf k { a with settled := true } = 0 := by simp [unsettledOf]
    have hone : unsettledOf k a = if a.request = k then 1 else 0 := by simp [unsettledOf, hsettled]
    omega
  have hstate : Inv (some a.request)
      { s with attempts := s.attempts.set j { a with settled := true } } := by
    refine ⟨fun k hk => ?_, fun k hk => ?_, ?_, fun x hx => ?_, fun x hx hlive => ?_, h.waits⟩
    · have honce := h.once k hk
      have hk' := hset k
      simp only [pending, reduceCtorEq, if_false, some.injEq] at honce ⊢
      omega
    · have hnone := h.absent k hk
      have hk' := hset k
      simp only [pending] at hnone ⊢
      omega
    · have htally := tally_set s.bytesOf ha { a with settled := true }
      have hsame : s.bytesOf { a with settled := true } = s.bytesOf a := rfl
      show s.activeBufferSize = (tally s.bytesOf (s.attempts.set j _) : ℕ)
      rw [h.active]
      omega
    · rcases mem_set_cases hx with rfl | hx
      · exact h.own a hmem
      · exact h.own x hx
    · rcases mem_set_cases hx with rfl | hx
      · exact h.live a hmem (Or.inr hsettled)
      · exact h.live x hx hlive
  exact inv_finalize hstate j

theorem finalize_spec (s : Exports) (j : ℕ) : (s.finalize j).requests = s.requests ∧
    (s.finalize j).callbacks = s.callbacks ∧ (s.finalize j).retries = s.retries ∧
    (s.finalize j).contentLength = s.contentLength := by
  unfold finalize
  split
  · exact ⟨rfl, rfl, rfl, rfl⟩
  · split
    all_goals exact ⟨rfl, rfl, rfl, rfl⟩

theorem settle_spec (s : Exports) (j : ℕ) (a : Attempt) : (s.settle j a).requests = s.requests ∧
    (s.settle j a).callbacks = s.callbacks ∧ (s.settle j a).retries = s.retries ∧
    (s.settle j a).contentLength = s.contentLength := finalize_spec _ j

theorem inv_complete (h : s.Inv none) (j : ℕ) : (s.complete j).Inv none := by
  unfold complete
  cases ha : s.attempts[j]? with
  | none => exact h
  | some a =>
    dsimp only
    by_cases hsettled : a.settled = true
    · rwa [if_pos hsettled]
    · rw [if_neg hsettled]
      obtain ⟨hrequests, hcallbacks, -, -⟩ := settle_spec s j a
      obtain ⟨request, hrequest, -⟩ := h.own a (mem_of_getElem? ha)
      have hlt : a.request < (s.settle j a).requests.length := by
        rw [hrequests]
        exact (List.getElem?_eq_some_iff.mp hrequest).1
      rw [← hcallbacks]
      exact inv_callback (inv_settle h ha (by simpa using hsettled)) hlt

/-- **The step of an error**: it leads to the callback, or to a retry. -/
theorem inv_handleError (h : s.Inv none) (j : ℕ) (code : Option Str) (inStartupPhase : Bool) :
    (s.handleError j code inStartupPhase).Inv none := by
  unfold handleError
  cases ha : s.attempts[j]? with
  | none => exact h
  | some a =>
    dsimp only
    by_cases hsettled : a.settled = true
    · rwa [if_pos hsettled]
    · rw [if_neg hsettled]
      have hopen : a.settled = false := by simpa using hsettled
      split
      · obtain ⟨hrequests, -, hretries, hlengths⟩ := settle_spec s j a
        have hsettle := inv_settle h ha hopen
        have hholds : (s.settle j a).Holds a.request := by
          obtain ⟨request, hrequest, hlength⟩ := h.live a (mem_of_getElem? ha) (Or.inr hopen)
          exact ⟨request, hrequests ▸ hrequest, hlengths ▸ hlength⟩
        rw [← hretries]
        refine ⟨fun k hk => ?_, fun k hk => ?_, hsettle.active, hsettle.own, hsettle.live,
          fun t ht => ?_⟩
        · have honce := hsettle.once k hk
          simp only [pending, tally_concat, retryOf, reduceCtorEq, if_false, some.injEq] at honce ⊢
          omega
        · have hnone := hsettle.absent k hk
          have hne : a.request ≠ k := by
            obtain ⟨request, hrequest, -⟩ := hholds
            have hlt := (List.getElem?_eq_some_iff.mp hrequest).1
            exact Nat.ne_of_lt (lt_of_lt_of_le hlt hk)
          simp only [pending, tally_concat, retryOf, if_neg hne] at hnone ⊢
          exact hnone
        · rcases mem_append.mp ht with ht | ht
          · exact hsettle.waits t ht
          · rw [mem_singleton.mp ht]
            exact hholds
      · exact inv_complete h j

/-- **The step of a call**: the new request is owed something. -/
theorem inv_new (h : s.Inv none) (request : Export) :
    Inv (some s.requests.length) { s with requests := s.requests ++ [request] } := by
  have hkeep : ∀ (k : ℕ) (request' : Export), s.requests[k]? = some request' →
      (s.requests ++ [request])[k]? = some request' := by
    intro k request' hfound
    rw [getElem?_append_left (List.getElem?_eq_some_iff.mp hfound).1, hfound]
  have hholds : ∀ k, s.Holds k → Holds { s with requests := s.requests ++ [request] } k := by
    rintro k ⟨request', hfound, hlength⟩
    exact ⟨request', hkeep k request' hfound, hlength⟩
  refine ⟨fun k hk => ?_, fun k hk => ?_, ?_, fun a ha => ?_,
    fun a ha hlive => hholds _ (h.live a ha hlive), fun t ht => hholds _ (h.waits t ht)⟩
  · rw [length_append, length_singleton] at hk
    show s.callbacks.count k + s.pending k + _ = 1
    by_cases hlast : s.requests.length = k
    · subst hlast
      simpa using h.absent _ le_rfl
    · have honce := h.once k (by omega)
      simpa [hlast] using honce
  · rw [length_append] at hk
    exact h.absent k (by omega)
  · rw [h.active]
    refine congrArg _ (tally_congr fun a ha => ?_)
    obtain ⟨request', hfound, -⟩ := h.own a ha
    simp only [bytesOf, hfound, hkeep _ _ hfound]
  · obtain ⟨request', hfound, hlength⟩ := h.own a ha
    exact ⟨request', hkeep _ _ hfound, hlength⟩

theorem free_new (h : s.Inv none) {headers length : ℕ} (hfree : s.Free headers length) :
    Free { s with requests := s.requests ++ [request] } headers length := by
  have hback : ∀ k : ℕ, (∃ request', s.requests[k]? = some request') →
      (s.requests ++ [request])[k]? = s.requests[k]? := by
    rintro k ⟨request', hfound⟩
    exact getElem?_append_left (List.getElem?_eq_some_iff.mp hfound).1
  constructor
  · intro a ha hlive request' hrequest'
    obtain ⟨own, hown, -⟩ := h.own a ha
    exact hfree.1 a ha hlive request' (hback _ ⟨own, hown⟩ ▸ hrequest')
  · intro t ht request' hrequest'
    obtain ⟨own, hown, -⟩ := h.waits t ht
    exact hfree.2 t ht request' (hback _ ⟨own, hown⟩ ▸ hrequest')

/-- A stream that ends or fails owes its request something. -/
theorem inv_stream (h : s.Inv none) {k : ℕ} (hstream : s.streams[k]? = some i) :
    Inv (some i) { s with streams := s.streams.eraseIdx k } ∧ i < s.requests.length := by
  have herase := fun x => tally_eraseIdx (streamOf x) hstream
  refine ⟨⟨fun x hx => ?_, fun x hx => ?_, h.active, h.own, h.live, h.waits⟩, ?_⟩
  · have honce := h.once x hx
    have hx' := herase x
    simp only [pending, streamOf, reduceCtorEq, if_false, some.injEq] at honce hx' ⊢
    omega
  · have hnone := h.absent x hx
    have hx' := herase x
    simp only [pending] at hnone ⊢
    omega
  · by_contra hge
    have hnone := h.absent i (Nat.not_lt.mp hge)
    have hi := herase i
    simp only [pending] at hnone
    simp only [streamOf, if_true] at hi
    omega

theorem inv_step {ev : ExportEvent} (h : s.Inv none) (hapart : s.Apart ev)
    (hstep : s.step ev = some s') : s'.Inv none := by
  cases ev with
  | request request throws =>
    cases hstep
    obtain ⟨rfl, hfree⟩ := hapart
    exact inv_send (inv_new h request) getElem?_concat_length (free_new h hfree)
  | requestStream request =>
    cases hstep
    have hnew := inv_new h request
    refine ⟨fun k hk => ?_, fun k hk => ?_, hnew.active, hnew.own, hnew.live, hnew.waits⟩
    · have honce := hnew.once k hk
      simp only [pending, tally_concat, streamOf, reduceCtorEq, if_false, some.injEq] at honce ⊢
      omega
    · have hnone := hnew.absent k hk
      have hne : s.requests.length ≠ k := by
        rw [length_append, length_singleton] at hk
        omega
      simp only [pending, tally_concat, streamOf, if_neg hne] at hnone ⊢
      exact hnone
  | streamEnd k throws =>
    obtain ⟨i, hstream, rfl⟩ := map_eq_some_iff.mp hstep
    obtain ⟨rfl, hfree⟩ := hapart
    obtain ⟨hinv, hlt⟩ := inv_stream h hstream
    obtain ⟨request, hrequest⟩ : ∃ request, s.requests[i]? = some request :=
      ⟨_, getElem?_eq_getElem hlt⟩
    exact inv_send hinv hrequest (hfree i request hstream hrequest)
  | streamError k =>
    obtain ⟨i, hstream, rfl⟩ := map_eq_some_iff.mp hstep
    obtain ⟨hinv, hlt⟩ := inv_stream h hstream
    exact inv_callback hinv hlt
  | respond j =>
    cases hstep
    exact inv_complete h j
  | error j code inStartupPhase =>
    cases hstep
    exact inv_handleError h j code inStartupPhase
  | close j =>
    cases hstep
    exact inv_finalize h j
  | retry k throws =>
    obtain ⟨t, hretry, rfl⟩ := map_eq_some_iff.mp hstep
    have hthrows : throws = false := hapart
    subst hthrows
    have hholds := h.waits t (mem_of_getElem? hretry)
    have herase := fun x => tally_eraseIdx (retryOf x) hretry
    have hstate : Inv (some t.request) { s with retries := s.retries.eraseIdx k } := by
      refine ⟨fun x hx => ?_, fun x hx => ?_, h.active, h.own, h.live, fun t' ht' => ?_⟩
      · have honce := h.once x hx
        have hx' := herase x
        simp only [pending, retryOf, reduceCtorEq, if_false, some.injEq] at honce hx' ⊢
        omega
      · have hnone := h.absent x hx
        have hx' := herase x
        simp only [pending] at hnone ⊢
        omega
      · exact h.waits t' (mem_of_mem_eraseIdx ht')
    exact inv_attempt hstate hholds t.index

theorem inv_init : ({} : Exports).Inv none :=
  ⟨fun i hi => absurd hi (Nat.not_lt_zero i), fun _ _ => rfl, rfl,
    fun _ ha => absurd ha not_mem_nil, fun _ ha => absurd ha not_mem_nil,
    fun _ ht => absurd ht not_mem_nil⟩

end Exports

/-! ## Main results -/

/-- Two requests along one headers object, one after the other, the first with a retry. -/
def exportEvents : List ExportEvent :=
  [.request ⟨0, true, 10⟩ false, .error 0 (some (lit "ECONNRESET")) false, .retry 0 false, .close 1,
    .respond 1, .request ⟨0, true, 30⟩ false]

end DdTrace.Exporters
