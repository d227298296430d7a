import Mathlib.Data.List.Basic
import Mathlib.Data.List.Count
import Mathlib.Tactic.Common

/-!
# Programs that write to a bounded log

A `Prog` changes a state and returns a value or fails, and keeps what it did to the state before
it failed, as a program with exceptions does.  Its state holds a log of bounded length, which is
written at the end, overwritten in places, or cut back.

A specification says of a program what it adds to the log: `G.Emits Fail x Q` is that `x`, run in a
state that satisfies the invariant of `G`, either fails as `Fail` allows, or adds some `l` to the
log and returns an `a` such that `Q` holds of the new state, `a` and `l`.  Everything else that the
state holds may grow along the order of `G`, and what holds of it has to be monotone.

* `runs_bind`, `runs_mono`, `runs_weaken`: the rules of the underlying calculus, which is that of weakest
  preconditions.
* `emitsAt_bind`, `emits_bind`, `adds_bind`: one program after another.
* `emits_append`: writing at the end; `emits_counted`, `emits_sized`: a prefix that is filled in when
  what follows it is known; `emits_retract`: room that is given back.
* `emits_each`, `emits_count`: loops over a list.
-/

namespace Library

open List

/-! ## Programs -/

/-- A program that can fail, and then leaves the state as far as it came. -/
def Prog (ε σ α : Type) : Type := σ → Except ε α × σ

namespace Prog

variable {ε σ α β γ : Type}

instance : Monad (Prog ε σ) where
  pure a := fun s => (.ok a, s)
  bind x f := fun s =>
    match x s with
    | (.ok a, t) => f a t
    | (.error e, t) => (.error e, t)

def fail (e : ε) : Prog ε σ α := fun s => (.error e, s)

def get : Prog ε σ σ := fun s => (.ok s, s)

def modify (f : σ → σ) : Prog ε σ Unit := fun s => (.ok (), f s)

/-- A loop over a list. -/
def each : List β → (β → Prog ε σ Unit) → Prog ε σ Unit
  | [], _ => pure ()
  | b :: bs, f => do
    f b
    each bs f

/-- A loop over a list that counts the passes that returned `true`. -/
def count : List β → (β → Prog ε σ Bool) → Prog ε σ ℕ
  | [], _ => pure 0
  | b :: bs, f => do
    let c ← f b
    let n ← count bs f
    pure (if c then n + 1 else n)

/-- The program ends with a value and a state of which `Q` holds, or fails as `Fail` allows. -/
def Runs (x : Prog ε σ α) (s : σ) (Q : α → σ → Prop) (Fail : ε → Prop) : Prop :=
  match x s with
  | (.ok a, t) => Q a t
  | (.error e, _) => Fail e

variable {x : Prog ε σ α} {Q : α → σ → Prop} {f : α → Prog ε σ β}

/-- What follows a program that returned a value. -/
theorem bind_ok {s t : σ} {a : α} (h : x s = (.ok a, t)) : (x >>= f) s = f a t := by
  show (match x s with
    | (.ok a, t) => f a t
    | (.error e, t) => (.error e, t)) = f a t
  rw [h]

/-- Nothing follows a failure. -/
theorem bind_error {s t : σ} {e : ε} (h : x s = (.error e, t)) : (x >>= f) s = (.error e, t) := by
  show (match x s with
    | (.ok a, t) => f a t
    | (.error e, t) => (.error e, t)) = (.error e, t)
  rw [h]

theorem bind_bind (x : Prog ε σ α) (f : α → Prog ε σ β) (g : β → Prog ε σ γ) :
    x >>= f >>= g = x >>= fun a => f a >>= g := by
  funext s
  show (match (match x s with
      | (.ok a, t) => f a t
      | (.error e, t) => (.error e, t)) with
    | (.ok b, t) => g b t
    | (.error e, t) => (.error e, t)) = _
  cases hx : x s with
  | mk r t =>
    cases r with
    | ok a =>
      rw [bind_ok hx]
      rfl
    | error e => rw [bind_error hx]

variable {Fail : ε → Prop} {s : σ}

theorem runs_pure {a : α} (h : Q a s) : Runs (pure a : Prog ε σ α) s Q Fail := h

theorem runs_get {Q : σ → σ → Prop} (h : Q s s) : Runs (get : Prog ε σ σ) s Q Fail := h

theorem runs_modify {Q : Unit → σ → Prop} {f : σ → σ} (h : Q () (f s)) :
    Runs (modify f : Prog ε σ Unit) s Q Fail := h

theorem runs_fail {e : ε} (h : Fail e) : Runs (fail e : Prog ε σ α) s Q Fail := h

theorem runs_bind {Q : β → σ → Prop}
    (h : Runs x s (fun a t => Runs (f a) t Q Fail) Fail) : Runs (x >>= f) s Q Fail := by
  unfold Runs at h ⊢
  show (match (match x s with
    | (.ok a, t) => f a t
    | (.error e, t) => (.error e, t)) with
    | (.ok b, t) => Q b t
    | (.error e, _) => Fail e)
  cases hx : x s with
  | mk r t =>
    rw [hx] at h
    cases r with
    | ok a => exact h
    | error e => exact h

theorem runs_mono {R : α → σ → Prop} (h : Runs x s Q Fail)
    (hQR : ∀ a t, Q a t → R a t) : Runs x s R Fail := by
  unfold Runs at h ⊢
  cases hx : x s with
  | mk r t =>
    rw [hx] at h
    cases r with
    | ok a => exact hQR a t h
    | error e => exact h

theorem runs_weaken {Fail' : ε → Prop} (h : Runs x s Q Fail) (hfail : ∀ e, Fail e → Fail' e) :
    Runs x s Q Fail' := by
  unfold Runs at h ⊢
  cases hx : x s with
  | mk r t =>
    rw [hx] at h
    cases r with
    | ok a => exact h
    | error e => exact hfail e h

/-- The value and the state at the end, or the failure. -/
theorem Runs.cases (h : Runs x s Q Fail) :
    (∃ a t, x s = (.ok a, t) ∧ Q a t) ∨ ∃ e t, x s = (.error e, t) ∧ Fail e := by
  unfold Runs at h
  cases hx : x s with
  | mk r t =>
    rw [hx] at h
    cases r with
    | ok a => exact .inl ⟨a, t, rfl, h⟩
    | error e => exact .inr ⟨e, t, rfl, h⟩

end Prog

/-! ## Logs -/

/-- A log of at most `cap` entries in a state. -/
structure Log (ε σ ω : Type) where
  out : σ → List ω
  setOut : σ → List ω → σ
  cap : ℕ
  full : ℕ → ε
  out_setOut : ∀ s l, out (setOut s l) = l

/-- An invariant of the rest of the state, and an order along which it grows. -/
structure Log.Growth {ε σ ω : Type} (L : Log ε σ ω) where
  Inv : σ → Prop
  Le : σ → σ → Prop
  inv_setOut : ∀ s l, Inv s → Inv (L.setOut s l)
  le_setOut : ∀ s l, Le s (L.setOut s l)
  refl : ∀ s, Le s s
  trans : ∀ s t u, Le s t → Le t u → Le s u

namespace Log

open Prog

variable {ε σ ω α β γ : Type} (L : Log ε σ ω)

/-- Adds to the log, unless that makes it too long. -/
def append (l : List ω) : Prog ε σ Unit := fun s =>
  if L.cap < (L.out s).length + l.length then (.error (L.full ((L.out s).length + l.length)), s)
  else (.ok (), L.setOut s (L.out s ++ l))

def length : Prog ε σ ℕ := fun s => (.ok (L.out s).length, s)

theorem runs_length {s : σ} {Q : ℕ → σ → Prop} {Fail : ε → Prop} (h : Q (L.out s).length s) :
    Runs L.length s Q Fail := h

/-- Overwrites the log from `n` on. -/
def patch (n : ℕ) (l : List ω) : Prog ε σ Unit :=
  modify fun s => L.setOut s ((L.out s).take n ++ l ++ (L.out s).drop (n + l.length))

/-- Cuts the log back to its first `n` entries. -/
def rewind (n : ℕ) : Prog ε σ Unit := modify fun s => L.setOut s ((L.out s).take n)

/-- Writes a prefix with room behind it, then the body, and then into the room what the body's
result says.  Until then the room holds what happened to be there. -/
def counted (hd room : List ω) (slot : α → List ω) (body : Prog ε σ α) : Prog ε σ α := do
  let offset ← L.length
  L.append (hd ++ room)
  let a ← body
  L.patch (offset + hd.length) (slot a)
  pure a

/-- Leaves room, writes the body, and then into the room what the length of the body says. -/
def sized (room : List ω) (slot : ℕ → List ω) (body : Prog ε σ α) : Prog ε σ α := do
  let offset ← L.length
  L.append room
  let a ← body
  let n ← L.length
  L.patch offset (slot (n - offset - room.length))
  pure a

/-- Makes room for more than is written, and gives the rest back. -/
def retract (l room : List ω) : Prog ε σ Unit := do
  let offset ← L.length
  L.append (l ++ room)
  L.rewind (offset + l.length)

/-- Cuts the log back to where it was if the body returns zero. -/
def unlessNone (body : Prog ε σ ℕ) : Prog ε σ Bool := do
  let start ← L.length
  let n ← body
  if n = 0 then do
    L.rewind start
    pure false
  else pure true

end Log

/-! ## What a program adds -/

namespace Log.Growth

open Prog

variable {ε σ ω α β γ : Type} {L : Log ε σ ω} (G : L.Growth)

/-- From the state `s`, the program adds some `l` to the log such that `Q` holds. -/
def EmitsAt (Fail : ε → Prop) (x : Prog ε σ α) (s : σ) (Q : σ → α → List ω → Prop) : Prop :=
  G.Inv s → (L.out s).length ≤ L.cap →
    Runs x s (fun a t => G.Inv t ∧ G.Le s t ∧ (L.out t).length ≤ L.cap ∧
      ∃ l, L.out t = L.out s ++ l ∧ Q t a l) Fail

/-- The same from every state. -/
def Emits (Fail : ε → Prop) (x : Prog ε σ α) (Q : σ → α → List ω → Prop) : Prop :=
  ∀ s, G.EmitsAt Fail x s Q

/-- What stays true as the state grows. -/
def Mono (Q : σ → α → List ω → Prop) : Prop := ∀ s t a l, G.Le s t → Q s a l → Q t a l

variable {G} {Fail : ε → Prop} {s : σ}

variable {Q : σ → α → List ω → Prop} {x : Prog ε σ α} {R : σ → α → List ω → Prop} {room : List ω}

theorem EmitsAt.mono (h : G.EmitsAt Fail x s Q)
    (hQR : ∀ t a l, G.Inv t → G.Le s t → Q t a l → R t a l) : G.EmitsAt Fail x s R := by
  intro hs hcap
  refine runs_mono (h hs hcap) ?_
  rintro a t ⟨ht, hle, hlen, l, hl, hq⟩
  exact ⟨ht, hle, hlen, l, hl, hQR t a l ht hle hq⟩

/-- A program that fails as `Fail` allows fails as anything weaker allows. -/
theorem EmitsAt.weaken {Fail' : ε → Prop} (h : G.EmitsAt Fail x s Q)
    (hfail : ∀ e, Fail e → Fail' e) : G.EmitsAt Fail' x s Q :=
  fun hs hcap => runs_weaken (h hs hcap) hfail

/-- What is added is no longer than the log may be. -/
theorem EmitsAt.mono_of_le (h : G.EmitsAt Fail x s Q)
    (hQR : ∀ t a l, l.length ≤ L.cap → Q t a l → R t a l) : G.EmitsAt Fail x s R := by
  intro hs hcap
  refine runs_mono (h hs hcap) ?_
  rintro a t ⟨ht, hle, hlen, l, hl, hq⟩
  have hle' : l.length ≤ L.cap := by
    rw [hl, length_append] at hlen
    omega
  exact ⟨ht, hle, hlen, l, hl, hQR t a l hle' hq⟩

theorem Emits.mono (h : G.Emits Fail x Q) (hQR : ∀ t a l, Q t a l → R t a l) : G.Emits Fail x R :=
  fun s => (h s).mono fun t a l _ _ hq => hQR t a l hq

theorem emitsAt_pure (a : α) :
    G.EmitsAt Fail (pure a : Prog ε σ α) s (fun t b l => t = s ∧ b = a ∧ l = []) := by
  intro hs hcap
  exact runs_pure ⟨hs, G.refl s, hcap, [], by rw [append_nil], rfl, rfl, rfl⟩

theorem emitsAt_fail {e : ε} (h : Fail e) :
    G.EmitsAt Fail (fail e : Prog ε σ α) s Q := fun _ _ => runs_fail h

/-- **One program after another**, the second in the state the first one left. -/
theorem emitsAt_bind {f : α → Prog ε σ β} {R : σ → β → List ω → Prop} (hx : G.EmitsAt Fail x s Q)
    (hf : ∀ t a l, G.Inv t → G.Le s t → Q t a l →
      G.EmitsAt Fail (f a) t (fun u b m => R u b (l ++ m))) :
    G.EmitsAt Fail (x >>= f) s R := by
  intro hs hcap
  refine runs_bind (runs_mono (hx hs hcap) ?_)
  rintro a t ⟨ht, hle, hlen, l, hl, hq⟩
  refine runs_mono (hf t a l ht hle hq ht hlen) ?_
  rintro b u ⟨hu, hle', hlen', m, hm, hr⟩
  refine ⟨hu, G.trans s t u hle hle', hlen', l ++ m, ?_, hr⟩
  rw [hm, hl, append_assoc]

theorem emits_bind {f : α → Prog ε σ β} {Q' : α → σ → β → List ω → Prop} {R : σ → β → List ω → Prop}
    (hx : G.Emits Fail x Q)
    (hmono : G.Mono Q) (hf : ∀ a, G.Emits Fail (f a) (Q' a))
    (h : ∀ t a l b m, Q t a l → Q' a t b m → R t b (l ++ m)) : G.Emits Fail (x >>= f) R := by
  intro s
  refine emitsAt_bind (hx s) fun t a l _ _ hq => (hf a t).mono ?_
  intro u b m _ hle hq'
  exact h u a l b m (hmono t u a l hle hq) hq'

theorem emits_append (l : List ω) (hfull : ∀ n, L.cap < n → Fail (L.full n)) :
    G.Emits Fail (L.append l) (fun _ _ m => m = l) := by
  intro s hs hcap
  unfold Prog.Runs Log.append
  by_cases hlen : L.cap < (L.out s).length + l.length
  · rw [if_pos hlen]
    exact hfull _ hlen
  · rw [if_neg hlen]
    refine ⟨G.inv_setOut s _ hs, G.le_setOut s _, ?_, l, L.out_setOut s _, rfl⟩
    rw [L.out_setOut, length_append]
    omega

theorem emitsAt_get :
    G.EmitsAt Fail (Prog.get : Prog ε σ σ) s (fun t a l => t = s ∧ a = s ∧ l = []) := by
  intro hs hcap
  exact runs_get ⟨hs, G.refl s, hcap, [], by rw [append_nil], rfl, rfl, rfl⟩

/-! ### A prefix that is filled in later -/

theorem patch_append (out hd room new m : List ω) (h : room.length = new.length) :
    (out ++ (hd ++ room) ++ m).take (out.length + hd.length) ++ new ++
        (out ++ (hd ++ room) ++ m).drop (out.length + hd.length + new.length) =
      out ++ (hd ++ new ++ m) := by
  have hfront : out ++ (hd ++ room) ++ m = (out ++ hd) ++ (room ++ m) := by
    rw [← append_assoc, append_assoc (out ++ hd)]
  have hlen : out.length + hd.length = (out ++ hd).length := length_append.symm
  rw [hfront, hlen, take_left, ← drop_drop, drop_left, ← h, drop_left]
  simp only [append_assoc]

/-- **A counted body** stands behind its prefix and what is said of it. -/
theorem emits_counted {hd : List ω} {slot : α → List ω} {body : Prog ε σ α}
    (hfull : ∀ n, L.cap < n → Fail (L.full n))
    (hslot : ∀ a, room.length = (slot a).length) (hbody : G.Emits Fail body Q)
    (hmono : G.Mono Q) (h : ∀ t a m, Q t a m → R t a (hd ++ slot a ++ m)) :
    G.Emits Fail (L.counted hd room slot body) R := by
  intro s hs hcap
  refine runs_bind (L.runs_length ?_)
  refine runs_bind (runs_mono (emits_append (hd ++ room) hfull s hs hcap) ?_)
  rintro _ t ⟨ht, hle, hlen, _, hl, rfl⟩
  refine runs_bind (runs_mono (hbody t ht hlen) ?_)
  rintro a u ⟨hu, hle', hlen', m, hm, hq⟩
  have hout : (L.out u).take ((L.out s).length + hd.length) ++ slot a ++
      (L.out u).drop ((L.out s).length + hd.length + (slot a).length) =
        L.out s ++ (hd ++ slot a ++ m) := by
    rw [hm, hl]
    exact patch_append _ _ _ _ _ (hslot a)
  refine runs_bind (runs_modify (runs_pure ⟨G.inv_setOut u _ hu,
    G.trans s t _ hle (G.trans t u _ hle' (G.le_setOut u _)), ?_, hd ++ slot a ++ m, ?_, ?_⟩))
  · rw [L.out_setOut, hout]
    rw [hm, hl, length_append, length_append, length_append, hslot a] at hlen'
    rw [length_append, length_append, length_append]
    omega
  · rw [L.out_setOut, hout]
  · exact h _ a m (hmono u _ a m (G.le_setOut u _) hq)

/-- **A body behind its length.** -/
theorem emits_sized {slot : ℕ → List ω} {body : Prog ε σ α}
    (hfull : ∀ n, L.cap < n → Fail (L.full n))
    (hslot : ∀ n, room.length = (slot n).length) (hbody : G.Emits Fail body Q)
    (hmono : G.Mono Q) (h : ∀ t a m, Q t a m → R t a (slot m.length ++ m)) :
    G.Emits Fail (L.sized room slot body) R := by
  intro s hs hcap
  refine runs_bind (L.runs_length ?_)
  refine runs_bind (runs_mono (emits_append room hfull s hs hcap) ?_)
  rintro _ t ⟨ht, hle, hlen, l, hl, hroom⟩
  rw [hroom] at hl
  refine runs_bind (runs_mono (hbody t ht hlen) ?_)
  rintro a u ⟨hu, hle', hlen', m, hm, hq⟩
  have hsize : (L.out u).length - (L.out s).length - room.length = m.length := by
    rw [hm, hl, length_append, length_append]
    omega
  have hout : (L.out u).take (L.out s).length ++ slot m.length ++
      (L.out u).drop ((L.out s).length + (slot m.length).length) =
        L.out s ++ (slot m.length ++ m) := by
    rw [hm, hl]
    exact patch_append (L.out s) [] room (slot m.length) m (hslot _)
  refine runs_bind (L.runs_length ?_)
  rw [hsize]
  refine runs_bind (runs_modify (runs_pure ⟨G.inv_setOut u _ hu,
    G.trans s t _ hle (G.trans t u _ hle' (G.le_setOut u _)), ?_, slot m.length ++ m, ?_, ?_⟩))
  · rw [L.out_setOut, hout]
    rw [hm, hl, length_append, length_append, hslot m.length] at hlen'
    rw [length_append, length_append]
    omega
  · rw [L.out_setOut, hout]
  · exact h _ a m (hmono u _ a m (G.le_setOut u _) hq)

/-- Room that is given back leaves nothing. -/
theorem emits_retract {l : List ω} (hfull : ∀ n, L.cap < n → Fail (L.full n)) :
    G.Emits Fail (L.retract l room) (fun _ _ m => m = l) := by
  intro s hs hcap
  refine runs_bind (L.runs_length ?_)
  refine runs_bind (runs_mono (emits_append (l ++ room) hfull s hs hcap) ?_)
  rintro _ t ⟨ht, hle, hlen, _, hl, rfl⟩
  have hout : (L.out t).take ((L.out s).length + l.length) = L.out s ++ l := by
    rw [hl, ← append_assoc, ← length_append, take_left]
  refine runs_modify ⟨G.inv_setOut t _ ht, G.trans s t _ hle (G.le_setOut t _), ?_, l, ?_, rfl⟩
  · rw [L.out_setOut, hout]
    rw [hl, length_append, length_append] at hlen
    rw [length_append]
    omega
  · rw [L.out_setOut, hout]

/-- **A section that is cut back where it holds nothing.** -/
theorem emits_unlessNone {body : Prog ε σ ℕ} {Q : σ → ℕ → List ω → Prop}
    {R : σ → Bool → List ω → Prop} (hbody : G.Emits Fail body Q) (hmono : G.Mono Q)
    (hnone : ∀ t l, Q t 0 l → R t false []) (hsome : ∀ t n l, n ≠ 0 → Q t n l → R t true l) :
    G.Emits Fail (L.unlessNone body) R := by
  intro s hs hcap
  refine runs_bind (L.runs_length ?_)
  refine runs_bind (runs_mono (hbody s hs hcap) ?_)
  rintro n t ⟨ht, hle, hlen, l, hl, hq⟩
  by_cases hn : n = 0
  · have hout : (L.out t).take (L.out s).length = L.out s := by rw [hl, take_left]
    rw [if_pos hn]
    refine runs_bind (runs_modify (runs_pure ⟨G.inv_setOut t _ ht,
      G.trans s t _ hle (G.le_setOut t _), ?_, [], ?_, ?_⟩))
    · rw [L.out_setOut, hout]
      exact hcap
    · rw [L.out_setOut, hout, append_nil]
    · subst hn
      exact hnone _ l (hmono t _ 0 l (G.le_setOut t _) hq)
  · rw [if_neg hn]
    exact runs_pure ⟨ht, hle, hlen, l, hl, hsome t n l hn hq⟩

/-! ### Loops -/

/-- **A loop**, its result built from the back. -/
theorem emits_each {bs : List β} {f : β → Prog ε σ Unit} {Q : β → σ → List ω → Prop}
    {R : List β → σ → List ω → Prop}
    (hf : ∀ b ∈ bs, G.Emits Fail (f b) (fun t _ l => Q b t l))
    (hmono : ∀ b s t l, G.Le s t → Q b s l → Q b t l) (hnil : ∀ t, R [] t [])
    (hcons : ∀ b bs t l m, Q b t l → R bs t m → R (b :: bs) t (l ++ m)) :
    G.Emits Fail (each bs f) (fun t _ l => R bs t l) := by
  induction bs with
  | nil =>
    intro s
    refine (emitsAt_pure ()).mono ?_
    rintro t _ l _ _ ⟨-, -, rfl⟩
    exact hnil t
  | cons b bs ih =>
    refine emits_bind (hf b mem_cons_self) (fun s t _ l hle hq => hmono b s t l hle hq)
      (fun _ => ih (forall_mem_cons.mp hf).2) ?_
    intro t _ l _ m hq hr
    exact hcons b bs t l m hq hr

/-- **A loop that counts.** -/
theorem emits_count {bs : List β} {f : β → Prog ε σ Bool} {Q : β → σ → Bool → List ω → Prop}
    {R : List β → σ → ℕ → List ω → Prop}
    (hf : ∀ b ∈ bs, G.Emits Fail (f b) (Q b)) (hmono : ∀ b, G.Mono (Q b))
    (hnil : ∀ t, R [] t 0 [])
    (hcons : ∀ b bs t c n l m, Q b t c l → R bs t n m →
      R (b :: bs) t (if c then n + 1 else n) (l ++ m)) :
    G.Emits Fail (count bs f) (R bs) := by
  induction bs with
  | nil =>
    intro s
    refine (emitsAt_pure 0).mono ?_
    rintro t _ l _ _ ⟨-, rfl, rfl⟩
    exact hnil t
  | cons b bs ih =>
    have hrest := ih (forall_mem_cons.mp hf).2
    intro s
    refine emitsAt_bind (hf b mem_cons_self s) fun t c l _ _ hq => ?_
    refine emitsAt_bind (hrest t) fun u n m _ hle hr => ?_
    refine (emitsAt_pure _).mono ?_
    rintro v k r _ _ ⟨rfl, rfl, rfl⟩
    rw [append_nil]
    exact hcons b bs v c n l m (hmono b t v c l hle hq) hr

/-! ### Specifications that do not mention the state -/

section Plain

/-- The program returns some `a` and adds some `l` such that `Q` holds. -/
def Adds (G : L.Growth) (Fail : ε → Prop) (x : Prog ε σ α) (Q : α → List ω → Prop) : Prop :=
  G.Emits Fail x fun _ => Q

theorem mono_const (Q : α → List ω → Prop) : G.Mono fun _ => Q := fun _ _ _ _ _ h => h

variable {Q : α → List ω → Prop} {x : Prog ε σ α}

theorem Adds.mono {R : α → List ω → Prop} (h : G.Adds Fail x Q)
    (hQR : ∀ a l, Q a l → R a l) : G.Adds Fail x R := Emits.mono h fun _ => hQR

theorem Adds.weaken {Fail' : ε → Prop} (h : G.Adds Fail x Q) (hfail : ∀ e, Fail e → Fail' e) :
    G.Adds Fail' x Q :=
  fun s => (h s).weaken hfail

theorem Adds.mono_of_le {R : α → List ω → Prop} (h : G.Adds Fail x Q)
    (hQR : ∀ a l, l.length ≤ L.cap → Q a l → R a l) : G.Adds Fail x R :=
  fun s => (h s).mono_of_le fun _ => hQR

theorem adds_bind {f : α → Prog ε σ β} {R : β → List ω → Prop} (hx : G.Adds Fail x Q)
    (hf : ∀ a l, Q a l → G.Adds Fail (f a) (fun b m => R b (l ++ m))) :
    G.Adds Fail (x >>= f) R := by
  intro s
  exact emitsAt_bind (hx s) fun t a l _ _ hq => hf a l hq t

theorem adds_pure {a : α} (h : Q a []) : G.Adds Fail (pure a : Prog ε σ α) Q := by
  intro s
  refine (emitsAt_pure a).mono ?_
  rintro _ b l _ _ ⟨-, rfl, rfl⟩
  exact h

theorem adds_append {Q : Unit → List ω → Prop} {l : List ω}
    (hfull : ∀ n, L.cap < n → Fail (L.full n))
    (h : Q () l) : G.Adds Fail (L.append l) Q := by
  refine Emits.mono (emits_append l hfull) ?_
  rintro _ _ m rfl
  exact h

end Plain

end Log.Growth
end Library
