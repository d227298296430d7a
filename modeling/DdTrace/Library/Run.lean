import Mathlib.Data.List.Basic
import Mathlib.Tactic.Common

/-!
# Runs of a partial step function

A system is a step function `step : σ → α → Option σ`: the action `a` is enabled in the state `s`
when `step s a` is a state.  `exec` folds it over a list of actions, and `Every` says that each
step of a run meets a condition on the state it starts from.

* `exec_append`: a run splits where its list of actions splits.
* `Every.prefix`, `Every.suffix`: so does the condition on its steps.
* `invariant`: what holds at the start and is kept by every step that meets the condition holds
  at the end of every run whose steps all meet it.
* `monotone`, `every_monotone`: a reflexive and transitive relation that holds across every step
  holds across every run, and from each of its states to the last.
-/

namespace Library.Run

open List Option

variable {σ α : Type*} {step : σ → α → Option σ}

/-- The state a run ends in, when all its actions are enabled. -/
def exec (step : σ → α → Option σ) : σ → List α → Option σ
  | s, [] => some s
  | s, a :: as => (step s a).bind fun t => exec step t as

@[simp] theorem exec_nil (s : σ) : exec step s [] = some s := rfl

theorem exec_cons (s : σ) (a : α) (as : List α) :
    exec step s (a :: as) = (step s a).bind fun t => exec step t as := rfl

theorem exec_cons_eq_some {s t : σ} {a : α} {as : List α} :
    exec step s (a :: as) = some t ↔ ∃ u, step s a = some u ∧ exec step u as = some t := by
  rw [exec_cons, bind_eq_some_iff]

/-- A run of a step that is always enabled is a fold. -/
theorem exec_total (f : σ → α → σ) (s : σ) (as : List α) :
    exec (fun s a => some (f s a)) s as = some (as.foldl f s) := by
  induction as generalizing s with
  | nil => rfl
  | cons a as ih => exact ih (f s a)

/-- A part of the state that each action updates by what concerns it in the action, or leaves alone
where nothing does. -/
theorem foldl_view {τ ε : Type*} (view : σ → τ) (event? : α → Option ε) (g : τ → ε → τ)
    {f : σ → α → σ} (h : ∀ s a, view (f s a) = (event? a).elim (view s) (g (view s))) (s : σ)
    (as : List α) : view (as.foldl f s) = (as.filterMap event?).foldl g (view s) := by
  induction as generalizing s with
  | nil => rfl
  | cons a as ih =>
    rw [foldl_cons, ih, h, filterMap_cons]
    cases event? a <;> rfl

/-- A run splits where its list of actions splits. -/
theorem exec_append (s : σ) (as bs : List α) :
    exec step s (as ++ bs) = (exec step s as).bind fun t => exec step t bs := by
  induction as generalizing s with
  | nil => rfl
  | cons a as ih =>
    rw [cons_append, exec_cons, exec_cons, bind_assoc]
    exact congrArg _ (funext fun t => ih t)

theorem exec_append_eq_some {s t : σ} {as bs : List α} :
    exec step s (as ++ bs) = some t ↔ ∃ u, exec step s as = some u ∧ exec step u bs = some t := by
  rw [exec_append, bind_eq_some_iff]

/-- Every step of the run meets `C`, in the state it starts from. -/
def Every (step : σ → α → Option σ) (C : σ → α → Prop) : σ → List α → Prop
  | _, [] => True
  | s, a :: as => C s a ∧ ∀ t, step s a = some t → Every step C t as

variable {C : σ → α → Prop}

/-- A condition that can be tested on a step can be tested along a run. -/
instance decidableEvery [∀ s a, Decidable (C s a)] : ∀ s as, Decidable (Every step C s as)
  | _, [] => isTrue trivial
  | s, a :: as =>
    have hrest : Decidable (∀ t, step s a = some t → Every step C t as) :=
      match h : step s a with
      | none => isTrue fun _ ht => by cases ht
      | some t =>
        have := decidableEvery t as
        decidable_of_iff (Every step C t as)
          ⟨fun hall _ ht => some.inj ht ▸ hall, fun hall => hall t rfl⟩
    inferInstanceAs (Decidable (C s a ∧ _))

@[simp] theorem every_nil (s : σ) : Every step C s [] := trivial

theorem every_of_forall_mem {as : List α} (h : ∀ a ∈ as, ∀ s, C s a) (s : σ) :
    Every step C s as := by
  induction as generalizing s with
  | nil => exact every_nil s
  | cons a as ih =>
    exact ⟨h a mem_cons_self s, fun t _ => ih (forall_mem_cons.mp h).2 t⟩

/-- The condition holds along the first part of a run. -/
theorem Every.prefix {s : σ} {as bs : List α} (h : Every step C s (as ++ bs)) :
    Every step C s as := by
  induction as generalizing s with
  | nil => exact every_nil s
  | cons a as ih => exact ⟨h.1, fun t ht => ih (h.2 t ht)⟩

/-- The condition holds along the rest of a run, from where its first part ends. -/
theorem Every.suffix {s t : σ} {as bs : List α} (h : Every step C s (as ++ bs))
    (hr : exec step s as = some t) : Every step C t bs := by
  induction as generalizing s with
  | nil =>
    rw [exec_nil, some_inj] at hr
    rwa [← hr]
  | cons a as ih =>
    obtain ⟨u, hu, hr'⟩ := exec_cons_eq_some.mp hr
    exact ih (h.2 u hu) hr'

/-- Two conditions that hold along a run hold together. -/
theorem Every.and {D : σ → α → Prop} {s : σ} {as : List α} (h : Every step C s as)
    (h' : Every step D s as) : Every step (fun s a => C s a ∧ D s a) s as := by
  induction as generalizing s with
  | nil => exact every_nil s
  | cons a as ih => exact ⟨⟨h.1, h'.1⟩, fun t ht => ih (h.2 t ht) (h'.2 t ht)⟩

theorem Every.imp {D : σ → α → Prop} {s : σ} {as : List α} (h : Every step C s as)
    (hCD : ∀ s a, C s a → D s a) : Every step D s as := by
  induction as generalizing s with
  | nil => exact every_nil s
  | cons a as ih => exact ⟨hCD s a h.1, fun t ht => ih (h.2 t ht)⟩

/-- An invariant holds along the run. -/
theorem Every.invariant {I : σ → Prop}
    (hstep : ∀ s a t, I s → C s a → step s a = some t → I t) {s : σ} {as : List α}
    (hs : I s) (hC : Every step C s as) : Every step (fun s _ => I s) s as := by
  induction as generalizing s with
  | nil => exact every_nil s
  | cons a as ih => exact ⟨hs, fun t ht => ih (hstep s a t hs hC.1 ht) (hC.2 t ht)⟩

/-- **The invariant rule.**  What holds at the start, and is kept by every step that meets `C`,
holds at the end of every run whose steps all meet `C`. -/
theorem invariant {I : σ → Prop}
    (hstep : ∀ s a t, I s → C s a → step s a = some t → I t) {s t : σ} {as : List α}
    (hs : I s) (hC : Every step C s as) (hr : exec step s as = some t) : I t := by
  induction as generalizing s with
  | nil =>
    rw [exec_nil, some_inj] at hr
    rwa [← hr]
  | cons a as ih =>
    obtain ⟨u, hu, hr'⟩ := exec_cons_eq_some.mp hr
    exact ih (hstep s a u hs hC.1 hu) (hC.2 u hu) hr'

/-- The invariant rule for what is said of a state together with the actions that led to it. -/
theorem invariant_history {I : List α → σ → Prop}
    (hstep : ∀ as s a t, I as s → C s a → step s a = some t → I (as ++ [a]) t) {s t : σ}
    {as : List α} (hs : I [] s) (hC : Every step C s as) (hr : exec step s as = some t) :
    I as t := by
  have hrun : ∀ done s, I done s → Every step C s as → exec step s as = some t →
      I (done ++ as) t := by
    clear hs hC hr
    induction as with
    | nil =>
      intro done s hs _ hr
      rw [exec_nil, some_inj] at hr
      rwa [← hr, append_nil]
    | cons a as ih =>
      intro done s hs hC hr
      obtain ⟨u, hu, hr'⟩ := exec_cons_eq_some.mp hr
      rw [append_cons]
      exact ih (done ++ [a]) u (hstep done s a u hs hC.1 hu) (hC.2 u hu) hr'
  exact hrun [] s hs hC hr

/-- A relation that is reflexive, transitive and holds across every step holds across every
run. -/
theorem monotone {R : σ → σ → Prop} (hrefl : ∀ s, R s s) (htrans : ∀ s t u, R s t → R t u → R s u)
    (hstep : ∀ s a t, C s a → step s a = some t → R s t) {s t : σ} {as : List α}
    (hC : Every step C s as) (hr : exec step s as = some t) : R s t := by
  induction as generalizing s with
  | nil =>
    rw [exec_nil, some_inj] at hr
    rw [← hr]
    exact hrefl s
  | cons a as ih =>
    obtain ⟨u, hu, hr'⟩ := exec_cons_eq_some.mp hr
    exact htrans s u t (hstep s a u hC.1 hu) (ih (hC.2 u hu) hr')

/-- A condition that is exactly what a step needs to keep `I` holds along a run just where `I` holds
after every step of it. -/
theorem every_iff_kept {I K : σ → Prop}
    (hiff : ∀ s a, K s → I s → (C s a ↔ ∀ t, step s a = some t → I t)) {s : σ} {as : List α}
    (hK : Every step (fun s _ => K s) s as) (hs : I s) :
    Every step C s as ↔ Every step (fun s a => ∀ t, step s a = some t → I t) s as := by
  induction as generalizing s with
  | nil => exact Iff.rfl
  | cons a as ih =>
    constructor
    · intro h
      have hkept := (hiff s a hK.1 hs).mp h.1
      exact ⟨hkept, fun t ht => (ih (hK.2 t ht) (hkept t ht)).mp (h.2 t ht)⟩
    · intro h
      exact ⟨(hiff s a hK.1 hs).mpr h.1, fun t ht => (ih (hK.2 t ht) (h.1 t ht)).mpr (h.2 t ht)⟩

/-- Every state of the run is related to the one it ends in. -/
theorem every_monotone {R : σ → σ → Prop} (hrefl : ∀ s, R s s)
    (htrans : ∀ s t u, R s t → R t u → R s u) (hstep : ∀ s a t, step s a = some t → R s t)
    {s t : σ} {as : List α} (hr : exec step s as = some t) :
    Every step (fun u a => ∀ v, step u a = some v → R v t) s as := by
  induction as generalizing s with
  | nil => exact every_nil s
  | cons a as ih =>
    obtain ⟨u, hu, hr'⟩ := exec_cons_eq_some.mp hr
    refine ⟨fun v hv => ?_, fun v hv => ?_⟩
    · rw [hu, some_inj] at hv
      subst hv
      exact monotone (C := fun _ _ => True) hrefl htrans (fun s a t _ h => hstep s a t h)
        (every_of_forall_mem (fun _ _ _ => trivial) _) hr'
    · rw [hu, some_inj] at hv
      subst hv
      exact ih hr'

end Library.Run
