import DdTrace.Library.Json
import DdTrace.Library.OrderedMap

/-!
# Strings within a JSON value

A string of a value is found by a path of keys and indices, and is replaced by another one in place.

* `stringAt_put`: **a string that is replaced is the only one that changes**.
* `put_comm`: replacements along paths of which neither leads through the other can be made in any
  order.
* `stringAt_foldl_put`: of several replacements at one place the last one stays.
-/

namespace Library.Json

open List Option

/-- A key of an object or an index of an array. -/
inductive Step where
  | key (name : Str)
  | index (i : ℕ)
deriving DecidableEq

/-- The value that a step leads to. -/
def child : Json → Step → Option Json
  | .obj members, .key name => member name members
  | .arr items, .index i => items[i]?
  | _, _ => none

/-- The string at the end of a path. -/
def stringAt : List Step → Json → Option Str
  | [], .str s => some s
  | [], _ => none
  | step :: steps, v => (child v step).bind (stringAt steps)

/-- The member with the key, replaced. -/
def modifyMember (name : Str) (f : Json → Json) : List (Str × Json) → List (Str × Json)
  | [] => []
  | m :: members =>
    if m.1 = name then (m.1, f m.2) :: members else m :: modifyMember name f members

/-- The value that a step leads to, replaced. -/
def modifyChild (f : Json → Json) : Json → Step → Json
  | .obj members, .key name => .obj (modifyMember name f members)
  | .arr items, .index i => .arr (items.modify i f)
  | v, _ => v

/-- The value with a string at the end of a path. -/
def put (s : Str) : List Step → Json → Json
  | [], _ => .str s
  | step :: steps, v => modifyChild (put s steps) v step

variable {v : Json} {step step' : Step} {f g : Json → Json}

theorem member_modifyMember (name key : Str) (f : Json → Json) (members : List (Str × Json)) :
    member key (modifyMember name f members) =
      if key = name then (member key members).map f else member key members := by
  induction members with
  | nil => split <;> rfl
  | cons m members ih =>
    rw [modifyMember]
    split_ifs with hm hkey hkey
    · rw [member, member, if_pos (hm.trans hkey.symm), if_pos (hm.trans hkey.symm), map_some]
    · rw [member, member, if_neg fun h => hkey (h.symm.trans hm),
        if_neg fun h => hkey (h.symm.trans hm)]
    · rw [member, member, ih, if_pos hkey, if_neg fun h => hm (h.trans hkey)]
      rw [if_neg fun h => hm (h.trans hkey)]
    · rw [member, member, ih, if_neg hkey]

theorem child_modifyChild (f : Json → Json) (v : Json) (step step' : Step) :
    child (modifyChild f v step) step' =
      if step' = step then (child v step').map f else child v step' := by
  cases v <;> cases step <;> cases step' <;>
    simp [modifyChild, child, member_modifyMember, getElem?_modify, eq_comm]
  split <;> simp_all

/-- **A string that is replaced is the only one that changes.** -/
theorem stringAt_put {steps : List Step} {t : Str} (h : stringAt steps v = some t) (s : Str)
    (q : List Step) : stringAt q (put s steps v) = if q = steps then some s else stringAt q v := by
  induction steps generalizing v q with
  | nil =>
    cases v with
    | str t' =>
      cases q with
      | nil => rfl
      | cons step q => rfl
    | null | bool | num | arr | obj => cases h
  | cons step steps ih =>
    obtain ⟨w, hw, ht⟩ := bind_eq_some_iff.mp h
    cases q with
    | nil =>
      rw [put, if_neg (cons_ne_nil _ _).symm]
      cases v <;> cases step <;> rfl
    | cons step' q =>
      rw [put, stringAt, child_modifyChild, stringAt]
      by_cases hstep : step' = step
      · subst hstep
        rw [if_pos rfl, hw, map_some, bind_some, bind_some, ih ht]
        simp only [cons.injEq, true_and]
      · rw [if_neg hstep, if_neg fun he => hstep (cons.inj he).1]

theorem modifyMember_comm {name name' : Str} (h : name ≠ name') (members : List (Str × Json)) :
    modifyMember name f (modifyMember name' g members) =
      modifyMember name' g (modifyMember name f members) := by
  induction members with
  | nil => rfl
  | cons m members ih => grind [modifyMember]

theorem modifyMember_modifyMember (name : Str) (members : List (Str × Json)) :
    modifyMember name f (modifyMember name g members) =
      modifyMember name (fun v => f (g v)) members := by
  induction members with
  | nil => rfl
  | cons m members ih => grind [modifyMember]

theorem modifyChild_comm (h : step ≠ step') (v : Json) :
    modifyChild f (modifyChild g v step') step = modifyChild g (modifyChild f v step) step' := by
  cases step with
  | key name =>
    cases step' with
    | key name' =>
      cases v <;> try rfl
      exact congrArg Json.obj (modifyMember_comm (fun he => h (congrArg Step.key he)) _)
    | index i => cases v <;> rfl
  | index i =>
    cases step' with
    | key name => cases v <;> rfl
    | index j =>
      cases v <;> try rfl
      exact congrArg Json.arr (modify_modify_ne g f _ fun he => h (congrArg Step.index he.symm))

theorem modifyChild_modifyChild (v : Json) :
    modifyChild f (modifyChild g v step) step = modifyChild (fun w => f (g w)) v step := by
  cases step with
  | key name =>
    cases v <;> try rfl
    exact congrArg Json.obj (modifyMember_modifyMember name _)
  | index i =>
    cases v <;> try rfl
    exact congrArg Json.arr (modify_modify_eq g f i _)

/-- **Replacements that are not in each other's way** can be made in any order. -/
theorem put_comm {p q : List Step} (hp : ¬p <+: q) (hq : ¬q <+: p) (s t : Str) (v : Json) :
    put s p (put t q v) = put t q (put s p v) := by
  induction p generalizing q v with
  | nil => exact absurd ( nil_prefix) hp
  | cons step p ih =>
    cases q with
    | nil => exact absurd ( nil_prefix) hq
    | cons step' q =>
      rw [put, put, put, put]
      by_cases hstep : step = step'
      · subst hstep
        rw [prefix_cons_inj] at hp hq
        rw [modifyChild_modifyChild, modifyChild_modifyChild]
        exact congrArg (modifyChild · v step) (funext fun w => ih hp hq w)
      · exact modifyChild_comm hstep v

/-- Where there is a string, no longer path leads. -/
theorem eq_of_isPrefix {p q : List Step} (h : p <+: q) (hp : (stringAt p v).isSome = true)
    (hq : (stringAt q v).isSome = true) : p = q := by
  induction p generalizing q v with
  | nil =>
    cases v with
    | str t =>
      cases q with
      | nil => rfl
      | cons step q => cases hq
    | null | bool | num | arr | obj => cases hp
  | cons step p ih =>
    obtain ⟨rest, rfl⟩ := h
    rw [cons_append, stringAt] at hq
    rw [stringAt] at hp
    cases hw : child v step with
    | none =>
      rw [hw] at hp
      cases hp
    | some w =>
      rw [hw] at hp hq
      rw [cons_append, cons.injEq]
      exact ⟨rfl, ih (prefix_append p rest) hp hq⟩

/-- **Of several replacements at one place the last one stays.** -/
theorem stringAt_foldl_put {targets : List (List Step × Str)}
    (h : ∀ target ∈ targets, (stringAt target.1 v).isSome = true) (q : List Step) :
    stringAt q (targets.foldl (fun v target => put target.2 target.1 v) v) =
      (OrderedMap.lastValue targets q).or (stringAt q v) := by
  induction targets generalizing v with
  | nil => rfl
  | cons target targets ih =>
    obtain ⟨t, ht⟩ := isSome_iff_exists.mp (h target mem_cons_self)
    rw [foldl_cons, ih, stringAt_put ht, OrderedMap.lastValue]
    · by_cases hq : q = target.1
      · rw [if_pos hq, if_pos hq.symm, Option.or_assoc, some_or]
      · rw [if_neg hq, if_neg (Ne.symm hq), or_none]
    · intro target' hmem
      rw [stringAt_put ht]
      split
      · rfl
      · exact h target' (mem_cons_of_mem _ hmem)

end Library.Json
