import DdTrace.PayloadTagging.Tagging

/-!
# The names of payload tags

The name of a tag is the prefix, and a dot and the escaped key for each key of the path of its leaf.
A dot of a key is escaped by a backslash, a backslash is not.  So a key that ends in a backslash
escapes the dot behind it, and its name is read as that of one key.

* `pathText_inj`: where only the last key may end in a backslash, a path is told from its text.
* `pathText_eq_iff`: two paths have one text exactly when they are the same with their keys merged.
* `tagNames_injective_iff`: **the leaves of a payload have different names exactly when their paths
  are different with their keys merged**.
-/

open Library

namespace DdTrace.PayloadTagging

open List

variable {R : Rules} {maxDepth : ℕ}

/-- The name of the tag of a path. -/
def tagName (tagPrefix : Str) (path : List Str) : Str := tagPrefix ++ pathText path

/-! ## Reading a text -/

/-- A key that ends in a backslash. -/
def EndsInBackslash (key : Str) : Prop := key.getLast? = some (unit '\\')

instance (key : Str) : Decidable (EndsInBackslash key) := inferInstanceAs (Decidable (_ = _))

/-- What may follow a key in the text of a path. -/
def Follows (key text : Str) : Prop :=
  text = [] ∨ text.head? = some (unit '.') ∧ ¬EndsInBackslash key

theorem escapeKey_cons (u : UInt16) (key : Str) : escapeKey (u :: key) =
    (if u = unit '.' then [unit '\\', unit '.'] else [u]) ++ escapeKey key :=
  flatMap_cons

variable {key text : Str} {path : List Str} {u : UInt16}

theorem escapeKey_cons_of_ne (h : u ≠ unit '.') (key : Str) :
    escapeKey (u :: key) = u :: escapeKey key := by
  rw [escapeKey_cons, if_neg h]
  rfl

theorem escapeKey_append (key key' : Str) :
    escapeKey (key ++ key') = escapeKey key ++ escapeKey key' :=
  flatMap_append

/-- The text of a key does not begin with a dot. -/
theorem dot_cons_eq {l : Str} (h : unit '.' :: l = escapeKey key ++ text) :
    key = [] ∧ text = unit '.' :: l := by
  cases key with
  | nil => exact ⟨rfl, h.symm⟩
  | cons u key =>
    by_cases hu : u = unit '.'
    · rw [hu] at h
      exact absurd (List.cons.inj h).1 (by decide)
    · rw [escapeKey_cons_of_ne hu] at h
      exact absurd (List.cons.inj h).1.symm hu

theorem Follows.tail (h : Follows (u :: key) text) :
    Follows key text := by
  rcases h with h | ⟨hhead, hlast⟩
  · exact .inl h
  · refine .inr ⟨hhead, fun hkey => hlast ?_⟩
    unfold EndsInBackslash at hkey ⊢
    rw [getLast?_cons, hkey]
    rfl

/-- What follows an empty key is no other key. -/
theorem Follows.ne_append {key' text' : Str} (h : Follows key text) :
    text ≠ escapeKey (u :: key') ++ text' := by
  intro heq
  rcases h with h | ⟨hhead, -⟩
  · rw [h] at heq
    by_cases hu : u = unit '.'
    · rw [hu] at heq
      exact cons_ne_nil _ _ heq.symm
    · rw [escapeKey_cons_of_ne hu] at heq
      exact cons_ne_nil _ _ heq.symm
  · obtain ⟨l, rfl⟩ := head?_eq_some_iff.mp hhead
    exact cons_ne_nil _ _ (dot_cons_eq heq).1

/-- An escaped dot is no backslash at the end of a key. -/
theorem Follows.escaped_ne {l : Str} (h : Follows (u :: key) text)
    (hu : u ≠ unit '.') : unit '\\' :: unit '.' :: l ≠ escapeKey (u :: key) ++ text := by
  intro heq
  rw [escapeKey_cons_of_ne hu] at heq
  obtain ⟨rfl, hdot⟩ := List.cons.inj heq
  obtain ⟨rfl, rfl⟩ := dot_cons_eq hdot
  rcases h with h | ⟨-, hlast⟩
  · exact cons_ne_nil _ _ h
  · exact hlast rfl

/-- **A key is told** from a text that begins with it. -/
theorem escapeKey_append_inj {key' text' : Str} (h : Follows key text)
    (h' : Follows key' text') (heq : escapeKey key ++ text = escapeKey key' ++ text') :
    key = key' ∧ text = text' := by
  induction key generalizing key' with
  | nil =>
    cases key' with
    | nil => exact ⟨rfl, heq⟩
    | cons v key' => exact absurd heq h.ne_append
  | cons u key ih =>
    cases key' with
    | nil => exact absurd heq.symm h'.ne_append
    | cons v key' =>
      by_cases hu : u = unit '.'
      · subst hu
        by_cases hv : v = unit '.'
        · subst hv
          obtain ⟨rfl, rfl⟩ := ih h.tail h'.tail (List.cons.inj (List.cons.inj heq).2).2
          exact ⟨rfl, rfl⟩
        · exact absurd heq (h'.escaped_ne hv)
      · by_cases hv : v = unit '.'
        · subst hv
          exact absurd heq.symm (h.escaped_ne hu)
        · rw [escapeKey_cons_of_ne hu, escapeKey_cons_of_ne hv] at heq
          obtain ⟨rfl, htail⟩ := List.cons.inj heq
          obtain ⟨rfl, rfl⟩ := ih h.tail h'.tail htail
          exact ⟨rfl, rfl⟩

/-! ## Merged keys -/

/-- A path of which only the last key may end in a backslash. -/
def Separated : List Str → Prop
  | [] => True
  | [_] => True
  | key :: key' :: path => ¬EndsInBackslash key ∧ Separated (key' :: path)

theorem pathText_cons (key : Str) (path : List Str) :
    pathText (key :: path) = unit '.' :: (escapeKey key ++ pathText path) :=
  flatMap_cons

theorem Separated.follows (h : Separated (key :: path)) : Follows key (pathText path) := by
  cases path with
  | nil => exact .inl rfl
  | cons key' path =>
    refine .inr ⟨?_, h.1⟩
    rfl

theorem Separated.tail (h : Separated (key :: path)) :
    Separated path := by
  cases path with
  | nil => trivial
  | cons key' path => exact h.2

theorem Separated.cons (hkey : ¬EndsInBackslash key)
    (h : Separated path) : Separated (key :: path) := by
  cases path with
  | nil => trivial
  | cons key' path => exact ⟨hkey, h⟩

/-- **A separated path is told** from its text. -/
theorem pathText_inj {path' : List Str} (h : Separated path) (h' : Separated path')
    (heq : pathText path = pathText path') : path = path' := by
  induction path generalizing path' with
  | nil =>
    cases path' with
    | nil => rfl
    | cons key' path' =>
      exact absurd heq.symm (cons_ne_nil _ _)
  | cons key path ih =>
    cases path' with
    | nil =>
      exact absurd heq (cons_ne_nil _ _)
    | cons key' path' =>
      obtain ⟨rfl, htext⟩ := escapeKey_append_inj h.follows h'.follows (List.cons.inj heq).2
      rw [ih h.tail h'.tail htext]

/-- A path that begins with a key, where every key that ends in a backslash is merged with the one
behind it: a dot takes the place of the backslash. -/
def mergedFrom (key : Str) : List Str → List Str
  | [] => [key]
  | key' :: path =>
    if EndsInBackslash key then mergedFrom (key.dropLast ++ unit '.' :: key') path
    else key :: mergedFrom key' path

def merged : List Str → List Str
  | [] => []
  | key :: path => mergedFrom key path

theorem separated_mergedFrom (key : Str) (path : List Str) : Separated (mergedFrom key path) := by
  induction path generalizing key with
  | nil => trivial
  | cons key' path ih =>
    rw [mergedFrom]
    by_cases hkey : EndsInBackslash key
    · rw [if_pos hkey]
      exact ih _
    · rw [if_neg hkey]
      exact (ih key').cons hkey

/-- A backslash at the end of a key escapes the dot behind it. -/
theorem escapeKey_merge (h : EndsInBackslash key) (key' : Str) :
    escapeKey (key.dropLast ++ unit '.' :: key') =
      escapeKey key ++ unit '.' :: escapeKey key' := by
  have hkey : key = key.dropLast ++ [unit '\\'] := by
    obtain ⟨hne, hlast⟩ := getLast?_eq_some_iff.mp h
    rw [hlast, dropLast_concat]
  have hlast : escapeKey key = escapeKey key.dropLast ++ [unit '\\'] := by
    rw [congrArg escapeKey hkey, escapeKey_append]
    rfl
  rw [escapeKey_append, hlast, append_assoc]
  rfl

theorem pathText_mergedFrom (key : Str) (path : List Str) :
    pathText (mergedFrom key path) = pathText (key :: path) := by
  induction path generalizing key with
  | nil => rfl
  | cons key' path ih =>
    rw [mergedFrom]
    by_cases hkey : EndsInBackslash key
    · rw [if_pos hkey, ih, pathText_cons, escapeKey_merge hkey, append_assoc]
      rfl
    · rw [if_neg hkey, pathText_cons, ih, ← pathText_cons]

/-- **Two paths have one text** exactly when they are the same with their keys merged. -/
theorem pathText_eq_iff {path' : List Str} :
    pathText path = pathText path' ↔ merged path = merged path' := by
  have hseparated : ∀ path, Separated (merged path) := by
    intro path
    cases path with
    | nil => trivial
    | cons key path => exact separated_mergedFrom key path
  have htext : ∀ path, pathText (merged path) = pathText path := by
    intro path
    cases path with
    | nil => rfl
    | cons key path => exact pathText_mergedFrom key path
  rw [← htext path, ← htext path']
  exact ⟨pathText_inj (hseparated path) (hseparated path'), congrArg pathText⟩

/-! ## The names of the tags -/

/-- **The names of the leaves** of a payload are different exactly when their paths are, with their
keys merged. -/
theorem tagNames_injective_iff (R : Rules) (maxDepth : ℕ) (tagPrefix : Str) (object : Payload) :
    (∀ l ∈ leaves R maxDepth 0 object, ∀ l' ∈ leaves R maxDepth 0 object, l.1 ≠ l'.1 →
        tagName tagPrefix l.1 ≠ tagName tagPrefix l'.1) ↔
      ∀ l ∈ leaves R maxDepth 0 object, ∀ l' ∈ leaves R maxDepth 0 object, l.1 ≠ l'.1 →
        merged l.1 ≠ merged l'.1 := by
  have hname : ∀ path path', tagName tagPrefix path = tagName tagPrefix path' ↔
      merged path = merged path' := by
    intro path path'
    unfold tagName
    rw [append_cancel_left_eq, pathText_eq_iff]
  simp only [ne_eq, hname]

/-- A key that ends in a backslash, and one with a dot. -/
def colliding : Payload :=
  .object [(lit "a\\", .object [(lit "b", .null)]), (lit "a.b", .undefined)]

/-- **Two leaves with one name**, of which one tag is left. -/
theorem not_tagNames_injective_colliding :
    (¬∀ l ∈ leaves sourceRules 10 0 colliding, ∀ l' ∈ leaves sourceRules 10 0 colliding,
      l.1 ≠ l'.1 → tagName (lit "p") l.1 ≠ tagName (lit "p") l'.1) ∧
    (tagsFromObject sourceRules 10 (lit "p") colliding).entries =
      [(lit "p.a\\.b", .text (lit "undefined"))] := by
  constructor
  · decide
  · decide

end DdTrace.PayloadTagging
