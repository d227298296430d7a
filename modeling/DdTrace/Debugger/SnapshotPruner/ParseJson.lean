import DdTrace.Library.JsonSyntax
import DdTrace.Library.Substring

/-!
# The tree of a snapshot's text

Before a snapshot is pruned its text is scanned once, by hand: strings are skipped with their
escapes, an opening brace opens a node below the one that is open, and a closing brace closes it.
A node knows where its object starts and ends in the text, how many objects it lies in, and the
nodes that lie directly in it.  Where a text has several outermost objects, in an array, the last
of them is the root.

* `parseJsonToTree_eq`: of a JSON text the scan makes exactly the nodes of its objects, in the
  order in which they open; only their flags are left open here.
* `parseJsonToTree_document`: in particular it does not fail on a JSON text.  The scan would, if
  the name `notCapturedReason` stood outside all objects in front of another string.
-/

namespace DdTrace.Debugger.SnapshotPruner

open Library List Option
open Library.JsonSyntax

/-- A node.  The nodes of a text stand in one list, and a node is named by its place in it. -/
structure TreeNode where
  start : ℕ
  level : ℕ
  parent : Option ℕ
  /-- `end`, which is −1 as long as the object is open. -/
  close : Option ℕ := none
  children : List ℕ := []
  notCapturedDepth : Bool := false
  notCaptured : Bool := false

/-- The state of the scan; the innermost open node comes first on the stack. -/
structure Parser where
  nodes : List TreeNode := []
  stack : List ℕ := []
  root : Option ℕ := none
  depth : ℕ := 0

/-- How many units there are up to the closing quote.  A backslash counts for the unit that it
escapes too, even where the text ends in between. -/
def skipString : Str → ℕ
  | [] => 0
  | [c] => if c = unit '\\' then 2 else if c = unit '"' then 0 else 1
  | c :: d :: rest =>
    if c = unit '\\' then 2 + skipString rest
    else if c = unit '"' then 0
    else 1 + skipString (d :: rest)

/-- White space and colons. -/
def isAhead (c : UInt16) : Bool := c = 32 || c = 9 || c = 10 || c = 13 || c = 58

namespace TreeNode

/-- What the node's object holds was not captured, for this reason. -/
def flag (reason : Str) (node : TreeNode) : TreeNode :=
  { node with
    notCaptured := true
    notCapturedDepth := node.notCapturedDepth || reason = lit "depth" }

def adopt (ids : List ℕ) (node : TreeNode) : TreeNode :=
  { node with children := node.children ++ ids }

def closeAt (index : ℕ) (node : TreeNode) : TreeNode := { node with close := some index }

end TreeNode

namespace Parser

/-- The node that is open is not captured. -/
def flag (p : Parser) (reason : Str) : Option Parser :=
  match p.stack with
  | [] => none
  | top :: _ => some { p with nodes := p.nodes.modify top (TreeNode.flag reason) }

/-- What is done about a string of this length, with which the rest of the text begins. -/
def readString (p : Parser) (rest : Str) (stringLength : ℕ) : Option Parser :=
  if stringLength = 17 ∧ rest.take 17 = lit "notCapturedReason" then
    match (rest.drop (stringLength + 1)).dropWhile isAhead with
    | c :: value => if c = unit '"' then p.flag (value.take (skipString value)) else some p
    | [] => some p
  else some p

def openNode (p : Parser) (index : ℕ) : Parser :=
  let node : TreeNode := { start := index, level := p.depth, parent := p.stack.head? }
  let id := p.nodes.length
  match p.stack with
  | [] =>
    { nodes := p.nodes ++ [node], stack := [id], root := some id, depth := p.depth + 1 }
  | parent :: _ =>
    { p with
      nodes := p.nodes.modify parent (TreeNode.adopt [id]) ++ [node]
      stack := id :: p.stack
      depth := p.depth + 1 }

def closeNode (p : Parser) (index : ℕ) : Option Parser :=
  match p.stack with
  | [] => none
  | top :: stack =>
    some { p with
      nodes := p.nodes.modify top (TreeNode.closeAt index)
      stack := stack
      depth := p.depth - 1 }

end Parser

/-- The loop over the text.  Its `index` jumps over a string: so many units are to be skipped. -/
def scan : ℕ → ℕ → Str → Parser → Option Parser
  | _, _, [], p => some p
  | index, skip + 1, _ :: rest, p => scan (index + 1) skip rest p
  | index, 0, c :: rest, p =>
    if c = unit '"' then
      (p.readString rest (skipString rest)).bind (scan (index + 1) (skipString rest + 1) rest)
    else if c = unit '{' then scan (index + 1) 0 rest (p.openNode index)
    else if c = unit '}' then (p.closeNode index).bind (scan (index + 1) 0 rest)
    else scan (index + 1) 0 rest p

def parseJsonToTree (json : Str) : Option Parser := scan 0 0 json {}

/-! ## What the scan should find -/

/-- A node without its flags. -/
def TreeNode.unflagged (node : TreeNode) : TreeNode :=
  { node with notCapturedDepth := false, notCaptured := false }

theorem TreeNode.unflagged_flag (reason : Str) (node : TreeNode) :
    (TreeNode.flag reason node).unflagged = id node.unflagged := rfl

theorem TreeNode.unflagged_adopt (ids : List ℕ) (node : TreeNode) :
    (TreeNode.adopt ids node).unflagged = TreeNode.adopt ids node.unflagged := rfl

theorem TreeNode.unflagged_closeAt (index : ℕ) (node : TreeNode) :
    (TreeNode.closeAt index node).unflagged = TreeNode.closeAt index node.unflagged := rfl

/-- The outermost objects of a forest, when the first one has the number `n`. -/
def roots (n : ℕ) : Forest → List ℕ
  | .nil => []
  | .unit _ rest => roots n rest
  | .text _ rest => roots n rest
  | .braces inside rest => n :: roots (n + 1 + inside.count) rest

/-- The nodes of a forest that starts at `pos` of the text, in so many objects, with the first
of its nodes at `n`. -/
def nodeTable (pos level n : ℕ) (parent : Option ℕ) : Forest → List TreeNode
  | .nil => []
  | .unit _ rest => nodeTable (pos + 1) level n parent rest
  | .text s rest => nodeTable (pos + s.text.length + 2) level n parent rest
  | .braces inside rest =>
    { start := pos
      level := level
      parent := parent
      close := some (pos + inside.render.length + 1)
      children := roots (n + 1) inside } ::
      (nodeTable (pos + 1) (level + 1) (n + 1) (some n) inside ++
        nodeTable (pos + inside.render.length + 2) level (n + 1 + inside.count) parent rest)

/-- The last of the outermost objects. -/
def lastRoot (n : ℕ) (f : Forest) : Option ℕ := (roots n f).getLast?

/-- A string comes next, after white space and colons. -/
def quoteAhead (s : Str) : Bool := (s.dropWhile isAhead).head? = some (unit '"')

/-- Outside all objects no string stands in front of another, with only white space and colons
in between. -/
def Calm : Forest → Str → Prop
  | .nil, _ => True
  | .unit _ rest, tail => Calm rest tail
  | .text _ rest, tail => quoteAhead (rest.render ++ tail) = false ∧ Calm rest tail
  | .braces _ rest, tail => Calm rest tail

theorem calm_append {f g : Forest} {tail : Str} :
    Calm (f ++ g) tail ↔ Calm f (g.render ++ tail) ∧ Calm g tail := by
  induction f with
  | nil => simp [Calm]
  | unit c f ih => exact ih
  | text s f ih =>
    rw [Forest.text_append, Calm, Calm, ih, Forest.render_append, append_assoc, and_assoc]
  | braces i f _ ih => exact ih

@[simp] theorem length_nodeTable (pos level n : ℕ) (parent : Option ℕ) (f : Forest) :
    (nodeTable pos level n parent f).length = f.count := by
  induction f generalizing pos level n parent with
  | nil => rfl
  | unit c f ih | text s f ih => exact ih ..
  | braces i f ihi ih =>
    rw [nodeTable, length_cons, length_append, ihi, ih, Forest.count]
    omega

/-! ## Strings are skipped -/

theorem skipString_plain {c : UInt16} (hc : c ≠ unit '"' ∧ c ≠ unit '\\') (d : UInt16)
    (rest : Str) :
    skipString (c :: d :: rest) = 1 + skipString (d :: rest) := by
  rw [skipString, if_neg hc.2, if_neg hc.1]

theorem skipString_escape (d : UInt16) (rest : Str) :
    skipString (unit '\\' :: d :: rest) = 2 + skipString rest := by
  rw [skipString, if_pos rfl]

theorem HexDigit.ne (d : HexDigit) : d.1 ≠ unit '"' ∧ d.1 ≠ unit '\\' := by
  constructor
  all_goals
    intro h
    exact absurd (h ▸ d.2) (by decide)

/-- **A string ends at its closing quote.** -/
theorem skipString_body (s : Body) (tail : Str) :
    skipString (s.text ++ unit '"' :: tail) = s.text.length := by
  induction s with
  | nil => cases tail <;> rfl
  | cons c s ih =>
    obtain ⟨d, rest, hd⟩ : ∃ d rest, Body.text s ++ unit '"' :: tail = d :: rest := by
      rcases Body.text s with _ | ⟨d, l⟩
      · exact ⟨_, _, rfl⟩
      · exact ⟨d, _, rfl⟩
    have htext : Body.text (c :: s) = c.text ++ Body.text s := rfl
    rw [htext, length_append]
    cases c with
    | plain c h =>
      show skipString (c :: (Body.text s ++ unit '"' :: tail)) = 1 + (Body.text s).length
      rw [← ih, hd, skipString_plain ⟨h.1, h.2.1⟩]
    | escape c h =>
      show skipString (unit '\\' :: c :: (Body.text s ++ unit '"' :: tail)) =
        2 + (Body.text s).length
      rw [skipString_escape, ih]
    | number a b c' d' =>
      show skipString (unit '\\' :: unit 'u' :: a.1 :: b.1 :: c'.1 :: d'.1 ::
        (Body.text s ++ unit '"' :: tail)) = 6 + (Body.text s).length
      rw [skipString_escape, skipString_plain (HexDigit.ne a), skipString_plain (HexDigit.ne b),
        skipString_plain (HexDigit.ne c'), ← ih, hd, skipString_plain (HexDigit.ne d')]
      omega

/-- What is to be skipped is skipped. -/
theorem scan_append (index : ℕ) (s tail : Str) (p : Parser) :
    scan index s.length (s ++ tail) p = scan (index + s.length) 0 tail p := by
  induction s generalizing index with
  | nil => rfl
  | cons c s ih =>
    show scan (index + 1) s.length (s ++ tail) p = _
    rw [ih, length_cons, Nat.add_assoc, Nat.add_comm 1]

/-! ## The scan of a forest -/

theorem map_modify {α β : Type*} {f : α → β} {g : α → α} {g' : β → β} (h : ∀ a, f (g a) = g' (f a))
    (l : List α) (i : ℕ) : (l.modify i g).map f = (l.map f).modify i g' := by
  induction l generalizing i with
  | nil => simp
  | cons a l ih =>
    cases i with
    | zero => simp [h]
    | succ i => simp [ih]

variable {p : Parser} {i : ℕ}

theorem modify_append_left {α : Type*} (g : α → α) {l : List α} (m : List α) (h : i < l.length) :
    (l ++ m).modify i g = l.modify i g ++ m := by
  induction l generalizing i with
  | nil => cases h
  | cons a l ih =>
    cases i with
    | zero => rfl
    | succ i =>
      rw [cons_append, modify_succ_cons, modify_succ_cons, cons_append,
        ih (Nat.lt_of_succ_lt_succ h)]

theorem modify_append_length {α : Type*} (g : α → α) (l : List α) (a : α) (m : List α) :
    (l ++ a :: m).modify l.length g = l ++ g a :: m := by
  induction l with
  | nil => rfl
  | cons b l ih =>
    rw [cons_append, length_cons, modify_succ_cons, ih, cons_append]

/-- More children for the node that is open. -/
def attach (parent : Option ℕ) (ids : List ℕ) (nodes : List TreeNode) : List TreeNode :=
  parent.elim nodes fun q => nodes.modify q (TreeNode.adopt ids)

@[simp] theorem length_attach (parent : Option ℕ) (ids : List ℕ) (nodes : List TreeNode) :
    (attach parent ids nodes).length = nodes.length := by
  cases parent with
  | none => rfl
  | some q => exact length_modify _ nodes q

theorem attach_nil (parent : Option ℕ) (nodes : List TreeNode) :
    attach parent [] nodes = nodes := by
  cases parent with
  | none => rfl
  | some q =>
    have hid : TreeNode.adopt [] = id := by
      funext node
      simp [TreeNode.adopt]
    rw [attach, elim_some, hid, modify_id]

theorem attach_attach (parent : Option ℕ) (ids ids' : List ℕ) (nodes : List TreeNode) :
    attach parent ids' (attach parent ids nodes) = attach parent (ids ++ ids') nodes := by
  cases parent with
  | none => rfl
  | some q =>
    rw [attach, attach, attach, elim_some, elim_some, modify_modify_eq]
    congr 1
    funext node
    simp [TreeNode.adopt]

theorem attach_append {parent : Option ℕ} {nodes : List TreeNode}
    (h : ∀ q ∈ parent, q < nodes.length) (ids : List ℕ) (more : List TreeNode) :
    attach parent ids (nodes ++ more) = attach parent ids nodes ++ more := by
  cases parent with
  | none => rfl
  | some q => exact modify_append_left _ more (h q rfl)

/-- What the scan has done when it has read a forest. -/
structure Reads (pos : ℕ) (f : Forest) (p q : Parser) : Prop where
  stack : q.stack = p.stack
  depth : q.depth = p.depth
  root : q.root = if p.stack = [] then (lastRoot p.nodes.length f).or p.root else p.root
  nodes : q.nodes.map TreeNode.unflagged =
    attach p.stack.head? (roots p.nodes.length f) (p.nodes.map TreeNode.unflagged) ++
      nodeTable pos p.depth p.nodes.length p.stack.head? f

/-- A parser that differs in its flags only. -/
structure SameNodes (p q : Parser) : Prop where
  stack : q.stack = p.stack
  depth : q.depth = p.depth
  root : q.root = p.root
  nodes : q.nodes.map TreeNode.unflagged = p.nodes.map TreeNode.unflagged

theorem SameNodes.refl (p : Parser) : SameNodes p p := ⟨rfl, rfl, rfl, rfl⟩

theorem SameNodes.length_eq {q : Parser} (h : SameNodes p q) :
    q.nodes.length = p.nodes.length := by
  have hlen := congrArg List.length h.nodes
  rwa [length_map, length_map] at hlen

/-- A flag can be set where an object is open. -/
theorem exists_flag (h : p.stack ≠ []) (reason : Str) :
    ∃ q, p.flag reason = some q ∧ SameNodes p q := by
  unfold Parser.flag
  rcases hstack : p.stack with _ | ⟨top, rest⟩
  · exact absurd hstack h
  · refine ⟨_, rfl, hstack.symm, rfl, rfl, ?_⟩
    exact (map_modify (TreeNode.unflagged_flag reason) p.nodes top).trans (modify_id top _)

/-- A string sets flags at most, and does not fail where no other string comes next. -/
theorem exists_readString (rest : Str) (n : ℕ)
    (h : p.stack = [] → quoteAhead (rest.drop (n + 1)) = false) :
    ∃ q, p.readString rest n = some q ∧ SameNodes p q := by
  unfold Parser.readString
  by_cases hname : n = 17 ∧ rest.take 17 = lit "notCapturedReason"
  · rw [if_pos hname]
    rcases hahead : (rest.drop (n + 1)).dropWhile isAhead with _ | ⟨c, value⟩
    · exact ⟨p, rfl, .refl p⟩
    · by_cases hc : c = unit '"'
      · have hopen : p.stack ≠ [] := by
          intro hnil
          have hquote := h hnil
          rw [quoteAhead, hahead, hc] at hquote
          simp at hquote
        simpa only [if_pos hc] using exists_flag hopen _
      · exact ⟨p, by simp only [if_neg hc], .refl p⟩
  · rw [if_neg hname]
    exact ⟨p, rfl, .refl p⟩

theorem Reads.of_same {pos pos' : ℕ} {f f' : Forest} {p' q : Parser} (hp : SameNodes p p')
    (h : Reads pos' f p' q) (hroots : roots p.nodes.length f = roots p.nodes.length f')
    (htable : nodeTable pos' p.depth p.nodes.length p.stack.head? f =
      nodeTable pos p.depth p.nodes.length p.stack.head? f') : Reads pos f' p q := by
  constructor
  · rw [h.stack, hp.stack]
  · rw [h.depth, hp.depth]
  · rw [h.root, hp.stack, hp.root, hp.length_eq, lastRoot, lastRoot, hroots]
  · rw [h.nodes, hp.stack, hp.depth, hp.length_eq, hp.nodes, hroots, htable]

/-- The parser right after an opening brace. -/
theorem unflagged_openNode (p : Parser) (index : ℕ) :
    (p.openNode index).nodes.map TreeNode.unflagged =
      attach p.stack.head? [p.nodes.length] (p.nodes.map TreeNode.unflagged) ++
        [{ start := index, level := p.depth, parent := p.stack.head? }] := by
  unfold Parser.openNode
  rcases p.stack with _ | ⟨top, rest⟩
  · rw [map_append]
    rfl
  · rw [map_append, map_modify (TreeNode.unflagged_adopt _)]
    rfl

theorem openNode_stack (p : Parser) (index : ℕ) :
    (p.openNode index).stack = p.nodes.length :: p.stack := by
  unfold Parser.openNode
  rcases hstack : p.stack with _ | ⟨top, rest⟩ <;> rfl

theorem openNode_depth (p : Parser) (index : ℕ) : (p.openNode index).depth = p.depth + 1 := by
  unfold Parser.openNode
  rcases p.stack with _ | ⟨top, rest⟩ <;> rfl

theorem openNode_root (p : Parser) (index : ℕ) :
    (p.openNode index).root = if p.stack = [] then some p.nodes.length else p.root := by
  unfold Parser.openNode
  rcases p.stack with _ | ⟨top, rest⟩ <;> rfl

theorem length_openNode (p : Parser) (index : ℕ) :
    (p.openNode index).nodes.length = p.nodes.length + 1 := by
  unfold Parser.openNode
  rcases p.stack with _ | ⟨top, rest⟩
  · simp
  · simp

/-- **What stands between two braces is read into the node that the first of them opens, and
the second closes it.** -/
theorem exists_closeNode {pos : ℕ} {inside : Forest} {q : Parser}
    (h : Reads (pos + 1) inside (p.openNode pos) q) :
    ∃ q', q.closeNode (pos + inside.render.length + 1) = some q' ∧
      q'.stack = p.stack ∧ q'.depth = p.depth ∧
      q'.root = (if p.stack = [] then some p.nodes.length else p.root) ∧
      q'.nodes.map TreeNode.unflagged =
        attach p.stack.head? [p.nodes.length] (p.nodes.map TreeNode.unflagged) ++
          { start := pos, level := p.depth, parent := p.stack.head?,
            close := some (pos + inside.render.length + 1),
            children := roots (p.nodes.length + 1) inside } ::
          nodeTable (pos + 1) (p.depth + 1) (p.nodes.length + 1) (some p.nodes.length) inside := by
  have hstack : q.stack = p.nodes.length :: p.stack := by rw [h.stack, openNode_stack]
  have hnodes := h.nodes
  rw [openNode_stack, openNode_depth, length_openNode, unflagged_openNode,
    List.head?_cons] at hnodes
  set before := attach p.stack.head? [p.nodes.length] (p.nodes.map TreeNode.unflagged)
    with hbefore
  have hlen : p.nodes.length = before.length := by rw [length_attach, length_map]
  refine ⟨{ q with
    nodes := q.nodes.modify p.nodes.length
      (TreeNode.closeAt (pos + inside.render.length + 1)),
    stack := p.stack, depth := q.depth - 1 }, by rw [Parser.closeNode, hstack], rfl, ?_, ?_, ?_⟩
  · rw [h.depth, openNode_depth, Nat.add_sub_cancel]
  · rw [h.root, openNode_stack, if_neg (cons_ne_nil _ _), openNode_root]
  · rw [map_modify (TreeNode.unflagged_closeAt _), hnodes, attach, elim_some]
    conv_lhs => rw [hlen]
    rw [modify_append_length, append_assoc, singleton_append, modify_append_length, ← hlen]
    rfl

/-- **The scan of a forest** adds its nodes, and the outermost of them to the node that is open. -/
theorem exists_scan (f : Forest) (pos : ℕ) (p : Parser) (tail : Str)
    (hopen : ∀ q ∈ p.stack.head?, q < p.nodes.length) (hcalm : p.stack = [] → Calm f tail) :
    ∃ q, Reads pos f p q ∧
      scan pos 0 (f.render ++ tail) p = scan (pos + f.render.length) 0 tail q := by
  induction f generalizing pos p tail with
  | nil =>
    refine ⟨p, ⟨rfl, rfl, ?_, ?_⟩, rfl⟩
    · rw [lastRoot, roots, List.getLast?_nil, none_or, ite_self]
    · rw [roots, attach_nil, nodeTable, append_nil]
  | unit c f ih =>
    obtain ⟨q, hq, hscan⟩ := ih (pos + 1) p tail hopen hcalm
    refine ⟨q, hq.of_same (.refl p) rfl rfl, ?_⟩
    rw [Forest.render, cons_append, scan, if_neg c.2.2.1, if_neg c.2.2.2.1,
      if_neg c.2.2.2.2, hscan, length_cons, Nat.add_right_comm, Nat.add_assoc]
  | text s f ih =>
    have hskip : skipString (s.text ++ unit '"' :: (f.render ++ tail)) = s.text.length :=
      skipString_body s _
    have hafter : (s.text ++ unit '"' :: (f.render ++ tail)).drop (s.text.length + 1) =
        f.render ++ tail := by
      rw [← drop_drop, drop_left]
      rfl
    obtain ⟨p', hread, hsame⟩ := exists_readString (p := p)
      (s.text ++ unit '"' :: (f.render ++ tail)) s.text.length
      fun hnil => by rw [hafter]; exact (hcalm hnil).1
    obtain ⟨q, hq, hscan⟩ := ih (pos + s.text.length + 2) p' tail
      (by rw [hsame.stack, hsame.length_eq]; exact hopen)
      (by rw [hsame.stack]; exact fun hnil => (hcalm hnil).2)
    refine ⟨q, hq.of_same hsame rfl rfl, ?_⟩
    have hunits : s.text ++ unit '"' :: (f.render ++ tail) =
        (s.text ++ [unit '"']) ++ (f.render ++ tail) := by simp
    have hlen : s.text.length + 1 = (s.text ++ [unit '"']).length := by simp
    rw [Forest.render, cons_append, append_assoc, cons_append, scan,
      if_pos rfl, hskip, hread, bind_some, hunits, hlen, scan_append]
    rw [← hlen]
    have hstart : pos + 1 + (s.text.length + 1) = pos + s.text.length + 2 := by omega
    rw [hstart, hscan]
    congr 1
    simp
    omega
  | braces inside f ihi ih =>
    obtain ⟨q₁, hq₁, hscan₁⟩ := ihi (pos + 1) (p.openNode pos) (unit '}' :: (f.render ++ tail))
      (by
        rw [openNode_stack, length_openNode]
        intro q hq
        obtain rfl : p.nodes.length = q := some.inj hq
        exact Nat.lt_succ_self _)
      (by
        rw [openNode_stack]
        exact fun hnil => absurd hnil (cons_ne_nil _ _))
    obtain ⟨q₂, hclose, hstack, hdepth, hroot, hnodes⟩ := exists_closeNode hq₁
    have hlen : q₂.nodes.length = p.nodes.length + 1 + inside.count := by
      have hlen := congrArg List.length hnodes
      rw [length_map, length_append, length_attach, length_map, length_cons,
        length_nodeTable] at hlen
      omega
    obtain ⟨q, hq, hscan⟩ := ih (pos + inside.render.length + 2) q₂ tail
      (by
        rw [hstack]
        intro r hr
        exact (hopen r hr).trans_le (by omega))
      (by rw [hstack]; exact hcalm)
    refine ⟨q, ⟨by rw [hq.stack, hstack], by rw [hq.depth, hdepth], ?_, ?_⟩, ?_⟩
    · rw [hq.root, hstack, hroot, hlen]
      by_cases hnil : p.stack = []
      · rw [if_pos hnil, if_pos hnil, if_pos hnil, lastRoot, lastRoot, roots, List.getLast?_cons]
        rcases (roots (p.nodes.length + 1 + inside.count) f).getLast? with _ | r <;> rfl
      · rw [if_neg hnil, if_neg hnil, if_neg hnil]
    · rw [hq.nodes, hstack, hdepth, hlen, hnodes, attach_append, attach_attach,
        singleton_append, roots, nodeTable, append_assoc, cons_append]
      rw [length_attach, length_map]
      exact hopen
    · rw [Forest.render, cons_append, append_assoc, cons_append, scan,
        if_neg (by decide), if_pos rfl, hscan₁, scan, if_neg (by decide), if_neg (by decide),
        if_pos rfl]
      have hpos : pos + 1 + inside.render.length = pos + inside.render.length + 1 := by omega
      rw [hpos, hclose, bind_some, hscan]
      congr 1
      simp
      omega

/-! ## JSON texts -/

theorem calm_ofUnits (l : List Neutral) (tail : Str) : Calm (.ofUnits l) tail := by
  induction l with
  | nil => trivial
  | cons c l ih => exact ih

theorem quoteAhead_of_neutral {c : UInt16} (h : isAhead c = false ∧ c ≠ unit '"') (s : Str) :
    quoteAhead (c :: s) = false := by
  simp [quoteAhead, h.1, h.2]

theorem quoteAhead_space (ws : Space) (s : Str) :
    quoteAhead (ws.forest.render ++ s) = quoteAhead s := by
  induction ws with
  | nil => rfl
  | cons b ws ih => cases b <;> exact ih

/-- In a JSON text a string that is not a name has a comma, a bracket or the end behind it. -/
theorem calm_phrase {k : Category} (v : Phrase k) (hk : k ≠ .members) {tail : Str}
    (htail : quoteAhead tail = false) : Calm v.forest tail := by
  induction v generalizing tail with
  | literal l | number n => exact calm_ofUnits _ _
  | string s => exact ⟨htail, trivial⟩
  | emptyArray ws => exact calm_append.mpr ⟨calm_ofUnits _ _, trivial⟩
  | array es ih =>
    exact calm_append.mpr
      ⟨ih (fun h => Category.noConfusion h) (quoteAhead_of_neutral (by decide) tail), trivial⟩
  | emptyObject ws => trivial
  | object ms _ => trivial
  | element before v after ih =>
    refine calm_append.mpr ⟨calm_append.mpr ⟨calm_ofUnits _ _, ?_⟩, calm_ofUnits _ _⟩
    exact ih (fun h => Category.noConfusion h) (by rwa [quoteAhead_space])
  | elements before v after rest ih ihrest =>
    refine calm_append.mpr ⟨calm_append.mpr ⟨calm_append.mpr ⟨calm_ofUnits _ _, ?_⟩,
      calm_ofUnits _ _⟩, ihrest hk htail⟩
    refine ih (fun h => Category.noConfusion h) ?_
    rw [quoteAhead_space]
    exact quoteAhead_of_neutral (by decide) _
  | member _ _ _ _ _ _ _ | members _ _ _ _ _ _ _ _ _ => exact absurd rfl hk

theorem calm_document (v : Document) : Calm v.forest [] := by
  refine calm_append.mpr ⟨calm_append.mpr ⟨calm_ofUnits _ _, ?_⟩, calm_ofUnits _ _⟩
  refine calm_phrase v.value (fun h => Category.noConfusion h) ?_
  rw [quoteAhead_space]
  rfl

/-- **The nodes of a text** are those of its objects, but for their flags, and the last of the
outermost objects is the root. -/
theorem exists_parseJsonToTree {f : Forest} (hcalm : Calm f []) :
    ∃ q, parseJsonToTree f.render = some q ∧ q.root = lastRoot 0 f ∧
      q.nodes.map TreeNode.unflagged = nodeTable 0 0 0 none f := by
  obtain ⟨q, hq, hscan⟩ := exists_scan f 0 {} []
    (fun _ h => absurd h.symm (some_ne_none _)) fun _ => hcalm
  rw [append_nil] at hscan
  refine ⟨q, by rw [parseJsonToTree, hscan, scan], ?_, hq.nodes⟩
  rw [hq.root]
  exact or_none

theorem exists_parseJsonToTree_document (v : Document) :
    ∃ q, parseJsonToTree v.text = some q ∧ q.root = lastRoot 0 v.forest ∧
      q.nodes.map TreeNode.unflagged = nodeTable 0 0 0 none v.forest :=
  exists_parseJsonToTree (calm_document v)

/-! ## Where the nodes of a forest stand -/

/-- The nodes of a forest are found in a table, each under its number. -/
def Laid (nodes : List TreeNode) (pos level n : ℕ) (parent : Option ℕ) : Forest → Prop
  | .nil => True
  | .unit _ rest => Laid nodes (pos + 1) level n parent rest
  | .text s rest => Laid nodes (pos + s.text.length + 2) level n parent rest
  | .braces inside rest =>
    nodes[n]? = some { start := pos
                       level := level
                       parent := parent
                       close := some (pos + inside.render.length + 1)
                       children := roots (n + 1) inside } ∧
      Laid nodes (pos + 1) (level + 1) (n + 1) (some n) inside ∧
      Laid nodes (pos + inside.render.length + 2) level (n + 1 + inside.count) parent rest

theorem laid_append (f : Forest) (pos level : ℕ) (parent : Option ℕ)
    (before after : List TreeNode) :
    Laid (before ++ (nodeTable pos level before.length parent f ++ after)) pos level
      before.length parent f := by
  induction f generalizing pos level parent before after with
  | nil => trivial
  | unit c f ih | text s f ih => exact ih ..
  | braces i f ihi ih =>
    rw [nodeTable]
    set node : TreeNode := { start := pos
                             level := level
                             parent := parent
                             close := some (pos + i.render.length + 1)
                             children := roots (before.length + 1) i } with hnode
    set inner := nodeTable (pos + 1) (level + 1) (before.length + 1) (some before.length) i
      with hinner
    have hlen' : (before ++ node :: inner).length = before.length + 1 + i.count := by
      rw [length_append, length_cons, length_nodeTable]
      omega
    have hi := ihi (pos + 1) (level + 1) (some before.length) (before ++ [node])
      (nodeTable (pos + i.render.length + 2) level (before.length + 1 + i.count) parent f ++ after)
    have hf := ih (pos + i.render.length + 2) level parent (before ++ node :: inner) after
    rw [hlen'] at hf
    refine ⟨?_, ?_, ?_⟩
    · rw [List.getElem?_append_right (Nat.le_refl _), Nat.sub_self]
      rfl
    · simpa using hi
    · simpa using hf

theorem laid_nodeTable (f : Forest) : Laid (nodeTable 0 0 0 none f) 0 0 0 none f := by
  have h := laid_append f 0 0 none [] []
  rwa [append_nil] at h

theorem lt_of_mem_roots {n : ℕ} {f : Forest} (h : i ∈ roots n f) : n ≤ i ∧ i < n + f.count := by
  induction f generalizing n with
  | nil => cases h
  | unit c f ih => exact ih h
  | text s f ih => exact ih h
  | braces j f _ ih =>
    rw [Forest.count]
    rcases mem_cons.mp h with rfl | h
    · omega
    · have hlt := ih h
      omega

theorem nodup_roots (n : ℕ) (f : Forest) : (roots n f).Nodup := by
  induction f generalizing n with
  | nil => exact nodup_nil
  | unit c f ih => exact ih n
  | text s f ih => exact ih n
  | braces i f _ ih =>
    refine nodup_cons.mpr ⟨fun h => ?_, ih _⟩
    have hlt := lt_of_mem_roots h
    omega

theorem roots_eq_nil_iff {n : ℕ} {f : Forest} : roots n f = [] ↔ f.count = 0 := by
  induction f generalizing n with
  | nil => exact ⟨fun _ => rfl, fun _ => rfl⟩
  | unit c f ih => exact ih
  | text s f ih => exact ih
  | braces i f _ _ =>
    rw [Forest.count]
    exact ⟨fun h => absurd h (cons_ne_nil _ _), fun h => by omega⟩

variable {nodes : List TreeNode} {pos level n : ℕ} {parent : Option ℕ} {f : Forest}

theorem laid_append_iff {g : Forest} :
    Laid nodes pos level n parent (f ++ g) ↔ Laid nodes pos level n parent f ∧
      Laid nodes (pos + f.render.length) level (n + f.count) parent g := by
  induction f generalizing pos n with
  | nil => exact ⟨fun h => ⟨trivial, h⟩, fun h => h.2⟩
  | unit c f ih =>
    have hpos : pos + 1 + f.render.length = pos + (Forest.unit c f).render.length := by
      rw [Forest.render, length_cons]
      omega
    rw [Forest.unit_append, Laid, ih, hpos]
    rfl
  | text s f ih =>
    have hpos : pos + s.text.length + 2 + f.render.length =
        pos + (Forest.text s f).render.length := by
      simp [Forest.render]
      omega
    rw [Forest.text_append, Laid, ih, hpos]
    rfl
  | braces i f _ ih =>
    have hpos : pos + i.render.length + 2 + f.render.length =
        pos + (Forest.braces i f).render.length := by
      simp [Forest.render]
      omega
    have hcount : n + 1 + i.count + f.count = n + (Forest.braces i f).count := by
      rw [Forest.count]
      omega
    rw [Forest.braces_append, Laid, ih, hpos, hcount, Laid, and_assoc, and_assoc]

theorem Laid.root (h : Laid nodes pos level n parent f) (hi : i ∈ roots n f) :
    ∃ node, nodes[i]? = some node ∧ node.parent = parent ∧ node.level = level := by
  induction f generalizing pos n with
  | nil => cases hi
  | unit c f ih | text s f ih => exact ih h hi
  | braces j f _ ih =>
    rcases mem_cons.mp hi with rfl | hi
    · exact ⟨_, h.1, rfl, rfl⟩
    · exact ih h.2.2 hi

/-- What is so of a node of a table: its object is closed, and its children are nodes that
know it. -/
structure Linked (nodes : List TreeNode) (i : ℕ) (node : TreeNode) : Prop where
  closed : ∃ close, node.close = some close
  nodup : node.children.Nodup
  child : ∀ c ∈ node.children, ∃ child, nodes[c]? = some child ∧ child.parent = some i ∧
    child.level = node.level + 1

/-- What is so of a table: each node is linked with its children and with its parent. -/
structure WellLinked (nodes : List TreeNode) : Prop where
  linked : ∀ {i : ℕ} {node : TreeNode}, nodes[i]? = some node → Linked nodes i node
  parent : ∀ {i p : ℕ} {node : TreeNode}, nodes[i]? = some node → node.parent = some p →
    ∃ above : TreeNode, nodes[p]? = some above ∧ i ∈ above.children

theorem Laid.exists_linked (h : Laid nodes pos level n parent f) (hn : n ≤ i)
    (hi : i < n + f.count) :
    ∃ node, nodes[i]? = some node ∧ Linked nodes i node ∧ (i ∈ roots n f ∧ node.parent = parent ∨
        ∃ p above, node.parent = some p ∧ nodes[p]? = some above ∧ i ∈ above.children) := by
  induction f generalizing pos level n parent with
  | nil => exact absurd hi (by rw [Forest.count]; omega)
  | unit c f ih | text s f ih => exact ih h hn hi
  | braces j f ihj ih =>
    obtain ⟨hnode, hinside, hrest⟩ := h
    rw [Forest.count] at hi
    rcases Nat.lt_trichotomy i n with hlt | rfl | hgt
    · omega
    · refine ⟨_, hnode, ⟨⟨_, rfl⟩, nodup_roots _ j, fun c hc => ?_⟩, Or.inl ⟨mem_cons_self, rfl⟩⟩
      exact hinside.root hc
    · rcases Nat.lt_or_ge i (n + 1 + j.count) with hlt | hge
      · obtain ⟨node, hi', hlinked, hup⟩ := ihj hinside hgt hlt
        refine ⟨node, hi', hlinked, Or.inr ?_⟩
        rcases hup with ⟨hroot, hparent⟩ | hup
        · exact ⟨n, _, hparent, hnode, hroot⟩
        · exact hup
      · obtain ⟨node, hi', hlinked, hup⟩ := ih hrest hge (by omega)
        refine ⟨node, hi', hlinked, ?_⟩
        rcases hup with ⟨hroot, hparent⟩ | hup
        · exact Or.inl ⟨mem_cons_of_mem _ hroot, hparent⟩
        · exact Or.inr hup

theorem wellLinked_nodeTable (f : Forest) : WellLinked (nodeTable 0 0 0 none f) := by
  have hlinked := fun {i : ℕ} {node : TreeNode} (h : (nodeTable 0 0 0 none f)[i]? = some node) =>
    (laid_nodeTable f).exists_linked (Nat.zero_le i) (by
      have hlt := (List.getElem?_eq_some_iff.mp h).1
      rwa [length_nodeTable, ← Nat.zero_add f.count] at hlt)
  constructor
  · intro i node h
    obtain ⟨node', h', hnode, -⟩ := hlinked h
    rw [h] at h'
    exact some.inj h' ▸ hnode
  · intro i p node h hp
    obtain ⟨node', h', -, hup⟩ := hlinked h
    rw [h] at h'
    obtain rfl := some.inj h'
    rcases hup with ⟨-, hnone⟩ | ⟨q, above, hq, habove⟩
    · exact absurd (hp.symm.trans hnone) (some_ne_none p)
    · rw [hp] at hq
      obtain rfl := some.inj hq
      exact ⟨above, habove⟩

end DdTrace.Debugger.SnapshotPruner
