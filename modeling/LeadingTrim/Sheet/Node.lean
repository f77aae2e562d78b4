/-
# Syntax trees

A parser gives the tree of a style sheet. A node says of which kind it is, where in the sheet it
begins and where it ends, and which nodes stand in it, one behind the other. Names are given to the
kinds of nodes that are asked for; a token that only punctuates is known by its text.

A cursor stands on a node of a tree. It goes to the first child, to the next sibling or back to the
node around, and so walks through the whole tree, each node ahead of those in it. What lies ahead of
a cursor becomes less with each step (`length_ahead_of_advance?`), so the walk ends.
-/

import LeadingTrim.Text.Basic

namespace LeadingTrim.Sheet

/-! ## Nodes -/

/-- A place between two characters of a text. -/
structure Spot where
  /-- The number of bytes in front of it. -/
  byte : Nat
  /-- The number of lines that end in front of it. -/
  row : Nat
  /-- The number of bytes in front of it on its line. -/
  column : Nat
  deriving DecidableEq, Repr

/-- The place behind a character. -/
def Spot.next (s : Spot) (c : Char) : Spot where
  byte := s.byte + c.utf8Size
  row := if c = '\n' then s.row + 1 else s.row
  column := if c = '\n' then 0 else s.column + c.utf8Size

/-- The place behind a text. -/
def Spot.behind (s : Spot) (t : Text) : Spot := t.foldl Spot.next s

/-- What a node is. -/
inductive NodeKind
  /-- A style rule. -/
  | ruleSet
  /-- The selector list of a rule. -/
  | selectors
  /-- What stands between braces, with the braces. -/
  | block
  /-- A declaration. -/
  | declaration
  /-- The name of a property. -/
  | propertyName
  /-- A comment between `/*` and `*/`. -/
  | comment
  /-- A token that only punctuates, with its text. -/
  | mark (text : Text)
  /-- Anything else. -/
  | other
  deriving DecidableEq, Repr

/-- Whether nodes of the kind have a name of their own. -/
def NodeKind.isNamed : NodeKind → Bool
  | .mark _ => false
  | _ => true

/-- A node of a syntax tree. -/
structure Node where
  /-- What it is. -/
  kind : NodeKind
  /-- Where it begins. -/
  start : Spot
  /-- Where it ends. -/
  stop : Spot
  /-- The nodes in it. -/
  children : List Node
  deriving Repr

/-- The children with names of their own. -/
def Node.namedChildren (n : Node) : List Node := n.children.filter (·.kind.isNamed)

/-- The children, each with the sibling directly in front of it. -/
def Node.siblings (n : Node) : List (Option Node × Node) :=
  (none :: n.children.map some).zip n.children

/-! ## Cursors -/

/-- A node in its tree. -/
structure Cursor where
  /-- The node. -/
  node : Node
  /-- The siblings in front of it, the nearest first. -/
  before : List Node
  /-- The siblings behind it. -/
  behind : List Node
  /-- The nodes around it, the innermost first, each with its siblings in front and behind. -/
  around : List (Node × List Node × List Node)

namespace Cursor

/-- The root of a tree. -/
def root (tree : Node) : Cursor := ⟨tree, [], [], []⟩

/-- The first child of the node. -/
def firstChild? (c : Cursor) : Option Cursor :=
  match c.node.children with
  | [] => none
  | child :: rest => some ⟨child, [], rest, (c.node, c.before, c.behind) :: c.around⟩

/-- The sibling directly behind the node. -/
def nextSibling? (c : Cursor) : Option Cursor :=
  match c.behind with
  | [] => none
  | sibling :: rest => some ⟨sibling, c.node :: c.before, rest, c.around⟩

/-- The node directly around. -/
def parent? (c : Cursor) : Option Cursor :=
  match c.around with
  | [] => none
  | (node, before, behind) :: around => some ⟨node, before, behind, around⟩

/-- Fewer nodes are around the node around. -/
theorem length_around_of_parent? {c parent : Cursor} (h : c.parent? = some parent) :
    parent.around.length < c.around.length := by
  obtain ⟨node, before, behind, around⟩ := c
  cases around with
  | nil => cases h
  | cons outer around =>
    obtain rfl := Option.some.inj h
    exact Nat.lt_succ_self _

/-- The sibling behind the node, or else behind the innermost node around that has one. -/
def onward? (c : Cursor) : Option Cursor :=
  match c.nextSibling? with
  | some sibling => some sibling
  | none =>
    match _h : c.parent? with
    | some parent => parent.onward?
    | none => none
termination_by c.around.length
decreasing_by exact length_around_of_parent? _h

/-- The node at which a walk through the tree arrives next. -/
def advance? (c : Cursor) : Option Cursor :=
  match c.firstChild? with
  | some child => some child
  | none => c.onward?

end Cursor

/-! ## Walks -/

mutual

/-- A node and all nodes in it, each ahead of those in it. -/
def Node.preorder : Node → List Node
  | ⟨kind, start, stop, children⟩ => ⟨kind, start, stop, children⟩ :: preorderAll children

/-- All nodes in a list of nodes and the nodes of the list, each ahead of those in it. -/
def Node.preorderAll : List Node → List Node
  | [] => []
  | n :: rest => n.preorder ++ preorderAll rest

end

namespace Node

variable {n m : Node} {nodes : List Node}

theorem preorder_eq (n : Node) : n.preorder = n :: preorderAll n.children := by
  cases n
  rfl

@[simp] theorem preorderAll_nil : preorderAll [] = [] := rfl

theorem preorderAll_cons (n : Node) (nodes : List Node) :
    preorderAll (n :: nodes) = n :: (preorderAll n.children ++ preorderAll nodes) := by
  rw [preorderAll, preorder_eq, List.cons_append]

theorem preorderAll_append (nodes more : List Node) :
    preorderAll (nodes ++ more) = preorderAll nodes ++ preorderAll more := by
  induction nodes with
  | nil => rfl
  | cons n nodes ih => rw [List.cons_append, preorderAll, preorderAll, ih, List.append_assoc]

theorem preorderAll_singleton (n : Node) :
    preorderAll [n] = n :: preorderAll n.children := by
  rw [preorderAll_cons, preorderAll_nil, List.append_nil]

/-- A node among others or in them is in one of them. -/
theorem mem_preorderAll_iff : m ∈ preorderAll nodes ↔ ∃ n ∈ nodes, m ∈ n.preorder := by
  induction nodes with
  | nil => simp
  | cons n nodes ih => rw [preorderAll, List.mem_append, ih]; simp

theorem mem_preorder_iff : m ∈ n.preorder ↔ m = n ∨ m ∈ preorderAll n.children := by
  rw [preorder_eq, List.mem_cons]

end Node

namespace Cursor

/-- The node and what a walk from it on comes to. -/
def ahead (c : Cursor) : List Node :=
  c.node.preorder ++ (Node.preorderAll c.behind
    ++ c.around.flatMap fun outer => Node.preorderAll outer.2.2)

/-- What lies ahead behind the nodes in the node. -/
theorem ahead_of_onward? (c : Cursor) :
    (c.onward?.elim [] ahead) = Node.preorderAll c.behind
      ++ c.around.flatMap fun outer => Node.preorderAll outer.2.2 := by
  fun_induction onward? c with
  | case1 c sibling h =>
    obtain ⟨node, before, behind, around⟩ := c
    cases behind with
    | nil => cases h
    | cons next rest =>
      obtain rfl := Option.some.inj h
      simp [ahead, Node.preorderAll]
  | case2 c hnone parent h ih =>
    obtain ⟨node, before, behind, around⟩ := c
    cases behind with
    | cons next rest => cases hnone
    | nil =>
      cases around with
      | nil => cases h
      | cons outer around =>
        obtain rfl := Option.some.inj h
        simpa [Node.preorderAll] using ih
  | case3 c hnone h =>
    obtain ⟨node, before, behind, around⟩ := c
    cases behind with
    | cons next rest => cases hnone
    | nil =>
      cases around with
      | cons outer around => cases h
      | nil => rfl

/-- What lies ahead of a cursor is its node and what lies ahead of it when it has advanced. -/
theorem ahead_eq (c : Cursor) : c.ahead = c.node :: c.advance?.elim [] ahead := by
  have honward := c.ahead_of_onward?
  obtain ⟨node, before, behind, around⟩ := c
  rw [ahead, Node.preorder_eq, List.cons_append, List.cons.injEq]
  refine ⟨rfl, ?_⟩
  rw [advance?]
  cases hchildren : node.children with
  | nil => simp [firstChild?, hchildren, Node.preorderAll, honward]
  | cons child rest => simp [firstChild?, hchildren, ahead, Node.preorderAll]

theorem length_ahead_of_advance? {c next : Cursor} (h : c.advance? = some next) :
    next.ahead.length < c.ahead.length := by
  rw [c.ahead_eq, h]
  exact Nat.lt_succ_self _

/-- The nodes at which a walk from a node on arrives. -/
def walk (c : Cursor) : List Node :=
  match _h : c.advance? with
  | some next => c.node :: next.walk
  | none => [c.node]
termination_by c.ahead.length
decreasing_by exact length_ahead_of_advance? _h

/-- A walk arrives at all that lies ahead. -/
theorem walk_eq_ahead (c : Cursor) : c.walk = c.ahead := by
  fun_induction walk c with
  | case1 c next h ih => rw [c.ahead_eq, h, ih, Option.elim_some]
  | case2 c h => rw [c.ahead_eq, h, Option.elim_none]

/-- From the root on a walk arrives at every node of the tree, at each ahead of those in it. -/
theorem walk_root (tree : Node) : (root tree).walk = tree.preorder := by
  rw [walk_eq_ahead, ahead, root]
  simp [Node.preorderAll]

end Cursor

end LeadingTrim.Sheet
