/-
# Syntax trees of sheets

What a parser promises of the tree of a sheet without errors (`IsTreeOf`). It is promised node by
node: a node says truly where it stands, its children stand in it one behind the other, and those of
rule sets, blocks and declarations are what the grammar asks for. What is outside of tokens in a
block is white space. No rule set is in the selector list of a rule, nor in a declaration.

Trees are followed along `Node.preorderAll`, by induction on a row of nodes with the children of the
first node and the nodes behind it as two shorter rows (`Node.forestInduction`).
-/

import LeadingTrim.Proofs.Text.LineIndex
import LeadingTrim.Sheet.Node
import LeadingTrim.Text.Blank

namespace LeadingTrim.Sheet

open Text (EndsLine isSheetSpace)

/-! ## What is promised -/

/-- The place is one of the sheet. -/
def Spot.IsIn (source : Text) (s : Spot) : Prop :=
  ∃ before line after, source = before ++ (line ++ after) ∧ EndsLine before ∧ '\n' ∉ line ∧
    s = ⟨(before ++ line).byteSize, (before ++ line).count '\n', line.byteSize⟩

/-- The node stands in the sheet where it says, with its children in it one behind the other. A
token has no children and is the text that it is known by. -/
structure Node.Stands (source : Text) (n : Node) : Prop where
  start : n.start.IsIn source
  stop : n.stop.IsIn source
  start_lt_stop : n.start.byte < n.stop.byte
  child : ∀ c ∈ n.children, n.start.byte ≤ c.start.byte ∧ c.stop.byte ≤ n.stop.byte
  children : n.children.Pairwise fun c d => c.stop.byte ≤ d.start.byte
  mark : ∀ t, n.kind = .mark t → n.children = [] ∧ source.slice n.start.byte n.stop.byte = t

/-- No rule set is among the nodes or in them. -/
def NoRuleSet (nodes : List Node) : Prop := ∀ n ∈ Node.preorderAll nodes, n.kind ≠ .ruleSet

/-- The node is a selector list and a block, and between the two comments at most. -/
structure Node.IsRuleSet (n list : Node) (comments : List Node) (block : Node) : Prop where
  children : n.children = list :: (comments ++ [block])
  start : list.start = n.start
  kind_list : list.kind = .selectors
  kind_comment : ∀ c ∈ comments, c.kind = .comment ∨ c.kind = .other
  kind_block : block.kind = .block
  noRuleSet : NoRuleSet (list :: comments)

/-- The node is two braces with nodes between, and everything else in it is white space. -/
structure Node.IsBlock (source : Text) (n opening : Node) (inner : List Node) (closing : Node) :
    Prop where
  children : n.children = opening :: (inner ++ [closing])
  kind_opening : opening.kind = .mark ['\x7b']
  kind_closing : closing.kind = .mark ['}']
  gap : ∀ front c d back, n.children = front ++ c :: d :: back →
    ∀ x ∈ source.slice c.stop.byte d.start.byte, isSheetSpace x = true

/-- The node begins with the name of a property. There is a colon behind that, and with a semicolon
the node ends. -/
structure Node.IsDeclaration (n name : Node) (rest : List Node) : Prop where
  children : n.children = name :: rest
  start : name.start = n.start
  kind_name : name.kind = .propertyName
  colon : ∃ c ∈ rest, c.kind = .mark [':']
  semicolon : ∀ c, n.children.getLast? = some c → c.kind = .mark [';'] → c.stop = n.stop
  noRuleSet : NoRuleSet n.children

/-- The node is as the grammar has it. -/
structure Node.Conforms (source : Text) (n : Node) : Prop extends n.Stands source where
  ruleSet : n.kind = .ruleSet → ∃ list comments block, n.IsRuleSet list comments block
  block : n.kind = .block → ∃ opening inner closing, n.IsBlock source opening inner closing
  declaration : n.kind = .declaration → ∃ name rest, n.IsDeclaration name rest

/-- The node is the root of a tree that a parser gives of the sheet. -/
structure IsTreeOf (source : Text) (root : Node) : Prop where
  kind : root.kind ≠ .ruleSet
  children : root.children.Pairwise fun c d => c.stop.byte ≤ d.start.byte
  conforms : ∀ n ∈ Node.preorderAll root.children, n.Conforms source

/-! ## Rows of nodes -/

variable {source : Text} {s : Spot} {n m : Node} {nodes more : List Node}

theorem Spot.IsIn.isBoundary (h : s.IsIn source) : source.IsBoundary s.byte := by
  obtain ⟨before, line, after, rfl, -, -, rfl⟩ := h
  rw [← List.append_assoc]
  exact Text.isBoundary_byteSize_append _ _

/-- What holds of no nodes, and of a row if it holds of the children of the first node and of the
nodes behind, holds of all rows. -/
@[elab_as_elim]
theorem Node.forestInduction {motive : List Node → Prop} (nil : motive [])
    (cons : ∀ n nodes, motive n.children → motive nodes → motive (n :: nodes))
    (nodes : List Node) : motive nodes := by
  induction hn : (preorderAll nodes).length using Nat.strongRecOn generalizing nodes with
  | ind k ih =>
    cases nodes with
    | nil => exact nil
    | cons n nodes =>
      rw [preorderAll_cons, List.length_cons, List.length_append] at hn
      exact cons n nodes (ih _ (by omega) _ rfl) (ih _ (by omega) _ rfl)

/-- The nodes are one behind the other, and all nodes in them are as the grammar has it. -/
structure IsForest (source : Text) (nodes : List Node) : Prop where
  pairwise : nodes.Pairwise fun c d => c.stop.byte ≤ d.start.byte
  conforms : ∀ n ∈ Node.preorderAll nodes, n.Conforms source

theorem IsTreeOf.isForest {root : Node} (h : IsTreeOf source root) :
    IsForest source root.children :=
  ⟨h.children, h.conforms⟩

namespace IsForest

theorem head (h : IsForest source (n :: nodes)) : n.Conforms source :=
  h.conforms n (by rw [Node.preorderAll_cons]; exact List.mem_cons_self)

theorem mem (h : IsForest source nodes) (hn : n ∈ nodes) : n.Conforms source :=
  h.conforms n (Node.mem_preorderAll_iff.mpr ⟨n, hn, Node.mem_preorder_iff.mpr (Or.inl rfl)⟩)

theorem left (h : IsForest source (nodes ++ more)) : IsForest source nodes :=
  ⟨(List.pairwise_append.mp h.pairwise).1, fun n hn => h.conforms n (by
    rw [Node.preorderAll_append]
    exact List.mem_append_left _ hn)⟩

theorem right (h : IsForest source (nodes ++ more)) : IsForest source more :=
  ⟨(List.pairwise_append.mp h.pairwise).2.1, fun n hn => h.conforms n (by
    rw [Node.preorderAll_append]
    exact List.mem_append_right _ hn)⟩

theorem tail (h : IsForest source (n :: nodes)) : IsForest source nodes :=
  ⟨(List.pairwise_cons.mp h.pairwise).2, fun m hm => h.conforms m (by
    rw [Node.preorderAll_cons]
    exact List.mem_cons_of_mem _ (List.mem_append_right _ hm))⟩

theorem inside (h : IsForest source (n :: nodes)) : IsForest source n.children :=
  ⟨h.head.children, fun m hm => h.conforms m (by
    rw [Node.preorderAll_cons]
    exact List.mem_cons_of_mem _ (List.mem_append_left _ hm))⟩

theorem inside_of_mem (h : IsForest source nodes) (hn : n ∈ nodes) : IsForest source n.children :=
  ⟨(h.mem hn).children, fun m hm =>
    h.conforms m (Node.mem_preorderAll_iff.mpr ⟨n, hn, Node.mem_preorder_iff.mpr (Or.inr hm)⟩)⟩

theorem singleton_of_mem (h : IsForest source nodes) (hn : n ∈ nodes) : IsForest source [n] :=
  ⟨List.pairwise_singleton _ _, fun m hm => h.conforms m (by
    obtain ⟨c, hc, hm⟩ := Node.mem_preorderAll_iff.mp hm
    rw [List.mem_singleton.mp hc] at hm
    exact Node.mem_preorderAll_iff.mpr ⟨n, hn, hm⟩)⟩

/-- A node in one of the nodes has itself what conforms in it. -/
theorem forest_of_mem (h : IsForest source nodes) (hm : m ∈ Node.preorderAll nodes) :
    IsForest source [m] := by
  induction nodes using Node.forestInduction with
  | nil => cases hm
  | cons n nodes ihchildren ihnodes =>
    rw [Node.preorderAll_cons, List.mem_cons, List.mem_append] at hm
    rcases hm with rfl | hm | hm
    · exact h.singleton_of_mem List.mem_cons_self
    · exact ihchildren h.inside hm
    · exact ihnodes h.tail hm

/-- All nodes in some nodes begin where those do or behind. -/
theorem le_start (h : IsForest source nodes) {start : Nat}
    (hstart : ∀ n ∈ nodes, start ≤ n.start.byte) (hm : m ∈ Node.preorderAll nodes) :
    start ≤ m.start.byte := by
  induction nodes using Node.forestInduction generalizing start with
  | nil => cases hm
  | cons n nodes ihchildren ihnodes =>
    obtain ⟨hn, hnodes⟩ := List.forall_mem_cons.mp hstart
    rw [Node.preorderAll_cons, List.mem_cons, List.mem_append] at hm
    rcases hm with rfl | hm | hm
    · exact hn
    · exact Nat.le_trans hn (ihchildren h.inside (fun c hc => (h.head.child c hc).1) hm)
    · exact ihnodes h.tail hnodes hm

/-- All nodes in some nodes end where those do or in front of that. -/
theorem stop_le (h : IsForest source nodes) {stop : Nat}
    (hstop : ∀ n ∈ nodes, n.stop.byte ≤ stop) (hm : m ∈ Node.preorderAll nodes) :
    m.stop.byte ≤ stop := by
  induction nodes using Node.forestInduction generalizing stop with
  | nil => cases hm
  | cons n nodes ihchildren ihnodes =>
    obtain ⟨hn, hnodes⟩ := List.forall_mem_cons.mp hstop
    rw [Node.preorderAll_cons, List.mem_cons, List.mem_append] at hm
    rcases hm with rfl | hm | hm
    · exact hn
    · exact Nat.le_trans (ihchildren h.inside (fun c hc => (h.head.child c hc).2) hm) hn
    · exact ihnodes h.tail hnodes hm

end IsForest

end LeadingTrim.Sheet
