/-
# The rules of a style sheet, part by part

The rules that are read off the syntax tree of a sheet can be read off its parts as well
(`rules_eq`). An offset then is the number of bytes of the parts in front of it, the sibling in
front of a declaration is the last part other than white space or the block that was closed there,
and a block ends behind the brace that closes it. A declaration without a semicolon, a block that is
never closed and braces that close nothing are no exceptions.

What is said of the nodes at some place is said of all lists that `levels` gives there: the list at
depth zero holds the nodes of the innermost open block, the one at depth one those of the block
around it, and so on.
-/

import Mathlib.Data.List.Induction
import LeadingTrim.Proofs.Text.Boundary
import LeadingTrim.Sheet.PartLemmas
import LeadingTrim.Sheet.Tree

namespace LeadingTrim

/-- The place behind a text. -/
def Position.after (t : Text) : Position := ⟨1 + t.count '\n', 1 + t.lastLine.length⟩

namespace Sheet

/-! ## Reading rules off parts -/

/-- A declaration, with the offset at which the part before it ends and its own. -/
def DeclarationText.toDeclaration (d : DeclarationText) (source : Text)
    (leadingStart start : Nat) : Declaration where
  property := d.name
  value := Text.trim (stripComments d.value)
  start := start
  stop := start + d.text.byteSize
  leadingStart := leadingStart
  separator := d.gap ++ [':'] ++ d.value.takeWhile Text.isBlank
  terminated := d.terminated
  position := .after (source.takeBytes start)

/-- Where in the selector list its selectors stand, the list being at the given offset. -/
def branchesFrom : Nat → List SelectorPiece → List (Nat × Nat)
  | _, [] => []
  | offset, .branch text :: rest =>
    (offset, offset + text.byteSize) :: branchesFrom (offset + text.byteSize) rest
  | offset, .gap text :: rest => branchesFrom (offset + text.byteSize) rest

/-- The declarations directly in a block. The arguments are the number of blocks opened inside it,
the offset at which the last part other than white space ended, and the offset of the parts. -/
def declarationsFrom (source : Text) : Nat → Nat → Nat → List Part → List Declaration
  | _, _, _, [] => []
  | depth, last, offset, p :: rest =>
    let behind := offset + p.text.byteSize
    match p with
    | .space _ => declarationsFrom source depth last behind rest
    | .close =>
      match depth with
      | 0 => []
      | depth + 1 => declarationsFrom source depth behind behind rest
    | .rule _ | .atBlock _ => declarationsFrom source (depth + 1) behind behind rest
    | .declaration d =>
      if depth = 0 then
        d.toDeclaration source last offset :: declarationsFrom source depth behind behind rest
      else declarationsFrom source depth behind behind rest
    | _ => declarationsFrom source depth behind behind rest

/-- Where a block ends: behind its closing brace, or behind the last part other than white space
when it is never closed. The arguments are as for `declarationsFrom`. -/
def blockStop : Nat → Nat → Nat → List Part → Nat
  | _, last, _, [] => last
  | depth, last, offset, p :: rest =>
    let behind := offset + p.text.byteSize
    match p with
    | .space _ => blockStop depth last behind rest
    | .close =>
      match depth with
      | 0 => behind
      | depth + 1 => blockStop depth behind behind rest
    | .rule _ | .atBlock _ => blockStop (depth + 1) behind behind rest
    | _ => blockStop depth behind behind rest

/-- The rule whose head stands at the offset, with the parts behind the head. -/
def RuleHead.toRule (head : RuleHead) (source : Text) (offset : Nat) (rest : List Part) : Rule :=
  let behind := offset + head.text.byteSize
  { start := offset
    stop := blockStop 0 behind behind rest
    selector := head.selector
    branches := branchesFrom 0 head.selectors
    indent := indentAfter (source.takeBytes offset)
    declarations := declarationsFrom source 0 behind behind rest }

/-- The rules among the parts at the offset. The first argument says of each open block, the
innermost first, whether it is a list of keyframes. -/
def rulesFrom (source : Text) : List Bool → Nat → List Part → List Rule
  | _, _, [] => []
  | blocks, offset, p :: rest =>
    let behind := offset + p.text.byteSize
    match p with
    | .rule head =>
      let inner := rulesFrom source (false :: blocks) behind rest
      if blocks.head? = some true then inner else head.toRule source offset rest :: inner
    | .atBlock head => rulesFrom source (isKeyframes head.keyword :: blocks) behind rest
    | .close => rulesFrom source blocks.tail behind rest
    | _ => rulesFrom source blocks behind rest

/-! ## Places -/

variable {source t u : Text} {s : Spot} {n : Node} {blocks : List Bool} {all : List Part}

@[simp] theorem Spot.behind_nil (s : Spot) : s.behind [] = s := rfl

@[simp] theorem Spot.behind_append (s : Spot) (t u : Text) :
    s.behind (t ++ u) = (s.behind t).behind u :=
  List.foldl_append

@[simp] theorem Spot.byte_behind (s : Spot) (t : Text) :
    (s.behind t).byte = s.byte + t.byteSize := by
  induction t generalizing s with
  | nil => rfl
  | cons c t ih => exact (ih (s.next c)).trans (Nat.add_assoc _ _ _)

theorem lastLine_append_singleton (t : Text) (c : Char) :
    Text.lastLine (t ++ [c]) = if c = '\n' then [] else t.lastLine ++ [c] := by
  rw [Text.lastLine, List.reverse_append, List.reverse_singleton, List.singleton_append,
    List.takeWhile_cons]
  by_cases hc : c = '\n'
  · simp [hc]
  · simp [hc, Text.lastLine]

/-- The place behind a text is told by its bytes, its line feeds and its last line. -/
theorem Spot.zero_behind (t : Text) :
    Spot.zero.behind t = ⟨t.byteSize, t.count '\n', t.lastLine.byteSize⟩ := by
  induction t using List.reverseRecOn with
  | nil => rfl
  | append_singleton t c ih =>
    rw [Spot.behind_append, ih, lastLine_append_singleton]
    by_cases hc : c = '\n'
    · subst hc
      simp [Spot.behind, Spot.next]
    · simp [Spot.behind, Spot.next, hc]

/-- The text stands at the place in the sheet and reaches to its end. -/
def StandsAt (source : Text) (s : Spot) (t : Text) : Prop :=
  ∃ before, source = before ++ t ∧ s = Spot.zero.behind before

theorem standsAt_zero (source : Text) : StandsAt source .zero source := ⟨[], rfl, rfl⟩

theorem StandsAt.behind (h : StandsAt source s (t ++ u)) : StandsAt source (s.behind t) u := by
  obtain ⟨before, rfl, rfl⟩ := h
  exact ⟨before ++ t, (List.append_assoc _ _ _).symm, (Spot.behind_append _ _ _).symm⟩

theorem StandsAt.slice (h : StandsAt source s (t ++ u)) :
    source.slice s.byte (s.byte + t.byteSize) = t := by
  obtain ⟨before, rfl, rfl⟩ := h
  refine Text.slice_eq_of_append (List.append_assoc _ _ _).symm ?_ rfl
  rw [Spot.zero_behind]

theorem StandsAt.isBoundary (h : StandsAt source s t) : source.IsBoundary s.byte := by
  obtain ⟨before, rfl, rfl⟩ := h
  rw [Spot.zero_behind]
  exact Text.isBoundary_byteSize_append _ _

theorem StandsAt.takeBytes (h : StandsAt source s t) : ∃ before,
    source.takeBytes s.byte = before ∧ s = Spot.zero.behind before := by
  obtain ⟨before, rfl, rfl⟩ := h
  refine ⟨before, ?_, rfl⟩
  rw [Spot.zero_behind, Text.takeBytes_byteSize_append]

theorem lastLine_isSuffix (t : Text) : t.lastLine <:+ t := by
  rw [Text.lastLine, ← List.reverse_prefix, List.reverse_reverse]
  exact List.takeWhile_prefix _

/-- The position of a node is told by what stands in front of it. -/
theorem positionOf_eq (h : StandsAt source n.start t) :
    positionOf source n = .after (source.takeBytes n.start.byte) := by
  obtain ⟨before, hsource, hstart⟩ := h
  obtain ⟨lines, hlines⟩ := lastLine_isSuffix before
  rw [Spot.zero_behind] at hstart
  have hsize : Text.byteSize lines + before.lastLine.byteSize = before.byteSize := by
    rw [← Text.byteSize_append, hlines]
  have hline : source.slice (before.byteSize - before.lastLine.byteSize) before.byteSize
      = before.lastLine := by
    refine Text.slice_eq_of_append (s := lines) (u := t) ?_ (by omega) (by omega)
    rw [hlines, hsource]
  have htake : source.takeBytes before.byteSize = before := by
    rw [hsource, Text.takeBytes_byteSize_append]
  simp only [positionOf, hstart, hline, htake, Position.after, Nat.add_comm 1]

/-! ## Nodes of single parts -/

@[simp] theorem leaf_start (kind : NodeKind) (s : Spot) (t : Text) :
    (leaf kind s t).start = s := rfl

@[simp] theorem leaf_stop (kind : NodeKind) (s : Spot) (t : Text) :
    (leaf kind s t).stop = s.behind t := rfl

@[simp] theorem leaf_kind (kind : NodeKind) (s : Spot) (t : Text) :
    (leaf kind s t).kind = kind := rfl

theorem kind_of_mem_inkLeaf {kind : NodeKind} (h : n ∈ inkLeaf kind s t) : n.kind = kind := by
  unfold inkLeaf at h
  split at h
  · cases h
  · rw [List.mem_singleton.mp h, leaf_kind]

/-- Nothing of another kind is found among the ink of a text. -/
theorem find?_inkLeaf_append {kind sought : NodeKind} (h : sought ≠ kind) (nodes : List Node) :
    (inkLeaf kind s t ++ nodes).find? (·.kind = sought) = nodes.find? (·.kind = sought) := by
  rw [List.find?_append, List.find?_eq_none.mpr, Option.none_or]
  intro n hn
  rw [kind_of_mem_inkLeaf hn]
  simpa using h.symm

namespace DeclarationText

variable (d : DeclarationText)

theorem find?_propertyName_node (s : Spot) :
    (d.node s).children.find? (·.kind = .propertyName) = some (leaf .propertyName s d.name) := by
  simp [node]

theorem find?_colon_node (s : Spot) :
    (d.node s).children.find? (·.kind = .mark [':'])
      = some (leaf (.mark [':']) (s.behind (d.name ++ d.gap)) [':']) := by
  rw [node, List.cons_append, List.append_assoc, List.find?_cons_of_neg (by simp),
    find?_inkLeaf_append (by simp)]
  simp

/-- The node at the end of a declaration is its semicolon, if it has one. -/
theorem semicolon?_node (s : Spot) : semicolon? (d.node s) =
    if d.terminated then
      some (leaf (.mark [';']) (s.behind (d.name ++ d.gap ++ [':'] ++ d.value)) [';'])
    else none := by
  unfold semicolon? node
  dsimp only
  rw [List.getLast?_append]
  split
  · simp only [Spot.behind_append]
    rfl
  · rw [List.getLast?_nil, Option.none_or, Option.filter_eq_none_iff]
    intro n hn
    have hmem := List.mem_of_getLast? hn
    simp only [List.mem_cons, List.mem_append] at hmem
    rcases hmem with rfl | hn | rfl | hn
    · simp
    · simp [kind_of_mem_inkLeaf hn]
    · simp
    · simp [kind_of_mem_inkLeaf hn]

theorem isSome_semicolon?_node (s : Spot) : (semicolon? (d.node s)).isSome = d.terminated := by
  rw [semicolon?_node]
  cases d.terminated <;> rfl

theorem valueStop_node (s : Spot) : valueStop (d.node s) =
    (s.behind (d.name ++ d.gap ++ [':'])).byte + d.value.byteSize := by
  rw [← Spot.byte_behind, ← Spot.behind_append, valueStop, semicolon?_node]
  split
  · rfl
  next hend =>
    change (s.behind d.text).byte = _
    rw [text, if_neg hend, List.append_nil]

variable {d}

theorem standsAt_value (h : StandsAt source s (d.text ++ u)) :
    StandsAt source (s.behind (d.name ++ d.gap ++ [':']))
      (d.value ++ ((if d.terminated then [';'] else []) ++ u)) := by
  refine .behind ?_
  simpa [text] using h

theorem rawValue?_node (h : StandsAt source s (d.text ++ u)) :
    rawValue? source (d.node s) = some d.value := by
  have hvalue := standsAt_value h
  have hcolon : (leaf (.mark [':']) (s.behind (d.name ++ d.gap)) [':']).stop
      = s.behind (d.name ++ d.gap ++ [':']) :=
    (Spot.behind_append _ _ _).symm
  rw [rawValue?, find?_colon_node]
  simp only [Option.bind_eq_bind, Option.bind_some, valueStop_node, hcolon]
  rw [Text.slice?_eq_some_iff]
  refine ⟨⟨Nat.le_add_right _ _, hvalue.isBoundary, ?_⟩, hvalue.slice.symm⟩
  rw [← Spot.byte_behind]
  exact hvalue.behind.isBoundary

/-- What is left of a value behind its blanks is counted from its end. -/
theorem slice_separator (h : StandsAt source s (d.text ++ u)) :
    source.slice (s.behind d.name).byte
      ((s.behind (d.name ++ d.gap ++ [':'])).byte + d.value.byteSize - d.value.trimStart.byteSize)
        = d.gap ++ [':'] ++ d.value.takeWhile Text.isBlank := by
  have hsplit : d.value.takeWhile Text.isBlank ++ d.value.trimStart = d.value :=
    List.takeWhile_append_dropWhile
  have hsize : Text.byteSize (d.value.takeWhile Text.isBlank) + d.value.trimStart.byteSize
      = d.value.byteSize := by
    rw [← Text.byteSize_append, hsplit]
  have hstart : (s.behind (d.name ++ d.gap ++ [':'])).byte + d.value.byteSize
      - d.value.trimStart.byteSize = (s.behind d.name).byte
        + Text.byteSize (d.gap ++ [':'] ++ d.value.takeWhile Text.isBlank) := by
    simp only [Spot.byte_behind, Text.byteSize_append]
    omega
  have hgap : StandsAt source (s.behind d.name) (d.gap ++ [':'] ++ d.value.takeWhile Text.isBlank
      ++ (d.value.trimStart ++ ((if d.terminated then [';'] else []) ++ u))) := by
    refine .behind ?_
    have hvalue : ∀ v : Text, d.value ++ v
        = d.value.takeWhile Text.isBlank ++ (d.value.trimStart ++ v) := fun v => by
      rw [← List.append_assoc, hsplit]
    simpa only [text, List.append_assoc, hvalue] using h
  rw [hstart, hgap.slice]

end DeclarationText

/-- The declaration of a node that is made of a declaration. -/
theorem snapshotDeclaration?_node {d : DeclarationText} (previous : Node)
    (h : StandsAt source s (d.text ++ u)) :
    snapshotDeclaration? source (some previous) (d.node s)
      = some (d.toDeclaration source previous.stop.byte s.byte) := by
  have hproperty : source.slice s.byte (s.behind d.name).byte = d.name := by
    rw [Spot.byte_behind]
    refine StandsAt.slice
      (u := d.gap ++ ([':'] ++ (d.value ++ ((if d.terminated then [';'] else []) ++ u)))) ?_
    simpa [DeclarationText.text] using h
  have hstop : (d.node s).stop.byte = s.byte + d.text.byteSize := Spot.byte_behind _ _
  have hposition : positionOf source (d.node s) = .after (source.takeBytes s.byte) :=
    positionOf_eq (show StandsAt source (d.node s).start _ from h)
  rw [snapshotDeclaration?, d.find?_propertyName_node, DeclarationText.rawValue?_node h]
  simp only [Option.bind_eq_bind, Option.bind_some, d.valueStop_node, d.isSome_semicolon?_node,
    leaf_start, leaf_stop]
  rw [hproperty, DeclarationText.slice_separator h, hstop, hposition]
  rfl

/-! ## Nodes of heads -/

/-- The branches of a selector list are its selectors. -/
theorem branches_selectorNodes {start : Nat} (pieces : List SelectorPiece) (h : start ≤ s.byte) :
    ((selectorNodes s pieces).filter fun n => n.kind ≠ .comment && n.kind.isNamed).map
      (fun n => (n.start.byte - start, n.stop.byte - start))
        = branchesFrom (s.byte - start) pieces := by
  induction pieces generalizing s with
  | nil => rfl
  | cons piece rest ih =>
    have hbehind : (s.behind piece.text).byte - start = s.byte - start + piece.text.byteSize := by
      rw [Spot.byte_behind]
      omega
    have hrest := @ih (s.behind piece.text) (by rw [Spot.byte_behind]; omega)
    rw [hbehind] at hrest
    cases piece with
    | branch text =>
      rw [selectorNodes, branchesFrom, List.filter_cons_of_pos (by rfl), List.map_cons]
      exact congrArg₂ _ (Prod.ext rfl hbehind) hrest
    | gap text =>
      rw [selectorNodes, branchesFrom, List.filter_append, List.filter_eq_nil_iff.mpr,
        List.nil_append]
      · exact hrest
      · intro n hn
        split at hn
        · simp [List.mem_singleton.mp hn, NodeKind.isNamed]
        · simp [kind_of_mem_inkLeaf hn]

/-- The declarations among nodes, with the node in front of the first. -/
def declarationsBehind (source : Text) (previous : Node) (nodes : List Node) : List Declaration :=
  (((some previous :: nodes.map some).zip nodes).filter
    fun s => s.2.kind.isNamed && s.2.kind = .declaration).filterMap
      fun s => snapshotDeclaration? source s.1 s.2

theorem declarationsBehind_cons_of_ne (source : Text) (previous : Node) {nodes : List Node}
    (h : n.kind ≠ .declaration) :
    declarationsBehind source previous (n :: nodes) = declarationsBehind source n nodes := by
  rw [declarationsBehind, List.map_cons, List.zip_cons_cons, List.filter_cons_of_neg (by simp [h])]
  rfl

theorem declarationsBehind_node (previous : Node) {nodes : List Node} {d : DeclarationText}
    (h : StandsAt source s (d.text ++ u)) :
    declarationsBehind source previous (d.node s :: nodes) =
      d.toDeclaration source previous.stop.byte s.byte
        :: declarationsBehind source (d.node s) nodes := by
  rw [declarationsBehind, List.map_cons, List.zip_cons_cons, List.filter_cons_of_pos (by rfl),
    List.filterMap_cons, snapshotDeclaration?_node previous h]
  rfl

theorem RuleHead.find?_selectors_node (head : RuleHead) (s : Spot) (inner : List Node) :
    (head.node false s inner).namedChildren.find? (·.kind = .selectors) = some (head.list s) := by
  simp [node, headNode, list, Node.namedChildren, NodeKind.isNamed]

theorem RuleHead.find?_block_node (head : RuleHead) (s : Spot) (inner : List Node) :
    (head.node false s inner).namedChildren.find? (·.kind = .block) =
      some (blockNode (s.behind (head.selector ++ head.gap)) inner) := by
  have hnamed : ∀ n : Node, decide (n.kind.isNamed = true ∧ decide (n.kind = .block) = true)
      = decide (n.kind = .block) := by
    intro n
    cases n.kind <;> rfl
  have hchildren : (head.node false s inner).children = head.list s ::
      (inkLeaf .comment (s.behind head.selector) head.gap
        ++ [blockNode (s.behind (head.selector ++ head.gap)) inner]) := by
    rw [Spot.behind_append]
    rfl
  simp only [Node.namedChildren, List.find?_filter, hnamed]
  rw [hchildren, List.find?_cons_of_neg (by simp [list]), find?_inkLeaf_append (by simp)]
  rfl

theorem declarationNodes_blockNode (source : Text) (inner : List Node) :
    (declarationNodes (blockNode s inner)).filterMap (fun d => snapshotDeclaration? source d.1 d.2)
      = declarationsBehind source (leaf (.mark ['\x7b']) s ['\x7b']) inner := by
  rw [declarationNodes, Node.siblings, blockNode, List.map_cons, List.zip_cons_cons,
    List.filter_cons_of_neg (by simp)]
  rfl

/-- The rule of a node that is made of a head. -/
theorem snapshotRule?_node {head : RuleHead} (inner : List Node)
    (h : StandsAt source s (head.text ++ u)) :
    snapshotRule? source (head.node false s inner) = some
      { start := s.byte
        stop := inner.getLast?.elim (s.behind head.text).byte (·.stop.byte)
        selector := head.selector
        branches := branchesFrom 0 head.selectors
        indent := indentAfter (source.takeBytes s.byte)
        declarations := declarationsBehind source
          (leaf (.mark ['\x7b']) (s.behind (head.selector ++ head.gap)) ['\x7b']) inner } := by
  have hselector : source.slice s.byte (s.behind head.selector).byte = head.selector := by
    rw [Spot.byte_behind]
    refine StandsAt.slice (u := head.gap ++ ['\x7b'] ++ u) ?_
    simpa [RuleHead.text] using h
  have hbranches := branches_selectorNodes head.selectors (Nat.le_refl s.byte)
  have hstop : (head.node false s inner).stop.byte
      = inner.getLast?.elim (s.behind head.text).byte (·.stop.byte) := by
    rw [RuleHead.text, Spot.behind_append, Spot.behind_append]
    cases hlast : inner.getLast? <;>
      simp [RuleHead.node, headNode, RuleHead.list, blockNode, hlast]
  rw [snapshotRule?, head.find?_selectors_node, head.find?_block_node]
  simp only [Option.bind_eq_bind, Option.bind_some, declarationNodes_blockNode, hstop]
  rw [Node.namedChildren, List.filter_filter]
  simp only [RuleHead.list, hselector, hbranches, Nat.sub_self]
  rfl

/-! ## Nodes of all parts -/

/-- The nodes of the block at the depth. -/
def Levels.at (l : Levels) (depth : Nat) : List Node := (l.inner :: l.outer).getD depth []

@[simp] theorem Levels.at_zero (l : Levels) : l.at 0 = l.inner := rfl

@[simp] theorem Levels.cons_inner (n : Node) (l : Levels) : (l.cons n).inner = n :: l.inner := rfl

@[simp] theorem Levels.at_succ_cons (n : Node) (l : Levels) (depth : Nat) :
    (l.cons n).at (depth + 1) = l.at (depth + 1) := rfl

@[simp] theorem Levels.close_inner (n : Node) (l : Levels) : (l.close n).inner = [n] := rfl

@[simp] theorem Levels.at_succ_close (n : Node) (l : Levels) (depth : Nat) :
    (l.close n).at (depth + 1) = l.at depth := rfl

@[simp] theorem Levels.open_inner (node : List Node → Node) (l : Levels) :
    (l.open node).inner = node l.inner :: l.at 1 := by
  cases hl : l.outer <;> simp [Levels.open, Levels.at, hl]

@[simp] theorem Levels.at_succ_open (node : List Node → Node) (l : Levels) (depth : Nat) :
    (l.open node).at (depth + 1) = l.at (depth + 2) := by
  cases hl : l.outer <;> simp [Levels.open, Levels.at, hl]

/-- Where the last of some nodes ends, or else what is in front of them. -/
def stopOf (last : Nat) (nodes : List Node) : Nat := nodes.getLast?.elim last (·.stop.byte)

@[simp] theorem stopOf_nil (last : Nat) : stopOf last [] = last := rfl

@[simp] theorem stopOf_cons (last : Nat) (n : Node) (nodes : List Node) :
    stopOf last (n :: nodes) = stopOf n.stop.byte nodes := by
  cases nodes with
  | nil => rfl
  | cons m nodes =>
    rw [stopOf, stopOf, List.getLast?_cons_cons,
      List.getLast?_eq_some_getLast (List.cons_ne_nil _ _)]
    rfl

/-- Where the part in front of the nodes at a depth ends. -/
def blockStart (last offset : Nat) (all : List Part) : Nat → Nat
  | 0 => last
  | depth + 1 => blockStop depth last offset all

theorem stop_blockNode (s : Spot) (inner : List Node) :
    (blockNode s inner).stop.byte = stopOf (s.byte + Text.byteSize ['\x7b']) inner := by
  cases hlast : inner.getLast? <;> simp [blockNode, stopOf, hlast]

theorem stop_headNode {kind between : NodeKind} {first : Node} (gap : Text) (inner : List Node)
    (h : first.stop = s.behind t) : (headNode kind first between gap inner).stop.byte
      = stopOf (s.byte + (t ++ gap ++ ['\x7b']).byteSize) inner := by
  rw [headNode, h, stop_blockNode, Spot.byte_behind, Spot.byte_behind, Text.byteSize_append,
    Text.byteSize_append, Nat.add_assoc, Nat.add_assoc, Nat.add_assoc]

theorem RuleHead.stop_node (head : RuleHead) (isFrame : Bool) (s : Spot) (inner : List Node) :
    (head.node isFrame s inner).stop.byte = stopOf (s.byte + head.text.byteSize) inner := by
  cases isFrame <;> exact stop_headNode head.gap inner rfl

theorem AtHead.stop_node (head : AtHead) (s : Spot) (inner : List Node) :
    (head.node s inner).stop.byte = stopOf (s.byte + head.text.byteSize) inner :=
  stop_headNode head.prelude inner rfl

theorem RuleHead.kind_node_ne (head : RuleHead) (isFrame : Bool) (s : Spot) (inner : List Node) :
    (head.node isFrame s inner).kind ≠ .declaration := by
  cases isFrame <;> simp [node, headNode]

variable {offset depth last : Nat} {node : List Node → Node} {l : Levels}

/-- Behind the node of a block that is opened the nodes are those of the block around it. -/
theorem stopOf_open (last : Nat) (hstop : ∀ inner, (node inner).stop.byte = stopOf offset inner)
    (hinner : stopOf offset l.inner = blockStop 0 offset offset all)
    (houter : stopOf (blockStop 0 offset offset all) (l.at 1) = blockStop 1 offset offset all) :
    stopOf last (l.open node).inner = blockStop 1 offset offset all := by
  rw [Levels.open_inner, stopOf_cons, hstop, hinner, houter]

/-- A block ends behind its last node. -/
theorem stopOf_levels (hs : s.byte = offset) (depth last : Nat) :
    stopOf (blockStart last offset all depth) ((levels blocks s all).at depth)
      = blockStop depth last offset all := by
  induction all generalizing blocks s offset depth last with
  | nil => cases depth <;> rfl
  | cons p rest ih =>
    have hbehind : (s.behind p.text).byte = offset + p.text.byteSize := by
      rw [Spot.byte_behind, hs]
    cases p with
    | space text => cases depth <;> exact ih hbehind _ last
    | close =>
      cases depth with
      | zero => exact hbehind
      | succ depth => cases depth <;> exact ih hbehind _ _
    | rule head =>
      rw [levels]
      cases depth with
      | zero =>
        refine stopOf_open last (fun inner => ?_) (ih hbehind 0 _) (ih hbehind 1 _)
        rw [RuleHead.stop_node, hs]
        rfl
      | succ depth =>
        rw [Levels.at_succ_open]
        exact ih hbehind (depth + 2) _
    | atBlock head =>
      rw [levels]
      cases depth with
      | zero =>
        refine stopOf_open last (fun inner => ?_) (ih hbehind 0 _) (ih hbehind 1 _)
        rw [AtHead.stop_node, hs]
        rfl
      | succ depth =>
        rw [Levels.at_succ_open]
        exact ih hbehind (depth + 2) _
    | _ =>
      cases depth with
      | zero =>
        refine (stopOf_cons _ _ _).trans ?_
        exact (congrArg (stopOf · _) hbehind).trans (ih hbehind 0 _)
      | succ depth => exact ih hbehind (depth + 1) (offset + Text.byteSize _)

theorem declarationsBehind_open {previous : Node} {declarations : List Declaration}
    (hkind : ∀ inner, (node inner).kind ≠ .declaration)
    (hstop : ∀ inner, (node inner).stop.byte = stopOf offset inner)
    (hinner : stopOf offset l.inner = blockStop 0 offset offset all)
    (houter : ∀ {n : Node}, n.stop.byte = blockStop 0 offset offset all →
      declarationsBehind source n (l.at 1) = declarations) :
    declarationsBehind source previous (l.open node).inner = declarations := by
  rw [Levels.open_inner, declarationsBehind_cons_of_ne _ _ (hkind _)]
  exact houter ((hstop _).trans hinner)

/-- The declarations of a block are its nodes that are made of declarations. -/
theorem declarationsBehind_levels (h : StandsAt source s (all.flatMap Part.text))
    (hs : s.byte = offset) (depth last : Nat) {previous : Node}
    (hprevious : previous.stop.byte = blockStart last offset all depth) :
    declarationsBehind source previous ((levels blocks s all).at depth)
      = declarationsFrom source depth last offset all := by
  induction all generalizing blocks s offset depth last previous with
  | nil => cases depth <;> rfl
  | cons p rest ih =>
    have hbehind : (s.behind p.text).byte = offset + p.text.byteSize := by
      rw [Spot.byte_behind, hs]
    have hrest := StandsAt.behind (List.flatMap_cons ▸ h)
    cases p with
    | space text =>
      cases depth <;> exact ih hrest hbehind _ last hprevious
    | close =>
      cases depth with
      | zero => rfl
      | succ depth => cases depth <;> exact ih hrest hbehind _ _ hprevious
    | rule head =>
      rw [levels]
      cases depth with
      | zero =>
        refine declarationsBehind_open (head.kind_node_ne _ s) (fun inner => ?_)
          (stopOf_levels hbehind 0 _) fun hnode => ih hrest hbehind 1 _ hnode
        rw [RuleHead.stop_node, hs]
        rfl
      | succ depth =>
        rw [Levels.at_succ_open]
        exact ih hrest hbehind (depth + 2) _ hprevious
    | atBlock head =>
      rw [levels]
      cases depth with
      | zero =>
        refine declarationsBehind_open (fun inner => by simp [AtHead.node, headNode])
          (fun inner => ?_) (stopOf_levels hbehind 0 _) fun hnode => ih hrest hbehind 1 _ hnode
        rw [AtHead.stop_node, hs]
        rfl
      | succ depth =>
        rw [Levels.at_succ_open]
        exact ih hrest hbehind (depth + 2) _ hprevious
    | declaration d =>
      cases depth with
      | zero =>
        rw [List.flatMap_cons] at h
        refine (declarationsBehind_node previous h).trans ?_
        rw [hs, hprevious, declarationsFrom, if_pos rfl]
        exact congrArg _ (ih hrest hbehind 0 _ hbehind)
      | succ depth =>
        rw [declarationsFrom, if_neg (Nat.succ_ne_zero depth)]
        exact ih hrest hbehind (depth + 1) _ hprevious
    | _ =>
      cases depth with
      | zero =>
        refine (declarationsBehind_cons_of_ne _ _ (by simp)).trans ?_
        exact ih hrest hbehind 0 _ hbehind
      | succ depth => exact ih hrest hbehind (depth + 1) _ hprevious

/-! ## Rules of nodes -/

/-- The rules of the rule sets among some nodes and in them. -/
def rulesOf (source : Text) (nodes : List Node) : List Rule :=
  (Node.preorderAll nodes).filterMap fun n =>
    if n.kind = .ruleSet then snapshotRule? source n else none

theorem rulesOf_append (source : Text) (nodes more : List Node) :
    rulesOf source (nodes ++ more) = rulesOf source nodes ++ rulesOf source more := by
  rw [rulesOf, Node.preorderAll_append, List.filterMap_append]
  rfl

theorem rulesOf_cons (source : Text) (n : Node) (nodes : List Node) :
    rulesOf source (n :: nodes) =
      (if n.kind = .ruleSet then snapshotRule? source n else none).toList
        ++ (rulesOf source n.children ++ rulesOf source nodes) := by
  rw [rulesOf, Node.preorderAll, Node.preorder_eq, List.cons_append, List.filterMap_cons]
  cases (if n.kind = .ruleSet then snapshotRule? source n else none) <;>
    simp [rulesOf]

/-- The node is no rule set, and nothing is in it. -/
def Node.IsPlain (n : Node) : Prop := n.kind ≠ .ruleSet ∧ n.children = []

theorem isPlain_leaf {kind : NodeKind} (h : kind ≠ .ruleSet) (s : Spot) (t : Text) :
    (leaf kind s t).IsPlain :=
  ⟨h, rfl⟩

theorem isPlain_inkLeaf {kind : NodeKind} (h : kind ≠ .ruleSet) (s : Spot) (t : Text) :
    ∀ n ∈ inkLeaf kind s t, n.IsPlain := by
  unfold inkLeaf
  split
  · exact fun n hn => absurd hn List.not_mem_nil
  · exact List.forall_mem_singleton.mpr (isPlain_leaf h _ _)

theorem isPlain_node (d : DeclarationText) (s : Spot) : ∀ n ∈ (d.node s).children, n.IsPlain := by
  refine List.forall_mem_append.mpr ⟨List.forall_mem_cons.mpr ⟨isPlain_leaf (by simp) _ _,
    List.forall_mem_append.mpr ⟨isPlain_inkLeaf (by simp) _ _, List.forall_mem_cons.mpr
      ⟨isPlain_leaf (by simp) _ _, isPlain_inkLeaf (by simp) _ _⟩⟩⟩, ?_⟩
  split
  · exact List.forall_mem_singleton.mpr (isPlain_leaf (by simp) _ _)
  · exact fun n hn => absurd hn List.not_mem_nil

theorem isPlain_selectorNodes (pieces : List SelectorPiece) (s : Spot) :
    ∀ n ∈ selectorNodes s pieces, n.IsPlain := by
  induction pieces generalizing s with
  | nil => exact fun n hn => absurd hn List.not_mem_nil
  | cons piece rest ih =>
    cases piece with
    | branch text => exact List.forall_mem_cons.mpr ⟨isPlain_leaf (by simp) _ _, ih _⟩
    | gap text =>
      refine List.forall_mem_append.mpr ⟨?_, ih _⟩
      split
      · exact List.forall_mem_singleton.mpr (isPlain_leaf (by simp) _ _)
      · exact isPlain_inkLeaf (by simp) _ _

/-- Plain nodes give no rules. -/
theorem rulesOf_eq_nil {nodes : List Node} (h : ∀ n ∈ nodes, n.IsPlain) :
    rulesOf source nodes = [] := by
  induction nodes with
  | nil => rfl
  | cons n nodes ih =>
    obtain ⟨⟨hkind, hchildren⟩, h⟩ := List.forall_mem_cons.mp h
    rw [rulesOf_cons, if_neg hkind, hchildren, ih h]
    rfl

theorem rulesOf_blockNode (inner : List Node) :
    rulesOf source [blockNode s inner] = rulesOf source inner := by
  rw [rulesOf_cons, blockNode, rulesOf_cons]
  simp [rulesOf, Node.preorderAll, leaf]

/-- In the node of a head the rules are those of its block. -/
theorem rulesOf_headNode {kind between : NodeKind} {first : Node} (gap : Text) (inner : List Node)
    (hkind : first.kind ≠ .ruleSet) (hfirst : ∀ n ∈ first.children, n.IsPlain)
    (hbetween : between ≠ .ruleSet) :
    rulesOf source (headNode kind first between gap inner).children = rulesOf source inner := by
  rw [headNode, rulesOf_cons, if_neg hkind, rulesOf_eq_nil hfirst, rulesOf_append,
    rulesOf_eq_nil (isPlain_inkLeaf hbetween _ _), rulesOf_blockNode]
  rfl

theorem rulesOf_node (head : RuleHead) (isFrame : Bool) (inner : List Node) :
    rulesOf source (head.node isFrame s inner).children = rulesOf source inner := by
  cases isFrame with
  | true => exact rulesOf_headNode head.gap inner (by simp) (by simp [leaf]) (by simp)
  | false =>
    exact rulesOf_headNode head.gap inner (by simp [RuleHead.list])
      (isPlain_selectorNodes head.selectors s) (by simp)

theorem Levels.nodes_open (node : List Node → Node) (l : Levels) :
    (l.open node).nodes = node l.inner :: l.outer.flatten := by
  cases hl : l.outer <;> simp [Levels.open, Levels.nodes, hl]

/-- The rule of a node that is made of a head, read off the parts behind the head. -/
theorem snapshotRule?_node_levels {head : RuleHead}
    (h : StandsAt source s (head.text ++ all.flatMap Part.text)) (hs : s.byte = offset) :
    snapshotRule? source (head.node false s (levels blocks (s.behind head.text) all).inner)
      = some (head.toRule source offset all) := by
  have hbehind : (s.behind head.text).byte = offset + head.text.byteSize := by
    rw [Spot.byte_behind, hs]
  have hstop : stopOf (offset + head.text.byteSize) (levels blocks (s.behind head.text) all).inner
      = blockStop 0 (offset + head.text.byteSize) (offset + head.text.byteSize) all :=
    stopOf_levels hbehind 0 _
  have hbrace : (leaf (.mark ['\x7b']) (s.behind (head.selector ++ head.gap)) ['\x7b']).stop.byte
      = offset + head.text.byteSize := by
    rw [leaf_stop, ← Spot.behind_append, ← hbehind, RuleHead.text]
  have hdeclarations : declarationsBehind source _ (levels blocks (s.behind head.text) all).inner
      = declarationsFrom source 0 (offset + head.text.byteSize) _ all :=
    declarationsBehind_levels h.behind hbehind 0 _ hbrace
  rw [snapshotRule?_node _ h, hbehind, hs, hdeclarations, ← stopOf, hstop]
  rfl

/-- The rules among the nodes of the parts are the rules among the parts. -/
theorem rulesOf_levels (h : StandsAt source s (all.flatMap Part.text)) (hs : s.byte = offset) :
    rulesOf source (levels blocks s all).nodes = rulesFrom source blocks offset all := by
  induction all generalizing blocks s offset with
  | nil => rfl
  | cons p rest ih =>
    have hbehind : (s.behind p.text).byte = offset + p.text.byteSize := by
      rw [Spot.byte_behind, hs]
    have hrest := StandsAt.behind (List.flatMap_cons ▸ h)
    cases p with
    | space text => exact ih hrest hbehind
    | close => exact ih hrest hbehind
    | rule head =>
      rw [levels, Levels.nodes_open, rulesFrom, ← ih hrest hbehind, Levels.nodes, rulesOf_append]
      rw [rulesOf_cons, rulesOf_node]
      by_cases hframes : blocks.head? = some true
      · rw [if_pos hframes, decide_eq_true hframes]
        rfl
      · rw [if_neg hframes, decide_eq_false hframes, if_pos (by rfl),
          show (Part.rule head).text = head.text from rfl, snapshotRule?_node_levels h hs]
        rfl
    | atBlock head =>
      rw [levels, Levels.nodes_open, rulesFrom, ← ih hrest hbehind, Levels.nodes, rulesOf_append,
        rulesOf_cons, AtHead.node, rulesOf_headNode head.prelude _ (by simp) (by simp [leaf])
          (by simp)]
      rfl
    | declaration d =>
      refine (rulesOf_cons _ _ _).trans ?_
      rw [rulesOf_eq_nil (isPlain_node d s)]
      exact ih hrest hbehind
    | _ => exact ih hrest hbehind

/-- The rules of a sheet are read off its parts. -/
theorem rules_eq (source : Text) : rules source = rulesFrom source [] 0 (parts source) := by
  have hparts : StandsAt source .zero ((parts source).flatMap Part.text) := by
    rw [flatMap_text_parts]
    exact standsAt_zero source
  rw [rules, collectRules, Cursor.walk_root, Node.preorder_eq]
  exact rulesOf_levels hparts rfl

end Sheet

end LeadingTrim
