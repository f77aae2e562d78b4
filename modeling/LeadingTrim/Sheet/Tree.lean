/-
# The syntax tree of a style sheet

The tree is built from the parts of the sheet. White space has no node. A declaration, a comment and
a statement are nodes by themselves, and the head of a block is a node together with all parts up to
the brace that closes the block. What is between the braces of a list of keyframes is no rule, but
rules inside of that are.

While the parts are read from the end, the nodes behind a place are kept apart by the blocks in
which they stand: first those up to the end of the innermost block that is open at the place, then
those behind that up to the end of the block around, and so on (`levels`).
-/

import LeadingTrim.Sheet.Part
import LeadingTrim.Sheet.Rule

namespace LeadingTrim.Sheet

open Text (isSheetSpace)

/-! ## Single nodes -/

/-- The node of a text without other nodes in it. -/
def leaf (kind : NodeKind) (s : Spot) (text : Text) : Node := ⟨kind, s, s.behind text, []⟩

/-- The text without white space at either end. -/
def ink (text : Text) : Text :=
  ((text.dropWhile isSheetSpace).reverse.dropWhile isSheetSpace).reverse

/-- The node of a text without the white space at its ends, if anything else is in it. -/
def inkLeaf (kind : NodeKind) (s : Spot) (text : Text) : List Node :=
  if ink text = [] then []
  else [leaf kind (s.behind (text.takeWhile isSheetSpace)) (ink text)]

/-- The node of a declaration. -/
def DeclarationText.node (d : DeclarationText) (s : Spot) : Node :=
  let name := leaf .propertyName s d.name
  let colon := leaf (.mark [':']) (name.stop.behind d.gap) [':']
  let semicolon := leaf (.mark [';']) (colon.stop.behind d.value) [';']
  ⟨.declaration, s, s.behind d.text,
    name :: (inkLeaf .comment name.stop d.gap ++ colon :: inkLeaf .other colon.stop d.value)
      ++ if d.terminated then [semicolon] else []⟩

/-- The nodes of pieces of a selector list. -/
def selectorNodes : Spot → List SelectorPiece → List Node
  | _, [] => []
  | s, .branch text :: rest => leaf .other s text :: selectorNodes (s.behind text) rest
  | s, .gap text :: rest =>
    (if text = [','] then [leaf (.mark [',']) s text] else inkLeaf .comment s text)
      ++ selectorNodes (s.behind text) rest

/-- The node of a block that is opened at a place, with the nodes behind its opening brace. -/
def blockNode (s : Spot) (inner : List Node) : Node :=
  let brace := leaf (.mark ['\x7b']) s ['\x7b']
  ⟨.block, s, inner.getLast?.elim brace.stop Node.stop, brace :: inner⟩

/-- The node of a head: a first node, the gap in front of the opening brace, and the block, with the
nodes behind the brace up to the end of the block. -/
def headNode (kind : NodeKind) (first : Node) (between : NodeKind) (gap : Text)
    (inner : List Node) : Node :=
  let block := blockNode (first.stop.behind gap) inner
  ⟨kind, first.start, block.stop, first :: (inkLeaf between first.stop gap ++ [block])⟩

/-- The node of a selector list. -/
def RuleHead.list (head : RuleHead) (s : Spot) : Node :=
  ⟨.selectors, s, s.behind head.selector, selectorNodes s head.selectors⟩

/-- The node of a rule, or of a block in a list of keyframes. -/
def RuleHead.node (head : RuleHead) (isFrame : Bool) (s : Spot) (inner : List Node) : Node :=
  if isFrame then headNode .other (leaf .other s head.selector) .comment head.gap inner
  else headNode .ruleSet (head.list s) .comment head.gap inner

/-- The node of an at-rule. -/
def AtHead.node (head : AtHead) (s : Spot) (inner : List Node) : Node :=
  headNode .other (leaf (.mark head.keyword) s head.keyword) .other head.prelude inner

/-! ## All nodes -/

/-- The nodes behind a place: those up to the end of the innermost open block, and for each block
around those that are left in it. -/
structure Levels where
  /-- The nodes up to the end of the innermost block. -/
  inner : List Node
  /-- The nodes behind that, block by block. -/
  outer : List (List Node)

/-- All nodes behind the place. -/
def Levels.nodes (l : Levels) : List Node := l.inner ++ l.outer.flatten

/-- The nodes with one more in front. -/
def Levels.cons (n : Node) (l : Levels) : Levels := ⟨n :: l.inner, l.outer⟩

/-- The nodes with the brace in front that closes the innermost block. -/
def Levels.close (brace : Node) (l : Levels) : Levels := ⟨[brace], l.inner :: l.outer⟩

/-- The nodes with the innermost block made a node of the block around. -/
def Levels.open (node : List Node → Node) (l : Levels) : Levels :=
  ⟨node l.inner :: l.outer.headD [], l.outer.tail⟩

/-- The nodes of the parts at a place. The first argument says of each open block, the innermost
first, whether it is a list of keyframes. -/
def levels : List Bool → Spot → List Part → Levels
  | _, _, [] => ⟨[], []⟩
  | blocks, s, p :: rest =>
    let behind := s.behind p.text
    match p with
    | .space _ => levels blocks behind rest
    | .comment text => (levels blocks behind rest).cons (leaf .comment s text)
    | .lineComment text | .atStatement text | .stray text =>
      (levels blocks behind rest).cons (leaf .other s text)
    | .declaration d => (levels blocks behind rest).cons (d.node s)
    | .rule head =>
      (levels (false :: blocks) behind rest).open (head.node (blocks.head? = some true) s)
    | .atBlock head =>
      (levels (isKeyframes head.keyword :: blocks) behind rest).open (head.node s)
    | .close => (levels blocks.tail behind rest).close (leaf (.mark ['}']) s ['}'])

/-- The place at the start of a text. -/
def Spot.zero : Spot := ⟨0, 0, 0⟩

/-- The syntax tree of a style sheet. -/
def tree (source : Text) : Node :=
  ⟨.other, .zero, Spot.zero.behind source, (levels [] .zero (parts source)).nodes⟩

/-- The rules of a style sheet in document order. -/
def rules (source : Text) : List Rule := collectRules source (tree source)

end LeadingTrim.Sheet
