/-
# The rules of a style sheet

What the transform needs to know of a sheet: its style rules in document order, a rule before
those nested in it, each with its selector list, its indentation and the declarations that stand
directly in its block. All of it is read off the syntax tree of the sheet in one walk. Offsets are
those of the nodes, and texts are cut out of the sheet between them.
-/

import LeadingTrim.Sheet.Comment
import LeadingTrim.Sheet.Node

namespace LeadingTrim

/-- A place in a text, for messages: line and column count from one, columns in characters. -/
structure Position where
  /-- The line. -/
  line : Nat
  /-- The column. -/
  column : Nat
  deriving DecidableEq, Repr

/-- The characters behind the last line feed. -/
def Text.lastLine (t : Text) : Text := (t.reverse.takeWhile (· != '\n')).reverse

namespace Sheet

/-- A declaration of a rule. Offsets count bytes of the sheet. -/
structure Declaration where
  /-- The name of the property. -/
  property : Text
  /-- The value without comments and surrounding blanks. -/
  value : Text
  /-- Where the name begins. -/
  start : Nat
  /-- Where the declaration ends, its semicolon included. -/
  stop : Nat
  /-- Where the white space before the declaration begins. -/
  leadingStart : Nat
  /-- The text between the name and the value. -/
  separator : Text
  /-- Whether a semicolon ends the declaration. -/
  terminated : Bool
  /-- Where the declaration stands, for messages. -/
  position : Position
  deriving DecidableEq, Repr

/-- The text between the part before and the declaration. -/
def Declaration.leading (d : Declaration) (source : Text) : Text :=
  source.slice d.leadingStart d.start

/-- A style rule. Offsets count bytes of the sheet. -/
structure Rule where
  /-- Where the selector list begins. -/
  start : Nat
  /-- Where the rule ends, its closing brace included. -/
  stop : Nat
  /-- The selector list. -/
  selector : Text
  /-- Where in the selector list each selector begins and ends. -/
  branches : List (Nat × Nat)
  /-- The spaces and tabs before the rule, if nothing else precedes it on its line. -/
  indent : Text
  /-- The declarations directly in the rule's block. -/
  declarations : List Declaration
  deriving DecidableEq, Repr

/-! ## Reading a rule off its node -/

/-- The place of a node, for messages. -/
def positionOf (source : Text) (n : Node) : Position :=
  let lineStart := n.start.byte - n.start.column
  ⟨n.start.row + 1, (source.slice lineStart n.start.byte).length + 1⟩

/-- The spaces and tabs at the end of a text, if nothing else stands on its last line. -/
def indentAfter (t : Text) : Text :=
  if t.lastLine.all fun c => c == ' ' || c == '\t' then t.lastLine else []

/-- The semicolon at the end of a declaration. -/
def semicolon? (n : Node) : Option Node := n.children.getLast?.filter (·.kind = .mark [';'])

/-- Where the value of a declaration ends. -/
def valueStop (n : Node) : Nat := (semicolon? n).elim n.stop.byte (·.start.byte)

/-- The value of a declaration as it is written, all that stands behind the colon. -/
def rawValue? (source : Text) (n : Node) : Option Text := do
  let colon ← n.children.find? (·.kind = .mark [':'])
  source.slice? colon.stop.byte (valueStop n)

/-- The declaration of a node, with the sibling in front of the node. The value begins as far in
front of its end as it is long without the blanks at its start. -/
def snapshotDeclaration? (source : Text) (previous : Option Node) (n : Node) :
    Option Declaration := do
  let name ← n.children.find? (·.kind = .propertyName)
  let raw ← rawValue? source n
  let valueStart := valueStop n - raw.trimStart.byteSize
  return {
    property := source.slice name.start.byte name.stop.byte
    value := Text.trim (stripComments raw)
    start := n.start.byte
    stop := n.stop.byte
    leadingStart := previous.elim n.start.byte (·.stop.byte)
    separator := source.slice name.stop.byte valueStart
    terminated := (semicolon? n).isSome
    position := positionOf source n }

/-- The declarations of a block, each with the sibling in front of it. -/
def declarationNodes (block : Node) : List (Option Node × Node) :=
  block.siblings.filter fun s => s.2.kind.isNamed && s.2.kind = .declaration

/-- The rule of a node. -/
def snapshotRule? (source : Text) (n : Node) : Option Rule := do
  let selectors ← n.namedChildren.find? (·.kind = .selectors)
  let block ← n.namedChildren.find? (·.kind = .block)
  let start := selectors.start.byte
  return {
    start := n.start.byte
    stop := n.stop.byte
    selector := source.slice start selectors.stop.byte
    branches := (selectors.namedChildren.filter (·.kind ≠ .comment)).map fun b =>
      (b.start.byte - start, b.stop.byte - start)
    indent := indentAfter (source.takeBytes n.start.byte)
    declarations := (declarationNodes block).filterMap fun s =>
      snapshotDeclaration? source s.1 s.2 }

/-- The rules of a tree, in the order in which a walk comes to them. -/
def collectRules (source : Text) (tree : Node) : List Rule :=
  (Cursor.root tree).walk.filterMap fun n =>
    if n.kind = .ruleSet then snapshotRule? source n else none

end Sheet

end LeadingTrim
