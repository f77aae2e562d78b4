/-
# Trimming style sheets

A trimmer is made from a configuration and can be used for any number of style sheets. A run reads
every declaration whose property is the configured one as a directive, turns each directive into
edits, and applies all edits at once. The first directive that cannot be read ends the run. With a
run there comes a new source map, or a given one carried over.
-/

import LeadingTrim.Config
import LeadingTrim.Correction
import LeadingTrim.Directive.Reader
import LeadingTrim.Problem
import LeadingTrim.Sheet.Soundness
import LeadingTrim.Sheet.Tree
import LeadingTrim.SourceMap.Trace
import LeadingTrim.SourceMap.Writer

namespace LeadingTrim

open Sheet (Declaration Rule)

/-- A configured transformation of style sheets. -/
structure Trimmer where
  /-- The property of directives. -/
  property : Text
  /-- All known fonts. -/
  table : FontTable
  /-- The family that is tried last. -/
  defaultFamily : Text
  /-- The line height where none is given. -/
  defaultLineHeight : Float

namespace Trimmer

/-- The trimmer for a configuration. -/
def ofConfig (c : Config) : Trimmer where
  property := c.property
  table := FontTable.bundled.override c.fonts
  defaultFamily := c.defaultFamily
  defaultLineHeight := soundLineHeight c.defaultLineHeight

/-- What is recorded when a trimmer is made. -/
def readyRecord (c : Config) : Record :=
  ⟨.debug, "font table ready: ".toList ++ Decimal.ofInt (ofConfig c).table.size
    ++ " families (".toList ++ Decimal.ofInt c.fonts.size ++ " overrides)".toList⟩

/-! ## Directives -/

/-- The directives of a list of rules, each with its rule, in order. -/
def directives (t : Trimmer) (rules : List Rule) : List (Rule × Declaration) :=
  rules.flatMap fun r =>
    (r.declarations.filter fun d => d.property = t.property).map fun d => (r, d)

/-- The font settings of a rule. -/
def ambient (r : Rule) : Font.Ambient :=
  Font.ambient (r.declarations.map fun d => (d.property, d.value))

/-- The metrics that apply to a directive in a rule. -/
def metrics (t : Trimmer) (r : Rule) (directive : Directive) : Metrics :=
  .resolve directive (ambient r) t.table t.defaultFamily t.defaultLineHeight

/-- What becomes of a directive that can be read. -/
structure Outcome where
  /-- What is recorded. -/
  records : List Record
  /-- The edits. -/
  edits : List Edit

/-- The record of the metrics of a directive. -/
def metricsRecord (d : Declaration) (m : Metrics) : Record :=
  let number := Decimal.Format.message.write
  ⟨.trace, d.position.text ++ ": space SpaceValues \x7b before: ".toList ++ number m.space.before
    ++ ", after: ".toList ++ number m.space.after ++ " \x7d, line-height ".toList
    ++ Decimal.Format.plain.write m.lineHeight.value ++ m.lineHeight.unit⟩

/-- The record of the margins of a directive. -/
def offsetsRecord (r : Rule) (d : Declaration) (o : Offsets) : Record :=
  ⟨.debug, d.position.text ++ ": `".toList ++ d.property ++ ": ".toList ++ d.value
    ++ "` on `".toList ++ r.selector ++ "` -> before ".toList ++ o.before.quoted
    ++ ", after ".toList ++ o.after.quoted⟩

/-- The record of a directive that needs no margin. -/
def droppedRecord (d : Declaration) : Record :=
  ⟨.debug, d.position.text ++ ": no correction needed, dropping `".toList ++ d.property ++ ['`']⟩

/-- What becomes of a directive, or why it cannot be read. -/
def outcome (t : Trimmer) (source : Text) (r : Rule) (d : Declaration) : Except Problem Outcome :=
  match Directive.parse d.value with
  | .error refusal => .error (.malformedDirective d.property d.value d.position refusal)
  | .ok directive =>
    let m := t.metrics r directive
    let o := Offsets.ofMetrics m
    let dropped := if (o.placement? directive.placement).isNone then [droppedRecord d] else []
    .ok ⟨metricsRecord d m :: offsetsRecord r d o :: dropped,
      Correction.edits source r d directive.scope directive.placement o⟩

/-- The edits of each directive, or the first problem, with what is recorded up to it. -/
def outcomes (t : Trimmer) (source : Text) :
    List (Rule × Declaration) → List Record × Except Problem (List (List Edit))
  | [] => ([], .ok [])
  | (r, d) :: rest =>
    match t.outcome source r d with
    | .error p => ([], .error p)
    | .ok o =>
      let (records, edits) := outcomes t source rest
      (o.records ++ records, edits.map (o.edits :: ·))

/-! ## Runs -/

/-- An edit with the number of its directive. -/
abbrev Numbered := Edit × Nat

/-- The order of edits: by their ranges, and at one place those of later directives first. -/
def leEdits (a b : Numbered) : Bool :=
  if a.1.start ≠ b.1.start then a.1.start < b.1.start
  else if a.1.stop ≠ b.1.stop then a.1.stop < b.1.stop
  else b.2 ≤ a.2

/-- The edits of all directives in order. -/
def sortEdits (edits : List (List Edit)) : List Edit :=
  (stableSort leEdits (edits.zipIdx.flatMap fun group => group.1.map fun e => (e, group.2))).map
    Prod.fst

/-- The record of a style sheet that is not sound. -/
def unsoundRecord : Record :=
  ⟨.warn, "style sheet contains syntax errors; declarations inside them are skipped".toList⟩

/-- What is recorded in a run. -/
def records (t : Trimmer) (source : Text) : List Record :=
  (if Sheet.isSound source then [] else [unsoundRecord])
    ++ (t.outcomes source (t.directives (Sheet.rules source))).1

/-- The edits of a style sheet with the given rules, valid and in order. -/
def edits (t : Trimmer) (source : Text) (rules : List Rule) : Except Problem (List Edit) :=
  match (t.outcomes source (t.directives rules)).2 with
  | .error p => .error p
  | .ok groups =>
    let edits := sortEdits groups
    match Edit.validate source.byteSize edits with
    | .error fault => .error (.edits fault)
    | .ok () => .ok edits

/-- The trimmed style sheet with the given rules, and the edits that make it. -/
def runOn (t : Trimmer) (source : Text) (rules : List Rule) : Except Problem (Text × List Edit) :=
  (t.edits source rules).map fun edits => (Edit.applyAll source edits, edits)

/-- The trimmed style sheet and the edits that make it. -/
def run (t : Trimmer) (source : Text) : Except Problem (Text × List Edit) :=
  t.runOn source (Sheet.rules source)

/-- The trimmed style sheet. -/
def trim (t : Trimmer) (source : Text) : Except Problem Text := (t.run source).map Prod.fst

/-- A style sheet with its source map. -/
structure Output where
  /-- The style sheet. -/
  code : Text
  /-- The source map as JSON. -/
  map : Text
  deriving DecidableEq, Repr

/-- The text of a new map from an edited text to the text before, whose name is given. -/
def newMap (input output file : Text) (edits : List Edit) : Text :=
  SourceMap.write (some (file, input)) (SourceMap.create input output file edits)

/-- The text of a map of the text before, carried over to the edited text. -/
def carriedMap (input output earlier : Text) (edits : List Edit) : Except Problem Text :=
  match SourceMap.read earlier with
  | .error fault => .error (.sourceMap fault)
  | .ok points => .ok (SourceMap.write none (SourceMap.carryInWords input output points edits))

/-- The trimmed style sheet with a new map. -/
def trimWithMap (t : Trimmer) (source file : Text) : Except Problem Output :=
  (t.run source).map fun (code, edits) => ⟨code, newMap source code file edits⟩

/-- The trimmed style sheet with its map carried over. The style sheet is trimmed before the map is
looked at. -/
def trimCarryingMap (t : Trimmer) (source earlier : Text) : Except Problem Output := do
  let (code, edits) ← t.run source
  let map ← carriedMap source code earlier edits
  return ⟨code, map⟩

end Trimmer

end LeadingTrim
