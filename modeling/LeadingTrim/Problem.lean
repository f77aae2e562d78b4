/-
# What a run can fail with, and what it records
-/

import LeadingTrim.Directive.Reader
import LeadingTrim.Edit.Validity
import LeadingTrim.Sheet.Rule
import LeadingTrim.SourceMap.Reader
import LeadingTrim.Text.Quoted

namespace LeadingTrim

/-- The text of a position. -/
def Position.text (p : Position) : Text := Decimal.ofInt p.line ++ ':' :: Decimal.ofInt p.column

/-- Why a run fails. -/
inductive Problem
  /-- The value of a directive cannot be read, because of its form if not for another reason. -/
  | malformedDirective (property value : Text) (position : Position)
    (refusal : optParam Directive.Refusal .malformed)
  /-- The edits do not fit together. -/
  | edits (fault : Edit.Fault)
  /-- The map of the style sheet cannot be read. -/
  | sourceMap (fault : SourceMap.Fault)
  deriving DecidableEq, Repr

/-- The message for a problem; there is none for a map whose JSON is at fault. -/
def Problem.message? : Problem → Option Text
  | malformedDirective property value position .malformed =>
    some (position.text ++ ": incorrect `".toList ++ property ++ "` value: ".toList
      ++ value.quoted)
  | malformedDirective _ _ position (.unknownScope mode) =>
    some (position.text ++ ": unknown mode: ".toList ++ mode)
  | edits fault => some fault.message
  | sourceMap fault => fault.message?

/-- How much a record matters. -/
inductive Level
  /-- Something is wrong, but the run goes on. -/
  | warn
  /-- A step of the run. -/
  | debug
  /-- A detail of a step. -/
  | trace
  deriving DecidableEq, Repr

/-- What a run records. -/
structure Record where
  /-- How much it matters. -/
  level : Level
  /-- The text. -/
  text : Text
  deriving DecidableEq, Repr

end LeadingTrim
