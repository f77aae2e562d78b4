import LeadingTrim.Config
import LeadingTrim.Correction
import LeadingTrim.Decimal.Cents
import LeadingTrim.Directive.Reader
import LeadingTrim.Edit.Layout
import LeadingTrim.Edit.Validity
import LeadingTrim.Font.Ambient
import LeadingTrim.Json.Reader
import LeadingTrim.Json.Writer
import LeadingTrim.LineHeight
import LeadingTrim.Metrics.Offset
import LeadingTrim.Problem
import LeadingTrim.Proofs.Decimal.Cents
import LeadingTrim.Proofs.Directive.Parse
import LeadingTrim.Proofs.Edit.Apart
import LeadingTrim.Proofs.Edit.Bytes
import LeadingTrim.Proofs.Edit.Cut
import LeadingTrim.Proofs.Edit.Slices
import LeadingTrim.Proofs.Edit.Trace
import LeadingTrim.Proofs.Edit.Validity
import LeadingTrim.Proofs.Font.Families
import LeadingTrim.Proofs.Font.LastWord
import LeadingTrim.Proofs.Font.Settings
import LeadingTrim.Proofs.Font.Shorthand
import LeadingTrim.Proofs.Metrics.Margin
import LeadingTrim.Proofs.Selector.Branches
import LeadingTrim.Proofs.Sheet.Calm
import LeadingTrim.Proofs.Sheet.CalmDeclaration
import LeadingTrim.Proofs.Sheet.Closed
import LeadingTrim.Proofs.Sheet.Enclosed
import LeadingTrim.Proofs.Sheet.Extent
import LeadingTrim.Proofs.Sheet.Ground
import LeadingTrim.Proofs.Sheet.PartLocal
import LeadingTrim.Proofs.Sheet.RowLocal
import LeadingTrim.Proofs.Sheet.ValueComments
import LeadingTrim.Proofs.Sheet.ValueParts
import LeadingTrim.Proofs.Sheet.WellFormed
import LeadingTrim.Proofs.SourceMap.Exact
import LeadingTrim.Proofs.SourceMap.Normal
import LeadingTrim.Proofs.SourceMap.ReadBack
import LeadingTrim.Proofs.SourceMap.Within
import LeadingTrim.Proofs.Text.Boundary
import LeadingTrim.Proofs.Text.Columns
import LeadingTrim.Proofs.Text.LineIndex
import LeadingTrim.Proofs.Trimmer.CarriedMap
import LeadingTrim.Proofs.Trimmer.Chain
import LeadingTrim.Proofs.Trimmer.Edits
import LeadingTrim.Proofs.Trimmer.Failure
import LeadingTrim.Proofs.Trimmer.Fonts
import LeadingTrim.Proofs.Trimmer.Idempotent
import LeadingTrim.Proofs.Trimmer.LineBreaks
import LeadingTrim.Proofs.Trimmer.Result
import LeadingTrim.Selector
import LeadingTrim.Sheet.PartLemmas
import LeadingTrim.Sheet.Rule
import LeadingTrim.Sheet.Soundness
import LeadingTrim.SourceMap.Reader
import LeadingTrim.SourceMap.Trace
import LeadingTrim.SourceMap.Writer
import LeadingTrim.StableSort
import LeadingTrim.Text.LineIndex
import LeadingTrim.Text.Quoted
import LeadingTrim.Trimmer
