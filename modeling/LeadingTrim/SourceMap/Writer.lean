/-
# Writing source maps

A map is written as JSON. Sources and names are listed in the order in which the points first use
them, and each point is a row of numbers, relative to the point in front of it: its column, and if
it is mapped, the number of its source, its line and column there, and the number of its name if it
has one. Lines and columns are written as 32-bit words.
-/

import LeadingTrim.Json.Writer
import LeadingTrim.SourceMap.Basic
import LeadingTrim.SourceMap.Vlq

namespace LeadingTrim.SourceMap

/-- The texts without repetitions, each where it stands first. -/
def distinct : List Text → List Text
  | [] => []
  | t :: rest => t :: (distinct rest).filter (· != t)

/-- The numbers to which those of the next point are relative. -/
structure Reference where
  /-- The line of the generated text. -/
  line : Nat
  /-- The column of the generated text. -/
  column : Nat
  /-- The number of the source. -/
  source : Nat
  /-- The line in the source. -/
  sourceLine : Nat
  /-- The column in the source. -/
  sourceColumn : Nat
  /-- The number of the name. -/
  name : Nat

/-- The reference of the first point. -/
def Reference.start : Reference := ⟨0, 0, 0, 0, 0, 0⟩

/-- The text of a difference. -/
def difference (new old : Nat) : Text := Vlq.encode (Int.ofNat new - Int.ofNat old)

/-- The numbers of a point, and the reference for the next one. A mapped point without a source is
written as one that is not mapped. -/
def segment (sources names : List Text) (r : Reference) (p : Point) : Text × Reference :=
  let column := difference p.column r.column
  let unmapped := (column, { r with line := p.line, column := p.column })
  match p.origin with
  | none => unmapped
  | some o =>
    match o.source with
    | none => unmapped
    | some source =>
      let number := sources.idxOf source
      let mapped := column ++ difference number r.source ++ difference o.line r.sourceLine
        ++ difference o.column r.sourceColumn
      match o.name with
      | none => (mapped, ⟨p.line, p.column, number, o.line, o.column, r.name⟩)
      | some name =>
        let nameNumber := names.idxOf name
        (mapped ++ difference nameNumber r.name,
          ⟨p.line, p.column, number, o.line, o.column, nameNumber⟩)

/-- The segments of all points, with a semicolon for each line feed between two of them and a comma
between two on one line. The second argument says that no point has been written. -/
def segments (sources names : List Text) : Bool → Reference → List Point → Text
  | _, _, [] => []
  | first, r, p :: rest =>
    let r' := if p.line = r.line then r else { r with column := 0 }
    let gap := if p.line = r.line then (if first then [] else [','])
      else List.replicate (p.line - r.line) ';'
    let (text, next) := segment sources names r' p
    gap ++ text ++ segments sources names false next rest

/-- The sources of points that are mapped. -/
def sourcesOf (points : List Point) : List Text :=
  points.filterMap fun p => p.origin.bind Origin.source

/-- The names of points that are mapped. -/
def namesOf (points : List Point) : List Text :=
  points.filterMap fun p => p.origin.bind Origin.name

/-- The map with the given points, and with the text of one source if that is given. -/
def write (contents : Option (Text × Text)) (points : List Point) : Text :=
  let points := normalize (points.map Point.inWords)
  let sources := distinct ((contents.map Prod.fst).toList ++ sourcesOf points)
  let names := distinct (namesOf points)
  let texts (ts : List Text) := Json.list (ts.map Json.quote)
  Json.record <|
    [("version".toList, ['3']), ("sources".toList, texts sources)]
    ++ (match contents with
      | none => []
      | some (file, text) => [("sourcesContent".toList, Json.list (sources.map fun s =>
          if s = file then Json.quote text else "null".toList))])
    ++ [("names".toList, texts names),
      ("mappings".toList, Json.quote (segments sources names true .start points))]

end LeadingTrim.SourceMap
