/-
# Reading source maps

A map is JSON with an object at the top. A line in front of it that begins with one of `)]}'` is
skipped. All members are optional, but those that are known have to be of their types and stand at
most once, and all have to be sound. Maps that are made of sections, and maps with scopes of
functions, are refused; of a section and of a scope only the known members are read.

Lines, columns and the numbers of sources and names are kept as 32-bit words. The greatest word in
place of a line marks a point that is not mapped. A row of bits for each line says which of its
segments are ranges.
-/

import LeadingTrim.Json.Reader
import LeadingTrim.SourceMap.Basic
import LeadingTrim.SourceMap.DebugId
import LeadingTrim.SourceMap.Vlq

namespace LeadingTrim.SourceMap

/-- What is wrong with a map. -/
inductive Fault
  /-- The line in front of the map ends in a carriage return alone. -/
  | expectedLineFeed
  /-- The text is not JSON, or a member is not of its type. -/
  | badJson
  /-- The map is made of sections, or has scopes of functions. -/
  | incompatible
  /-- A byte of the ranges is no digit. -/
  | noDigit (byte : Char)
  /-- A number cannot be read. -/
  | number (fault : Vlq.Fault)
  /-- A segment does not have one, four or five numbers. -/
  | segmentSize (size : Nat)
  /-- There is no source of this number. -/
  | noSource (number : Nat)
  /-- There is no name of this number. -/
  | noName (number : Nat)
  deriving DecidableEq, Repr

/-- The message for a fault; there is none for JSON at fault. -/
def Fault.message? (fault : Fault) : Option Text :=
  let text := match fault with
    | badJson => none
    | expectedLineFeed => some "expected newline".toList
    | incompatible => some "encountered incompatible sourcemap format".toList
    | noDigit byte => some ("invalid base64 character: ".toList ++ [byte])
    | number .overflow => some "vlq decode caused an overflow".toList
    | number .leftover => some "leftover cur/shift in vlq decode".toList
    | segmentSize size =>
      some ("got ".toList ++ Decimal.ofInt size ++ " segments, expected 4 or 5".toList)
    | noSource n => some ("bad reference to source #".toList ++ Decimal.ofInt n)
    | noName n => some ("bad reference to name #".toList ++ Decimal.ofInt n)
  text.map ("invalid sourcemap: ".toList ++ ·)

/-! ## Segments -/

/-- The words to which those of the next segment are relative. -/
structure Cursor where
  /-- The column of the generated text. -/
  column : Nat
  /-- The number of the source. -/
  source : Nat
  /-- The line in the source. -/
  line : Nat
  /-- The column in the source. -/
  sourceColumn : Nat
  /-- The number of the name. -/
  name : Nat

/-- An origin, unless its line is the greatest word. -/
def originOn (line column : Nat) (source name : Option Text) : Option Origin :=
  if line = wordBound - 1 then none else some ⟨line, column, source, name⟩

/-- The point of a segment on a line, which may be a range, and the cursor behind it. -/
def pointOf (sources names : List Text) (line : Nat) (c : Cursor) (segment : Text)
    (isRange : Bool) : Except Fault (Point × Cursor) := do
  let numbers ← (Vlq.decode segment).mapError Fault.number
  match numbers with
  | [column] =>
    let column := advance c.column column
    return (⟨line, column, none, isRange⟩, { c with column := column })
  | column :: source :: sourceLine :: sourceColumn :: more =>
    if 1 < more.length then throw (.segmentSize numbers.length)
    let column := advance c.column column
    let source := advance c.source source
    match sources[source]? with
    | none => throw (.noSource source)
    | some sourceText =>
      let sourceLine := advance c.line sourceLine
      let sourceColumn := advance c.sourceColumn sourceColumn
      match more with
      | [] =>
        return (⟨line, column, originOn sourceLine sourceColumn sourceText none, isRange⟩,
          ⟨column, source, sourceLine, sourceColumn, c.name⟩)
      | name :: _ =>
        let name := advance c.name name
        match names[name]? with
        | none => throw (.noName name)
        | some nameText =>
          return (⟨line, column, originOn sourceLine sourceColumn sourceText nameText, isRange⟩,
            ⟨column, source, sourceLine, sourceColumn, name⟩)
  | _ => throw (.segmentSize numbers.length)

/-- The items of a list with those of a second one, in place of which a given one may stand where
they are too few. -/
def zipPadded {α β : Type} (items : List α) (others : List β) (other : β) : List (α × β) :=
  items.zip (others ++ List.replicate items.length other)

/-- The points of a line's segments, the last first, and the cursor behind them. -/
def lineStep (sources names : List Text) (line : Nat) (state : List Point × Cursor)
    (segment : Text × Bool) : Except Fault (List Point × Cursor) :=
  if segment.1.isEmpty then .ok state
  else (pointOf sources names line state.2 segment.1 segment.2).map fun (p, c) => (p :: state.1, c)

/-- The points of all lines from one on, the last first. A line is given with its number, its
segments and its ranges, which do not matter where it is empty. -/
def linesStep (sources names : List Text) (state : List Point × Cursor)
    (line : (Text × Text) × Nat) : Except Fault (List Point × Cursor) := do
  let ((segments, ranges), number) := line
  if segments.isEmpty then return state
  let isRange ← (Base64.bitsOf ranges).mapError Fault.noDigit
  (zipPadded (Text.splitOn ',' segments) isRange false).foldlM (lineStep sources names number)
    (state.1, { state.2 with column := 0 })

/-- The points of a row of lines of segments, in order. -/
def points (sources names : List Text) (mappings ranges : Text) : Except Fault (List Point) :=
  let lines := zipPadded (Text.splitOn ';' mappings) (Text.splitOn ';' ranges) []
  (lines.zipIdx.foldlM (linesStep sources names) ([], ⟨0, 0, 0, 0, 0⟩)).map
    fun state => stableSort Point.le state.1.reverse

/-! ## Members -/

/-- A list of strings and absent entries. -/
def texts? (v : Json) : Option (List (Option Text)) :=
  v.items?.bind fun items => items.mapM fun item => Json.optional Json.text? item.nonNull?

/-- The text of a name: numbers count as their texts, and other values as no text. -/
def nameText : Json → Text
  | .string t => t
  | .number n => n.text
  | _ => []

/-- A 32-bit word. -/
def word? (v : Json) : Option Nat := v.nat? wordBound

/-- Whether a value is the place of a section: a line and a column. -/
def isPlace (v : Json) : Bool :=
  match v.fields? ["line".toList, "column".toList] with
  | some [some line, some column] => (word? line).isSome && (word? column).isSome
  | _ => false

/-- The map of a section, which may be absent, if the section is one. -/
def section? (v : Json) : Option (Option Json) :=
  match v.fields? ["offset".toList, "url".toList, "map".toList] with
  | some [some place, url, map] =>
    if isPlace place && url.all (·.text?.isSome) then some map else none
  | _ => none

/-- Whether a value describes scopes: names and their mappings. The first argument is the number of
arrays and objects that may lie in one another. -/
def isScope : Nat → Json → Bool
  | 0, _ => false
  | room + 1, v =>
    match v.fields? ["names".toList, "mappings".toList] with
    | some [some names, some mappings] =>
      names.isSound room && (names.items?.any fun items => items.all (·.text?.isSome))
        && mappings.text?.isSome
    | _ => false

/-- Whether a value is an array of items that pass a test, which is also given the room that is left
for them. -/
def isArrayOf (item : Nat → Json → Bool) : Nat → Json → Bool
  | room + 1, .array items => items.all (item room)
  | _, _ => false

/-- Whether a value is a list of scopes for each source that has any. -/
def areScopes : Nat → Json → Bool :=
  isArrayOf fun room v => v.nonNull?.all (isArrayOf isScope room)

/-- The members of a map of which only a part is read. -/
def sparseMembers : List Text := ["sections", "x_facebook_sources"].map String.toList

/-- The members of a map that are known. -/
def knownMembers : List Text :=
  sparseMembers ++ ["version", "file", "sources", "sourceRoot", "sourcesContent", "names",
    "mappings", "rangeMappings", "ignoreList", "x_facebook_offsets", "x_metro_module_paths",
    "debugId", "debug_id"].map String.toList

/-- The members of a map. -/
structure Members where
  /-- The sources. -/
  sources : List Text
  /-- The names. -/
  names : List Text
  /-- What is put in front of the sources. -/
  root : Text
  /-- The segments. -/
  mappings : Text
  /-- Which segments are ranges. -/
  ranges : Text
  /-- The maps of the sections, if the map is made of sections. -/
  sections : Option (List Json)
  /-- Whether the map has scopes of functions. -/
  hasScopes : Bool

/-- A value that passes a test. -/
def checked? (test : Json → Bool) (v : Json) : Option Json := if test v then some v else none

/-- The items of an array that all pass a test. -/
def itemsThat? (test : Json → Bool) (v : Json) : Option (List Json) :=
  v.items?.filter fun items => items.all test

/-- The members of a map, if they are sound and of their types and none that is known is repeated.
The first argument is the number of arrays and objects that may lie in one another in the map. -/
def members? (room : Nat) (v : Json) : Option Members := do
  let members ← v.members?
  guard (knownMembers.all fun name => members.countP (·.1 == name) ≤ 1)
  guard (members.all fun m => sparseMembers.contains m.1 || m.2.isSound room)
  let get {α : Type} (name : String) (read : Json → Option α) : Option (Option α) :=
    Json.optional read (Json.lookup members name.toList)
  let isWord (v : Json) : Bool := (word? v).isSome
  let isDebugId (v : Json) : Bool := v.text?.any DebugId.isValid
  let _ ← get "version" word?
  let sources ← get "sources" texts?
  let root ← get "sourceRoot" Json.text?
  let _ ← get "sourcesContent" texts?
  let names ← get "names" Json.items?
  let mappings ← get "mappings" Json.text?
  let ranges ← get "rangeMappings" Json.text?
  let _ ← get "ignoreList" (itemsThat? isWord)
  let _ ← get "x_facebook_offsets" (itemsThat? fun item => item.nonNull?.all isWord)
  let _ ← get "x_metro_module_paths" (itemsThat? (·.text?.isSome))
  let _ ← get "debugId" (checked? isDebugId)
  let _ ← get "debug_id" (checked? isDebugId)
  let sections ← get "sections" fun v => v.items?.bind fun items => items.mapM section?
  let scopes ← get "x_facebook_sources" (checked? (areScopes room))
  return {
    sources := (sources.getD []).map (·.getD [])
    names := (names.getD []).map nameText
    root := root.getD []
    mappings := mappings.getD []
    ranges := ranges.getD []
    sections := sections.map (·.filterMap id)
    hasScopes := scopes.isSome }

/-- A source with the root in front of it. Absolute paths and web addresses stay as they are. -/
def rooted (root source : Text) : Text :=
  if root.isEmpty || ["/", "http:", "https:"].any fun s => Text.startsWith s.toList source then
    source
  else (if root.getLast? == some '/' then root.dropLast else root) ++ '/' :: source

/-! ## Maps -/

/-- The text from the first line feed on. -/
def fromLineFeed : Text → Except Fault Text
  | [] => .ok []
  | c :: rest =>
    if c == '\n' then .ok (c :: rest)
    else if c == '\r' then
      if rest.isEmpty || rest.head? == some '\n' then .ok rest else .error .expectedLineFeed
    else fromLineFeed rest

/-- The text without a line in front of the map. -/
def withoutGuard (t : Text) : Except Fault Text :=
  match t.head? with
  | some c => if [')', ']', '}', '\''].contains c then fromLineFeed t else .ok t
  | none => .ok t

/-- What a map is made of. -/
inductive Contents
  /-- Points, in order. -/
  | points (points : List Point)
  /-- Sections, or points with scopes of functions. -/
  | other

/-- What the members of a map make, given what its sections make. A fault of a section comes before
one of the points. -/
def Members.contents (m : Members) (sections : Option (List (Except Fault Contents))) :
    Except Fault Contents := do
  match sections with
  | some sections =>
    sections.forM fun s => s.map fun _ => ()
    return .other
  | none =>
    let points ← points (m.sources.map (rooted m.root)) m.names m.mappings m.ranges
    return if m.hasScopes then .other else .points points

/-- How many maps can lie in sections of one another: a map in a section lies deeper than the one
around by the list of sections, the section and itself. -/
def mapLimit : Nat := Json.depthLimit / 3

/-- What a value makes as a map; none if a member is not sound or not of its type, in the map or in
a map of a section. The first argument says how many maps may lie in sections of one another. -/
def contents? : Nat → Json → Option (Except Fault Contents)
  | maps, v => (members? (3 * maps) v).bind fun m =>
    match m.sections with
    | none => some (m.contents none)
    | some sections =>
      match maps with
      | 0 => none
      | maps + 1 => (sections.mapM (contents? maps)).map fun made => m.contents (some made)

/-- The points of the map that a text is, in order. -/
def read (t : Text) : Except Fault (List Point) := do
  let text ← withoutGuard t
  match (Json.parse? text).bind (contents? mapLimit) with
  | none => throw .badJson
  | some contents =>
    match ← contents with
    | .points points => return points
    | .other => throw .incompatible

end LeadingTrim.SourceMap
