/-
# Font metrics

The metrics of a font are the space that it leaves above its capitals and below its baseline, as a
fraction of the font size, when the line height is one. A table of fonts is kept in the order of
the family names, code point by code point.
-/

import LeadingTrim.Json.Basic
import LeadingTrim.Json.Reader
import LeadingTrim.Json.Writer

namespace LeadingTrim

/-- The space above and below the glyphs of a font. -/
structure Space where
  /-- Above the capitals. -/
  before : Float
  /-- Below the baseline. -/
  after : Float

/-- No space. -/
def Space.zero : Space := ⟨0.0, 0.0⟩

/-- The metrics of families, ordered by name. -/
structure FontTable where
  /-- The families with their metrics. -/
  entries : List (Text × Space)

namespace FontTable

/-- No families. -/
def empty : FontTable := ⟨[]⟩

/-- The entries with one more; an entry of the same name is replaced. -/
def insertEntry (name : Text) (space : Space) : List (Text × Space) → List (Text × Space)
  | [] => [(name, space)]
  | (n, s) :: rest =>
    if name = n then (name, space) :: rest
    else if name < n then (name, space) :: (n, s) :: rest
    else (n, s) :: insertEntry name space rest

/-- The table with one more entry; an entry of the same name is replaced. -/
def insert (table : FontTable) (name : Text) (space : Space) : FontTable :=
  ⟨insertEntry name space table.entries⟩

/-- The table with other entries on top, the last of each name counting. -/
def insertMany (table : FontTable) (entries : List (Text × Space)) : FontTable :=
  entries.foldl (fun table e => table.insert e.1 e.2) table

/-- The table with another on top. -/
def override (table other : FontTable) : FontTable := table.insertMany other.entries

/-- The metrics of a family. -/
def get? (table : FontTable) (name : Text) : Option Space := table.entries.lookup name

/-- The number of families. -/
def size (table : FontTable) : Nat := table.entries.length

/-- The metrics of the first family that the table has, or else no space. -/
def lookup (table : FontTable) (families : List Text) : Space :=
  (families.findSome? table.get?).getD .zero

/-- The fonts that are always known. -/
def bundled : FontTable :=
  empty.insertMany [("Arial".toList, ⟨0.13, 0.17⟩), ("Times New Roman".toList, ⟨0.17, 0.16⟩)]

/-! ## As JSON -/

/-- A pair of numbers as metrics. -/
def spaceOfJson? : Json → Option Space
  | .array [a, b] =>
    match a.float?, b.float? with
    | some before, some after => some ⟨before, after⟩
    | _, _ => none
  | _ => none

/-- An object of pairs of numbers as a table; of two members of one name the last counts. -/
def ofJson? (v : Json) : Option FontTable :=
  match v.members? with
  | none => none
  | some members =>
    (members.mapM fun m => (spaceOfJson? m.2).map fun space => (m.1, space)).map
      empty.insertMany

/-- The table that a JSON text holds. -/
def parse? (t : Text) : Option FontTable := (Json.parse? t).bind ofJson?

/-- The table as JSON. -/
def toJson (table : FontTable) : Text :=
  let number := Decimal.Format.json.write
  Json.record (table.entries.map fun (name, space) =>
    (name, Json.list [number space.before, number space.after]))

/-! ## Looking up -/

theorem lookup_cons_eq_ite (name other : Text) (space : Space) (entries : List (Text × Space)) :
    ((name, space) :: entries).lookup other =
      if other = name then some space else entries.lookup other := by
  by_cases h : other = name
  · simp [h]
  · simp [List.lookup_cons, h, beq_eq_false_iff_ne.mpr h]

theorem lookup_insertEntry (name : Text) (space : Space) (other : Text)
    (entries : List (Text × Space)) :
    (insertEntry name space entries).lookup other =
      if other = name then some space else entries.lookup other := by
  induction entries with
  | nil => exact lookup_cons_eq_ite name other space []
  | cons e entries ih =>
    obtain ⟨n, s⟩ := e
    rw [insertEntry]
    split
    · next h =>
      subst h
      rw [lookup_cons_eq_ite, lookup_cons_eq_ite]
      by_cases h : other = name <;> simp [h]
    · next hne =>
      split
      · rw [lookup_cons_eq_ite]
      · rw [lookup_cons_eq_ite, lookup_cons_eq_ite, ih]
        by_cases hn : other = n
        · subst hn
          simp [Ne.symm hne]
        · simp [hn]

/-- After an insertion the name has the new metrics and all others have what they had. -/
theorem get?_insert (table : FontTable) (name : Text) (space : Space) (other : Text) :
    (table.insert name space).get? other =
      if other = name then some space else table.get? other :=
  lookup_insertEntry name space other table.entries

end FontTable

end LeadingTrim
