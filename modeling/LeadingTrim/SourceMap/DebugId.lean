/-
# Debug identifiers

A source map may name the build that it belongs to. The name is a UUID, with an appendix or
without, or else a time stamp with an appendix; both are hexadecimal. A hyphen behind the eighth
character says that the name is written in groups, and then a hyphen divides the appendix as well.
-/

import LeadingTrim.Json.Reader

namespace LeadingTrim.SourceMap.DebugId

/-- The number that a row of hexadecimal digits makes; none if a character is no digit. -/
def hexNumber? (t : Text) : Option Nat :=
  t.foldlM (fun n c => (Json.hexValue? c).map (16 * n + ·)) 0

/-- Whether a text is a 32-bit number: hexadecimal digits, with a plus sign in front or without. -/
def isWord (t : Text) : Bool :=
  let digits := match t with
    | '+' :: rest => rest
    | _ => t
  !digits.isEmpty && (hexNumber? digits).any (· < Nat.pow 2 32)

/-- The places of the hyphens in a UUID that is written in groups. -/
def hyphens : List Nat := [8, 13, 18, 23]

/-- Whether a text is a UUID: 32 hexadecimal digits, with hyphens between the groups or without. -/
def isUuid (grouped : Bool) (t : Text) : Bool :=
  let digits := if grouped then
      t.zipIdx.filterMap fun (c, i) => if hyphens.contains i then none else some c
    else t
  digits.length == 32 && (hexNumber? digits).isSome
    && (!grouped || (t.length == 36 && hyphens.all fun i => t[i]? == some '-'))

/-- Whether a text is an appendix with what divides it from the text in front. -/
def isAppendix (grouped : Bool) (t : Text) : Bool :=
  match grouped, t with
  | true, '-' :: rest => isWord rest
  | true, _ => false
  | false, t => isWord t

/-- Whether a text is a debug identifier. A time stamp takes eight characters, and an appendix
behind it at most as many. -/
def isValid (t : Text) : Bool :=
  let grouped := t[8]? == some '-'
  let divider := if grouped then 1 else 0
  if 9 + divider ≤ t.length && t.length ≤ 16 + divider then
    isWord (t.take 8) && isAppendix grouped (t.drop 8)
  else
    let length := if grouped then 36 else 32
    isUuid grouped (t.take length) && (t.length == length || isAppendix grouped (t.drop length))

end LeadingTrim.SourceMap.DebugId
