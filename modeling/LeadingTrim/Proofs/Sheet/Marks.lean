/-
# Marks

What a sheet says of rules is said by the heads of its blocks, its declarations and its closing
braces. These are its marks (`Part.mark?`); white space, comments and at-rules without a block leave
none. The marks of a text are read part by part (`marks_of_part`), past the white space and the
comments in front of a part (`marks_of_filler`, `marks_dropWhile_space`, `marks_lineComment`). What
the rules of a sheet say, each with its selector list and its declarations, is found in the marks
(`map_content_rules`).
-/

import LeadingTrim.Proofs.Sheet.PartLocal
import LeadingTrim.Proofs.Sheet.PartRules

namespace LeadingTrim.Sheet

open Text (isSheetSpace)

/-! ## Marks -/

/-- What a part says of rules. -/
inductive Mark
  /-- The block of a style rule begins. -/
  | rule (selector : Text)
  /-- The block of an at-rule begins, which may be a list of keyframes. -/
  | block (keyframes : Bool)
  /-- A declaration with its value. -/
  | declaration (property value : Text)
  /-- A block ends. -/
  | close
  deriving DecidableEq, Repr

/-- The mark of a part, if it says anything of rules. -/
def Part.mark? : Part → Option Mark
  | .rule head => some (.rule head.selector)
  | .atBlock head => some (.block (isKeyframes head.keyword))
  | .declaration d => some (.declaration d.name (Text.trim (stripComments d.value)))
  | .close => some .close
  | _ => none

/-- The marks of a text in the given number of open blocks. -/
def marks (depth : Nat) (t : Text) : List Mark :=
  ((Text.scan partStep depth 0 t).map Prod.fst).filterMap Part.mark?

variable {depth : Nat} {c : Char} {x s t : Text} {p : Part}

theorem marks_nil (depth : Nat) : marks depth [] = [] := rfl

/-- The mark of the part at the front is the first one. -/
theorem marks_of_part (h : part depth c (x ++ s) = p) (htext : p.text = c :: x) :
    marks depth (c :: x ++ s) = p.mark?.toList ++ marks (p.depthBehind depth) s := by
  rw [marks, map_fst_scan_partStep h htext, List.filterMap_cons, marks]
  cases p.mark? <;> rfl

/-- White space and comments leave no marks. -/
theorem marks_of_filler {k : Kind} (h : filler c (x ++ s) = some ⟨k, (), x.length⟩) :
    marks depth (c :: x ++ s) = marks depth s := by
  have hpart : part depth c (x ++ s) = .ofFiller k (c :: x) := part_of_filler h
  rw [marks_of_part hpart]
  · cases k <;> rfl
  · cases k <;> rfl

/-- White space leaves no marks. -/
theorem marks_dropWhile_space (depth : Nat) (t : Text) :
    marks depth (t.dropWhile isSheetSpace) = marks depth t := by
  obtain ⟨y, s, rfl, hy, hs⟩ := exists_run_append isSheetSpace t
  rw [dropWhile_append_eq_right hy hs]
  cases y with
  | nil => rfl
  | cons c y =>
    obtain ⟨hc, hy⟩ := List.forall_mem_cons.mp hy
    exact (marks_of_filler (filler_eq_some_iff.mpr ⟨.space hc hy, hs⟩)).symm

theorem marks_space {x : Text} (hx : ∀ c ∈ x, isSheetSpace c = true) (s : Text) :
    marks depth (x ++ s) = marks depth s := by
  rw [← marks_dropWhile_space depth (x ++ s), List.dropWhile_append_of_pos hx,
    marks_dropWhile_space]

theorem marks_comment {u : Text} (htail : commentTail u = some u.length) (s : Text) :
    marks depth ('/' :: '*' :: u ++ s) = marks depth s :=
  marks_of_filler (filler_eq_some_iff.mpr ⟨.comment htail, trivial⟩)

/-- A comment to the end of the line leaves none, however far away that is. -/
theorem marks_lineComment {x : Text} (hhead : x.head? = some '/') (hx : '\n' ∉ x) (s : Text) :
    marks depth ('/' :: x ++ s) = marks depth (s.dropWhile (· != '\n')) := by
  obtain ⟨y, s, rfl, hy, hs⟩ := exists_run_append (· != '\n') s
  rw [dropWhile_append_eq_right hy hs, List.cons_append, ← List.append_assoc, ← List.cons_append]
  refine marks_of_filler (filler_eq_some_iff.mpr ⟨.lineComment ?_ fun a ha => ?_, fun a ha => ?_⟩)
  · rw [List.head?_append, hhead]
    rfl
  · rcases List.mem_append.mp ha with ha | ha
    · rw [bne_iff_ne]
      rintro rfl
      exact hx ha
    · exact hy a ha
  · simpa using hs a ha

/-! ## What rules say -/

/-- What a rule says: its selector list, and its declarations with their values. -/
structure RuleContent where
  /-- The selector list. -/
  selector : Text
  /-- The names and the values of the declarations directly in the block. -/
  declarations : List (Text × Text)
  deriving DecidableEq, Repr

/-- What a declaration says. -/
def Declaration.content (d : Declaration) : Text × Text := (d.property, d.value)

/-- What a rule says. -/
def Rule.content (r : Rule) : RuleContent := ⟨r.selector, r.declarations.map Declaration.content⟩

/-- What the declarations directly in a block say. The number is that of the blocks opened inside
it. -/
def ownContent : Nat → List Mark → List (Text × Text)
  | _, [] => []
  | depth, .declaration property value :: rest =>
    if depth = 0 then (property, value) :: ownContent depth rest else ownContent depth rest
  | 0, .close :: _ => []
  | depth + 1, .close :: rest => ownContent depth rest
  | depth, .rule _ :: rest | depth, .block _ :: rest => ownContent (depth + 1) rest

/-- What the rules say whose heads are among the marks. The first argument says of each open block,
the innermost first, whether it is a list of keyframes. -/
def contents : List Bool → List Mark → List RuleContent
  | _, [] => []
  | blocks, .rule selector :: rest =>
    let inner := contents (false :: blocks) rest
    if blocks.head? = some true then inner else ⟨selector, ownContent 0 rest⟩ :: inner
  | blocks, .block keyframes :: rest => contents (keyframes :: blocks) rest
  | blocks, .close :: rest => contents blocks.tail rest
  | blocks, .declaration _ _ :: rest => contents blocks rest

variable {source : Text} {all : List Part}

theorem map_content_declarationsFrom (last offset : Nat) :
    (declarationsFrom source depth last offset all).map Declaration.content =
      ownContent depth (all.filterMap Part.mark?) := by
  induction all generalizing depth last offset with
  | nil => rfl
  | cons p all ih =>
    cases p with
    | declaration d =>
      rw [declarationsFrom, List.filterMap_cons, Part.mark?]
      dsimp only
      rw [ownContent]
      split
      · rw [List.map_cons, ih]
        rfl
      · exact ih _ _
    | close =>
      cases depth with
      | zero => rfl
      | succ depth => exact ih _ _
    | _ => exact ih _ _

/-- What the rules of a sheet say is found in its marks. -/
theorem map_content_rulesFrom (blocks : List Bool) (offset : Nat) :
    (rulesFrom source blocks offset all).map Rule.content =
      contents blocks (all.filterMap Part.mark?) := by
  induction all generalizing blocks offset with
  | nil => rfl
  | cons p all ih =>
    cases p with
    | rule head =>
      rw [rulesFrom, List.filterMap_cons, Part.mark?]
      dsimp only
      rw [contents]
      split
      · exact ih _ _
      · rw [List.map_cons, ih, Rule.content, RuleHead.toRule]
        dsimp only
        rw [map_content_declarationsFrom]
    | _ => exact ih _ _

theorem map_content_rules (source : Text) :
    (rules source).map Rule.content = contents [] ((parts source).filterMap Part.mark?) := by
  rw [rules_eq]
  exact map_content_rulesFrom [] 0

end LeadingTrim.Sheet
