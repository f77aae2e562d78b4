/-
# From offsets to places and back

The index of a text leads from offsets to places and from places to offsets. On its line an offset
has the column of the characters in front of it that count (`counted`); a carriage return at the end
of the line does not, even if the text ends there without a line feed. So a boundary is had back
from its place, unless it is behind such a carriage return (`offset?_point_eq_iff`). A line and a
column lead to the last column of the line that is not beyond, but never to the end of a text that
ends with a carriage return (`isLastColumn_iff_of_offset?`). Places do not go back from one offset
to the next (`placeLe_point`).
-/

import LeadingTrim.Proofs.Text.Seam

namespace LeadingTrim.Text

variable {t u v before line l : Text} {n number column : Nat}

/-- An offset has the place of the character that it stands in. -/
theorem point_eq_of_isLongest (hn : IsLongest byteSize n u v) :
    (LineIndex.of (u ++ v)).point n = (LineIndex.of (u ++ v)).point u.byteSize := by
  obtain ⟨before, l, rfl, hbefore, hl⟩ := exists_endsLine_append u
  rw [point_eq_counted hbefore hl hn,
    point_eq_counted hbefore hl (isMeasure_byteSize.isLongest _ v)]

theorem byteSize_counted_eq_iff : (counted l v).byteSize = l.byteSize ↔ counted l v = l := by
  obtain ⟨s, hs⟩ := exists_counted_append l v
  have hcut : counted l v ++ s = l ++ [] := by rw [← hs, List.append_nil]
  exact ⟨fun h => eq_of_byteSize_eq id hcut (by simpa using h), fun h => by rw [h]⟩

/-- A boundary is had back from its place, unless it is behind a carriage return with which its line
ends, in front of a line feed or of the end of the text. An offset inside a character has the place
of the character. -/
theorem offset?_point_eq_iff (t : Text) :
    (∀ u v : Text, t = u ++ v →
      ((LineIndex.of t).offset? ((LineIndex.of t).point u.byteSize).1
          ((LineIndex.of t).point u.byteSize).2 = some u.byteSize ↔
        ¬ (u.getLast? = some '\r' ∧ (v = [] ∨ v.head? = some '\n')))) ∧
    ∀ (u : Text) c v n, t = u ++ c :: v → n < c.utf8Size →
      (LineIndex.of t).point (u.byteSize + n) = (LineIndex.of t).point u.byteSize := by
  constructor
  · rintro u v rfl
    obtain ⟨before, l, rfl, hbefore, hl⟩ := exists_endsLine_append u
    have hlast : (before ++ l).getLast? = some '\r' ↔ l.getLast? = some '\r' := by
      cases l with
      | nil => simpa [EndsClear] using hbefore.endsClear
      | cons c l => simp [List.getLast?_append]
    rw [offset?_point_eq_counted hbefore hl (isMeasure_byteSize.isLongest _ v), Option.some.injEq,
      byteSize_append, byteSize_append, Nat.add_left_cancel_iff, byteSize_counted_eq_iff,
      counted_eq_self_iff, hlast]
  · rintro u c v n rfl hn
    exact point_eq_of_isLongest (isLongest_byteSize_add u v hn)

/-- A text with characters of two and four bytes, a line break of two characters and a carriage
return inside a line. -/
def mixedLines : Text := "é🙂\r\n\rb".toList

theorem offset?_point_mixedLines :
    ((LineIndex.of mixedLines).point 9 = (1, 1) ∧ (LineIndex.of mixedLines).offset? 1 1 = some 9) ∧
      (LineIndex.of mixedLines).point 4 = (LineIndex.of mixedLines).point 2 := by
  obtain ⟨hback, hinside⟩ := offset?_point_eq_iff mixedLines
  have hboundary := (hback "é🙂\r\n\r".toList ['b'] (by decide)).mpr (by decide)
  have hplace : (LineIndex.of mixedLines).point 9 = (1, 1) := by decide
  rw [show byteSize "é🙂\r\n\r".toList = 9 by decide, hplace] at hboundary
  exact ⟨⟨hplace, hboundary⟩, hinside ['é'] '🙂' "\r\n\rb".toList 2 (by decide) (by decide)⟩

/-- The end of a text behind a carriage return is not had back, although no line feed is there. -/
theorem not_offset?_point_eq_lastReturn :
    ¬ ∀ u v : Text, v.head? ≠ some '\n' → ¬ ['\r', '\n'] <+: v →
      (LineIndex.of (u ++ v)).offset? ((LineIndex.of (u ++ v)).point u.byteSize).1
        ((LineIndex.of (u ++ v)).point u.byteSize).2 = some u.byteSize := by
  intro h
  exact absurd (h "a\r".toList [] (by decide) (by decide)) (by decide)

/-! ## Lines and their columns -/

/-- A line of a text, by its number and the text in front of it. -/
structure IsLine (t : Text) (number : Nat) (before line : Text) : Prop where
  endsLine : EndsLine before
  count_eq : before.count '\n' = number
  feed_not_mem : '\n' ∉ line
  split : ∃ after, t = before ++ line ++ after ∧ (after = [] ∨ ∃ s, after = '\n' :: s)

/-- The columns of a line are the widths of what stands on it in front of a boundary, in UTF-16 code
units. Behind a carriage return and in front of its line feed there is none: both end the line. -/
def IsColumn (t : Text) (number c : Nat) : Prop :=
  ∃ before l v, t = before ++ l ++ v ∧ EndsLine before ∧ before.count '\n' = number ∧ '\n' ∉ l ∧
    ¬ (l.getLast? = some '\r' ∧ v.head? = some '\n') ∧ columns l = c

/-- The last column of a line that is not beyond a given one. -/
structure IsLastColumn (t : Text) (number column c : Nat) : Prop where
  isColumn : IsColumn t number c
  le : c ≤ column
  le_of_le : ∀ c', IsColumn t number c' → c' ≤ column → c' ≤ c

/-- A line is given by its number. -/
theorem IsLine.eq {before' line' : Text} (h : IsLine t number before line)
    (h' : IsLine t number before' line') : before = before' ∧ line = line' := by
  obtain ⟨after, hsplit, hafter⟩ := h.split
  obtain ⟨after', hsplit', hafter'⟩ := h'.split
  have hindex := lines_getElem?_of_endsLine h.endsLine h.feed_not_mem hafter
  have hindex' := lines_getElem?_of_endsLine h'.endsLine h'.feed_not_mem hafter'
  rw [← hsplit, h.count_eq] at hindex
  rw [← hsplit', h'.count_eq, hindex, Option.some.injEq, Line.mk.injEq] at hindex'
  have htexts : before ++ (line ++ after) = before' ++ (line' ++ after') := by
    rw [← List.append_assoc, ← List.append_assoc, ← hsplit, ← hsplit']
  obtain rfl : before = before' := eq_of_byteSize_eq id htexts (by simpa using hindex'.1)
  exact ⟨rfl, eq_of_append_endsLine h.feed_not_mem hafter h'.feed_not_mem hafter'
    (List.append_cancel_left htexts)⟩

theorem exists_isLine (h : number ≤ t.count '\n') : ∃ before line, IsLine t number before line := by
  induction number generalizing t with
  | zero =>
    obtain ⟨l, after, rfl, hl, hafter⟩ := exists_append_endsLine t
    exact ⟨[], l, Or.inl rfl, rfl, hl, after, rfl, hafter⟩
  | succ number ih =>
    -- the first line is put in front of what is found behind its line feed
    obtain ⟨l, after, rfl, hl, hafter⟩ := exists_append_endsLine t
    have hcount : l.count '\n' = 0 := List.count_eq_zero_of_not_mem hl
    rw [List.count_append, hcount] at h
    obtain rfl | ⟨s, rfl⟩ := hafter
    · simp at h
    · obtain ⟨before, line, hbefore, hnumber, hline, behind, rfl, hbehind⟩ :=
        ih (t := s) (by rw [List.count_cons_self] at h; omega)
      refine ⟨l ++ '\n' :: before, line, ?_, ?_, hline, behind, by simp, hbehind⟩
      · rcases hbefore with rfl | ⟨s, rfl⟩
        · exact Or.inr ⟨l, rfl⟩
        · exact Or.inr ⟨l ++ '\n' :: s, by simp⟩
      · rw [List.count_append, hcount, List.count_cons_self, hnumber, Nat.zero_add]

/-- There are as many lines as line feeds, and one more. -/
theorem offset?_eq_none_iff :
    (LineIndex.of t).offset? number column = none ↔ t.count '\n' < number := by
  have hlength : (LineIndex.of t).lines.length = t.count '\n' + 1 := by
    have hstarts : (LineIndex.of t).lines.map Line.start = lineStarts t := map_start_linesAt _ _
    rw [← List.length_map (f := Line.start), hstarts, lineStarts, List.length_cons,
      length_lineStartsFrom]
  rw [LineIndex.offset?, Option.map_eq_none_iff, List.getElem?_eq_none_iff, hlength]
  exact Nat.succ_le_iff

/-- The place of a boundary in a line. -/
theorem IsLine.point_eq {m : Text} (h : IsLine t number before line)
    (hcut : dropReturn line = l ++ m) :
    (LineIndex.of t).point (before ++ l).byteSize = (number, columns l) := by
  obtain ⟨after, rfl, hafter⟩ := h.split
  obtain ⟨s, hs⟩ := exists_dropReturn_append line
  have hline : line = l ++ (m ++ s) := by rw [hs, hcut, List.append_assoc]
  have hpoint := point_of_endsLine h.endsLine (hline ▸ h.feed_not_mem) hafter
  rwa [← hline, hcut, byteSize_append l m, Nat.min_eq_left (Nat.le_add_right _ _),
    columnAt_byteSize_append, h.count_eq] at hpoint

theorem IsLine.exists_append {m : Text} (h : IsLine t number before line)
    (hcut : dropReturn line = l ++ m) : ∃ v, t = before ++ l ++ v := by
  obtain ⟨after, rfl, -⟩ := h.split
  obtain ⟨s, hs⟩ := exists_dropReturn_append line
  exact ⟨m ++ s ++ after, by rw [hs, hcut]; simp⟩

/-- The first parts of a line without its carriage return end at columns of the line. -/
theorem IsLine.isColumn {m : Text} (h : IsLine t number before line)
    (hcut : dropReturn line = l ++ m) : IsColumn t number (columns l) := by
  obtain ⟨after, rfl, -⟩ := h.split
  obtain ⟨s, hs⟩ := exists_dropReturn_append line
  obtain rfl : line = l ++ (m ++ s) := by rw [hs, hcut, List.append_assoc]
  have hfeed := h.feed_not_mem
  rw [List.mem_append, not_or] at hfeed
  refine ⟨before, l, m ++ s ++ after, by simp, h.endsLine, h.count_eq, hfeed.1, ?_, rfl⟩
  rintro ⟨hlast, hnext⟩
  have hcounted : counted l (m ++ s ++ after) = l := counted_eq_self_of_dropReturn hfeed.2 hcut
  exact counted_eq_self_iff.mp hcounted ⟨hlast, Or.inr hnext⟩

/-- A column of a line is at the end of a first part of the line without its carriage return, or
behind a carriage return with which the text ends. -/
theorem IsLine.of_isColumn {c : Nat} (h : IsLine t number before line) (hc : IsColumn t number c) :
    (∃ l m, dropReturn line = l ++ m ∧ columns l = c) ∨
      t = before ++ line ∧ line.getLast? = some '\r' ∧ columns line = c := by
  obtain ⟨before', l, v, rfl, hbefore, hcount, hl, hseam, rfl⟩ := hc
  obtain ⟨m, after, rfl, hm, hafter⟩ := exists_append_endsLine v
  have hline : IsLine (before' ++ l ++ (m ++ after)) number before' (l ++ m) :=
    ⟨hbefore, hcount, by simp [hl, hm], after, by simp, hafter⟩
  obtain ⟨rfl, rfl⟩ := h.eq hline
  by_cases hend : m = [] ∧ l.getLast? = some '\r'
  · obtain ⟨rfl, hlast⟩ := hend
    obtain rfl | ⟨s, rfl⟩ := hafter
    · exact Or.inr ⟨by simp, by simpa using hlast, by rw [List.append_nil]⟩
    · exact absurd ⟨hlast, rfl⟩ hseam
  · obtain ⟨k, hk⟩ := exists_dropReturn_append_eq l m hend
    exact Or.inl ⟨l, k, hk, rfl⟩

/-! ## From columns to offsets -/

/-- The line and the part of it in front of the offset of a column. -/
theorem exists_isLine_of_offset? {b : Nat} (h : (LineIndex.of t).offset? number column = some b) :
    ∃ before line l m, IsLine t number before line ∧ dropReturn line = l ++ m ∧
      IsLongest columns column l m ∧ (before ++ l).byteSize = b := by
  have hle : number ≤ t.count '\n' := by
    refine Nat.le_of_not_lt fun hlt => ?_
    rw [offset?_eq_none_iff.mpr hlt] at h
    cases h
  obtain ⟨before, line, hline⟩ := exists_isLine hle
  obtain ⟨l, m, hcut, hlongest⟩ := isMeasure_columns.exists_isLongest column (dropReturn line)
  obtain ⟨after, hsplit, hafter⟩ := hline.split
  have hoffset := offset?_of_isLongest hline.endsLine hline.feed_not_mem hafter hcut hlongest
  rw [← hsplit, hline.count_eq, h, Option.some.injEq] at hoffset
  exact ⟨before, line, l, m, hline, hcut, hlongest, hoffset.symm⟩

/-- The offset in front of a carriage return with which the text ends. -/
theorem eq_return_iff (u v : Text) :
    v = ['\r'] ↔ (u ++ v).getLast? = some '\r' ∧ u.byteSize + 1 = (u ++ v).byteSize := by
  constructor
  · rintro rfl
    exact ⟨List.getLast?_concat, by rw [byteSize_append]; rfl⟩
  · rintro ⟨hlast, hsize⟩
    obtain ⟨s, hs⟩ := List.getLast?_eq_some_iff.mp hlast
    rw [hs, byteSize_append s, show byteSize ['\r'] = 1 from rfl, Nat.add_right_cancel_iff] at hsize
    obtain rfl : u = s := eq_of_byteSize_eq id hs (by simpa using hsize)
    exact List.append_cancel_left hs

/-- Of the columns of a line that are not beyond a given one, the longest first part without the
carriage return has the last, unless one more is behind that carriage return. -/
theorem IsLine.isLastColumn_iff {m v : Text} (h : IsLine t number before line)
    (hcut : dropReturn line = l ++ m) (hlongest : IsLongest columns column l m)
    (ht : t = before ++ l ++ v) :
    IsLastColumn t number column (columns l) ↔ ¬ (v = ['\r'] ∧ columns l < column) := by
  constructor
  · rintro hlast ⟨rfl, hlt⟩
    obtain ⟨s, hs⟩ := exists_dropReturn_append line
    have hl : '\n' ∉ l := fun hmem => h.feed_not_mem (by rw [hs, hcut]; simp [hmem])
    have hbehind : IsColumn t number (columns l + 1) :=
      ⟨before, l ++ ['\r'], [], by rw [ht]; simp, h.endsLine, h.count_eq, by simp [hl], by simp,
        columns_append l _⟩
    exact Nat.not_succ_le_self _ (hlast.le_of_le _ hbehind hlt)
  · refine fun hnot => ⟨h.isColumn hcut, hlongest.le, fun c' hc' hle' => ?_⟩
    obtain ⟨l', m', hcut', rfl⟩ | ⟨hend, hreturn, rfl⟩ := h.of_isColumn hc'
    · -- both columns are widths of first parts of the same line
      obtain ⟨w, rfl⟩ := hlongest.exists_append isMeasure_columns (hcut.symm.trans hcut') hle'
      rw [columns_append]
      exact Nat.le_add_right _ _
    · -- all in front of the carriage return is within the column
      have hline : line = l ++ m ++ ['\r'] := hcut ▸ eq_dropReturn_append hreturn
      rw [hline, columns_append, show columns ['\r'] = 1 from rfl] at hle'
      obtain ⟨w, hw⟩ := hlongest.exists_append isMeasure_columns (List.append_nil (l ++ m)).symm
        (Nat.le_of_succ_le hle')
      obtain rfl : m = [] := by
        rw [List.append_assoc, List.self_eq_append_right] at hw
        exact (List.append_eq_nil_iff.mp hw).1
      rw [List.append_nil] at hline hle'
      rw [ht, hline, ← List.append_assoc] at hend
      exact absurd ⟨List.append_cancel_left hend, hle'⟩ hnot

/-- The offset of a column is a boundary of the line, at its last column that is not beyond, unless
it is in front of the carriage return with which the text ends and the column is behind that. -/
theorem isLastColumn_iff_of_offset? {b : Nat}
    (h : (LineIndex.of t).offset? number column = some b) :
    IsBoundary t b ∧
      ∃ c, (LineIndex.of t).point b = (number, c) ∧ IsColumn t number c ∧ c ≤ column ∧
        (IsLastColumn t number column c ↔
          ¬ (t.getLast? = some '\r' ∧ b + 1 = t.byteSize ∧ c < column)) := by
  obtain ⟨before, line, l, m, hline, hcut, hlongest, rfl⟩ := exists_isLine_of_offset? h
  obtain ⟨v, ht⟩ := hline.exists_append hcut
  have hreturn := eq_return_iff (before ++ l) v
  rw [← ht] at hreturn
  refine ⟨⟨before ++ l, v, ht, rfl⟩, columns l, hline.point_eq hcut, hline.isColumn hcut,
    hlongest.le, ?_⟩
  rw [hline.isLastColumn_iff hcut hlongest ht, hreturn, and_assoc]

/-- The order of places, with equal ones. -/
def PlaceLe (p q : Nat × Nat) : Prop := p.1 < q.1 ∨ p.1 = q.1 ∧ p.2 ≤ q.2

theorem placeLe_iff {p q : Nat × Nat} : PlaceLe p q ↔ ¬ PlaceLt q p := by
  unfold PlaceLe PlaceLt
  omega

/-- Places do not go back from an offset to a later one. -/
theorem placeLe_point (t : Text) {n m : Nat} (h : n ≤ m) :
    PlaceLe ((LineIndex.of t).point n) ((LineIndex.of t).point m) := by
  obtain ⟨u, v, hn, hu⟩ := isMeasure_byteSize.exists_isLongest n t
  obtain ⟨u', v', rfl, hu'⟩ := isMeasure_byteSize.exists_isLongest m t
  obtain ⟨w, rfl⟩ := hu'.exists_append isMeasure_byteSize hn (Nat.le_trans hu.le h)
  have hpoint : (LineIndex.of (u ++ w ++ v')).point n =
      (LineIndex.of (u ++ w ++ v')).point u.byteSize := hn ▸ point_eq_of_isLongest hu
  rw [placeLe_iff, hpoint, point_eq_of_isLongest hu']
  exact not_place_lt u w v'

/-- A line that exists has an offset for every column: the boundary at its last column that is not
beyond, and in front of a carriage return with which the text ends also for all columns behind that.
Places are in the order of the offsets. -/
theorem offset?_roundsDown (t : Text) (number column : Nat) :
    ((LineIndex.of t).offset? number column = none ↔ t.count '\n' < number) ∧
    (∀ b, (LineIndex.of t).offset? number column = some b →
      IsBoundary t b ∧
        ∃ c, (LineIndex.of t).point b = (number, c) ∧ IsColumn t number c ∧ c ≤ column ∧
          (IsLastColumn t number column c ↔
            ¬ (t.getLast? = some '\r' ∧ b + 1 = t.byteSize ∧ c < column))) ∧
    ∀ n m, n ≤ m → PlaceLe ((LineIndex.of t).point n) ((LineIndex.of t).point m) :=
  ⟨offset?_eq_none_iff, fun _ => isLastColumn_iff_of_offset?, fun _ _ => placeLe_point t⟩

/-- A column inside a surrogate pair, and an offset between a carriage return and its line feed. -/
theorem offset?_roundsDown_mixedLines :
    ((LineIndex.of mixedLines).offset? 0 2 = some 2 ∧ (LineIndex.of mixedLines).point 2 = (0, 1) ∧
      IsLastColumn mixedLines 0 2 1) ∧
      PlaceLe ((LineIndex.of mixedLines).point 7) ((LineIndex.of mixedLines).point 8) := by
  obtain ⟨-, hdown, horder⟩ := offset?_roundsDown mixedLines 0 2
  have hoffset : (LineIndex.of mixedLines).offset? 0 2 = some 2 := by decide
  have hplace : (LineIndex.of mixedLines).point 2 = (0, 1) := by decide
  obtain ⟨-, c, hc, -, -, hlast⟩ := hdown 2 hoffset
  obtain rfl : 1 = c := (Prod.mk.inj (hplace.symm.trans hc)).2
  exact ⟨⟨hoffset, hplace, hlast.mpr (by decide)⟩, horder 7 8 (by decide)⟩

/-- The column behind a carriage return with which the text ends leads back in front of it. -/
theorem not_offset?_roundsDown_lastReturn :
    ¬ ∀ (t : Text) (number column b : Nat), (LineIndex.of t).offset? number column = some b →
      ∃ c, (LineIndex.of t).point b = (number, c) ∧ IsLastColumn t number column c := by
  intro h
  obtain ⟨c, hc, hlast⟩ := h "a\r".toList 0 2 1 (by decide)
  obtain rfl : 1 = c := (Prod.mk.inj hc).2
  have hbehind : IsColumn "a\r".toList 0 2 :=
    ⟨[], "a\r".toList, [], rfl, Or.inl rfl, rfl, by decide, by decide, rfl⟩
  exact absurd (hlast.le_of_le 2 hbehind (Nat.le_refl 2)) (by decide)

end LeadingTrim.Text
