/-
# Places of characters

What the index of a text says of the offset at which a character begins. The line is the number of
line feeds in front of it (`lineOf_of_isLongest`). The column is the width of what stands in front
of it on its line, as long as the character does not end the line (`point_of_line`). So the places
of offsets before and behind such a character are before and behind its own (`place_lt_of_before`,
`place_lt_of_behind`), although the offsets around a line break may share a place.
-/

import LeadingTrim.Proofs.Text.Boundary
import LeadingTrim.Text.LineIndex

namespace LeadingTrim.Text

/-! ## Where lines begin -/

theorem lineStartsFrom_append (offset : Nat) (s t : Text) :
    lineStartsFrom offset (s ++ t) =
      lineStartsFrom offset s ++ lineStartsFrom (offset + s.byteSize) t := by
  induction s generalizing offset with
  | nil => simp [lineStartsFrom]
  | cons c s ih =>
    simp only [List.cons_append, lineStartsFrom, ih, byteSize_cons, Nat.add_assoc]
    split
    · simp
    · rfl

theorem lineStartsFrom_eq_nil {t : Text} (h : '\n' ∉ t) (offset : Nat) :
    lineStartsFrom offset t = [] := by
  induction t generalizing offset with
  | nil => rfl
  | cons c t ih =>
    simp only [List.mem_cons, not_or] at h
    rw [lineStartsFrom, if_neg (Ne.symm h.1), ih h.2]

theorem length_lineStartsFrom (offset : Nat) (t : Text) :
    (lineStartsFrom offset t).length = t.count '\n' := by
  induction t generalizing offset with
  | nil => rfl
  | cons c t ih =>
    rw [lineStartsFrom, List.count_cons]
    by_cases hc : c = '\n'
    · simp [hc, ih]
    · simp [hc, ih]

theorem lt_of_mem_lineStartsFrom {offset n : Nat} {t : Text} (h : n ∈ lineStartsFrom offset t) :
    offset < n ∧ n ≤ offset + t.byteSize := by
  induction t generalizing offset with
  | nil => simp [lineStartsFrom] at h
  | cons c t ih =>
    have hpos := c.utf8Size_pos
    rw [lineStartsFrom] at h
    rw [byteSize_cons]
    split at h
    · rcases List.mem_cons.mp h with rfl | h
      · omega
      · have := ih h
        omega
    · have := ih h
      omega

/-- The text is empty or ends with a line feed, so that a line begins behind it. -/
def EndsLine (t : Text) : Prop := t = [] ∨ ∃ s, t = s ++ ['\n']

/-- Lines begin behind line feeds. -/
theorem exists_of_mem_lineStartsFrom {offset n : Nat} {t : Text} (h : n ∈ lineStartsFrom offset t) :
    ∃ u v : Text, t = u ++ '\n' :: v ∧ offset + (u ++ ['\n']).byteSize = n := by
  induction t generalizing offset with
  | nil => simp [lineStartsFrom] at h
  | cons c t ih =>
    have hrest : n ∈ lineStartsFrom (offset + c.utf8Size) t →
        ∃ u v : Text, c :: t = u ++ '\n' :: v ∧ offset + (u ++ ['\n']).byteSize = n := by
      intro hn
      obtain ⟨u, v, rfl, hu⟩ := ih hn
      exact ⟨c :: u, v, rfl, by rw [List.cons_append, byteSize_cons]; omega⟩
    rw [lineStartsFrom] at h
    split at h
    next hc =>
      rcases List.mem_cons.mp h with rfl | h
      · exact ⟨[], t, by rw [hc]; rfl, by rw [hc]; rfl⟩
      · exact hrest h
    · exact hrest h

/-- Lines begin between characters. -/
theorem exists_of_mem_lineStarts {n : Nat} {t : Text} (h : n ∈ lineStarts t) :
    ∃ u v : Text, t = u ++ v ∧ u.byteSize = n := by
  rcases List.mem_cons.mp h with rfl | h
  · exact ⟨[], t, rfl, rfl⟩
  · obtain ⟨u, v, rfl, hu⟩ := exists_of_mem_lineStartsFrom h
    exact ⟨u ++ ['\n'], v, by simp, by omega⟩

/-- A text is split where its last line begins. -/
theorem exists_endsLine_append (t : Text) : ∃ s l, t = s ++ l ∧ EndsLine s ∧ '\n' ∉ l := by
  induction t with
  | nil => exact ⟨[], [], rfl, Or.inl rfl, List.not_mem_nil⟩
  | cons c t ih =>
    obtain ⟨s, l, rfl, hs, hl⟩ := ih
    rcases hs with rfl | ⟨s, rfl⟩
    · by_cases hc : c = '\n'
      · exact ⟨[c], l, rfl, Or.inr ⟨[], by rw [hc]; rfl⟩, hl⟩
      · exact ⟨[], c :: l, rfl, Or.inl rfl, by simp [hl, Ne.symm hc]⟩
    · exact ⟨c :: (s ++ ['\n']), l, rfl, Or.inr ⟨c :: s, rfl⟩, hl⟩

/-- The line behind a text that ends a line begins there, and is counted by its line feeds. -/
theorem EndsLine.exists_lineStarts_eq {t : Text} (h : EndsLine t) :
    ∃ starts, lineStarts t = starts ++ [t.byteSize] ∧ starts.length = t.count '\n' := by
  rcases h with rfl | ⟨s, rfl⟩
  · exact ⟨[], rfl, rfl⟩
  · refine ⟨lineStarts s, ?_, ?_⟩
    · rw [lineStarts, lineStartsFrom_append, Nat.zero_add, byteSize_append]
      rfl
    · rw [lineStarts, List.length_cons, length_lineStartsFrom, List.count_append]
      rfl

theorem EndsLine.byteSize_mem_lineStarts {s : Text} (h : EndsLine s) (t : Text) :
    s.byteSize ∈ lineStarts (s ++ t) := by
  obtain ⟨starts, hstarts, -⟩ := h.exists_lineStarts_eq
  have hmem : s.byteSize ∈ lineStarts s := by simp [hstarts]
  rw [lineStarts, lineStartsFrom_append, ← List.cons_append]
  exact List.mem_append_left _ hmem

/-! ## Lines -/

theorem map_start_linesAt (t : Text) (starts : List Nat) :
    (linesAt t starts).map Line.start = starts := by
  have hstart : ∀ start stop, (Line.between t start stop).start = start := by
    intro start stop
    unfold Line.between
    split
    · rfl
    · rfl
  induction starts with
  | nil => rfl
  | cons start starts ih =>
    cases starts with
    | nil => simp [linesAt, hstart]
    | cons next starts => simp [linesAt, hstart, ih]

theorem linesAt_append_getElem? (t : Text) (starts : List Nat) (start : Nat) (rest : List Nat) :
    (linesAt t (starts ++ start :: rest))[starts.length]? =
      some (Line.between t start (rest.head?.elim t.byteSize (· - 1))) := by
  induction starts with
  | nil => cases rest <;> simp [linesAt]
  | cons s starts ih =>
    obtain ⟨next, tail, htail⟩ := List.exists_cons_of_ne_nil
      (show starts ++ start :: rest ≠ [] by simp)
    rw [List.cons_append, htail, linesAt, ← htail, List.length_cons, List.getElem?_cons_succ, ih]

/-- A line without the carriage return that ends it. -/
def dropReturn (line : Text) : Text := if line.getLast? = some '\r' then line.dropLast else line

theorem eq_dropReturn_append {line : Text} (h : line.getLast? = some '\r') :
    line = dropReturn line ++ ['\r'] := by
  rw [dropReturn, if_pos h]
  obtain ⟨l, rfl⟩ := List.getLast?_eq_some_iff.mp h
  rw [List.dropLast_concat]

theorem exists_dropReturn_append (line : Text) : ∃ s, line = dropReturn line ++ s := by
  by_cases h : line.getLast? = some '\r'
  · exact ⟨_, eq_dropReturn_append h⟩
  · exact ⟨[], by rw [dropReturn, if_neg h, List.append_nil]⟩

theorem between_eq {before line after t : Text} (ht : t = before ++ line ++ after) :
    Line.between t before.byteSize (before.byteSize + line.byteSize) =
      ⟨before.byteSize, before.byteSize + (dropReturn line).byteSize⟩ := by
  have hslice : t.slice before.byteSize (before.byteSize + line.byteSize) = line :=
    slice_eq_of_append ht rfl rfl
  unfold Line.between dropReturn
  rw [hslice]
  by_cases hreturn : line.getLast? = some '\r'
  · obtain ⟨l, rfl⟩ := List.getLast?_eq_some_iff.mp hreturn
    have hsize : '\r'.utf8Size = 1 := rfl
    simp [hsize]
  · simp [hreturn]

/-- The line between a text that ends a line and one that does not go on with it. -/
theorem lines_getElem?_of_endsLine {before line after : Text} (hbefore : EndsLine before)
    (hline : '\n' ∉ line) (hafter : after = [] ∨ ∃ s, after = '\n' :: s) :
    (LineIndex.of (before ++ line ++ after)).lines[before.count '\n']? =
      some ⟨before.byteSize, before.byteSize + (dropReturn line).byteSize⟩ := by
  obtain ⟨starts, hstarts, hlength⟩ := hbefore.exists_lineStarts_eq
  have hall : lineStarts (before ++ line ++ after) =
      starts ++ before.byteSize :: lineStartsFrom (before.byteSize + line.byteSize) after := by
    have hcons : lineStarts (before ++ line ++ after) = lineStarts before
        ++ lineStartsFrom before.byteSize (line ++ after) := by
      rw [List.append_assoc, lineStarts, lineStartsFrom_append, Nat.zero_add]
      rfl
    rw [hcons, hstarts, lineStartsFrom_append, lineStartsFrom_eq_nil hline]
    simp
  have hstop : (lineStartsFrom (before.byteSize + line.byteSize) after).head?.elim
      (before ++ line ++ after).byteSize (· - 1) = before.byteSize + line.byteSize := by
    rcases hafter with rfl | ⟨s, rfl⟩
    · simp [lineStartsFrom]
    · simp [lineStartsFrom, show '\n'.utf8Size = 1 from rfl]
  show (linesAt _ (lineStarts (before ++ line ++ after)))[before.count '\n']? = _
  rw [hall, ← hlength, linesAt_append_getElem?, hstop, between_eq rfl]

/-- The line of an offset is the number of line feeds in front of the character it stands in. -/
theorem lineOf_of_isLongest {n : Nat} {u v : Text} (h : IsLongest byteSize n u v) :
    (LineIndex.of (u ++ v)).lineOf n = u.count '\n' := by
  have hstarts : lineStarts (u ++ v) = lineStarts u ++ lineStartsFrom u.byteSize v := by
    rw [lineStarts, lineStartsFrom_append, Nat.zero_add]
    rfl
  have hupTo : ∀ s ∈ lineStarts u, decide (s ≤ n) = true := by
    intro s hs
    refine decide_eq_true ?_
    rcases List.mem_cons.mp hs with rfl | hs
    · exact Nat.zero_le n
    · have := (lt_of_mem_lineStartsFrom hs).2
      have := h.le
      omega
  have hbehind : (lineStartsFrom u.byteSize v).takeWhile (fun s => decide (s ≤ n)) = [] := by
    cases hv : lineStartsFrom u.byteSize v with
    | nil => rfl
    | cons s rest =>
      -- a line begins behind a whole character
      obtain ⟨w, x, rfl, hs⟩ := exists_of_mem_lineStartsFrom (hv ▸ List.mem_cons_self)
      have hlt : n < s := by
        cases w with
        | nil => exact hs ▸ h.lt '\n' x rfl
        | cons c w =>
          have := h.lt c (w ++ '\n' :: x) rfl
          simp only [List.cons_append, byteSize_cons, byteSize_nil] at hs this
          omega
      simp [Nat.not_le.mpr hlt]
  have hlines : ((LineIndex.of (u ++ v)).lines.takeWhile fun l => l.start ≤ n).map Line.start =
      lineStarts u := by
    have hmap : (LineIndex.of (u ++ v)).lines.map Line.start = lineStarts (u ++ v) :=
      map_start_linesAt _ _
    have htake : ((LineIndex.of (u ++ v)).lines.map Line.start).takeWhile
        (fun s => decide (s ≤ n)) =
        ((LineIndex.of (u ++ v)).lines.takeWhile fun l => l.start ≤ n).map Line.start :=
      List.takeWhile_map
    rw [← htake, hmap, hstarts, List.takeWhile_append_of_pos hupTo, hbehind, List.append_nil]
  have hlength := congrArg List.length hlines
  rw [List.length_map, lineStarts, List.length_cons, length_lineStartsFrom] at hlength
  rw [LineIndex.lineOf, hlength, Nat.add_sub_cancel]

/-! ## Columns -/

/-- The width of a text in UTF-16 code units. -/
def columns : Text → Nat
  | [] => 0
  | c :: rest => utf16Units c + columns rest

theorem utf16Units_pos (c : Char) : 0 < utf16Units c := by
  unfold utf16Units
  split
  · exact Nat.one_pos
  · exact Nat.two_pos

theorem columns_append (s t : Text) : columns (s ++ t) = columns s + columns t := by
  induction s with
  | nil => simp [columns]
  | cons c s ih =>
    simp only [List.cons_append, columns, ih]
    omega

theorem columns_singleton (c : Char) : columns [c] = utf16Units c := Nat.add_zero _

theorem isMeasure_columns : IsMeasure columns :=
  ⟨columns_append, fun c => columns_singleton c ▸ utf16Units_pos c⟩

theorem columnAt_of_isLongest {n : Nat} {s t : Text} (h : IsLongest byteSize n s t) :
    columnAt (s ++ t) n = columns s := by
  induction s generalizing n with
  | nil =>
    cases t with
    | nil => rfl
    | cons c t =>
      rw [isMeasure_byteSize.isLongest_nil_iff, byteSize_singleton] at h
      rw [List.nil_append, columnAt, if_neg (Nat.not_le.mpr h), columns]
  | cons c s ih =>
    rw [isMeasure_byteSize.isLongest_cons_iff, byteSize_singleton] at h
    rw [List.cons_append, columnAt, if_pos h.1, ih h.2, columns]

theorem columnAt_byteSize_append (s t : Text) : columnAt (s ++ t) s.byteSize = columns s :=
  columnAt_of_isLongest (isMeasure_byteSize.isLongest s t)

theorem columnAt_le_columnAt (t : Text) {n m : Nat} (h : n ≤ m) : columnAt t n ≤ columnAt t m := by
  induction t generalizing n m with
  | nil => exact Nat.le_refl _
  | cons c t ih =>
    rw [columnAt, columnAt]
    by_cases hn : c.utf8Size ≤ n
    · rw [if_pos hn, if_pos (Nat.le_trans hn h)]
      have := ih (Nat.sub_le_sub_right h c.utf8Size)
      omega
    · rw [if_neg hn]
      exact Nat.zero_le _

/-! ## Places -/

/-- The place of an offset in a line. Behind the end of the line the column does not go on. -/
theorem point_of_isLongest {n : Nat} {before l m after : Text} (hbefore : EndsLine before)
    (hline : '\n' ∉ l ++ m) (hafter : after = [] ∨ ∃ s, after = '\n' :: s)
    (hn : IsLongest byteSize n (before ++ l) (m ++ after)) :
    (LineIndex.of (before ++ (l ++ m) ++ after)).point n =
      (before.count '\n', columnAt (dropReturn (l ++ m))
        (min (n - before.byteSize) (dropReturn (l ++ m)).byteSize)) := by
  have hlineOf : (LineIndex.of (before ++ (l ++ m) ++ after)).lineOf n = before.count '\n' := by
    have h := lineOf_of_isLongest hn
    have hl : l.count '\n' = 0 :=
      List.count_eq_zero_of_not_mem fun hmem => hline (List.mem_append_left _ hmem)
    rw [List.count_append, hl] at h
    simpa using h
  have hslice : (before ++ (l ++ m) ++ after).slice before.byteSize
      (before.byteSize + (dropReturn (l ++ m)).byteSize) = dropReturn (l ++ m) := by
    obtain ⟨s, hs⟩ := exists_dropReturn_append (l ++ m)
    have hall : before ++ (l ++ m) ++ after = before ++ dropReturn (l ++ m) ++ (s ++ after) := by
      conv => lhs; rw [hs]
      simp only [List.append_assoc]
    exact slice_eq_of_append hall rfl rfl
  have hle := hn.le
  rw [byteSize_append] at hle
  rw [LineIndex.point, hlineOf, lines_getElem?_of_endsLine hbefore hline hafter]
  show (_, columnAt ((before ++ (l ++ m) ++ after).slice _ _) _) = _
  rw [hslice]
  congr 2
  show min (max n before.byteSize) (before.byteSize + (dropReturn (l ++ m)).byteSize)
    - before.byteSize = _
  omega

/-- The place of a boundary in a line. -/
theorem point_of_endsLine {before l m after : Text} (hbefore : EndsLine before)
    (hline : '\n' ∉ l ++ m) (hafter : after = [] ∨ ∃ s, after = '\n' :: s) :
    (LineIndex.of (before ++ (l ++ m) ++ after)).point (before ++ l).byteSize =
      (before.count '\n', columnAt (dropReturn (l ++ m))
        (min l.byteSize (dropReturn (l ++ m)).byteSize)) := by
  rw [point_of_isLongest hbefore hline hafter (isMeasure_byteSize.isLongest _ _), byteSize_append,
    Nat.add_sub_cancel_left]

/-- A line is not cut in front of a character that does not end it. -/
theorem exists_dropReturn_eq {c : Char} (hc : c ≠ '\r') (l m : Text) :
    ∃ m', dropReturn (l ++ c :: m) = l ++ c :: m' := by
  unfold dropReturn
  split
  next h =>
    obtain ⟨m', hm⟩ : ∃ m', m = m' ++ ['\r'] := by
      refine List.getLast?_eq_some_iff.mp ?_
      cases m with
      | nil => simp [hc] at h
      | cons d m => simpa using h
    refine ⟨m', ?_⟩
    rw [hm, ← List.cons_append, ← List.append_assoc, List.dropLast_concat]
  · exact ⟨m, rfl⟩

/-- A text is split where its first line ends. -/
theorem exists_append_endsLine (t : Text) :
    ∃ l after, t = l ++ after ∧ '\n' ∉ l ∧ (after = [] ∨ ∃ s, after = '\n' :: s) := by
  induction t with
  | nil => exact ⟨[], [], rfl, List.not_mem_nil, Or.inl rfl⟩
  | cons c t ih =>
    by_cases hc : c = '\n'
    · exact ⟨[], c :: t, rfl, List.not_mem_nil, Or.inr ⟨t, by rw [hc]⟩⟩
    · obtain ⟨l, after, rfl, hl, hafter⟩ := ih
      exact ⟨c :: l, after, rfl, by simp [hl, Ne.symm hc], hafter⟩

/-- A text is split in one way only where its first line ends. -/
theorem eq_of_append_endsLine {l after l' after' : Text} (hl : '\n' ∉ l)
    (hafter : after = [] ∨ ∃ s, after = '\n' :: s) (hl' : '\n' ∉ l')
    (hafter' : after' = [] ∨ ∃ s, after' = '\n' :: s) (h : l ++ after = l' ++ after') : l = l' := by
  have hfirst : ∀ {l after : Text}, '\n' ∉ l → (after = [] ∨ ∃ s, after = '\n' :: s) →
      (l ++ after).takeWhile (fun c => decide (c ≠ '\n')) = l := by
    intro l after hl hafter
    have hall : ∀ c ∈ l, decide (c ≠ '\n') = true := fun c hc => decide_eq_true fun h => hl (h ▸ hc)
    rw [List.takeWhile_append_of_pos hall]
    obtain rfl | ⟨s, rfl⟩ := hafter
    · simp
    · simp
  rw [← hfirst hl hafter, h, hfirst hl' hafter']

/-- The place of an offset in a line, in front of a character that does not end the line. -/
theorem point_of_line {before : Text} (l m after : Text) {c : Char} (hbefore : EndsLine before)
    (hl : '\n' ∉ l ++ m) (hc : c ≠ '\n' ∧ c ≠ '\r') :
    (LineIndex.of (before ++ l ++ m ++ c :: after)).point (before ++ l).byteSize =
      (before.count '\n', columns l) := by
  obtain ⟨l', after', rfl, hl', hafter'⟩ := exists_append_endsLine after
  have hline : '\n' ∉ l ++ (m ++ c :: l') := by
    simp only [List.mem_append, List.mem_cons, not_or] at hl hl' ⊢
    exact ⟨hl.1, hl.2, Ne.symm hc.1, hl'⟩
  have hpoint := point_of_endsLine hbefore hline hafter'
  obtain ⟨m', hm'⟩ := exists_dropReturn_eq hc.2 (l ++ m) l'
  rw [List.append_assoc, List.append_assoc] at hm'
  rw [hm', byteSize_append l, Nat.min_eq_left (Nat.le_add_right ..), columnAt_byteSize_append]
    at hpoint
  simpa using hpoint

/-- Along a line the column goes on by the width of the text. -/
theorem point_append_of_line (u m k after : Text) {c : Char} (hm : '\n' ∉ m ++ k)
    (hc : c ≠ '\n' ∧ c ≠ '\r') :
    (LineIndex.of (u ++ m ++ k ++ c :: after)).point (u ++ m).byteSize =
      (((LineIndex.of (u ++ m ++ k ++ c :: after)).point u.byteSize).1,
        ((LineIndex.of (u ++ m ++ k ++ c :: after)).point u.byteSize).2 + columns m) := by
  obtain ⟨before, l, rfl, hbefore, hl⟩ := exists_endsLine_append u
  have hline : '\n' ∉ l ++ (m ++ k) := by
    rw [List.mem_append]
    exact not_or.mpr ⟨hl, hm⟩
  have hu := point_of_line l (m ++ k) after hbefore hline hc
  have hum := point_of_line (l ++ m) k after hbefore (by rwa [List.append_assoc]) hc
  rw [← List.append_assoc] at hu hum
  rw [hu, hum, columns_append]

/-- The order of places. -/
def PlaceLt (p q : Nat × Nat) : Prop := p.1 < q.1 ∨ p.1 = q.1 ∧ p.2 < q.2

/-- The line of a boundary. -/
theorem point_fst (u v : Text) :
    ((LineIndex.of (u ++ v)).point u.byteSize).1 = u.count '\n' := by
  obtain ⟨before, l, rfl, hbefore, hl⟩ := exists_endsLine_append u
  obtain ⟨m, after, rfl, hm, hafter⟩ := exists_append_endsLine v
  have hpoint := point_of_endsLine (l := l) (m := m) hbefore (by simp [hl, hm]) hafter
  have hcount : l.count '\n' = 0 := List.count_eq_zero_of_not_mem hl
  rw [show before ++ l ++ (m ++ after) = before ++ (l ++ m) ++ after by simp, hpoint,
    List.count_append, hcount, Nat.add_zero]

/-- An offset in front of another has a place in front of it, if the other is in a line that goes on
up to a character which does not end it. -/
theorem place_lt_of_before (u m k after : Text) {c : Char} (hm : m ≠ []) (hk : '\n' ∉ k)
    (hc : c ≠ '\n' ∧ c ≠ '\r') :
    PlaceLt ((LineIndex.of (u ++ m ++ k ++ c :: after)).point u.byteSize)
      ((LineIndex.of (u ++ m ++ k ++ c :: after)).point (u ++ m).byteSize) := by
  obtain ⟨before, l, rfl, hbefore, hl⟩ := exists_endsLine_append u
  by_cases hline : '\n' ∈ m
  · -- a line begins in between
    have hu := point_fst (before ++ l) (m ++ (k ++ c :: after))
    have hum := point_fst (before ++ l ++ m) (k ++ c :: after)
    rw [← List.append_assoc, ← List.append_assoc] at hu
    rw [← List.append_assoc] at hum
    have hcount : 0 < m.count '\n' := List.count_pos_iff.mpr hline
    rw [List.count_append] at hum
    exact Or.inl (by omega)
  · have hum := point_append_of_line (before ++ l) m k after (by simp [hline, hk]) hc
    obtain ⟨d, m, rfl⟩ := List.exists_cons_of_ne_nil hm
    have hpos := utf16Units_pos d
    rw [hum, columns]
    exact Or.inr ⟨rfl, by show _ < _; omega⟩

/-- An offset behind a character that does not end its line has a place behind it. -/
theorem place_lt_of_behind (u m after : Text) {c : Char} (hc : c ≠ '\n' ∧ c ≠ '\r') :
    PlaceLt ((LineIndex.of (u ++ c :: m ++ after)).point u.byteSize)
      ((LineIndex.of (u ++ c :: m ++ after)).point (u ++ c :: m).byteSize) := by
  obtain ⟨before, l, rfl, hbefore, hl⟩ := exists_endsLine_append u
  by_cases hline : '\n' ∈ m
  · have hu := point_fst (before ++ l) (c :: m ++ after)
    have hum := point_fst (before ++ l ++ c :: m) after
    rw [← List.append_assoc] at hu
    have hcount : 0 < m.count '\n' := List.count_pos_iff.mpr hline
    rw [List.count_append, List.count_cons] at hum
    exact Or.inl (by omega)
  · -- the line goes on with the character, even where a carriage return is cut off behind it
    obtain ⟨m', after', rfl, hm', hafter'⟩ := exists_append_endsLine after
    have hu := point_of_line l [] (m ++ (m' ++ after')) hbefore (by simpa using hl) hc
    have hlm : '\n' ∉ (l ++ c :: m) ++ m' := by simp [hl, hline, hm', Ne.symm hc.1]
    have hum := point_of_endsLine hbefore hlm hafter'
    obtain ⟨k, hk⟩ := exists_dropReturn_eq hc.2 l (m ++ m')
    have hcut : dropReturn (l ++ c :: m ++ m') = (l ++ [c]) ++ k := by simpa using hk
    have hcolumn : columns (l ++ [c]) ≤ columnAt ((l ++ [c]) ++ k)
        (min (l ++ c :: m).byteSize ((l ++ [c]) ++ k).byteSize) := by
      rw [← columnAt_byteSize_append (l ++ [c]) k]
      refine columnAt_le_columnAt _ ?_
      simp only [byteSize_append, byteSize_cons, byteSize_nil]
      omega
    have hpos := utf16Units_pos c
    rw [columns_append, columns, columns] at hcolumn
    rw [hcut] at hum
    have hleft : before ++ l ++ c :: m ++ (m' ++ after') =
        before ++ l ++ [] ++ c :: (m ++ (m' ++ after')) := by simp
    have hright : before ++ l ++ c :: m ++ (m' ++ after') =
        before ++ (l ++ c :: m ++ m') ++ after' := by simp
    rw [← hleft] at hu
    rw [← hright, ← List.append_assoc before] at hum
    rw [hu, hum]
    exact Or.inr ⟨rfl, by show columns l < _; omega⟩

end LeadingTrim.Text
