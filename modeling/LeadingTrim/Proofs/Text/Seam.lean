/-
# Seams of a text

A carriage return and the line feed behind it share a place, and so an offset between the two is
hard to tell from the one in front. A *seam* is an offset that is not between them. In a text whose
carriage returns all stand in front of line feeds the text in front of a seam does not end with a
carriage return (`IsSeam.exists_endsClear`), and such offsets have places of their own
(`place_lt_of_endsClear`). The column of an offset is the width of those characters in front of it
on its line that count, which a carriage return at the end of the line does not
(`point_eq_counted`). The index leads from the place of any boundary back to a seam
(`exists_offset?_point`).
-/

import LeadingTrim.Proofs.Text.LineIndex

namespace LeadingTrim.Text

/-- Carriage returns stand in front of line feeds only. -/
def ReturnsPaired (t : Text) : Prop := ∀ u v, t = u ++ '\r' :: v → v.head? = some '\n'

/-- Neither a character nor a line break straddles the offset. -/
def IsSeam (t : Text) (n : Nat) : Prop :=
  ∃ u v, t = u ++ v ∧ u.byteSize = n ∧ ¬ (u.getLast? = some '\r' ∧ v.head? = some '\n')

/-- The text does not end with a carriage return. -/
def EndsClear (t : Text) : Prop := t.getLast? ≠ some '\r'

variable {s t u v w : Text}

theorem returnsPaired_of_not_mem (h : '\r' ∉ t) : ReturnsPaired t := by
  rintro u v rfl
  exact absurd (List.mem_append_right _ List.mem_cons_self) h

theorem endsClear_nil : EndsClear [] := by simp [EndsClear]

theorem EndsClear.append (hs : EndsClear s) (ht : EndsClear t) : EndsClear (s ++ t) := by
  intro h
  rw [List.getLast?_append] at h
  cases hlast : t.getLast? with
  | none =>
    rw [hlast, Option.none_or] at h
    exact hs h
  | some c =>
    rw [hlast, Option.some_or] at h
    exact ht (hlast.trans h)

theorem EndsClear.of_append (h : EndsClear (s ++ t)) : EndsClear t := by
  intro hlast
  refine h ?_
  rw [List.getLast?_append, hlast]
  rfl

theorem endsClear_concat {c : Char} (hc : c ≠ '\r') : EndsClear (t ++ [c]) := by
  simpa [EndsClear] using hc

theorem EndsLine.endsClear (h : EndsLine t) : EndsClear t := by
  rcases h with rfl | ⟨s, rfl⟩
  · exact endsClear_nil
  · exact endsClear_concat (by decide)

theorem ReturnsPaired.endsClear (h : ReturnsPaired t) : EndsClear t := by
  intro hlast
  obtain ⟨s, rfl⟩ := List.getLast?_eq_some_iff.mp hlast
  exact absurd (h s [] rfl) (by simp)

theorem IsSeam.isBoundary {n : Nat} (h : IsSeam t n) : IsBoundary t n := by
  obtain ⟨u, v, hsplit, hn, -⟩ := h
  exact ⟨u, v, hsplit, hn⟩

/-- Where there are no carriage returns all boundaries are seams. -/
theorem IsBoundary.isSeam {n : Nat} (h : IsBoundary t n) (hreturn : '\r' ∉ t) : IsSeam t n := by
  obtain ⟨u, v, rfl, hn⟩ := h
  exact ⟨u, v, rfl, hn, fun hbreak =>
    hreturn (List.mem_append_left _ (List.mem_of_getLast? hbreak.1))⟩

/-- The text in front of a seam does not end with a carriage return. -/
theorem IsSeam.exists_endsClear {n : Nat} (h : IsSeam t n) (hpaired : ReturnsPaired t) :
    ∃ u v, t = u ++ v ∧ u.byteSize = n ∧ EndsClear u := by
  obtain ⟨u, v, rfl, hn, hseam⟩ := h
  refine ⟨u, v, rfl, hn, fun hlast => hseam ⟨hlast, ?_⟩⟩
  obtain ⟨s, rfl⟩ := List.getLast?_eq_some_iff.mp hlast
  exact hpaired s v (by simp)

/-! ## Checks -/

theorem returnsPaired_iff :
    ReturnsPaired t ↔ ∀ k < t.length, t[k]? = some '\r' → t[k + 1]? = some '\n' := by
  constructor
  · intro h k hk hreturn
    have hsplit : t = t.take k ++ '\r' :: t.drop (k + 1) := by
      rw [List.getElem?_eq_getElem hk, Option.some.injEq] at hreturn
      rw [← hreturn, ← List.drop_eq_getElem_cons hk, List.take_append_drop]
    rw [← List.head?_drop]
    exact h _ _ hsplit
  · rintro h u v rfl
    have hnext := h u.length (by simp) (by simp)
    rw [List.getElem?_append_right (Nat.le_succ _)] at hnext
    simpa [List.head?_eq_getElem?] using hnext

theorem isSeam_iff {n : Nat} :
    IsSeam t n ↔ ∃ k < t.length + 1, byteSize (t.take k) = n ∧
      ¬ ((t.take k).getLast? = some '\r' ∧ t[k]? = some '\n') := by
  constructor
  · rintro ⟨u, v, rfl, hn, hseam⟩
    refine ⟨u.length, by rw [List.length_append]; omega, ?_⟩
    rw [List.take_left, List.getElem?_append_right (Nat.le_refl _), Nat.sub_self,
      ← List.head?_eq_getElem?]
    exact ⟨hn, hseam⟩
  · rintro ⟨k, -, hn, hseam⟩
    rw [← List.head?_drop] at hseam
    exact ⟨_, _, (List.take_append_drop k t).symm, hn, hseam⟩

instance (t : Text) : Decidable (ReturnsPaired t) := decidable_of_iff _ returnsPaired_iff.symm

instance (t : Text) (n : Nat) : Decidable (IsSeam t n) := decidable_of_iff _ isSeam_iff.symm

/-! ## Places in order -/

/-- Places do not go back along a text. -/
theorem not_place_lt (u m v : Text) :
    ¬ PlaceLt ((LineIndex.of (u ++ m ++ v)).point (u ++ m).byteSize)
      ((LineIndex.of (u ++ m ++ v)).point u.byteSize) := by
  obtain ⟨before, l, rfl, hbefore, hl⟩ := exists_endsLine_append u
  by_cases hline : '\n' ∈ m
  · -- a line begins in between
    have hu := point_fst (before ++ l) (m ++ v)
    have hum := point_fst (before ++ l ++ m) v
    rw [← List.append_assoc] at hu
    have hcount : 0 < m.count '\n' := List.count_pos_iff.mpr hline
    rw [List.count_append] at hum
    unfold PlaceLt
    omega
  · obtain ⟨m', after, rfl, hm', hafter⟩ := exists_append_endsLine v
    have hl' : '\n' ∉ l ++ (m ++ m') := by simp [hl, hline, hm']
    have hlm : '\n' ∉ (l ++ m) ++ m' := by simp [hl, hline, hm']
    have hu := point_of_endsLine hbefore hl' hafter
    have hum := point_of_endsLine hbefore hlm hafter
    have htext : before ++ l ++ m ++ (m' ++ after) = before ++ (l ++ (m ++ m')) ++ after := by simp
    have htext' : before ++ l ++ m ++ (m' ++ after) = before ++ (l ++ m ++ m') ++ after := by simp
    rw [← htext] at hu
    rw [← htext', ← List.append_assoc before l m] at hum
    have hle : columnAt (dropReturn (l ++ (m ++ m'))) (min l.byteSize
          (dropReturn (l ++ (m ++ m'))).byteSize) ≤
        columnAt (dropReturn (l ++ m ++ m')) (min (l ++ m).byteSize
          (dropReturn (l ++ m ++ m')).byteSize) := by
      rw [List.append_assoc l m m']
      refine columnAt_le_columnAt _ ?_
      rw [byteSize_append]
      omega
    rw [hu, hum]
    rintro (hlt | ⟨-, hlt⟩)
    · exact Nat.lt_irrefl _ hlt
    · exact Nat.not_lt.mpr hle hlt

/-- A place is in front of another one, unless only the other is behind a carriage return. -/
theorem place_lt_of_endsClear (u m v : Text) (hm : m ≠ []) (hclear : EndsClear (u ++ m)) :
    PlaceLt ((LineIndex.of (u ++ m ++ v)).point u.byteSize)
      ((LineIndex.of (u ++ m ++ v)).point (u ++ m).byteSize) := by
  by_cases hline : '\n' ∈ m
  · have hu := point_fst u (m ++ v)
    have hum := point_fst (u ++ m) v
    rw [← List.append_assoc] at hu
    have hcount : 0 < m.count '\n' := List.count_pos_iff.mpr hline
    rw [List.count_append] at hum
    exact Or.inl (by omega)
  · obtain ⟨k, d, rfl⟩ : ∃ k d, m = k ++ [d] := ⟨_, _, (List.dropLast_concat_getLast hm).symm⟩
    -- the last character in between does not end its line
    have hd : d ≠ '\n' ∧ d ≠ '\r' := by
      refine ⟨fun h => hline (by simp [h]), fun h => hclear ?_⟩
      rw [h, ← List.append_assoc, List.getLast?_concat]
    have hlast := place_lt_of_behind (u ++ k) [] v hd
    have hfirst := not_place_lt u k (d :: v)
    have htext : u ++ (k ++ [d]) ++ v = u ++ k ++ d :: v := by simp
    have htext' : u ++ (k ++ [d]) ++ v = u ++ k ++ [d] ++ v := by simp
    rw [← htext', ← List.append_assoc u k [d]] at *
    rw [← htext] at hfirst
    unfold PlaceLt at *
    omega

/-- Of a character that does not end its line the places of the boundaries behind are behind, and of
no others. -/
theorem place_lt_iff {c : Char} (h : t = u ++ c :: v) (h' : t = s ++ w) (hc : c ≠ '\n' ∧ c ≠ '\r') :
    PlaceLt ((LineIndex.of t).point u.byteSize) ((LineIndex.of t).point s.byteSize) ↔
      u.byteSize < s.byteSize := by
  constructor
  · intro hlt
    refine Nat.lt_of_not_le fun hle => ?_
    obtain ⟨k, rfl⟩ := exists_append_of_byteSize_le id (h'.symm.trans h) (by simpa using hle)
    exact not_place_lt s k (c :: v) (h ▸ hlt)
  · intro hlt
    obtain ⟨k, rfl⟩ := exists_append_of_byteSize_le id (h.symm.trans h')
      (by simpa using Nat.le_of_lt hlt)
    cases k with
    | nil => simp at hlt
    | cons d k =>
      obtain rfl : c = d := by
        rw [h, List.append_assoc, List.append_cancel_left_eq] at h'
        exact (List.cons.inj h').1
      exact h' ▸ place_lt_of_behind u k w hc

/-! ## From places back to offsets -/

theorem bytesAt_of_isLongest {n : Nat} {s t : Text} (h : IsLongest columns n s t) :
    bytesAt (s ++ t) n = s.byteSize := by
  induction s generalizing n with
  | nil =>
    cases t with
    | nil => rfl
    | cons c t =>
      rw [isMeasure_columns.isLongest_nil_iff, columns_singleton] at h
      rw [List.nil_append, bytesAt, if_pos h, byteSize_nil]
  | cons c s ih =>
    rw [isMeasure_columns.isLongest_cons_iff, columns_singleton] at h
    rw [List.cons_append, bytesAt, if_neg (Nat.not_lt.mpr h.1), ih h.2, byteSize_cons]

/-- The offset of a column of a line is behind the longest part of the line within that width. -/
theorem offset?_of_isLongest {column : Nat} {before line after l m : Text}
    (hbefore : EndsLine before) (hline : '\n' ∉ line) (hafter : after = [] ∨ ∃ s, after = '\n' :: s)
    (hcut : dropReturn line = l ++ m) (hcolumn : IsLongest columns column l m) :
    (LineIndex.of (before ++ line ++ after)).offset? (before.count '\n') column =
      some (before ++ l).byteSize := by
  obtain ⟨s, hs⟩ := exists_dropReturn_append line
  have hslice : (before ++ line ++ after).slice before.byteSize
      (before.byteSize + (dropReturn line).byteSize) = dropReturn line := by
    have hall : before ++ line ++ after = before ++ dropReturn line ++ (s ++ after) := by
      conv => lhs; rw [hs]
      simp only [List.append_assoc]
    exact slice_eq_of_append hall rfl rfl
  have htext : (LineIndex.of (before ++ line ++ after)).text = before ++ line ++ after := rfl
  rw [LineIndex.offset?, lines_getElem?_of_endsLine hbefore hline hafter, Option.map_some]
  simp only [htext, hslice]
  rw [hcut, bytesAt_of_isLongest hcolumn, byteSize_append]

/-- The offset of the column at which a part of a line ends. -/
theorem offset?_of_endsLine {before line after l m : Text} (hbefore : EndsLine before)
    (hline : '\n' ∉ line) (hafter : after = [] ∨ ∃ s, after = '\n' :: s)
    (hcut : dropReturn line = l ++ m) :
    (LineIndex.of (before ++ line ++ after)).offset? (before.count '\n') (columns l) =
      some (before ++ l).byteSize :=
  offset?_of_isLongest hbefore hline hafter hcut (isMeasure_columns.isLongest l m)

/-- A line is cut behind its text up to an offset, unless that is behind the carriage return that
ends it. -/
theorem exists_dropReturn_append_eq (l m : Text) (h : ¬ (m = [] ∧ l.getLast? = some '\r')) :
    ∃ m', dropReturn (l ++ m) = l ++ m' := by
  unfold dropReturn
  split
  next hlast =>
    have hm : m ≠ [] := by
      rintro rfl
      exact h ⟨rfl, by simpa using hlast⟩
    exact ⟨m.dropLast, List.dropLast_append_of_ne_nil hm⟩
  · exact ⟨m, rfl⟩

/-- The characters of a line in front of an offset that count for its column, by the text behind:
all but a carriage return with which the line ends there. -/
def counted (l v : Text) : Text := if v = [] ∨ v.head? = some '\n' then dropReturn l else l

theorem dropReturn_eq_self_iff {l : Text} : dropReturn l = l ↔ l.getLast? ≠ some '\r' := by
  unfold dropReturn
  split
  next h =>
    obtain ⟨k, rfl⟩ := List.getLast?_eq_some_iff.mp h
    simp
  next h => exact ⟨fun _ => h, fun _ => rfl⟩

theorem counted_eq_self_iff {l v : Text} :
    counted l v = l ↔ ¬ (l.getLast? = some '\r' ∧ (v = [] ∨ v.head? = some '\n')) := by
  unfold counted
  split
  next h => simp only [dropReturn_eq_self_iff, h, and_true, ne_eq]
  next h => exact ⟨fun _ hreturn => h hreturn.2, fun _ => rfl⟩

theorem exists_counted_append (l v : Text) : ∃ s, l = counted l v ++ s := by
  unfold counted
  split
  · exact exists_dropReturn_append l
  · exact ⟨[], (List.append_nil l).symm⟩

/-- The characters that count are the first ones of the line without its carriage return, and what
that goes on with stands behind the offset. -/
theorem exists_dropReturn_eq_counted_append {m after : Text} (l : Text) (hm : '\n' ∉ m)
    (hafter : after = [] ∨ ∃ s, after = '\n' :: s) :
    ∃ k, dropReturn (l ++ m) = counted l (m ++ after) ++ k ∧ ∃ s, m = k ++ s := by
  cases m with
  | nil =>
    have hend : after = [] ∨ after.head? = some '\n' := by
      rcases hafter with rfl | ⟨s, rfl⟩
      · exact Or.inl rfl
      · exact Or.inr rfl
    exact ⟨[], by simp [counted, hend], [], rfl⟩
  | cons c m =>
    have hc : c ≠ '\n' := fun h => hm (h ▸ List.mem_cons_self)
    obtain ⟨k, hk⟩ := exists_dropReturn_append_eq l (c :: m) (by simp)
    obtain ⟨s, hs⟩ := exists_dropReturn_append (l ++ c :: m)
    rw [hk, List.append_assoc, List.append_cancel_left_eq] at hs
    exact ⟨k, by simpa [counted, hc] using hk, s, hs⟩

/-- All characters of a first part of a line without its carriage return count. -/
theorem counted_eq_self_of_dropReturn {l m k after : Text} (hm : '\n' ∉ m)
    (hcut : dropReturn (l ++ m) = l ++ k) : counted l (m ++ after) = l := by
  refine counted_eq_self_iff.mpr ?_
  rintro ⟨hlast, hend⟩
  cases m with
  | nil =>
    -- the carriage return is at the end of the line, and so not in what is left of it
    obtain ⟨u, rfl⟩ := List.getLast?_eq_some_iff.mp hlast
    rw [List.append_nil, dropReturn, if_pos hlast, List.dropLast_concat, List.append_assoc,
      List.self_eq_append_right] at hcut
    simp at hcut
  | cons c m =>
    obtain rfl : c = '\n' := by simpa using hend
    exact hm List.mem_cons_self

/-- The place of an offset, at the beginning of a character or inside it. -/
theorem point_eq_counted {n : Nat} {before l : Text} (hbefore : EndsLine before) (hl : '\n' ∉ l)
    (hn : IsLongest byteSize n (before ++ l) v) :
    (LineIndex.of (before ++ l ++ v)).point n = (before.count '\n', columns (counted l v)) := by
  obtain ⟨m, after, rfl, hm, hafter⟩ := exists_append_endsLine v
  have hpoint := point_of_isLongest hbefore (by simp [hl, hm]) hafter hn
  obtain ⟨k, hk, s, hs⟩ := exists_dropReturn_eq_counted_append l hm hafter
  obtain ⟨s', hs'⟩ := exists_counted_append l (m ++ after)
  have hlongest : IsLongest byteSize (min (n - before.byteSize) (dropReturn (l ++ m)).byteSize)
      (counted l (m ++ after)) k := by
    have hle := hn.le
    have hsize := congrArg byteSize hs'
    rw [byteSize_append] at hle hsize
    refine ⟨by rw [hk, byteSize_append]; omega, ?_⟩
    rintro c w rfl
    -- the line goes on, so that all characters in front count
    have hlt := hn.lt c (w ++ s ++ after) (by simp [hs])
    have hself : counted l (m ++ after) = l := by
      have hc : c ≠ '\n' := fun h => hm (by simp [hs, h])
      simp [counted, hs, hc]
    rw [hself]
    rw [byteSize_append] at hlt
    omega
  have htext : before ++ l ++ (m ++ after) = before ++ (l ++ m) ++ after := by simp
  rw [htext, hpoint, hk, columnAt_of_isLongest (hk ▸ hlongest)]

/-- The place of an offset leads to the end of the characters that count for it. -/
theorem offset?_point_eq_counted {n : Nat} {before l : Text} (hbefore : EndsLine before)
    (hl : '\n' ∉ l) (hn : IsLongest byteSize n (before ++ l) v) :
    (LineIndex.of (before ++ l ++ v)).offset? ((LineIndex.of (before ++ l ++ v)).point n).1
      ((LineIndex.of (before ++ l ++ v)).point n).2 = some (before ++ counted l v).byteSize := by
  rw [point_eq_counted hbefore hl hn]
  obtain ⟨m, after, rfl, hm, hafter⟩ := exists_append_endsLine v
  obtain ⟨k, hk, -⟩ := exists_dropReturn_eq_counted_append l hm hafter
  have hline : '\n' ∉ l ++ m := by simp [hl, hm]
  have hoffset := offset?_of_endsLine hbefore hline hafter hk
  rwa [show before ++ l ++ (m ++ after) = before ++ (l ++ m) ++ after by simp]

/-- The place of a boundary is also that of one which is not behind a carriage return, and that one
is found by the place. -/
theorem exists_offset?_point {n : Nat} (h : IsBoundary t n) (hpaired : ReturnsPaired t) :
    ∃ u v, t = u ++ v ∧ EndsClear u ∧
      (LineIndex.of t).point u.byteSize = (LineIndex.of t).point n ∧
      (LineIndex.of t).offset? ((LineIndex.of t).point n).1 ((LineIndex.of t).point n).2 =
        some u.byteSize := by
  obtain ⟨w, v, rfl, rfl⟩ := h
  obtain ⟨before, l, rfl, hbefore, hl⟩ := exists_endsLine_append w
  have hlongest := isMeasure_byteSize.isLongest (before ++ l) v
  obtain ⟨s, hs⟩ := exists_counted_append l v
  have htext : before ++ l ++ v = before ++ counted l v ++ (s ++ v) := by
    conv => lhs; rw [hs]
    simp only [List.append_assoc]
  have hfeed : '\n' ∉ counted l v ++ s := hs ▸ hl
  have hclear : EndsClear (counted l v) := by
    intro hlast
    obtain ⟨k, hk⟩ := List.getLast?_eq_some_iff.mp hlast
    have hnext := hpaired (before ++ k) (s ++ v) (by rw [htext, hk]; simp)
    -- a line feed that follows is not in the line, so that the line ends with the carriage return
    cases s with
    | nil =>
      rw [List.append_nil] at hs
      exact counted_eq_self_iff.mp hs.symm ⟨hs ▸ hlast, Or.inr hnext⟩
    | cons c s =>
      obtain rfl : c = '\n' := by simpa using hnext
      exact hfeed (by simp)
  have hself : counted (counted l v) (s ++ v) = counted l v :=
    counted_eq_self_iff.mpr fun hreturn => hclear hreturn.1
  refine ⟨before ++ counted l v, s ++ v, htext, hbefore.endsClear.append hclear, ?_,
    offset?_point_eq_counted hbefore hl hlongest⟩
  rw [point_eq_counted hbefore hl hlongest, htext, point_eq_counted hbefore
    (fun hmem => hfeed (List.mem_append_left _ hmem)) (isMeasure_byteSize.isLongest _ _), hself]

end LeadingTrim.Text
