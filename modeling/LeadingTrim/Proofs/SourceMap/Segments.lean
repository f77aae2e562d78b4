/-
# Segments that are written are read again

A segment is a row of numbers (`numbersOf`), which are read again (`decode_segment`). So it tells its
point, and moves the words to which the next one is relative (`pointOf_segment`). Commas and
semicolons separate the segments, so the points are read one by one along the text: a segment behind
a comma (`readRest_comma`) or at the front of a line (`readLines_segment`) is read first, and then
what is behind it. At the end of the text the points that were written have been read
(`points_segments`).

That takes little of the points (`Point.IsTold`): what is mapped has a source that is listed, no
point maps a range, and the line of an origin is not the greatest word, which stands for none.
-/

import LeadingTrim.Proofs.SourceMap.Normal
import LeadingTrim.Proofs.SourceMap.Numbers
import LeadingTrim.SourceMap.Reader
import Mathlib.Data.List.Basic

namespace LeadingTrim.SourceMap

open Text (splitOn splitOn_separator splitOn_append)

/-! ## Segments -/

/-- The origin can be told by a segment, given the sources and names that are listed. -/
structure Origin.IsTold (sources names : List Text) (o : Origin) : Prop where
  line : o.line + 1 < wordBound
  column : o.column < wordBound
  source : ∃ source ∈ sources, o.source = some source
  name : ∀ name ∈ o.name, name ∈ names

/-- The point can be told by a segment, given the sources and names that are listed. -/
structure Point.IsTold (sources names : List Text) (p : Point) : Prop where
  column : p.column < wordBound
  isRange : p.isRange = false
  origin : ∀ o ∈ p.origin, o.IsTold sources names

/-- The words to which those of the next segment are relative when it is read. -/
def Reference.cursor (r : Reference) : Cursor :=
  ⟨r.column, r.source, r.sourceLine, r.sourceColumn, r.name⟩

/-- The numbers to which others are relative are words. -/
structure Reference.IsInWords (r : Reference) : Prop where
  column : r.column < wordBound
  source : r.source < wordBound
  sourceLine : r.sourceLine < wordBound
  sourceColumn : r.sourceColumn < wordBound
  name : r.name < wordBound

section Segment

variable {sources names : List Text} {r : Reference} {p : Point}

/-- The numbers of a point, each with the one to which it is relative. -/
def numbersOf (sources names : List Text) (r : Reference) (p : Point) : List (Nat × Nat) :=
  (p.column, r.column) :: p.origin.toList.flatMap fun o => o.source.toList.flatMap fun source =>
    [(sources.idxOf source, r.source), (o.line, r.sourceLine), (o.column, r.sourceColumn)] ++
      o.name.toList.map fun name => (names.idxOf name, r.name)

/-- A segment is a row of differences. -/
theorem segment_fst (sources names : List Text) (r : Reference) (p : Point) :
    (segment sources names r p).1 =
      (numbersOf sources names r p).flatMap fun n => difference n.1 n.2 := by
  unfold segment numbersOf
  dsimp only
  split
  next ho => simp [ho]
  next o ho =>
    split
    next hsource => simp [ho, hsource]
    next source hsource =>
      split
      next hname => simp [ho, hsource, hname]
      next name hname => simp [ho, hsource, hname]

theorem idxOf_lt {l : List Text} (hl : l.length ≤ wordBound) {t : Text} (ht : t ∈ l) :
    l.idxOf t < wordBound :=
  Nat.lt_of_lt_of_le (List.idxOf_lt_length_of_mem ht) hl

section Told

variable (hsources : sources.length ≤ wordBound) (hnames : names.length ≤ wordBound)
  (hp : p.IsTold sources names) (hr : r.IsInWords)

include hsources hnames hp hr

theorem lt_of_mem_numbersOf {n : Nat × Nat} (hn : n ∈ numbersOf sources names r p) :
    n.1 < wordBound ∧ n.2 < wordBound := by
  rcases List.mem_cons.mp hn with rfl | hn
  · exact ⟨hp.column, hr.column⟩
  · obtain ⟨o, ho, hn⟩ := List.mem_flatMap.mp hn
    obtain ⟨hline, hcolumn, ⟨source, hsource, hsome⟩, hname⟩ :=
      hp.origin o (Option.mem_toList.mp ho)
    rw [hsome, Option.toList_some, List.flatMap_singleton, List.mem_append, List.mem_map] at hn
    simp only [List.mem_cons, List.not_mem_nil, or_false] at hn
    rcases hn with (rfl | rfl | rfl) | ⟨name, hmem, rfl⟩
    · exact ⟨idxOf_lt hsources hsource, hr.source⟩
    · exact ⟨Nat.lt_of_succ_lt hline, hr.sourceLine⟩
    · exact ⟨hcolumn, hr.sourceColumn⟩
    · exact ⟨idxOf_lt hnames (hname name (Option.mem_toList.mp hmem)), hr.name⟩

/-- The numbers of a segment are read. -/
theorem decode_segment : Vlq.decode (segment sources names r p).1 =
    .ok ((numbersOf sources names r p).map fun n => Int.ofNat n.1 - Int.ofNat n.2) := by
  have hall : ∀ d ∈ (numbersOf sources names r p).map fun n => Int.ofNat n.1 - Int.ofNat n.2,
      d.natAbs < Nat.pow 2 62 := by
    intro d hd
    obtain ⟨n, hn, rfl⟩ := List.mem_map.mp hd
    obtain ⟨hnew, hold⟩ := lt_of_mem_numbersOf hsources hnames hp hr hn
    exact natAbs_difference hnew hold
  have hdecode := Vlq.decode_encode hall
  rw [segment_fst]
  rwa [List.flatMap_map] at hdecode

/-- A segment tells its point, and the reference for the next one. -/
theorem pointOf_segment :
    pointOf sources names p.line r.cursor (segment sources names r p).1 false =
        .ok (p, (segment sources names r p).2.cursor) ∧
      (segment sources names r p).2.IsInWords ∧ (segment sources names r p).2.line = p.line := by
  have hdecode := decode_segment hsources hnames hp hr
  obtain ⟨line, column, origin, isRange⟩ := p
  obtain ⟨hcolumn, rfl, horigin⟩ := hp
  dsimp only at hcolumn horigin
  unfold pointOf
  rw [hdecode]
  cases origin with
  | none =>
    refine ⟨?_, ⟨hcolumn, hr.source, hr.sourceLine, hr.sourceColumn, hr.name⟩, rfl⟩
    simp only [numbersOf, segment, Reference.cursor, Option.toList_none, List.flatMap_nil,
      List.map_cons, List.map_nil, Except.mapError, bind, Except.bind, pure, Except.pure,
      advance_difference hcolumn]
  | some o =>
    obtain ⟨hline, hcolumn', ⟨source, hsource, hsome⟩, hname⟩ := horigin o rfl
    obtain ⟨sourceLine, sourceColumn, _, name⟩ := o
    dsimp only at hline hcolumn' hname hsome
    subst hsome
    have hnumber := idxOf_lt hsources hsource
    have hline' : sourceLine < wordBound := Nat.lt_of_succ_lt hline
    have hgreatest : sourceLine ≠ wordBound - 1 := by omega
    cases name with
    | none =>
      refine ⟨?_, ⟨hcolumn, hnumber, hline', hcolumn', hr.name⟩, rfl⟩
      simp only [numbersOf, segment, Reference.cursor, Option.toList_some, Option.toList_none,
        List.flatMap_singleton, List.map_cons, List.map_nil, List.cons_append,
        List.nil_append, Except.mapError, bind, Except.bind, pure, Except.pure,
        advance_difference hcolumn, advance_difference hnumber, advance_difference hline',
        advance_difference hcolumn', List.getElem?_idxOf hsource, originOn, if_neg hgreatest]
      rfl
    | some name =>
      have hname := hname name rfl
      have hnumber' := idxOf_lt hnames hname
      refine ⟨?_, ⟨hcolumn, hnumber, hline', hcolumn', hnumber'⟩, rfl⟩
      simp only [numbersOf, segment, Reference.cursor, Option.toList_some,
        List.flatMap_singleton, List.map_cons, List.map_nil, List.cons_append,
        List.nil_append, Except.mapError, bind, Except.bind, pure, Except.pure,
        advance_difference hcolumn, advance_difference hnumber, advance_difference hline',
        advance_difference hcolumn', advance_difference hnumber',
        List.getElem?_idxOf hsource, List.getElem?_idxOf hname, originOn, if_neg hgreatest]
      rfl

end Told

/-- A text that can stand between two separators, and is not empty. -/
structure IsSegment (x : Text) : Prop where
  ne_nil : x ≠ []
  comma : ',' ∉ x
  semicolon : ';' ∉ x

theorem isSegment_segment (sources names : List Text) (r : Reference) (p : Point) :
    IsSegment (segment sources names r p).1 := by
  rw [segment_fst]
  have hdigits : ∀ c ∈ (numbersOf sources names r p).flatMap fun n => difference n.1 n.2,
      c ∈ Base64.alphabet := by
    intro c hc
    obtain ⟨_, -, hc⟩ := List.mem_flatMap.mp hc
    exact Vlq.mem_alphabet_of_mem_encode hc
  constructor
  · rw [numbersOf, List.flatMap_cons]
    exact List.append_ne_nil_of_left_ne_nil (Vlq.encode_ne_nil _) _
  · exact fun hc => absurd (hdigits _ hc) (by decide)
  · exact fun hc => absurd (hdigits _ hc) (by decide)

end Segment

/-! ## Lines of segments -/

theorem zip_replicate {α β : Type} {items : List α} {n : Nat} (h : items.length ≤ n) (b : β) :
    items.zip (List.replicate n b) = items.map (·, b) := by
  induction items generalizing n with
  | nil => rfl
  | cons a items ih =>
    obtain _ | n := n
    · exact absurd h (Nat.not_succ_le_zero _)
    · rw [List.replicate_succ, List.zip_cons_cons, ih (Nat.le_of_succ_le_succ h), List.map_cons]

/-- Where all that is given is what stands in place of the rest, all items have that. -/
theorem zipPadded_replicate {α β : Type} (items : List α) (n : Nat) (b : β) :
    zipPadded items (List.replicate n b) b = items.map (·, b) := by
  rw [zipPadded, List.replicate_append_replicate]
  exact zip_replicate (Nat.le_add_left _ _) b

section Lines

variable (sources names : List Text)

/-- The state behind a row of lines, the first of which has the given number. -/
def readLines (line : Nat) (state : List Point × Cursor) (t : Text) :
    Except Fault (List Point × Cursor) :=
  (((splitOn ';' t).map (·, [])).zipIdx line).foldlM (linesStep sources names) state

/-- The state behind the rest of a line and the lines below it; in front of the rest stands a
segment. -/
def readRest (line : Nat) (state : List Point × Cursor) (t : Text) :
    Except Fault (List Point × Cursor) :=
  match splitOn ';' t with
  | [] => .ok state
  | first :: lines =>
    ((((splitOn ',' first).tail).map (·, false)).foldlM (lineStep sources names line) state).bind
      fun state => ((lines.map (·, [])).zipIdx (line + 1)).foldlM (linesStep sources names) state

/-- A separator comes next, if anything does. -/
def AtSeparator (t : Text) : Prop := ∀ c ∈ t.head?, c = ',' ∨ c = ';'

/-- In front of a separator stands nothing of a segment. -/
theorem exists_splitOn {t : Text} (h : AtSeparator t) :
    ∃ first lines items, splitOn ';' t = first :: lines ∧ splitOn ',' first = [] :: items := by
  cases t with
  | nil => exact ⟨[], [], [], rfl, rfl⟩
  | cons c t =>
    rcases h c rfl with rfl | rfl
    · obtain ⟨first, lines, hlines⟩ := List.exists_cons_of_ne_nil (Text.splitOn_ne_nil ';' t)
      refine ⟨',' :: first, lines, splitOn ',' first, ?_, splitOn_separator ',' first⟩
      rw [splitOn, if_neg (by decide), hlines]
    · exact ⟨[], splitOn ';' t, [], splitOn_separator ';' t, rfl⟩

variable {sources names} {line : Nat} {state : List Point × Cursor} {x t : Text}

theorem lineStep_of_isSegment (hx : IsSegment x) (isRange : Bool) :
    lineStep sources names line state (x, isRange) =
      (pointOf sources names line state.2 x isRange).map fun (p, c) => (p :: state.1, c) := by
  rw [lineStep, if_neg (by simpa using hx.ne_nil)]

/-- A segment behind a comma is read, and then what is behind it. -/
theorem readRest_comma (hx : IsSegment x) (ht : AtSeparator t) :
    readRest sources names line state (',' :: (x ++ t)) =
      (lineStep sources names line state (x, false)).bind
        fun state => readRest sources names line state t := by
  obtain ⟨first, lines, items, hlines, hitems⟩ := exists_splitOn ht
  have hall : splitOn ';' (',' :: (x ++ t)) = (',' :: (x ++ first)) :: lines := by
    rw [splitOn, if_neg (by decide), splitOn_append hx.semicolon hlines]
  have hfirst : splitOn ',' (',' :: (x ++ first)) = [] :: x :: items := by
    rw [splitOn_separator, splitOn_append hx.comma hitems, List.append_nil]
  simp only [readRest, hall, hfirst, hlines, hitems, List.tail_cons, List.map_cons,
    List.foldlM_cons]
  cases lineStep sources names line state (x, false) <;> rfl

/-- Behind a semicolon the next line begins. -/
theorem readRest_semicolon :
    readRest sources names line state (';' :: t) = readLines sources names (line + 1) state t := by
  simp only [readRest, splitOn_separator]
  rfl

/-- Lines without segments are passed over. -/
theorem readLines_replicate (n : Nat) :
    readLines sources names line state (List.replicate n ';' ++ t) =
      readLines sources names (line + n) state t := by
  induction n generalizing line with
  | zero => rfl
  | succ n ih =>
    have hempty : readLines sources names line state (';' :: (List.replicate n ';' ++ t)) =
        readLines sources names (line + 1) state (List.replicate n ';' ++ t) := by
      simp only [readLines, splitOn_separator]
      rfl
    rw [List.replicate_succ, List.cons_append, hempty, ih, Nat.add_right_comm, Nat.add_assoc]

/-- The first segment of a line is read, and then what is behind it. -/
theorem readLines_segment (hx : IsSegment x) (ht : AtSeparator t) :
    readLines sources names line state (x ++ t) =
      (lineStep sources names line (state.1, { state.2 with column := 0 }) (x, false)).bind
        fun state => readRest sources names line state t := by
  obtain ⟨first, lines, items, hlines, hitems⟩ := exists_splitOn ht
  have hall := splitOn_append hx.semicolon hlines
  have hfirst : splitOn ',' (x ++ first) = x :: items := by
    rw [splitOn_append hx.comma hitems, List.append_nil]
  have hne : (x ++ first).isEmpty = false := by
    simp [hx.ne_nil]
  have hranges : Base64.bitsOf [] = .ok (List.replicate 0 false) := rfl
  simp only [readLines, readRest, hall, hlines, hitems, List.map_cons, List.zipIdx_cons,
    List.foldlM_cons, linesStep, hne, hranges, hfirst, List.tail_cons]
  simp only [Except.mapError, bind, Except.bind, zipPadded_replicate, List.map_cons,
    List.foldlM_cons, Bool.false_eq_true, ↓reduceIte]
  cases lineStep sources names line (state.1, { state.2 with column := 0 }) (x, false) <;> rfl

end Lines

/-! ## Points -/

section Points

variable {sources names : List Text}

/-- Behind a segment a separator comes next: a comma or, below the line, a semicolon. -/
theorem atSeparator_segments {r : Reference} {ps : List Point} (hline : ∀ p ∈ ps, r.line ≤ p.line) :
    AtSeparator (segments sources names false r ps) := by
  intro c hc
  cases ps with
  | nil => cases hc
  | cons p ps =>
    have hp := hline p List.mem_cons_self
    rw [segments] at hc
    dsimp only at hc
    split at hc
    · left
      simpa using hc.symm
    · right
      obtain ⟨n, hn⟩ := Nat.exists_eq_succ_of_ne_zero (show p.line - r.line ≠ 0 by omega)
      rw [hn, List.replicate_succ] at hc
      simpa using hc.symm

/-- The first segment is behind as many semicolons as there are lines in front of it. -/
theorem segments_start (p : Point) (ps : List Point) :
    segments sources names true .start (p :: ps) =
      List.replicate p.line ';' ++ ((segment sources names .start p).1 ++
        segments sources names false (segment sources names .start p).2 ps) := by
  rw [segments]
  dsimp only
  by_cases hfirst : p.line = Reference.start.line
  · have hzero : p.line = 0 := hfirst
    rw [if_pos hfirst, if_pos hfirst, if_pos rfl, hzero]
    rfl
  · rw [if_neg hfirst, if_neg hfirst, List.append_assoc]
    rfl

/-- The points are read one by one from the segments that are written behind a reference. -/
def AreReadBehind (sources names : List Text) (r : Reference) (ps : List Point) : Prop :=
  ∀ earlier, ∃ c, readRest sources names r.line (earlier, r.cursor)
    (segments sources names false r ps) = .ok (ps.reverse ++ earlier, c)

section Told

variable (hsources : sources.length ≤ wordBound) (hnames : names.length ≤ wordBound)

include hsources hnames

/-- A segment is read with those behind it. -/
theorem AreReadBehind.exists_bind_lineStep {r : Reference} {p : Point} {ps : List Point}
    (hp : p.IsTold sources names) (hr : r.IsInWords)
    (h : AreReadBehind sources names (segment sources names r p).2 ps) (earlier : List Point) :
    ∃ c, ((lineStep sources names p.line (earlier, r.cursor)
        ((segment sources names r p).1, false)).bind fun state =>
          readRest sources names p.line state
            (segments sources names false (segment sources names r p).2 ps)) =
      .ok ((p :: ps).reverse ++ earlier, c) := by
  obtain ⟨hpoint, -, hline⟩ := pointOf_segment hsources hnames hp hr
  obtain ⟨c, hc⟩ := h (p :: earlier)
  rw [hline] at hc
  refine ⟨c, ?_⟩
  rw [lineStep_of_isSegment (isSegment_segment sources names r p), hpoint, List.reverse_cons,
    List.append_assoc, List.singleton_append]
  exact hc

/-- Points in order are read behind a reference that is not behind their lines. -/
theorem areReadBehind {r : Reference} {ps : List Point} (hps : ∀ p ∈ ps, p.IsTold sources names)
    (hr : r.IsInWords) (horder : ps.Pairwise Point.Before) (hline : ∀ p ∈ ps, r.line ≤ p.line) :
    AreReadBehind sources names r ps := by
  induction ps generalizing r with
  | nil => exact fun earlier => ⟨_, rfl⟩
  | cons p ps ih =>
    obtain ⟨hp, hps⟩ := List.forall_mem_cons.mp hps
    obtain ⟨hbefore, horder⟩ := List.pairwise_cons.mp horder
    have hle := hline p List.mem_cons_self
    -- the segments behind that of the point, whatever it is relative to
    have hnext : ∀ r' : Reference, r'.IsInWords →
        (∀ q ∈ ps, (segment sources names r' p).2.line ≤ q.line) ∧
          AreReadBehind sources names (segment sources names r' p).2 ps := by
      intro r' hr'
      obtain ⟨-, hwords, hsame⟩ := pointOf_segment hsources hnames hp hr'
      have hbelow : ∀ q ∈ ps, (segment sources names r' p).2.line ≤ q.line := fun q hq =>
        hsame ▸ (hbefore q hq).line_le
      exact ⟨hbelow, ih hps hwords horder hbelow⟩
    intro earlier
    rw [segments]
    dsimp only
    by_cases hsame : p.line = r.line
    · obtain ⟨hbelow, hrest⟩ := hnext r hr
      obtain ⟨c, hc⟩ := hrest.exists_bind_lineStep hsources hnames hp hr earlier
      refine ⟨c, ?_⟩
      rw [if_pos hsame, if_pos hsame, if_neg Bool.false_ne_true, List.append_assoc,
        List.singleton_append,
        readRest_comma (isSegment_segment ..) (atSeparator_segments hbelow), ← hsame, hc]
    · obtain ⟨n, hn⟩ := Nat.exists_eq_succ_of_ne_zero (show p.line - r.line ≠ 0 by omega)
      have hnumber : r.line + 1 + n = p.line := by omega
      have hwords : Reference.IsInWords { r with column := 0 } :=
        ⟨Nat.two_pow_pos 32, hr.source, hr.sourceLine, hr.sourceColumn, hr.name⟩
      obtain ⟨hbelow, hrest⟩ := hnext _ hwords
      obtain ⟨c, hc⟩ := hrest.exists_bind_lineStep hsources hnames hp hwords earlier
      refine ⟨c, ?_⟩
      rw [if_neg hsame, if_neg hsame, hn, List.replicate_succ, List.append_assoc, List.cons_append,
        readRest_semicolon, readLines_replicate, hnumber,
        readLines_segment (isSegment_segment ..) (atSeparator_segments hbelow)]
      exact hc

/-- The points of all lines are read. -/
theorem exists_readLines_segments {ps : List Point} (hps : ∀ p ∈ ps, p.IsTold sources names)
    (horder : ps.Pairwise Point.Before) :
    ∃ c, readLines sources names 0 ([], Reference.start.cursor)
      (segments sources names true .start ps) = .ok (ps.reverse, c) := by
  cases ps with
  | nil => exact ⟨_, rfl⟩
  | cons p ps =>
    obtain ⟨hp, hps⟩ := List.forall_mem_cons.mp hps
    obtain ⟨hbefore, horder⟩ := List.pairwise_cons.mp horder
    have hzero : 0 < wordBound := Nat.two_pow_pos 32
    have hstart : Reference.start.IsInWords := ⟨hzero, hzero, hzero, hzero, hzero⟩
    obtain ⟨-, hwords, hsame⟩ := pointOf_segment hsources hnames hp hstart
    have hbelow : ∀ q ∈ ps, (segment sources names .start p).2.line ≤ q.line := fun q hq =>
      hsame ▸ (hbefore q hq).line_le
    have hrest := areReadBehind hsources hnames hps hwords horder hbelow
    obtain ⟨c, hc⟩ := hrest.exists_bind_lineStep hsources hnames hp hstart []
    refine ⟨c, ?_⟩
    rw [segments_start, readLines_replicate, Nat.zero_add,
      readLines_segment (isSegment_segment ..) (atSeparator_segments hbelow)]
    rw [List.append_nil] at hc
    exact hc

/-- Points that are written are read. -/
theorem points_segments {ps : List Point} (hps : ∀ p ∈ ps, p.IsTold sources names)
    (horder : ps.Pairwise Point.Before) :
    points sources names (segments sources names true .start ps) [] = .ok ps := by
  obtain ⟨c, hc⟩ := exists_readLines_segments hsources hnames hps horder
  have hranges : splitOn ';' [] = List.replicate 1 [] := rfl
  have hcursor : (⟨0, 0, 0, 0, 0⟩ : Cursor) = Reference.start.cursor := rfl
  rw [points, hranges, zipPadded_replicate, hcursor]
  unfold readLines at hc
  rw [hc, Except.map, List.reverse_reverse, stableSort_of_pairwise (horder.imp Point.Before.le)]

end Told

end Points

end LeadingTrim.SourceMap
