/-
# Places in 32-bit words

Neither the line nor the column of a place is greater than the number of bytes of the text
(`point_le`). So in a text of less than `2 ^ 32 - 1` bytes all places are 32-bit words
(`fitsWords_of_byteSize_lt`), and it makes no difference to a map that is carried over whether it is
asked for places or for words (`carryInWords_eq_carry`).
-/

import LeadingTrim.Proofs.Text.LineIndex
import LeadingTrim.SourceMap.Trace

namespace LeadingTrim

/-! ## Places and bytes -/

namespace Text

theorem byteSize_slice_le (start stop : Nat) (t : Text) :
    (t.slice start stop).byteSize ≤ t.byteSize := by
  have hdrop := congrArg byteSize (takeBytes_append_dropBytes start t)
  have htake := congrArg byteSize (takeBytes_append_dropBytes (stop - start) (t.dropBytes start))
  rw [byteSize_append] at hdrop htake
  rw [slice]
  omega

/-- A character has at least as many bytes as UTF-16 code units. -/
theorem utf16Units_le_utf8Size (c : Char) : utf16Units c ≤ c.utf8Size := by
  have hlow : c.toNat < 0x10000 ∨ 0x10000 ≤ c.toNat := Nat.lt_or_ge _ _
  rcases hlow with hlow | hhigh
  · rw [utf16Units, if_pos hlow]
    exact c.utf8Size_pos
  · have hsize : c.utf8Size ≠ 1 := by
      rw [ne_eq, Char.utf8Size_eq_one_iff, UInt32.le_iff_toNat_le]
      exact fun hle => absurd (Nat.le_trans hhigh hle) (by decide)
    have hpos := c.utf8Size_pos
    rw [utf16Units, if_neg (by omega)]
    omega

theorem columnAt_le_byteSize (t : Text) (bytes : Nat) : columnAt t bytes ≤ t.byteSize := by
  induction t generalizing bytes with
  | nil => exact Nat.le_refl _
  | cons c t ih =>
    have hunits := utf16Units_le_utf8Size c
    rw [columnAt, byteSize_cons]
    split
    · exact Nat.add_le_add hunits (ih _)
    · exact Nat.zero_le _

theorem count_le_byteSize (c : Char) (t : Text) : t.count c ≤ t.byteSize := by
  induction t with
  | nil => exact Nat.le_refl _
  | cons d t ih =>
    have hpos := d.utf8Size_pos
    rw [List.count_cons, byteSize_cons]
    split
    · omega
    · omega

/-- A place has no greater numbers than the text has bytes. -/
theorem point_le (t : Text) (n : Nat) :
    ((LineIndex.of t).point n).1 ≤ t.byteSize ∧ ((LineIndex.of t).point n).2 ≤ t.byteSize := by
  have hlines : (LineIndex.of t).lines.length = t.count '\n' + 1 := by
    have hstarts := congrArg List.length (map_start_linesAt t (lineStarts t))
    rwa [List.length_map, lineStarts, List.length_cons, length_lineStartsFrom] at hstarts
  unfold LineIndex.point
  dsimp only
  split
  · exact ⟨Nat.zero_le _, Nat.zero_le _⟩
  next line hline =>
    obtain ⟨hlt, -⟩ := List.getElem?_eq_some_iff.mp hline
    have hcount := count_le_byteSize '\n' t
    constructor
    · omega
    · exact Nat.le_trans (columnAt_le_byteSize _ _) (byteSize_slice_le line.start line.stop t)

/-- The number of lines and all lines' columns are 32-bit words. -/
def FitsWords (t : Text) : Prop :=
  ∀ n, ((LineIndex.of t).point n).1 + 1 < SourceMap.wordBound ∧
    ((LineIndex.of t).point n).2 < SourceMap.wordBound

/-- A place is where an offset is. -/
theorem FitsWords.place_lt {t : Text} (h : t.FitsWords) {line column : Nat}
    (hplace : ∃ n, (LineIndex.of t).point n = (line, column)) :
    line + 1 < SourceMap.wordBound ∧ column < SourceMap.wordBound := by
  obtain ⟨n, hn⟩ := hplace
  have hwords := h n
  rwa [hn] at hwords

theorem fitsWords_of_byteSize_lt {t : Text} (h : t.byteSize + 1 < SourceMap.wordBound) :
    t.FitsWords := by
  intro n
  obtain ⟨hline, hcolumn⟩ := point_le t n
  constructor
  · omega
  · omega

end Text

/-! ## Maps -/

namespace SourceMap

open Text (LineIndex)

/-- If the lines and columns of a text are words, its map is carried over just as it is. -/
theorem carryInWords_eq_carry {input : Text} (h : input.FitsWords) (output : Text)
    (earlier : List Point) (edits : List Edit) :
    carryInWords input output earlier edits = carry input output earlier edits := by
  have horigin : (fun byte => originAt earlier (wordOf ((LineIndex.of input).point byte).1)
      (wordOf ((LineIndex.of input).point byte).2)) = fun byte =>
        originAt earlier ((LineIndex.of input).point byte).1
          ((LineIndex.of input).point byte).2 := by
    funext byte
    obtain ⟨hline, hcolumn⟩ := h byte
    rw [wordOf_of_lt (Nat.lt_of_succ_lt hline), wordOf_of_lt hcolumn]
  unfold carryInWords carry carryWith
  exact congrArg (fun origin => earlier.filterMap _ ++ List.filterMap (pointAt? _ _ origin) _)
    horigin

end SourceMap

end LeadingTrim
