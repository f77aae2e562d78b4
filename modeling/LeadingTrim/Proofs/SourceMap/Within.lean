/-
# Points on text that the edits do not make

A new map can be asked for with a text that is not what the edits make. How far points go is told by
the lengths of the two texts alone: there is a point for each anchor in front of the end of the
shorter one (`place_mem_create_iff`). So points stay in what the two texts have in common
if one begins with the other, and else only if all those anchors do (`normalize_create_within`).
-/

import LeadingTrim.Proofs.Edit.Bytes
import LeadingTrim.Proofs.SourceMap.ReadBack
import LeadingTrim.Trimmer

namespace LeadingTrim

/-! ## What two texts have in common -/

namespace Text

/-- The longest text with which two texts begin. -/
def commonPrefix : Text → Text → Text
  | c :: s, d :: t => if c = d then c :: commonPrefix s t else []
  | _, _ => []

theorem isPrefix_commonPrefix_iff {u s t : Text} :
    u <+: commonPrefix s t ↔ u <+: s ∧ u <+: t := by
  induction u generalizing s t with
  | nil => simp
  | cons c u ih =>
    cases s with
    | nil => simp [commonPrefix]
    | cons d s =>
      cases t with
      | nil => simp [commonPrefix]
      | cons e t =>
        by_cases h : d = e
        · subst h
          simp only [commonPrefix, ↓reduceIte, List.cons_prefix_cons, ih]
          exact ⟨fun ⟨hc, hs, ht⟩ => ⟨⟨hc, hs⟩, hc, ht⟩, fun ⟨⟨hc, hs⟩, _, ht⟩ => ⟨hc, hs, ht⟩⟩
        · simp only [commonPrefix, if_neg h, List.cons_prefix_cons, List.prefix_nil]
          constructor
          · exact fun hnil => absurd hnil (List.cons_ne_nil c u)
          · rintro ⟨⟨rfl, -⟩, rfl, -⟩
            exact absurd rfl h

theorem commonPrefix_comm (s t : Text) : commonPrefix s t = commonPrefix t s := by
  have hle : ∀ s t, commonPrefix s t <+: commonPrefix t s := fun s t =>
    isPrefix_commonPrefix_iff.mpr (isPrefix_commonPrefix_iff.mp (List.prefix_refl _)).symm
  exact (hle s t).eq_of_length_le (hle t s).length_le

theorem commonPrefix_eq_left {s t : Text} (h : s <+: t) : commonPrefix s t = s := by
  have hshared : commonPrefix s t <+: s ∧ commonPrefix s t <+: t :=
    isPrefix_commonPrefix_iff.mp (List.prefix_refl _)
  have hall : s <+: commonPrefix s t := isPrefix_commonPrefix_iff.mpr ⟨List.prefix_refl s, h⟩
  exact hshared.1.eq_of_length_le hall.length_le

theorem byteSize_le_of_isPrefix {s t : Text} (h : s <+: t) : s.byteSize ≤ t.byteSize := by
  obtain ⟨u, rfl⟩ := h
  simp

/-- Of two texts that begin alike the shorter one is what they have in common. -/
theorem byteSize_commonPrefix {s t : Text} (h : s <+: t ∨ t <+: s) :
    (commonPrefix s t).byteSize = min s.byteSize t.byteSize := by
  rcases h with h | h
  · rw [commonPrefix_eq_left h, Nat.min_eq_left (byteSize_le_of_isPrefix h)]
  · rw [commonPrefix_comm, commonPrefix_eq_left h, Nat.min_eq_right (byteSize_le_of_isPrefix h)]

end Text

namespace SourceMap

open Text (LineIndex commonPrefix)

variable {input output file : Text} {edits : List Edit}

/-- The point is at the place of one of the first offsets of a text. -/
def Point.IsWithin (p : Point) (text : Text) (size : Nat) : Prop :=
  ∃ n < size, (LineIndex.of text).point n = (p.line, p.column)

/-- The anchors of a new map that are in front of the ends of both texts. -/
def reachedAnchors (input output : Text) (edits : List Edit) : List Nat :=
  (Text.lineStarts output ++ Edit.edgesFrom 0 0 edits).filter
    (· < min output.byteSize (Edit.applyAll input edits).byteSize)

/-- Each anchor that is reached has a point, whatever text stands there. -/
theorem place_mem_create_iff (h : Edit.InOrder input edits) {line column : Nat} :
    (∃ p ∈ create input output file edits, p.line = line ∧ p.column = column) ↔
      ∃ n ∈ reachedAnchors input output edits, (LineIndex.of output).point n = (line, column) := by
  -- the layout is cut to the length of the text that stands there, whatever that is
  have hlength : (Edit.Layout.mk input.byteSize output.byteSize edits).origins.length =
      min output.byteSize (Edit.applyAll input edits).byteSize := by
    rw [Edit.Layout.origins, List.length_take, h.length_originsFrom]
  simp only [create, List.mem_filterMap, pointAt?, Option.map_eq_some_iff, reachedAnchors,
    List.mem_filter, decide_eq_true_eq, ← hlength]
  constructor
  · rintro ⟨p, ⟨n, hn, byte, hbyte, rfl⟩, rfl, rfl⟩
    exact ⟨n, ⟨hn, (List.getElem?_eq_some_iff.mp hbyte).1⟩, rfl⟩
  · rintro ⟨n, ⟨hn, hlt⟩, hplace⟩
    exact ⟨_, ⟨n, hn, _, List.getElem?_eq_getElem hlt, rfl⟩, by rw [hplace], by rw [hplace]⟩

/-- Putting the points in order leaves their places as they are. -/
theorem place_mem_normalize_iff {points : List Point} {line column : Nat} :
    (∃ p ∈ normalize points, p.line = line ∧ p.column = column) ↔
      ∃ p ∈ points, p.line = line ∧ p.column = column := by
  constructor
  · rintro ⟨p, hp, hplace⟩
    exact ⟨p, mem_of_mem_normalize hp, hplace⟩
  · rintro ⟨p, hp, rfl, rfl⟩
    obtain ⟨q, hq, hsame⟩ := exists_mem_normalize hp
    exact ⟨q, hq, Point.samePlace_iff.mp hsame⟩

theorem forall_isWithin_iff {points : List Point} {text : Text} {size : Nat} {anchors : List Nat}
    (h : ∀ line column, (∃ p ∈ points, p.line = line ∧ p.column = column) ↔
      ∃ n ∈ anchors, (LineIndex.of text).point n = (line, column)) :
    (∀ p ∈ points, p.IsWithin text size) ↔
      ∀ n ∈ anchors, ∃ k < size, (LineIndex.of text).point k = (LineIndex.of text).point n := by
  constructor
  · intro hall n hn
    obtain ⟨p, hp, hline, hcolumn⟩ := (h _ _).mpr ⟨n, hn, rfl⟩
    obtain ⟨k, hk, hplace⟩ := hall p hp
    exact ⟨k, hk, hplace.trans (Prod.ext hline hcolumn)⟩
  · intro hall p hp
    obtain ⟨n, hn, hplace⟩ := (h _ _).mp ⟨p, hp, rfl, rfl⟩
    obtain ⟨k, hk, hsame⟩ := hall n hn
    exact ⟨k, hk, hsame.trans hplace⟩

/-- The points of a new map are at the anchors in front of the end of the shorter text. So they stay
in what the text has in common with the edited one exactly if the places of these anchors are there,
and always if one of the two texts begins with the other. The points are those that are read in the
text of the map, if lines and columns are words. -/
theorem normalize_create_within (output file : Text)
    (hvalid : Edit.validate input.byteSize edits = .ok ())
    (hboundary : ∀ e ∈ edits, input.IsBoundary e.start ∧ input.IsBoundary e.stop) :
    let applied := Edit.applyAll input edits
    let shared := commonPrefix output applied
    let points := normalize (create input output file edits)
    (input.FitsWords → output.FitsWords →
      read (Trimmer.newMap input output file edits) = .ok points) ∧
    (∀ line column, (∃ p ∈ points, p.line = line ∧ p.column = column) ↔
      ∃ n ∈ reachedAnchors input output edits,
        (LineIndex.of output).point n = (line, column)) ∧
    ((∀ p ∈ points, p.IsWithin output shared.byteSize) ↔
      ∀ n ∈ reachedAnchors input output edits,
        ∃ k < shared.byteSize, (LineIndex.of output).point k = (LineIndex.of output).point n) ∧
    (output <+: applied ∨ applied <+: output →
      ∀ p ∈ points, p.IsWithin output shared.byteSize) := by
  intro applied shared points
  have hplaces : ∀ line column, (∃ p ∈ points, p.line = line ∧ p.column = column) ↔
      ∃ n ∈ reachedAnchors input output edits,
        (LineIndex.of output).point n = (line, column) := fun line column =>
    place_mem_normalize_iff.trans
      (place_mem_create_iff (Edit.inOrder_of_validate hvalid hboundary))
  refine ⟨read_write_create, hplaces, forall_isWithin_iff hplaces, fun hbegins => ?_⟩
  refine (forall_isWithin_iff hplaces).mpr fun n hn => ⟨n, ?_, rfl⟩
  rw [Text.byteSize_commonPrefix hbegins]
  exact of_decide_eq_true (List.mem_filter.mp hn).2

/-- An insertion in the first line of a text. -/
def lettered : Text := "ab\ncd".toList

def insertion : List Edit := [.synthesize 1 1 "x".toList 0]

/-- A text that goes on behind the edited one has points on that only. -/
theorem normalize_create_within_lettered :
    Edit.applyAll lettered insertion = "axb\ncd".toList ∧
    read (Trimmer.newMap lettered "axb\ncd\nef".toList "a.css".toList insertion) =
      .ok (normalize (create lettered "axb\ncd\nef".toList "a.css".toList insertion)) ∧
    (∃ p ∈ normalize (create lettered "axb\ncd\nef".toList "a.css".toList insertion),
      p.line = 1 ∧ p.column = 0) ∧
    ∀ p ∈ normalize (create lettered "axb\ncd\nef".toList "a.css".toList insertion),
      p.IsWithin "axb\ncd\nef".toList 6 := by
  have happlied : Edit.applyAll lettered insertion = "axb\ncd".toList := by decide +kernel
  have hboundary : ∀ e ∈ insertion, lettered.IsBoundary e.start ∧ lettered.IsBoundary e.stop := by
    have hone : lettered.IsBoundary 1 := ⟨['a'], "b\ncd".toList, rfl, rfl⟩
    simpa [insertion, Edit.synthesize] using hone
  have hanchor : 4 ∈ reachedAnchors lettered "axb\ncd\nef".toList insertion := by decide +kernel
  have hplace : (LineIndex.of "axb\ncd\nef".toList).point 4 = (1, 0) := by decide +kernel
  have hvalid : Edit.validate lettered.byteSize insertion = .ok () := rfl
  obtain ⟨hread, hplaces, -, hwithin⟩ :=
    normalize_create_within "axb\ncd\nef".toList "a.css".toList hvalid hboundary
  rw [happlied] at hwithin
  have hinput : lettered.FitsWords := Text.fitsWords_of_byteSize_lt (by decide +kernel)
  have houtput : Text.FitsWords "axb\ncd\nef".toList :=
    Text.fitsWords_of_byteSize_lt (by decide +kernel)
  exact ⟨happlied, hread hinput houtput, (hplaces 1 0).mpr ⟨4, hanchor, hplace⟩,
    hwithin (Or.inr ⟨"\nef".toList, rfl⟩)⟩

/-- If two texts of one length differ in the middle there is a point behind what they have in
common. -/
theorem not_normalize_create_within_differing :
    Edit.validate 6 [] = .ok () ∧ Edit.applyAll "a\nbc\nd".toList [] = "a\nbc\nd".toList ∧
    commonPrefix "a\nbx\nd".toList "a\nbc\nd".toList = "a\nb".toList ∧
    ∃ p ∈ normalize (create "a\nbc\nd".toList "a\nbx\nd".toList "a.css".toList []),
      p.line = 2 ∧ p.column = 0 ∧ ¬ p.IsWithin "a\nbx\nd".toList (Text.byteSize "a\nb".toList) := by
  refine ⟨rfl, by decide +kernel, by decide +kernel, ⟨2, 0, some ⟨2, 0, some "a.css".toList, none⟩,
    false⟩, by decide +kernel, rfl, rfl, ?_⟩
  unfold Point.IsWithin
  decide +kernel

end SourceMap

end LeadingTrim
