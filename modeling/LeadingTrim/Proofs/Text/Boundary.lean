/-
# Boundaries

An offset that no character straddles splits a text in two. The facts here say how the two parts of
such a split are measured, and which part is the longest within a bound (`IsLongest`), so that any
offset has a boundary that it stands at or behind. They also say how a text is rebuilt while it is
walked through: `revise` puts a text in front of each character and leaves characters out, as two
functions of the offset say.
-/

import LeadingTrim.Text.Basic

namespace LeadingTrim.Text

/-! ## Offsets that split a text -/

theorem isBoundary_byteSize_append (s t : Text) : IsBoundary (s ++ t) s.byteSize :=
  ⟨s, t, rfl, rfl⟩

theorem isBoundary_zero (t : Text) : IsBoundary t 0 := ⟨[], t, rfl, rfl⟩

theorem IsBoundary.le {t : Text} {n : Nat} (h : IsBoundary t n) : n ≤ t.byteSize := by
  obtain ⟨s, u, rfl, rfl⟩ := h
  rw [byteSize_append]
  exact Nat.le_add_right _ _

/-- A boundary of the whole that is not inside the first part is one of the second. -/
theorem IsBoundary.of_append {s t : Text} {n : Nat} (h : IsBoundary (s ++ t) n)
    (hn : s.byteSize ≤ n) : IsBoundary t (n - s.byteSize) := by
  obtain ⟨u, v, huv, rfl⟩ := h
  rcases List.append_eq_append_iff.mp huv with ⟨w, rfl, rfl⟩ | ⟨w, rfl, rfl⟩
  · exact ⟨w, v, rfl, by rw [byteSize_append]; omega⟩
  · refine ⟨[], t, rfl, ?_⟩
    rw [byteSize_append] at hn ⊢
    rw [byteSize_nil]
    omega

/-- If one way to cut a row is not behind another, measured in the bytes of its characters, the
first part goes on to the other. -/
theorem exists_append_of_byteSize_le {α : Type} (f : α → Char) {l m l' m' : List α}
    (h : l ++ m = l' ++ m') (hle : byteSize (l.map f) ≤ byteSize (l'.map f)) :
    ∃ k, l' = l ++ k := by
  rcases List.append_eq_append_iff.mp h with ⟨k, hk, -⟩ | ⟨k, rfl, -⟩
  · exact ⟨k, hk⟩
  · cases k with
    | nil => exact ⟨[], by simp⟩
    | cons x k =>
      have hpos := (f x).utf8Size_pos
      rw [List.map_append, List.map_cons, byteSize_append, byteSize_cons] at hle
      omega

/-- A row is cut behind a number of bytes in one way only. -/
theorem eq_of_byteSize_eq {α : Type} (f : α → Char) {l m l' m' : List α} (h : l ++ m = l' ++ m')
    (hsize : byteSize (l.map f) = byteSize (l'.map f)) : l = l' := by
  obtain ⟨k, rfl⟩ := exists_append_of_byteSize_le f h (Nat.le_of_eq hsize)
  cases k with
  | nil => rw [List.append_nil]
  | cons x k =>
    have hpos := (f x).utf8Size_pos
    rw [List.map_append, List.map_cons, byteSize_append, byteSize_cons] at hsize
    omega

/-- The piece of a text between two parts. -/
theorem slice_eq_of_append {s t u v : Text} {n m : Nat} (h : v = s ++ t ++ u)
    (hn : s.byteSize = n) (hm : n + t.byteSize = m) : v.slice n m = t := by
  subst h hn hm
  exact slice_append s t u

/-- The piece between two boundaries. -/
theorem exists_append_slice {t : Text} {start stop : Nat} (hstart : t.IsBoundary start)
    (hstop : t.IsBoundary stop) (hle : start ≤ stop) :
    ∃ before after, t = before ++ (t.slice start stop ++ after) ∧ before.byteSize = start ∧
      start + (t.slice start stop).byteSize = stop := by
  obtain ⟨before, rest, rfl, rfl⟩ := hstart
  obtain ⟨piece, after, rfl, hpiece⟩ := hstop.of_append hle
  have hslice : (before ++ (piece ++ after)).slice before.byteSize stop = piece :=
    slice_eq_of_append (List.append_assoc _ _ _).symm rfl (by omega)
  refine ⟨before, after, by rw [hslice], rfl, ?_⟩
  rw [hslice]
  omega

/-- What stands behind a place begins with the piece up to any other place. -/
theorem slice_isPrefix (t : Text) (start stop : Nat) : t.slice start stop <+: t.dropBytes start :=
  ⟨(t.dropBytes start).dropBytes (stop - start), takeBytes_append_dropBytes _ _⟩

theorem slice_append_slice {t : Text} {start middle stop : Nat} (hstart : t.IsBoundary start)
    (hmiddle : t.IsBoundary middle) (hstop : t.IsBoundary stop) (hle : start ≤ middle)
    (hle' : middle ≤ stop) : t.slice start middle ++ t.slice middle stop = t.slice start stop := by
  obtain ⟨before, after, ht, hbefore, hsize⟩ := exists_append_slice hmiddle hstop hle'
  generalize t.slice middle stop = piece at ht hsize ⊢
  subst ht
  obtain ⟨front, rest, hsplit, rfl⟩ := hstart
  have hfront : byteSize (front.map id) ≤ byteSize (before.map id) := by
    simpa [hbefore] using hle
  obtain ⟨more, rfl⟩ := exists_append_of_byteSize_le id hsplit.symm hfront
  rw [byteSize_append] at hbefore
  have hmore : (front ++ more ++ (piece ++ after)).slice front.byteSize middle = more :=
    slice_eq_of_append rfl rfl hbefore
  refine hmore.symm ▸ (slice_eq_of_append (s := front) (u := after) (by simp) rfl ?_).symm
  rw [← hsize, ← hbefore, byteSize_append, Nat.add_assoc]

/-! ## Longest first parts -/

/-- A measure adds up along a text, and each character counts. -/
structure IsMeasure (size : Text → Nat) : Prop where
  append : ∀ s t, size (s ++ t) = size s + size t
  pos : ∀ c, 0 < size [c]

theorem byteSize_singleton (c : Char) : byteSize [c] = c.utf8Size := Nat.add_zero _

theorem isMeasure_byteSize : IsMeasure byteSize :=
  ⟨byteSize_append, fun _ => byteSize_pos (List.cons_ne_nil _ _)⟩

/-- The first of two parts of a text is the longest one whose measure stays within a bound. -/
structure IsLongest (size : Text → Nat) (bound : Nat) (s t : Text) : Prop where
  le : size s ≤ bound
  lt : ∀ c u, t = c :: u → bound < size s + size [c]

section Longest

variable {size : Text → Nat} {bound : Nat} {s t u v : Text}

theorem IsMeasure.nil (h : IsMeasure size) : size [] = 0 := by
  have := h.append [] []
  rw [List.append_nil] at this
  omega

theorem IsMeasure.cons (h : IsMeasure size) (c : Char) (t : Text) :
    size (c :: t) = size [c] + size t :=
  h.append [c] t

/-- A part is the longest one within its own measure. -/
theorem IsMeasure.isLongest (h : IsMeasure size) (s t : Text) : IsLongest size (size s) s t :=
  ⟨Nat.le_refl _, fun c _ _ => by have := h.pos c; omega⟩

theorem IsMeasure.isLongest_nil_iff (h : IsMeasure size) {c : Char} :
    IsLongest size bound [] (c :: t) ↔ bound < size [c] := by
  constructor
  · intro hlongest
    have := hlongest.lt c t rfl
    rwa [h.nil, Nat.zero_add] at this
  · intro hlt
    refine ⟨by rw [h.nil]; exact Nat.zero_le _, ?_⟩
    rintro d u hcons
    obtain ⟨rfl, -⟩ := List.cons.inj hcons
    rwa [h.nil, Nat.zero_add]

theorem IsMeasure.isLongest_cons_iff (h : IsMeasure size) {c : Char} :
    IsLongest size bound (c :: s) t ↔ size [c] ≤ bound ∧ IsLongest size (bound - size [c]) s t := by
  have hcons := h.cons c s
  constructor
  · rintro ⟨hle, hlt⟩
    refine ⟨by omega, by omega, fun d u hd => ?_⟩
    have := hlt d u hd
    omega
  · rintro ⟨hc, hle, hlt⟩
    refine ⟨by omega, fun d u hd => ?_⟩
    have := hlt d u hd
    omega

/-- Every text has a longest first part within a bound. -/
theorem IsMeasure.exists_isLongest (h : IsMeasure size) (bound : Nat) (t : Text) :
    ∃ u v, t = u ++ v ∧ IsLongest size bound u v := by
  induction t generalizing bound with
  | nil => exact ⟨[], [], rfl, by rw [h.nil]; exact Nat.zero_le _, fun _ _ hnil => by cases hnil⟩
  | cons c t ih =>
    by_cases hc : size [c] ≤ bound
    · obtain ⟨u, v, rfl, hlongest⟩ := ih (bound - size [c])
      exact ⟨c :: u, v, rfl, h.isLongest_cons_iff.mpr ⟨hc, hlongest⟩⟩
    · exact ⟨[], c :: t, rfl, h.isLongest_nil_iff.mpr (Nat.lt_of_not_le hc)⟩

/-- The longest part goes on from each first part within the bound. -/
theorem IsLongest.exists_append (h : IsLongest size bound u v) (hsize : IsMeasure size)
    (hsplit : u ++ v = s ++ t) (hle : size s ≤ bound) : ∃ w, u = s ++ w := by
  rcases List.append_eq_append_iff.mp hsplit with ⟨w, rfl, rfl⟩ | ⟨w, hw, -⟩
  · cases w with
    | nil => exact ⟨[], by simp⟩
    | cons c w =>
      have hlt := h.lt c (w ++ t) rfl
      rw [hsize.append, hsize.cons] at hle
      omega
  · exact ⟨w, hw⟩

/-- An offset inside a character stands behind the part in front of that character. -/
theorem isLongest_byteSize_add {c : Char} {n : Nat} (u v : Text) (h : n < c.utf8Size) :
    IsLongest byteSize (u.byteSize + n) u (c :: v) := by
  refine ⟨Nat.le_add_right _ _, ?_⟩
  rintro d w hcons
  obtain ⟨rfl, -⟩ := List.cons.inj hcons
  rw [byteSize_singleton]
  exact Nat.add_lt_add_left h _

end Longest

/-! ## Revising a text -/

/-- The text from an offset on, with another text put in front of each character and at the end, and
with some characters left out. -/
def revise (put : Nat → Text) (omits : Nat → Bool) : Nat → Text → Text
  | offset, [] => put offset
  | offset, c :: rest =>
    put offset ++ (if omits offset then [] else [c]) ++ revise put omits (offset + c.utf8Size) rest

variable {put put' : Nat → Text} {omits omits' : Nat → Bool}

/-- Only what is put and omitted from the offset on matters. -/
theorem revise_congr {offset : Nat} {t : Text} (hput : ∀ n, offset ≤ n → put n = put' n)
    (homits : ∀ n, offset ≤ n → omits n = omits' n) :
    revise put omits offset t = revise put' omits' offset t := by
  induction t generalizing offset with
  | nil => exact hput offset (Nat.le_refl _)
  | cons c t ih =>
    rw [revise, revise, hput offset (Nat.le_refl _), homits offset (Nat.le_refl _),
      ih (fun n hn => hput n (by omega)) (fun n hn => homits n (by omega))]

/-- What is put in front of all else stands in front of all else. -/
theorem revise_eq_append {offset : Nat} {s t : Text} (hfirst : put offset = s ++ put' offset)
    (hput : ∀ n, offset < n → put n = put' n) :
    revise put omits offset t = s ++ revise put' omits offset t := by
  cases t with
  | nil => exact hfirst
  | cons c t =>
    have hpos := c.utf8Size_pos
    rw [revise, revise, hfirst,
      revise_congr (fun n hn => hput n (by omega)) (fun n _ => rfl : ∀ n, _ → omits n = omits n)]
    simp

/-- Text is kept where nothing is put and nothing omitted. -/
theorem revise_append_of_kept {offset : Nat} {s t : Text}
    (hput : ∀ n, offset ≤ n → n < offset + s.byteSize → put n = [])
    (homits : ∀ n, offset ≤ n → n < offset + s.byteSize → omits n = false) :
    revise put omits offset (s ++ t) = s ++ revise put omits (offset + s.byteSize) t := by
  induction s generalizing offset with
  | nil => simp
  | cons c s ih =>
    have hpos := c.utf8Size_pos
    rw [byteSize_cons] at hput homits ⊢
    rw [List.cons_append, revise, hput offset (by omega) (by omega),
      homits offset (by omega) (by omega),
      ih (fun n hn hlt => hput n (by omega) (by omega))
        (fun n hn hlt => homits n (by omega) (by omega))]
    simp [Nat.add_assoc]

/-- Text vanishes where nothing is put and all is omitted. -/
theorem revise_append_of_omitted {offset : Nat} {s t : Text}
    (hput : ∀ n, offset ≤ n → n < offset + s.byteSize → put n = [])
    (homits : ∀ n, offset ≤ n → n < offset + s.byteSize → omits n = true) :
    revise put omits offset (s ++ t) = revise put omits (offset + s.byteSize) t := by
  induction s generalizing offset with
  | nil => simp
  | cons c s ih =>
    have hpos := c.utf8Size_pos
    rw [byteSize_cons] at hput homits ⊢
    rw [List.cons_append, revise, hput offset (by omega) (by omega),
      homits offset (by omega) (by omega),
      ih (fun n hn hlt => hput n (by omega) (by omega))
        (fun n hn hlt => homits n (by omega) (by omega))]
    simp [Nat.add_assoc]

/-- Where nothing is put inside a piece and all or nothing of it is omitted, it is left out or kept
as a whole. -/
theorem revise_piece {offset : Nat} {s t : Text}
    (hput : ∀ n, offset < n → n < offset + s.byteSize → put n = [])
    (homits : ∀ n, offset ≤ n → n < offset + s.byteSize → omits n = omits offset) (hne : s ≠ []) :
    revise put omits offset (s ++ t) =
      put offset ++ ((if omits offset then [] else s)
        ++ revise put omits (offset + s.byteSize) t) := by
  have hpos := byteSize_pos hne
  let behind : Nat → Text := fun n => if n = offset then [] else put n
  have hbehind : ∀ n, n ≠ offset → put n = behind n := fun n hn => (if_neg hn).symm
  have hnone : ∀ n, offset ≤ n → n < offset + s.byteSize → behind n = [] := by
    intro n hn hlt
    by_cases heq : n = offset
    · exact if_pos heq
    · rw [← hbehind n heq, hput n (by omega) hlt]
  have hrest : revise behind omits (offset + s.byteSize) t =
      revise put omits (offset + s.byteSize) t :=
    revise_congr (fun n hn => (hbehind n (by omega)).symm) fun _ _ => rfl
  have hfirst : revise put omits offset (s ++ t) =
      put offset ++ revise behind omits offset (s ++ t) :=
    revise_eq_append (by simp [behind]) fun n hn => hbehind n (by omega)
  rw [hfirst, List.append_cancel_left_eq]
  cases hkept : omits offset with
  | false =>
    rw [revise_append_of_kept hnone fun n hn hlt => (homits n hn hlt).trans hkept, hrest]
    rfl
  | true =>
    rw [revise_append_of_omitted hnone fun n hn hlt => (homits n hn hlt).trans hkept, hrest]
    rfl

end LeadingTrim.Text
