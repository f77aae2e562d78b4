/-
# Well-formed margins

What is written for a margin is nothing, a number of `em`, or a length that is left to be calculated
(`Margin`). The numbers in it are numerals or infinities (`isMargin_ofMetrics`), for neither is a
non-number read nor does one arise. They are numerals exactly if none of them overflows
(`isMargin_ofMetrics_iff`): nothing on the way from the directive to its margins refuses a number
that is too great.
-/

import LeadingTrim.Proofs.Decimal.Rounding
import LeadingTrim.Proofs.Metrics.LineHeight

namespace LeadingTrim

open Decimal (IsInfinity IsNumeral lengthText roundToCents)

/-- A margin as it is written. -/
inductive Margin
  /-- None is needed. -/
  | none
  /-- A multiple of the font size. -/
  | em (n : Text)
  /-- The space of the font and half of what the line height adds to the font size, in a unit. -/
  | expression (space lineHeight unit : Text)

namespace Margin

/-- The text. -/
def text : Margin → Text
  | none => []
  | em n => n ++ "em".toList
  | expression n k unit =>
    "calc(".toList ++ n ++ "em - (".toList ++ k ++ unit ++ " - 1em) / 2)".toList

/-- Its numbers have the property, and its unit consists of letters. -/
def IsSound (P : Text → Prop) : Margin → Prop
  | none => True
  | em n => P n
  | expression n k unit => P n ∧ P k ∧ unit ≠ [] ∧ ∀ c ∈ unit, c.isAlpha = true

theorem text_expression (n k unit : Text) : (expression n k unit).text =
    "calc(".toList ++ n ++ "em - (".toList ++ k ++ unit ++ " - 1em) / 2)".toList := rfl

/-- The two forms end differently. -/
theorem append_em_ne_append (s t : Text) : s ++ "em".toList ≠ t ++ " - 1em) / 2)".toList := by
  intro h
  have hlast := congrArg List.getLast? h
  rw [List.getLast?_append, List.getLast?_append] at hlast
  exact absurd (Option.some.inj hlast) (by decide)

end Margin

/-- The text is a margin whose numbers have the property. -/
def IsMargin (P : Text → Prop) (t : Text) : Prop := ∃ m : Margin, m.IsSound P ∧ t = m.text

theorem isMargin_nil (P : Text → Prop) : IsMargin P [] := ⟨.none, trivial, rfl⟩

theorem isMargin_em {P : Text → Prop} {n : Text} (h : P n) : IsMargin P (n ++ "em".toList) :=
  ⟨.em n, h, rfl⟩

/-- Both numbers are finite. -/
structure Space.IsFinite (s : Space) : Prop where
  before : s.before.isFinite = true
  after : s.after.isFinite = true

namespace Metrics

/-- The unit consists of letters, and of the numbers none is a non-number. -/
structure IsSound (m : Metrics) : Prop where
  space : m.space.IsFinite
  value : m.lineHeight.value.isNaN = false
  unit : ∀ c ∈ m.lineHeight.unit, c.isAlpha = true

/-- No number overflows in the margin for the space at one edge. -/
def IsBounded (m : Metrics) (space : Float) : Prop :=
  (if m.lineHeight.unit.isEmpty then (-space - (m.lineHeight.value - 1.0) / 2.0).isFinite
    else m.lineHeight.value.isFinite) = true

instance (m : Metrics) (space : Float) : Decidable (m.IsBounded space) :=
  inferInstanceAs (Decidable (_ = true))

end Metrics

/-! ## The two forms -/

namespace Offsets

section Em

variable {lineHeight space : Float}

theorem isMargin_emText (hspace : space.isFinite = true) (hvalue : lineHeight.isNaN = false) :
    IsMargin (fun t => IsNumeral t ∨ IsInfinity t) (emText lineHeight space) := by
  have hone : (lineHeight - 1.0).isNaN = false :=
    Decimal.isNaN_sub hvalue (by decide) (Or.inr (by decide))
  have hadded : ((lineHeight - 1.0) / 2.0).isNaN = false := Decimal.isNaN_div hone (by decide)
  have hneg := Decimal.isFinite_neg hspace
  have hdiff := Decimal.isNaN_sub (Decimal.isNaN_of_isFinite hneg) hadded (Or.inl hneg)
  exact isMargin_em (Decimal.isNumeral_or_isInfinity (Decimal.isNaN_roundToCents hdiff))

theorem isMargin_emText_iff : IsMargin IsNumeral (emText lineHeight space) ↔
    (-space - (lineHeight - 1.0) / 2.0).isFinite = true := by
  rw [← Decimal.isFinite_roundToCents, emText]
  generalize roundToCents _ = x
  constructor
  · rintro ⟨m, hsound, hm⟩
    cases m with
    | none => exact absurd (List.append_eq_nil_iff.mp hm).2 (List.cons_ne_nil _ _)
    | em n =>
      obtain ⟨n, rfl⟩ := hsound
      exact Decimal.isFinite_of_text_append hm
    | expression n k unit => exact absurd hm (Margin.append_em_ne_append _ _)
  · exact fun hx => isMargin_em (Decimal.isNumeral_of_isFinite hx)

end Em

section Calc

variable {lineHeight : LineHeight} (hunit : ∀ c ∈ lineHeight.unit, c.isAlpha = true)
  (hne : lineHeight.unit ≠ []) {space : Float} (hspace : space.isFinite = true)

include hunit hne hspace

theorem isMargin_calcText (hvalue : lineHeight.value.isNaN = false) :
    IsMargin (fun t => IsNumeral t ∨ IsInfinity t) (calcText lineHeight space) :=
  ⟨.expression _ _ _, ⟨Or.inl (Decimal.isNumeral_of_isFinite (Decimal.isFinite_neg hspace)),
    Decimal.isNumeral_or_isInfinity hvalue, hne, hunit⟩, rfl⟩

theorem isMargin_calcText_iff :
    IsMargin IsNumeral (calcText lineHeight space) ↔ lineHeight.value.isFinite = true := by
  have hneg := Decimal.isNumeral_of_isFinite (Decimal.isFinite_neg hspace)
  constructor
  · rintro ⟨m, hsound, hm⟩
    unfold calcText at hm
    generalize -space = x at *
    cases m with
    | none => exact absurd (List.append_eq_nil_iff.mp hm).2 (List.cons_ne_nil _ _)
    | em n => exact absurd hm.symm (Margin.append_em_ne_append _ _)
    | expression n k unit =>
      -- both texts begin with a numeral and the letter behind it, so that the numerals are equal
      obtain ⟨⟨n, rfl⟩, ⟨k, rfl⟩, -⟩ := hsound
      obtain ⟨n', hn'⟩ := hneg
      simp only [Margin.text_expression, hn', List.append_assoc, List.append_cancel_left_eq] at hm
      have hrest := Decimal.Numeral.eq_of_append_e (s := "m - (".toList ++ _)
        (t := "m - (".toList ++ _) hm
      exact Decimal.isFinite_of_text_append (List.append_cancel_left hrest)
  · intro hvalue
    exact ⟨.expression _ _ _, ⟨hneg, Decimal.isNumeral_of_isFinite hvalue, hne, hunit⟩, rfl⟩

end Calc

/-! ## Metrics -/

theorem isBounded_of_unneeded {m : Metrics} {space : Float} (hspace : (space == 0.0) = true)
    (hvalue : (m.lineHeight.value == 1.0) = true) : m.IsBounded space := by
  -- a zero has two signs, all other numbers that are equal are the same
  obtain ⟨s, hs⟩ := Decimal.exists_unpack_of_beq_zero hspace
  have hv := Decimal.unpack_eq_of_beq Decimal.unpack_one hvalue
  unfold Metrics.IsBounded
  split
  · have hneg : -space = .ofModel (.pack (.neg (.zero s))) :=
      congrArg (fun u => Float.ofModel (.pack (.neg u))) hs
    have hadded : m.lineHeight.value - 1.0 = 1.0 - 1.0 :=
      congrArg (fun u => Float.ofModel (.pack (.sub .binary64 u (1.0 : Float).toModel.unpack))) hv
    rw [hneg, hadded]
    cases s <;> decide
  · change m.lineHeight.value.toModel.unpack.isFinite = true
    rw [hv]
    rfl

/-- The numbers of a margin are numerals or infinities. -/
theorem isMargin_ofMetrics {m : Metrics} (h : m.IsSound) :
    IsMargin (fun t => IsNumeral t ∨ IsInfinity t) (ofMetrics m).before ∧
      IsMargin (fun t => IsNumeral t ∨ IsInfinity t) (ofMetrics m).after := by
  unfold ofMetrics
  split
  · exact ⟨isMargin_nil _, isMargin_nil _⟩
  · dsimp only
    split
    · exact ⟨isMargin_emText h.space.before h.value, isMargin_emText h.space.after h.value⟩
    next hne =>
      rw [List.isEmpty_iff] at hne
      exact ⟨isMargin_calcText h.unit hne h.space.before h.value,
        isMargin_calcText h.unit hne h.space.after h.value⟩

/-- The numbers of a margin are numerals exactly if none of them overflows. -/
theorem isMargin_ofMetrics_iff {m : Metrics} (h : m.IsSound) :
    (IsMargin IsNumeral (ofMetrics m).before ↔ m.IsBounded m.space.before) ∧
      (IsMargin IsNumeral (ofMetrics m).after ↔ m.IsBounded m.space.after) := by
  unfold ofMetrics
  split
  next hunneeded =>
    simp only [Bool.and_eq_true] at hunneeded
    obtain ⟨⟨hbefore, hafter⟩, hvalue⟩ := hunneeded
    exact ⟨iff_of_true (isMargin_nil _) (isBounded_of_unneeded hbefore hvalue),
      iff_of_true (isMargin_nil _) (isBounded_of_unneeded hafter hvalue)⟩
  · dsimp only
    unfold Metrics.IsBounded
    split
    · exact ⟨isMargin_emText_iff, isMargin_emText_iff⟩
    next hne =>
      rw [List.isEmpty_iff] at hne
      exact ⟨isMargin_calcText_iff h.unit hne h.space.before,
        isMargin_calcText_iff h.unit hne h.space.after⟩

end Offsets

/-! ## Directives -/

theorem FontTable.isFinite_lookup {table : FontTable} (h : ∀ e ∈ table.entries, e.2.IsFinite)
    (families : List Text) : (table.lookup families).IsFinite := by
  unfold lookup
  cases hfound : families.findSome? table.get? with
  | none => exact ⟨by decide, by decide⟩
  | some space =>
    obtain ⟨name, -, hget⟩ := List.exists_of_findSome?_eq_some hfound
    obtain ⟨before, after, hentries, -⟩ := List.lookup_eq_some_iff.mp hget
    exact h (name, space) (by rw [hentries]; simp)

namespace LineHeight

theorem isAlpha_of_mem_normalize {h : LineHeight}
    (hunit : h.unit = ['%'] ∨ ∀ c ∈ h.unit, c.isAlpha = true) :
    ∀ c ∈ h.normalize.unit, c.isAlpha = true := by
  unfold normalize
  split
  · exact fun c hc => absurd hc List.not_mem_nil
  · split
    · exact fun c hc => absurd hc List.not_mem_nil
    next hpercent => exact hunit.resolve_left hpercent

theorem isNaN_normalize {h : LineHeight} (hvalue : h.value.isNaN = false) :
    h.normalize.value.isNaN = false := by
  unfold normalize
  split
  · exact hvalue
  · split
    · exact Decimal.isNaN_roundToCents (Decimal.isNaN_div hvalue (by decide))
    · exact hvalue

end LineHeight

namespace Metrics

/-- The metrics that apply to a directive, whatever the surrounding font is. -/
theorem isSound_resolve {value : Text} {d : Directive} (hread : Directive.read? value = some d)
    (ambient : Font.Ambient) {table : FontTable} (htable : ∀ e ∈ table.entries, e.2.IsFinite)
    (defaultFamily : Text) {defaultLineHeight : Float}
    (hdefault : defaultLineHeight.isFinite = true) :
    (resolve d ambient table defaultFamily defaultLineHeight).IsSound := by
  obtain ⟨h, hresolve, hh⟩ := LineHeight.exists_resolve_eq (Directive.isRead_of_read? hread)
    ambient.lineHeight defaultLineHeight
  have hlineHeight : h.value.isNaN = false ∧ (h.unit = ['%'] ∨ ∀ c ∈ h.unit, c.isAlpha = true) := by
    rcases hh with hh | rfl
    · exact ⟨hh.isNaN_value, hh.unit_eq_or⟩
    · exact ⟨Decimal.isNaN_of_isFinite hdefault, Or.inr fun c hc => absurd hc List.not_mem_nil⟩
  refine ⟨FontTable.isFinite_lookup htable _, ?_, ?_⟩
  · exact (congrArg (·.value.isNaN) hresolve).trans (LineHeight.isNaN_normalize hlineHeight.1)
  · change ∀ c ∈ (LineHeight.resolve _ _ _).unit, c.isAlpha = true
    rw [hresolve]
    exact LineHeight.isAlpha_of_mem_normalize hlineHeight.2

/-- Whatever directive is read and whatever the surrounding font is, the numbers of its margins are
numerals or infinities, and numerals exactly if none of them overflows. -/
theorem isMargin_resolve {value : Text} {d : Directive} (hread : Directive.read? value = some d)
    (ambient : Font.Ambient) {table : FontTable} (htable : ∀ e ∈ table.entries, e.2.IsFinite)
    (defaultFamily : Text) {defaultLineHeight : Float}
    (hdefault : defaultLineHeight.isFinite = true) :
    let m := resolve d ambient table defaultFamily defaultLineHeight
    let o := Offsets.ofMetrics m
    (∀ t ∈ [o.before, o.after], IsMargin (fun t => IsNumeral t ∨ IsInfinity t) t) ∧
      (IsMargin IsNumeral o.before ↔ m.IsBounded m.space.before) ∧
      (IsMargin IsNumeral o.after ↔ m.IsBounded m.space.after) := by
  have hsound := isSound_resolve hread ambient htable defaultFamily hdefault
  refine ⟨?_, Offsets.isMargin_ofMetrics_iff hsound⟩
  simpa using Offsets.isMargin_ofMetrics hsound

theorem isFinite_of_mem_bundled : ∀ e ∈ FontTable.bundled.entries, e.2.IsFinite := by
  intro e he
  rcases List.mem_cons.mp he with rfl | he
  · exact ⟨by decide, by decide⟩
  · rw [List.mem_singleton.mp he]
    exact ⟨by decide, by decide⟩

/-- A line height in pixels leaves the margin to be calculated. -/
theorem isMargin_resolve_pixels :
    ∃ d, Directive.read? "outside both 24.50px Arial".toList = some d ∧
      (∀ e ∈ FontTable.bundled.entries, e.2.IsFinite) ∧ (1.2 : Float).isFinite = true ∧
      let o := Offsets.ofMetrics (resolve d .unknown .bundled [] 1.2)
      o.before = "calc(-0.13em - (24.5px - 1em) / 2)".toList ∧ IsMargin IsNumeral o.before ∧
        IsMargin IsNumeral o.after := by
  have hdefault : (1.2 : Float).isFinite = true := by decide
  have hcheck : (Directive.read? "outside both 24.50px Arial".toList).any fun d =>
      let m := resolve d .unknown .bundled [] 1.2
      (Offsets.ofMetrics m).before = "calc(-0.13em - (24.5px - 1em) / 2)".toList ∧
        m.IsBounded m.space.before ∧ m.IsBounded m.space.after := by decide +kernel
  obtain ⟨d, hread, hd⟩ := (Option.any_eq_true _ _).mp hcheck
  obtain ⟨htext, hbefore, hafter⟩ := of_decide_eq_true hd
  obtain ⟨-, hbeforeIff, hafterIff⟩ :=
    isMargin_resolve hread .unknown isFinite_of_mem_bundled [] hdefault
  exact ⟨d, hread, isFinite_of_mem_bundled, hdefault, htext, hbeforeIff.mpr hbefore,
    hafterIff.mpr hafter⟩

/-- The digits of a line height that is too great to be a number. -/
def excessive : Text := '1' :: List.replicate 400 '0'

/-- Such a line height gives a margin with an infinity in it. -/
theorem not_isMargin_resolve_excessive :
    ∃ d, Directive.read? ("outside before ".toList ++ excessive) = some d ∧
      (∀ e ∈ FontTable.bundled.entries, e.2.IsFinite) ∧
      let o := Offsets.ofMetrics (resolve d .unknown .bundled [] 1.0)
      o.before = "-infem".toList ∧ ¬IsMargin IsNumeral o.before := by
  have hcheck : (Directive.read? ("outside before ".toList ++ excessive)).any fun d =>
      let m := resolve d .unknown .bundled [] 1.0
      (Offsets.ofMetrics m).before = "-infem".toList ∧ ¬m.IsBounded m.space.before := by
    decide +kernel
  obtain ⟨d, hread, hd⟩ := (Option.any_eq_true _ _).mp hcheck
  obtain ⟨htext, hbounded⟩ := of_decide_eq_true hd
  have hdefault : (1.0 : Float).isFinite = true := by decide
  have hsound := isSound_resolve hread .unknown isFinite_of_mem_bundled [] hdefault
  exact ⟨d, hread, isFinite_of_mem_bundled, htext,
    fun hmargin => hbounded ((Offsets.isMargin_ofMetrics_iff hsound).1.mp hmargin)⟩

end Metrics

end LeadingTrim
