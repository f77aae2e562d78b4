/-
# Where a line height comes from

The line height that applies to a directive is the default, or it is read at the front of a text,
be it the directive or the setting of the rule (`exists_resolve_eq`). One that is read is a number
(`IsRead.isNaN_value`), and its unit is a percent sign or consists of letters (`IsRead.unit_eq_or`);
in normal form there are no percent signs.
-/

import LeadingTrim.Directive.Reader
import LeadingTrim.Metrics.Offset
import LeadingTrim.Proofs.Decimal.Finite
import LeadingTrim.Proofs.Trimmer.Failure

namespace LeadingTrim

namespace LineHeight

/-- The line height stands at the front of a text. -/
def IsRead (h : LineHeight) : Prop := ∃ t rest, front? t = some (h, rest)

theorem IsRead.unit_eq_or {h : LineHeight} (hread : h.IsRead) :
    h.unit = ['%'] ∨ ∀ c ∈ h.unit, c.isAlpha = true := by
  obtain ⟨t, rest, hfront⟩ := hread
  unfold front? at hfront
  dsimp only at hfront
  split at hfront
  · cases hfront
  · obtain ⟨value, -, heq⟩ := Option.map_eq_some_iff.mp hfront
    obtain ⟨rfl, -⟩ := Prod.mk.inj heq
    generalize t.drop (numberLength t) = behind
    dsimp only
    unfold unitLength
    split
    · exact Or.inl rfl
    · rw [← List.prefix_iff_eq_take.mp (List.takeWhile_prefix _)]
      exact Or.inr fun c hc => List.all_eq_true.mp List.all_takeWhile c hc

theorem IsRead.isNaN_value {h : LineHeight} (hread : h.IsRead) : h.value.isNaN = false := by
  obtain ⟨t, rest, hfront⟩ := hread
  unfold front? at hfront
  dsimp only at hfront
  split at hfront
  · cases hfront
  · obtain ⟨value, hvalue, heq⟩ := Option.map_eq_some_iff.mp hfront
    obtain ⟨rfl, -⟩ := Prod.mk.inj heq
    exact Decimal.isNaN_of_unsigned? hvalue

theorem isRead_of_read? {t : Text} {h : LineHeight} (hread : read? t = some h) : h.IsRead := by
  unfold read? at hread
  split at hread
  next hfront =>
    obtain rfl := Option.some.inj hread
    exact ⟨t, [], hfront⟩
  · cases hread

/-- The line height that applies is one that is read, or the default. -/
theorem exists_resolve_eq {given : Option LineHeight} (hgiven : ∀ h ∈ given, h.IsRead)
    (ambient : Option Text) (default : Float) :
    ∃ h : LineHeight, resolve given ambient default = h.normalize ∧
      (h.IsRead ∨ h = factor default) := by
  refine ⟨_, rfl, ?_⟩
  split
  next h hfilter => exact Or.inl (hgiven h (Option.filter_eq_some_iff.mp hfilter).1)
  · cases hambient : ambient.bind fun raw => read? raw.trim with
    | none => exact Or.inr rfl
    | some h =>
      obtain ⟨raw, -, hread⟩ := Option.bind_eq_some_iff.mp hambient
      exact Or.inl (isRead_of_read? hread)

end LineHeight

namespace Directive

/-- The line height behind a placement is the one at the front, if there is any. -/
theorem isRead_of_tail? {rest : Text} {lineHeight : Option LineHeight} {family : Option Text}
    (htail : tail? rest = some (lineHeight, family)) : ∀ h ∈ lineHeight, h.IsRead := by
  have hwithout : ∀ {text : Text} {b : Bool},
      (if text.isEmpty then some (none, none)
        else if b then some (none, some rest) else none) = some (lineHeight, family) →
      ∀ h ∈ lineHeight, h.IsRead := by
    intro text b heq h hh
    split at heq
    · cases heq
      cases hh
    · split at heq
      · cases heq
        cases hh
      · cases heq
  unfold tail? at htail
  dsimp only at htail
  split at htail
  next front behind hfront =>
    have hread : ∀ h ∈ some front, h.IsRead := by
      intro h hh
      obtain rfl := Option.some.inj hh
      exact ⟨_, _, hfront⟩
    split at htail
    · cases htail
      exact hread
    · split at htail
      · cases htail
        exact hread
      · exact hwithout htail
  · exact hwithout htail

theorem isRead_of_parseBehind {mode : Option Text} {rest : Text} {d : Directive}
    (hparse : parseBehind mode rest = .ok d) : ∀ h ∈ d.lineHeight, h.IsRead := by
  unfold parseBehind at hparse
  split at hparse
  · cases hparse
  · split at hparse
    · cases hparse
    next htail =>
      split at hparse
      · cases hparse
      · obtain rfl := Except.ok.inj hparse
        exact isRead_of_tail? htail

/-- A directive that is read has a line height that is read, if it has one. -/
theorem isRead_of_read? {value : Text} {d : Directive} (hread : read? value = some d) :
    ∀ h ∈ d.lineHeight, h.IsRead := by
  have hparse : parse value = .ok d := eq_ok_of_toOption_eq_some hread
  unfold parse at hparse
  split at hparse
  · exact isRead_of_parseBehind hparse
  · exact isRead_of_parseBehind hparse

end Directive

end LeadingTrim
