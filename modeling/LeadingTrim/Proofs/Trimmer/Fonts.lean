/-
# Fonts that do not matter

Two configurations that differ in their entries for some fonts only trim a sheet to the same result,
with the same map or the same problem, if none of these fonts decides about a directive of the sheet
(`trim_eq_of_agree`). The first known family of a list decides, so a font does not matter where each
mention of it stands behind a known family that is none of those fonts (`FontTable.Hides`). Nothing
else of a run looks at the table: from the metrics of each directive the rest follows
(`outcomes_congr`).
-/

import Mathlib.Data.Set.Basic
import LeadingTrim.Proofs.Directive.Parse

namespace LeadingTrim

/-! ## Tables -/

namespace FontTable

/-- Two tables have the same entries for all names that are not in the set. -/
def AgreeOutside (names : Set Text) (table table' : FontTable) : Prop :=
  ∀ name ∉ names,
    (table.entries.filter fun e => e.1 = name) = table'.entries.filter fun e => e.1 = name

/-- Every mention of a name of the set stands behind a name outside the set that the table has. -/
def Hides (table : FontTable) (names : Set Text) (families : List Text) : Prop :=
  ∀ i, ∀ name ∈ families[i]?, name ∈ names →
    ∃ other ∈ families.take i, other ∉ names ∧ (table.get? other).isSome

/-- Of the entries on top the last one for a name counts; where there is none, the table below
does. -/
theorem get?_insertMany (table : FontTable) (entries : List (Text × Space)) (name : Text) :
    (table.insertMany entries).get? name =
      ((entries.filter fun e => e.1 = name).getLast?.map Prod.snd).or (table.get? name) := by
  induction entries generalizing table with
  | nil => rfl
  | cons e entries ih =>
    rw [insertMany, List.foldl_cons, ← insertMany, ih, get?_insert]
    by_cases hname : e.1 = name
    · rw [if_pos hname.symm, List.filter_cons_of_pos (by simpa using hname), List.getLast?_cons]
      cases (entries.filter fun e => e.1 = name).getLast? with
      | none => rfl
      | some last => rfl
    · rw [if_neg (Ne.symm hname), List.filter_cons_of_neg (by simpa using hname)]

/-- Tables that agree outside a set still do so when they are put on top of another. -/
theorem AgreeOutside.get?_override {names : Set Text} {table table' : FontTable}
    (h : table.AgreeOutside names table') (below : FontTable) {name : Text} (hname : name ∉ names) :
    (below.override table).get? name = (below.override table').get? name := by
  rw [override, override, get?_insertMany, get?_insertMany, h name hname]

/-- A name of the set is not the first known one of a list where all of them are hidden. -/
theorem lookup_eq_of_hides {names : Set Text} {table table' : FontTable}
    (hagree : ∀ name ∉ names, table.get? name = table'.get? name) {families : List Text}
    (h : table.Hides names families) : table.lookup families = table'.lookup families := by
  suffices hfind : families.findSome? table.get? = families.findSome? table'.get? by
    rw [lookup, lookup, hfind]
  induction families with
  | nil => rfl
  | cons name families ih =>
    -- nothing stands in front of the first name
    have hname : name ∉ names := by
      intro hmem
      obtain ⟨other, hother, -⟩ := h 0 name rfl hmem
      cases hother
    rw [List.findSome?_cons, List.findSome?_cons, ← hagree name hname]
    cases hknown : table.get? name with
    | some space => rfl
    | none =>
      refine ih fun i other hi hmem => ?_
      obtain ⟨known, hfront, hout, hget⟩ := h (i + 1) other hi hmem
      rcases List.mem_cons.mp hfront with rfl | hfront
      · rw [hknown] at hget
        cases hget
      · exact ⟨known, hfront, hout, hget⟩

end FontTable

/-- Two configurations differ in their entries for the fonts of a set at most. -/
structure Config.DifferOnlyIn (names : Set Text) (c c' : Config) : Prop where
  vendor : c.vendor = c'.vendor
  fonts : c.fonts.AgreeOutside names c'.fonts
  defaultFamily : c.defaultFamily = c'.defaultFamily
  defaultLineHeight : c.defaultLineHeight = c'.defaultLineHeight

/-! ## Runs -/

namespace Trimmer

open Sheet (Declaration Rule)

/-- The families that are looked up for a directive in a rule: its own if it names any, or else
those of the rule, and the default family last. -/
def consulted (t : Trimmer) (r : Rule) (directive : Directive) : List Text :=
  directive.fontFamily.getD (ambient r).family ++ [t.defaultFamily]

variable {t t' : Trimmer} {source : Text} {rules : List Rule}

/-- What becomes of all directives follows from what becomes of each. -/
theorem outcomes_congr {ds : List (Rule × Declaration)}
    (h : ∀ x ∈ ds, t.outcome source x.1 x.2 = t'.outcome source x.1 x.2) :
    t.outcomes source ds = t'.outcomes source ds := by
  induction ds with
  | nil => rfl
  | cons x ds ih =>
    obtain ⟨r, d⟩ := x
    rw [outcomes, outcomes, h (r, d) List.mem_cons_self,
      ih fun y hy => h y (List.mem_cons_of_mem _ hy)]

/-- Of a trimmer's table only the metrics of the directives matter. -/
theorem runOn_congr (hproperty : t.property = t'.property)
    (hmetrics : ∀ x ∈ t.directives rules, ∀ directive ∈ Directive.read? x.2.value,
      t.metrics x.1 directive = t'.metrics x.1 directive) :
    t.runOn source rules = t'.runOn source rules := by
  have hdirectives : ∀ rules, t.directives rules = t'.directives rules := by
    intro rules
    rw [directives, directives, hproperty]
  have houtcome : ∀ x ∈ t.directives rules,
      t.outcome source x.1 x.2 = t'.outcome source x.1 x.2 := by
    intro x hx
    rw [outcome, outcome]
    cases hread : Directive.read? x.2.value with
    | none => rw [Directive.parse_eq_error_of_read? hread]
    | some directive =>
      rw [Directive.parse_eq_ok_of_read? hread]
      simp only [hmetrics x hx directive hread]
  rw [runOn, runOn, edits, edits, ← hdirectives, outcomes_congr houtcome]

/-- Fonts that are hidden in every list that a directive consults do not matter for a run with the
rules. -/
theorem runOn_eq_of_agree {names : Set Text} {c c' : Config} (h : c.DifferOnlyIn names c')
    (hhidden : ∀ x ∈ (ofConfig c).directives rules, ∀ directive ∈ Directive.read? x.2.value,
      (ofConfig c).table.Hides names ((ofConfig c).consulted x.1 directive)) :
    (ofConfig c).runOn source rules = (ofConfig c').runOn source rules := by
  have hproperty : (ofConfig c).property = (ofConfig c').property := by
    simp only [ofConfig, Config.property, h.vendor]
  refine runOn_congr hproperty fun x hx directive hread => ?_
  have hlookup := FontTable.lookup_eq_of_hides
    (fun name hname => h.fonts.get?_override FontTable.bundled hname)
    (hhidden x hx directive hread)
  simp only [consulted, ofConfig] at hlookup
  simp only [metrics, Metrics.resolve, ofConfig, ← h.defaultFamily, ← h.defaultLineHeight, hlookup]

/-- Fonts that are hidden in every list that a directive of the sheet consults do not matter: with
other entries for them, more or fewer, the sheet is trimmed to the same code, with the same map, or
fails with the same problem. -/
theorem trim_eq_of_agree {names : Set Text} {c c' : Config} (h : c.DifferOnlyIn names c')
    (hhidden : ∀ x ∈ (ofConfig c).directives (Sheet.rules source),
      ∀ directive ∈ Directive.read? x.2.value,
        (ofConfig c).table.Hides names ((ofConfig c).consulted x.1 directive)) :
    (ofConfig c).trim source = (ofConfig c').trim source ∧
      (∀ file, (ofConfig c).trimWithMap source file = (ofConfig c').trimWithMap source file) ∧
      ∀ earlier,
        (ofConfig c).trimCarryingMap source earlier =
          (ofConfig c').trimCarryingMap source earlier := by
  have hrun : (ofConfig c).run source = (ofConfig c').run source := runOn_eq_of_agree h hhidden
  refine ⟨?_, ?_, ?_⟩
  · rw [trim, trim, hrun]
  · intro file
    rw [trimWithMap, trimWithMap, hrun]
  · intro earlier
    rw [trimCarryingMap, trimCarryingMap, hrun]

/-- Two rules that mention a font behind Arial, one in its own declarations and one in its
directive. -/
def mentioningSheet : Text :=
  "p\x7bfont-family:Arial,Custom;text-remove-gap:both\x7d".toList
    ++ "a\x7btext-remove-gap:outside after 2 Arial,Custom\x7d".toList

/-- A configuration that knows that font. -/
def knowingConfig : Config :=
  { Config.default with fonts := FontTable.empty.insert "Custom".toList ⟨0.5, 0.25⟩ }

theorem trim_mentioningSheet :
    knowingConfig.DifferOnlyIn {"Custom".toList} .default ∧
    (∀ x ∈ (ofConfig knowingConfig).directives (Sheet.rules mentioningSheet),
      ∀ directive ∈ Directive.read? x.2.value,
        (ofConfig knowingConfig).table.Hides {"Custom".toList}
          ((ofConfig knowingConfig).consulted x.1 directive)) ∧
    (ofConfig knowingConfig).table.size ≠ (ofConfig .default).table.size ∧
    (ofConfig knowingConfig).trim mentioningSheet = (ofConfig .default).trim mentioningSheet := by
  have hdiffer : knowingConfig.DifferOnlyIn {"Custom".toList} .default := by
    refine ⟨rfl, fun name hname => ?_, rfl, rfl⟩
    have hne : "Custom".toList ≠ name := fun h => hname h.symm
    have hentries : knowingConfig.fonts.entries = [("Custom".toList, ⟨0.5, 0.25⟩)] := rfl
    rw [hentries, List.filter_cons_of_neg (by simpa using hne)]
    rfl
  have hlists : ((ofConfig knowingConfig).directives (Sheet.rules mentioningSheet)).map
      (fun x => (Directive.read? x.2.value).map ((ofConfig knowingConfig).consulted x.1)) =
        List.replicate 2 (some (["Arial", "Custom", "serif"].map String.toList)) := by
    decide +kernel
  have hhidden : ∀ x ∈ (ofConfig knowingConfig).directives (Sheet.rules mentioningSheet),
      ∀ directive ∈ Directive.read? x.2.value,
        (ofConfig knowingConfig).table.Hides {"Custom".toList}
          ((ofConfig knowingConfig).consulted x.1 directive) := by
    intro x hx directive hread
    have hlist := List.eq_of_mem_replicate (hlists ▸ List.mem_map_of_mem hx)
    rw [Option.mem_def.mp hread, Option.map_some, Option.some.injEq] at hlist
    rw [hlist]
    rintro i name hi rfl
    obtain rfl : i = 1 := by
      match i, hi with
      | 1, _ => rfl
      | 2, hi => exact absurd hi (by decide)
      | i + 3, hi => cases hi
    have hne : "Arial".toList ≠ "Custom".toList := by decide
    exact ⟨"Arial".toList, by decide, hne, by decide +kernel⟩
  exact ⟨hdiffer, hhidden, by decide +kernel, (trim_eq_of_agree hdiffer hhidden).1⟩

end Trimmer

end LeadingTrim
