/-
# When a run fails

A run fails because of a directive that cannot be read, and reports the first one of the sheet
(`firstMalformed?`). There is no other reason in the sheet: its edits always fit together. A map
that is carried over is looked at last, so it can only fail a run that is fine otherwise. The main
result is `run_outcome`.
-/

import LeadingTrim.Proofs.Edit.Slices
import LeadingTrim.Proofs.Except
import LeadingTrim.Proofs.Trimmer.Edits

namespace LeadingTrim

namespace Trimmer

open Sheet (Declaration Rule)

/-! ## Directives that cannot be read -/

/-- The first declaration of the rules, one by one, that is meant as a directive and cannot be
read as one. -/
def firstMalformed? (t : Trimmer) (rules : List Rule) : Option Declaration :=
  (rules.flatMap Rule.declarations).find? fun d =>
    d.property = t.property && (Directive.read? d.value).isNone

/-- The problem with a directive that cannot be read. -/
def malformed (d : Declaration) : Problem := .malformedDirective d.property d.value d.position

variable (t : Trimmer) {source : Text} {rules : List Rule}

/-- A search among the directives is one among all declarations. -/
theorem map_find?_directives (rules : List Rule) (bad : Declaration → Bool) :
    ((t.directives rules).find? fun x => bad x.2).map Prod.snd =
      (rules.flatMap Rule.declarations).find? fun d => d.property = t.property && bad d := by
  have hfind : ((t.directives rules).map Prod.snd).find? bad =
      ((t.directives rules).find? fun x => bad x.2).map Prod.snd := List.find?_map ..
  rw [← hfind, map_snd_directives, List.find?_filter]
  simp only [decide_eq_true_eq, Bool.decide_and, Bool.decide_eq_true]

/-- The edits of rules that fit together, unless one of their directives cannot be read. -/
theorem edits_eq_of_fits (hfits : Sheet.Fits source rules) :
    t.edits source rules =
      match t.firstMalformed? rules with
      | some d => .error (malformed d)
      | none => .ok (sortEdits ((t.directives rules).map (t.editsOf source))) := by
  have hfirst := t.map_find?_directives rules fun d => (Directive.read? d.value).isNone
  rw [edits_eq t hfits, firstMalformed?, ← hfirst]
  cases (t.directives rules).find? fun x => (Directive.read? x.2.value).isNone with
  | none => rfl
  | some x => rfl

/-- A run with rules that fit together fails exactly if some directive cannot be read, and then
reports the first; else its edits are valid. -/
theorem runOn_outcome (hfits : Sheet.Fits source rules) :
    match t.firstMalformed? rules with
    | some d => t.runOn source rules = .error (malformed d)
    | none => ∃ edits, t.edits source rules = .ok edits ∧
        Edit.validate source.byteSize edits = .ok () ∧
        t.runOn source rules = .ok (Edit.applyAll source edits, edits) := by
  have hedits := t.edits_eq_of_fits hfits
  cases h : t.firstMalformed? rules with
  | some d =>
    rw [h] at hedits
    dsimp only
    rw [runOn, hedits]
    rfl
  | none =>
    rw [h] at hedits
    refine ⟨_, hedits, (inOrder_sortEdits t hfits).validate_eq_ok, ?_⟩
    rw [runOn, hedits]
    rfl

/-- A run that is fine applies edits in order, all of them made for directives. -/
theorem spec_of_runOn (hfits : Sheet.Fits source rules) {code : Text} {edits : List Edit}
    (h : t.runOn source rules = .ok (code, edits)) :
    code = Edit.applyAll source edits ∧ Edit.InOrder source edits ∧
      ∀ e ∈ edits, ∃ x ∈ t.directives rules, e ∈ t.editsOf source x := by
  obtain ⟨found, hfound, heq⟩ := exists_of_map_eq_ok h
  obtain ⟨rfl, rfl⟩ := Prod.mk.inj heq
  rw [t.edits_eq_of_fits hfits] at hfound
  split at hfound
  · cases hfound
  · obtain rfl := Except.ok.inj hfound
    refine ⟨rfl, inOrder_sortEdits t hfits, fun e he => ?_⟩
    have hmem := (sortEdits_perm _).mem_iff.mp he
    rw [← List.flatMap_def] at hmem
    exact List.mem_flatMap.mp hmem

variable (source)

theorem spec_of_run {code : Text} {edits : List Edit} (h : t.run source = .ok (code, edits)) :
    code = Edit.applyAll source edits ∧ Edit.InOrder source edits ∧
      ∀ e ∈ edits, ∃ x ∈ t.directives (Sheet.rules source), e ∈ t.editsOf source x :=
  t.spec_of_runOn (Sheet.fits_rules source) h

/-- The edits of a run can be applied: none of them cuts a character. -/
theorem applied?_of_run {code : Text} {edits : List Edit} (h : t.run source = .ok (code, edits)) :
    Edit.applied? source edits = some code := by
  obtain ⟨rfl, horder, -⟩ := t.spec_of_run source h
  exact horder.applied?_eq

/-- Behind a run that is fine, only the map is left to look at. -/
theorem trimCarryingMap_of_run {earlier code : Text} {edits : List Edit}
    (h : t.run source = .ok (code, edits)) :
    t.trimCarryingMap source earlier =
      match SourceMap.read earlier with
      | .error fault => .error (.sourceMap fault)
      | .ok points => .ok ⟨code, SourceMap.write none
          (SourceMap.carryInWords source code points edits)⟩ := by
  have hmap : t.trimCarryingMap source earlier =
      (carriedMap source code earlier edits).bind fun map => .ok ⟨code, map⟩ := by
    rw [trimCarryingMap, h]
    rfl
  rw [hmap, carriedMap]
  cases SourceMap.read earlier with
  | error fault => rfl
  | ok points => rfl

/-- A run of any kind fails exactly if some directive cannot be read, and then reports the first,
whatever map is given; else its edits are valid, and only a map that cannot be read can fail it. -/
theorem run_outcome (file earlier : Text) :
    match t.firstMalformed? (Sheet.rules source) with
    | some d =>
      t.trim source = .error (malformed d) ∧ t.trimWithMap source file = .error (malformed d) ∧
        t.trimCarryingMap source earlier = .error (malformed d)
    | none =>
      (∃ edits, t.edits source (Sheet.rules source) = .ok edits ∧
        Edit.validate source.byteSize edits = .ok ()) ∧
      (∃ code, t.trim source = .ok code) ∧ (∃ output, t.trimWithMap source file = .ok output) ∧
      match SourceMap.read earlier with
      | .error fault => t.trimCarryingMap source earlier = .error (.sourceMap fault)
      | .ok _ => ∃ output, t.trimCarryingMap source earlier = .ok output := by
  have houtcome := t.runOn_outcome (Sheet.fits_rules source)
  cases h : t.firstMalformed? (Sheet.rules source) with
  | some d =>
    rw [h] at houtcome
    have hrun : t.run source = .error (malformed d) := houtcome
    refine ⟨?_, ?_, ?_⟩
    · rw [trim, hrun]
      rfl
    · rw [trimWithMap, hrun]
      rfl
    · rw [trimCarryingMap, hrun]
      rfl
  | none =>
    rw [h] at houtcome
    obtain ⟨edits, hedits, hvalid, hrunOn⟩ := houtcome
    have hrun : t.run source = .ok (Edit.applyAll source edits, edits) := hrunOn
    refine ⟨⟨edits, hedits, hvalid⟩, ⟨Edit.applyAll source edits, ?_⟩,
      ⟨⟨Edit.applyAll source edits, newMap source (Edit.applyAll source edits) file edits⟩, ?_⟩, ?_⟩
    · rw [trim, hrun]
      rfl
    · rw [trimWithMap, hrun]
      rfl
    · rw [t.trimCarryingMap_of_run source hrun]
      cases SourceMap.read earlier with
      | error fault => rfl
      | ok points => exact ⟨_, rfl⟩

end Trimmer

end LeadingTrim
