/-
# Trimming twice

A trimmed sheet is not changed by another run with the same configuration (`run_code_eq_self`). All
that the second run could look for are directives. In the trimmed sheet there are none: the
declarations that the sheet had are no directives, or they are gone, and what is written has other
names (`directives_code_eq_nil`).
-/

import LeadingTrim.Proofs.Trimmer.Content

namespace LeadingTrim

open Sheet

theorem Interleaves.mem {α : Type} {l l' all : List α} (h : Interleaves l l' all) :
    ∀ a ∈ all, a ∈ l ∨ a ∈ l' := by
  induction h with
  | nil => exact nofun
  | left _ ih =>
    intro a ha
    rcases List.mem_cons.mp ha with rfl | ha
    · exact .inl List.mem_cons_self
    · exact (ih a ha).imp (List.mem_cons_of_mem _) id
  | right _ ih =>
    intro a ha
    rcases List.mem_cons.mp ha with rfl | ha
    · exact .inr List.mem_cons_self
    · exact (ih a ha).imp id (List.mem_cons_of_mem _)

/-- The properties of the declarations that are written. -/
def Correction.properties : List Text :=
  ["display", "content", "margin-top", "margin-bottom"].map String.toList

namespace Request

/-- What is put in place of a directive has the property of a margin. -/
theorem mem_properties_of_mem_marginContents {q : Request} {x : Text × Text}
    (hx : x ∈ q.marginContents) : x.1 ∈ Correction.properties := by
  have hnames : ∀ name ∈ ["margin-top".toList, "margin-bottom".toList],
      name ∈ Correction.properties := by decide
  rcases List.mem_append.mp hx with hx | hx <;>
    obtain ⟨v, -, rfl⟩ := Option.map_eq_some_iff.mp (Option.mem_toList.mp hx)
  · exact hnames _ (by simp)
  · exact hnames _ (by simp)

/-- The declarations of a rule for a pseudo-element have the properties that are written there. -/
theorem mem_properties_of_mem_pseudoContents {q : Request} {c : RuleContent}
    (hc : c ∈ q.pseudoContents) : ∀ x ∈ c.declarations, x.1 ∈ Correction.properties := by
  have hall : ∀ (r : Rule) (pseudo side value : Text), side ∈ ["top".toList, "bottom".toList] →
      ∀ x ∈ (r.pseudoContent pseudo side value).declarations, x.1 ∈ Correction.properties := by
    intro r pseudo side value hside x hx
    have hnames : ∀ side ∈ ["top".toList, "bottom".toList], ∀ name ∈ ["display".toList,
        "content".toList, "margin-".toList ++ side], name ∈ Correction.properties := by decide
    exact hnames side hside x.1 (List.mem_map_of_mem hx)
  rcases List.mem_append.mp hc with hc | hc <;>
    obtain ⟨v, -, rfl⟩ := Option.map_eq_some_iff.mp (Option.mem_toList.mp hc)
  · exact hall _ _ _ _ (by simp)
  · exact hall _ _ _ _ (by simp)

end Request

namespace Trimmer

variable {t : Trimmer} {source code : Text} {edits : List Edit}

/-- There is no directive in a trimmed sheet. -/
theorem directives_code_eq_nil (hproperty : t.property ∉ Correction.properties)
    (hsound : isSound source = true)
    (hkeeps : Request.KeepsParts source (t.requests (Sheet.rules source)))
    (h : t.run source = .ok (code, edits)) : t.directives (rules code) = [] := by
  obtain ⟨rfl, hread⟩ := code_eq_trimmed h
  obtain ⟨generated, hgenerated, hcode⟩ := interleaves_trimmed hsound hkeeps hread
  refine List.eq_nil_iff_forall_not_mem.mpr fun ⟨r, d⟩ hx => ?_
  obtain ⟨hr, hd, hname⟩ := mem_directives.mp hx
  have hcontent : d.content ∈ r.content.declarations := List.mem_map_of_mem hd
  rcases hcode.mem r.content (List.mem_map_of_mem hr) with hold | hnew
  · obtain ⟨r', -, hr'⟩ := List.mem_map.mp hold
    rw [← hr'] at hcontent
    obtain ⟨d', -, hd'⟩ := List.mem_flatMap.mp hcontent
    unfold trimmedContents at hd'
    split at hd'
    · split at hd'
      · split at hd'
        · exact hproperty (hname ▸ Request.mem_properties_of_mem_marginContents hd')
        · cases hd'
      · cases hd'
    next hother =>
      rw [List.mem_singleton] at hd'
      exact hother (by rw [← hname]; exact (congrArg Prod.fst hd').symm)
  · obtain ⟨q, -, -, hq⟩ := hgenerated _ hnew
    exact hproperty (hname ▸ Request.mem_properties_of_mem_pseudoContents hq _ hcontent)

/-- No directive is called like a declaration that is written. -/
theorem property_not_mem (c : Config) : (ofConfig c).property ∉ Correction.properties := by
  have hlong : 15 ≤ (ofConfig c).property.length := by
    show 15 ≤ c.property.length
    unfold Config.property
    split
    · rw [List.length_append, List.length_cons]
      exact Nat.le_add_left_of_le (by decide)
    · decide
  have hshort : ∀ name ∈ Correction.properties, name.length < 15 := by decide
  exact fun h => absurd (hshort _ h) (Nat.not_lt.mpr hlong)

/-- A sheet without directives is not changed. -/
theorem run_of_directives_eq_nil (h : t.directives (rules source) = []) :
    t.run source = .ok (source, []) := by
  have hedits : t.edits source (rules source) = .ok [] := by
    unfold edits
    rw [h]
    rfl
  rw [run, runOn, hedits]
  exact congrArg (fun code => Except.ok (code, [])) (Text.dropBytes_zero source)

/-- Another run of the same trimmer on a trimmed sheet gives it back. -/
theorem run_code_eq_self (c : Config) (hsound : isSound source = true)
    (hkeeps : Request.KeepsParts source ((ofConfig c).requests (Sheet.rules source)))
    (h : (ofConfig c).run source = .ok (code, edits)) :
    (ofConfig c).run code = .ok (code, []) :=
  run_of_directives_eq_nil (directives_code_eq_nil (property_not_mem c) hsound hkeeps h)

theorem run_code_eq_self_layersSheet :
    isSound layersSheet = true ∧
      Request.KeepsParts layersSheet ((ofConfig .default).requests (Sheet.rules layersSheet)) ∧
      ∃ code edits, (ofConfig .default).run layersSheet = .ok (code, edits) ∧
        (ofConfig .default).run code = .ok (code, []) := by
  obtain ⟨hsound, hkeeps, edits, hrun⟩ := exists_run_layersSheet
  exact ⟨hsound, hkeeps, _, edits, hrun, run_code_eq_self .default hsound hkeeps hrun⟩

end Trimmer

end LeadingTrim
