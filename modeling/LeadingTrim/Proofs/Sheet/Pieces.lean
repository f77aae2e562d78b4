/-
# What rules and declarations are pieces of

What is read off a sheet is text of the sheet: a declaration stands where it says, with its name,
its separator and its value (`exists_of_mem_declarations`), and a rule has the selector of a head
among the parts (`exists_of_mem_rulesFrom`). White space is a part of its own, so that the first
character of a declaration is none (`exists_cons_of_mem_declarations`).
-/

import LeadingTrim.Proofs.Sheet.Extent
import LeadingTrim.Proofs.Text.Reads

namespace LeadingTrim.Sheet

variable {source : Text}

/-! ## Parts -/

theorem exists_of_mem_scan_partStep {depth skip : Nat} {t : Text} {p : Part}
    (h : p ∈ (Text.scan partStep depth skip t).map Prod.fst) :
    ∃ depth c rest, p = part depth c rest := by
  obtain ⟨x, hx, rfl⟩ := List.mem_map.mp h
  obtain ⟨depth, c, rest, found, hfound, rfl⟩ := Text.exists_of_mem_scan hx
  obtain rfl := Option.some.inj hfound
  exact ⟨depth, c, rest, rfl⟩

theorem exists_of_mem_parts {p : Part} (h : p ∈ parts source) :
    p = .space [byteOrderMark] ∨ ∃ depth c rest, p = part depth c rest := by
  cases source with
  | nil => simp [parts] at h
  | cons c rest =>
    rw [parts] at h
    split at h
    next hmark =>
      rcases List.mem_cons.mp h with rfl | h
      · exact Or.inl (by rw [beq_iff_eq.mp hmark])
      · exact Or.inr (exists_of_mem_scan_partStep h)
    · exact Or.inr (exists_of_mem_scan_partStep h)

/-- The text of a part is text of the sheet. -/
theorem text_subset_of_mem_parts {p : Part} (h : p ∈ parts source) : p.text ⊆ source := by
  intro c hc
  rw [← flatMap_text_parts source]
  exact List.mem_flatMap_of_mem h hc

/-- A part that begins with white space is white space. -/
theorem part_of_isSheetSpace (depth : Nat) {c : Char} (hc : Text.isSheetSpace c = true)
    (rest : Text) : ∃ text, part depth c rest = .space text := by
  rw [part, filler, if_pos hc]
  exact ⟨_, rfl⟩

/-- The text of a part is a piece of the sheet. -/
theorem exists_append_of_mem_parts {p : Part} (h : p ∈ parts source) :
    ∃ before after, source = before ++ p.text ++ after := by
  obtain ⟨front, behind, hparts⟩ := List.append_of_mem h
  refine ⟨front.flatMap Part.text, behind.flatMap Part.text, ?_⟩
  conv => lhs; rw [← flatMap_text_parts source, hparts]
  simp

/-- A part that is not white space begins with a character that is none. -/
theorem exists_cons_of_mem_parts {p : Part} (h : p ∈ parts source)
    (hspace : ∀ text, p ≠ .space text) :
    ∃ c rest, p.text = c :: rest ∧ Text.isSheetSpace c = false := by
  rcases exists_of_mem_parts h with hmark | ⟨depth, c, rest, hpart⟩
  · exact absurd hmark (hspace _)
  · have hne := text_part_ne_nil depth c rest
    obtain ⟨behind, hbehind⟩ := text_part_isPrefix depth c rest
    rw [← hpart] at hne hbehind
    cases htext : p.text with
    | nil => exact absurd htext hne
    | cons d text =>
      rw [htext] at hbehind
      obtain rfl := (List.cons.inj hbehind).1
      refine ⟨d, text, rfl, Bool.eq_false_iff.mpr fun hd => ?_⟩
      obtain ⟨space, hpartSpace⟩ := part_of_isSheetSpace depth hd rest
      exact hspace space (hpart.trans hpartSpace)

/-! ## Declarations and rules -/

theorem exists_of_mem_allDeclarations {all : List Part} {last offset : Nat} {d : Declaration}
    (h : Stand source offset all) (hd : d ∈ allDeclarations source last offset all) :
    ∃ before t leadingStart after, source = before ++ t.text ++ after ∧ .declaration t ∈ all ∧
      d = t.toDeclaration source leadingStart before.byteSize := by
  induction all generalizing last offset with
  | nil => simp [allDeclarations] at hd
  | cons p rest ih =>
    rcases mem_allDeclarations_cons.mp hd with ⟨t, rfl, rfl⟩ | hd
    · obtain ⟨before, hsource, rfl⟩ := h
      exact ⟨before, t, last, rest.flatMap Part.text, by simpa [Part.text] using hsource,
        List.mem_cons_self, rfl⟩
    · obtain ⟨before, t, leadingStart, after, hsource, ht, hd⟩ := ih h.tail hd
      exact ⟨before, t, leadingStart, after, hsource, List.mem_cons_of_mem _ ht, hd⟩

/-- A declaration of a rule is one of the parts, and stands where that part does. -/
theorem exists_of_mem_declarations {r : Rule} {d : Declaration} (hr : r ∈ rules source)
    (hd : d ∈ r.declarations) :
    ∃ before t leadingStart after, source = before ++ t.text ++ after ∧
      .declaration t ∈ parts source ∧ d = t.toDeclaration source leadingStart before.byteSize :=
  exists_of_mem_allDeclarations (stand_parts source)
    ((declarations_rules_subperm source).subset (List.mem_flatMap_of_mem hr hd))

/-- The character at the start of a declaration is not white space. -/
theorem exists_cons_of_mem_declarations {r : Rule} {d : Declaration} (hr : r ∈ rules source)
    (hd : d ∈ r.declarations) :
    ∃ (before : Text) (c : Char) (after : Text), source = before ++ c :: after ∧
      before.byteSize = d.start ∧ Text.isSheetSpace c = false := by
  obtain ⟨before, t, leadingStart, after, hsource, ht, rfl⟩ := exists_of_mem_declarations hr hd
  obtain ⟨c, rest, htext, hc⟩ := exists_cons_of_mem_parts ht nofun
  refine ⟨before, c, rest ++ after, ?_, rfl, hc⟩
  simpa [show t.text = c :: rest from htext] using hsource

/-- The separator of a declaration is text of the sheet. -/
theorem separator_subset {r : Rule} {d : Declaration} (hr : r ∈ rules source)
    (hd : d ∈ r.declarations) : d.separator ⊆ source := by
  obtain ⟨before, t, leadingStart, after, -, ht, rfl⟩ := exists_of_mem_declarations hr hd
  refine List.Subset.trans ?_ (text_subset_of_mem_parts ht)
  have hvalue := (List.takeWhile_sublist Text.isBlank (l := t.value)).subset
  intro c hc
  simp only [DeclarationText.toDeclaration, List.mem_append] at hc
  simp only [Part.text, DeclarationText.text, List.mem_append]
  rcases hc with (hc | hc) | hc
  · exact Or.inl (Or.inl (Or.inl (Or.inr hc)))
  · exact Or.inl (Or.inl (Or.inr hc))
  · exact Or.inl (Or.inr (hvalue hc))

/-- A rule is made of a head among the parts and the parts behind it. -/
theorem exists_append_of_mem_rulesFrom {all : List Part} {blocks : List Bool} {offset : Nat}
    {r : Rule} (hr : r ∈ rulesFrom source blocks offset all) :
    ∃ front head rest, all = front ++ .rule head :: rest ∧
      r = head.toRule source (offset + Text.byteSize (front.flatMap Part.text)) rest := by
  induction all generalizing blocks offset with
  | nil => simp [rulesFrom] at hr
  | cons p rest ih =>
    have hrest : ∀ blocks, r ∈ rulesFrom source blocks (offset + p.text.byteSize) rest →
        ∃ front head rest', p :: rest = front ++ .rule head :: rest' ∧
          r = head.toRule source (offset + Text.byteSize (front.flatMap Part.text)) rest' := by
      intro blocks hr
      obtain ⟨front, head, rest', rfl, rfl⟩ := ih hr
      refine ⟨p :: front, head, rest', rfl, ?_⟩
      rw [List.flatMap_cons, Text.byteSize_append, Nat.add_assoc]
    cases p with
    | rule head =>
      simp only [rulesFrom] at hr
      split at hr
      · exact hrest _ hr
      · rcases List.mem_cons.mp hr with rfl | hr
        · exact ⟨[], head, rest, rfl, rfl⟩
        · exact hrest _ hr
    | atBlock head => exact hrest _ hr
    | close => exact hrest _ hr
    | _ => exact hrest _ hr

theorem exists_of_mem_rulesFrom {all : List Part} {blocks : List Bool} {offset : Nat} {r : Rule}
    (hr : r ∈ rulesFrom source blocks offset all) :
    ∃ head offset rest, .rule head ∈ all ∧ r = head.toRule source offset rest := by
  obtain ⟨front, head, rest, rfl, rfl⟩ := exists_append_of_mem_rulesFrom hr
  exact ⟨head, _, rest, List.mem_append_right _ List.mem_cons_self, rfl⟩

/-- The selector of a rule is text of the sheet. -/
theorem selector_subset {r : Rule} (hr : r ∈ rules source) : r.selector ⊆ source := by
  obtain ⟨head, offset, rest, hhead, rfl⟩ := exists_of_mem_rulesFrom (rules_eq source ▸ hr)
  refine List.Subset.trans ?_ (text_subset_of_mem_parts hhead)
  intro c hc
  exact List.mem_append_left _ (List.mem_append_left _ hc)

/-- The indentation of a rule is made of spaces and tabs. -/
theorem eq_space_or_eq_tab_of_mem_indent {r : Rule} (hr : r ∈ rules source) {c : Char}
    (hc : c ∈ r.indent) : c = ' ' ∨ c = '\t' := by
  obtain ⟨head, offset, rest, -, rfl⟩ := exists_of_mem_rulesFrom (rules_eq source ▸ hr)
  change c ∈ indentAfter _ at hc
  unfold indentAfter at hc
  split at hc
  next hall => simpa using List.all_eq_true.mp hall c hc
  · simp at hc

/-- The rules fit together, their texts are text of the sheet, and no declaration begins with white
space. -/
structure AreRead (source : Text) (rules : List Rule) : Prop extends Fits source rules where
  selector : ∀ r ∈ rules, r.selector ⊆ source
  indent : ∀ r ∈ rules, ∀ c ∈ r.indent, c = ' ' ∨ c = '\t'
  separator : ∀ r ∈ rules, ∀ d ∈ r.declarations, d.separator ⊆ source
  begins : ∀ r ∈ rules, ∀ d ∈ r.declarations, ∃ (before : Text) (c : Char) (after : Text),
    source = before ++ c :: after ∧ before.byteSize = d.start ∧ Text.isSheetSpace c = false

theorem areRead_rules (source : Text) : AreRead source (rules source) where
  toFits := fits_rules source
  selector _ hr := selector_subset hr
  indent _ hr _ hc := eq_space_or_eq_tab_of_mem_indent hr hc
  separator _ hr _ hd := separator_subset hr hd
  begins _ hr _ hd := exists_cons_of_mem_declarations hr hd

end LeadingTrim.Sheet
