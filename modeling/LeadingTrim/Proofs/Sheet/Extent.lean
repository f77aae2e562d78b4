/-
# The extent of rules and declarations

The rules that are read off a sheet fit together, whatever the sheet (`fits_rules`): their
declarations are pieces of the sheet, no two of them share a byte, the white space before them
counted in, and no rule ends inside one. So a sheet can be changed declaration by declaration and
behind its rules, and no two changes meet.

A declaration stands in one block only, so that the declarations of all rules are among the
declarations of the sheet, each at most once (`declarations_subperm`).
-/

import Mathlib.Data.List.Nodup
import Mathlib.Data.List.Perm.Subperm
import LeadingTrim.Proofs.Text.Boundary
import LeadingTrim.Proofs.Sheet.PartRules

namespace LeadingTrim.Sheet

open Text (IsBoundary)

/-! ## Rules that fit together -/

/-- Two declarations, with the white space before them, share no byte. -/
def Declaration.Apart (d e : Declaration) : Prop :=
  d.stop ≤ e.leadingStart ∨ e.stop ≤ d.leadingStart

/-- The offset is not inside the declaration or the white space before it. -/
def Declaration.Spares (d : Declaration) (offset : Nat) : Prop :=
  offset ≤ d.leadingStart ∨ d.stop ≤ offset

/-- The declaration is a piece of the sheet, behind a piece that may be empty. -/
structure Declaration.Fits (source : Text) (d : Declaration) : Prop where
  leadingStart_le_start : d.leadingStart ≤ d.start
  start_lt_stop : d.start < d.stop
  isBoundary_leadingStart : source.IsBoundary d.leadingStart
  isBoundary_start : source.IsBoundary d.start
  isBoundary_stop : source.IsBoundary d.stop

/-- The declarations of the rules are pieces of the sheet that share no byte, and no rule ends
inside one of them. -/
structure Fits (source : Text) (rules : List Rule) : Prop where
  declaration : ∀ r ∈ rules, ∀ d ∈ r.declarations, d.Fits source
  apart : (rules.flatMap Rule.declarations).Pairwise Declaration.Apart
  isBoundary_stop : ∀ r ∈ rules, source.IsBoundary r.stop
  spares : ∀ r ∈ rules, ∀ d ∈ rules.flatMap Rule.declarations, d.Spares r.stop

theorem Declaration.Apart.symm {d e : Declaration} (h : d.Apart e) : e.Apart d := Or.symm h

/-! ## All declarations of a sheet -/

/-- The declarations among the parts, in whatever block they stand. The arguments are as for
`declarationsFrom`. -/
def allDeclarations (source : Text) : Nat → Nat → List Part → List Declaration
  | _, _, [] => []
  | last, offset, p :: rest =>
    let behind := offset + p.text.byteSize
    match p with
    | .space _ => allDeclarations source last behind rest
    | .declaration d =>
      d.toDeclaration source last offset :: allDeclarations source behind behind rest
    | _ => allDeclarations source behind behind rest

variable {source : Text}

theorem declarationsFrom_zero_declaration (last offset : Nat) (d : DeclarationText)
    (rest : List Part) :
    declarationsFrom source 0 last offset (.declaration d :: rest) =
      d.toDeclaration source last offset ::
        declarationsFrom source 0 (offset + (Part.declaration d).text.byteSize)
          (offset + (Part.declaration d).text.byteSize) rest := by
  simp [declarationsFrom]

theorem declarationsFrom_succ_declaration (depth last offset : Nat) (d : DeclarationText)
    (rest : List Part) :
    declarationsFrom source (depth + 1) last offset (.declaration d :: rest) =
      declarationsFrom source (depth + 1) (offset + (Part.declaration d).text.byteSize)
        (offset + (Part.declaration d).text.byteSize) rest := by
  simp [declarationsFrom]

/-- Where the blocks open at some depths are left, those at the others are one less deep. -/
theorem flatMap_declarationsFrom_close (depths : List Nat) (last offset : Nat)
    (rest : List Part) :
    (depths.flatMap fun depth => declarationsFrom source depth last offset (.close :: rest)) =
      (depths.filterMap fun depth => if depth = 0 then none else some (depth - 1)).flatMap
        fun depth => declarationsFrom source depth (offset + Part.close.text.byteSize)
          (offset + Part.close.text.byteSize) rest := by
  induction depths with
  | nil => rfl
  | cons depth depths ih =>
    cases depth with
    | zero => simpa [declarationsFrom] using ih
    | succ depth => simpa [declarationsFrom] using ih

/-- At a declaration the block at depth zero, if it is among those open, takes it. -/
theorem flatMap_declarationsFrom_declaration {depths : List Nat} (hdepths : depths.Nodup)
    (last offset : Nat) (d : DeclarationText) (rest : List Part) :
    (depths.flatMap fun depth =>
        declarationsFrom source depth last offset (.declaration d :: rest)).Subperm
      (d.toDeclaration source last offset :: depths.flatMap fun depth =>
        declarationsFrom source depth (offset + (Part.declaration d).text.byteSize)
          (offset + (Part.declaration d).text.byteSize) rest) := by
  induction depths with
  | nil => exact (List.nil_sublist _).subperm
  | cons depth depths ih =>
    obtain ⟨hdepth, hrest⟩ := List.nodup_cons.mp hdepths
    rw [List.flatMap_cons, List.flatMap_cons]
    cases depth with
    | zero =>
      have hdeeper : (depths.flatMap fun depth =>
          declarationsFrom source depth last offset (.declaration d :: rest)) =
          depths.flatMap fun depth =>
            declarationsFrom source depth (offset + (Part.declaration d).text.byteSize)
              (offset + (Part.declaration d).text.byteSize) rest := by
        refine List.flatMap_congr fun depth hmem => ?_
        obtain ⟨depth, rfl⟩ := Nat.exists_eq_succ_of_ne_zero fun h => hdepth (h ▸ hmem)
        exact declarationsFrom_succ_declaration depth last offset d rest
      rw [hdeeper, declarationsFrom_zero_declaration, List.cons_append]
    | succ depth =>
      rw [declarationsFrom_succ_declaration]
      exact ((List.subperm_append_left _).mpr (ih hrest)).trans List.perm_middle.subperm

/-- The declarations of all rules, and of open blocks at different depths, are declarations of the
sheet, each at most once. -/
theorem declarations_subperm (parts : List Part) (blocks : List Bool) {depths : List Nat}
    (hdepths : depths.Nodup) (last offset : Nat) :
    ((depths.flatMap fun depth => declarationsFrom source depth last offset parts)
        ++ (rulesFrom source blocks offset parts).flatMap Rule.declarations).Subperm
      (allDeclarations source last offset parts) := by
  induction parts generalizing blocks depths last offset with
  | nil => simp [declarationsFrom, rulesFrom, allDeclarations]
  | cons p rest ih =>
    have hsucc : (depths.map Nat.succ).Nodup := hdepths.map fun _ _ => Nat.succ.inj
    cases p with
    | space text => simpa [declarationsFrom, rulesFrom, allDeclarations] using ih blocks hdepths ..
    | comment text | lineComment text | atStatement text | stray text =>
      simpa [declarationsFrom, rulesFrom, allDeclarations] using ih blocks hdepths ..
    | declaration d =>
      simp only [rulesFrom, allDeclarations]
      refine ((List.subperm_append_right _).mpr
        (flatMap_declarationsFrom_declaration hdepths ..)).trans ?_
      rw [List.cons_append, List.subperm_cons]
      exact ih blocks hdepths ..
    | close =>
      rw [flatMap_declarationsFrom_close]
      simp only [rulesFrom, allDeclarations]
      refine ih blocks.tail (List.Nodup.filterMap (fun a b c ha hb => ?_) hdepths) ..
      simp only [Option.mem_def, Option.ite_none_left_eq_some, Option.some.injEq] at ha hb
      omega
    | atBlock head =>
      have := ih (isKeyframes head.keyword :: blocks) hsucc
        (offset + (Part.atBlock head).text.byteSize) (offset + (Part.atBlock head).text.byteSize)
      simpa [declarationsFrom, rulesFrom, allDeclarations, List.flatMap_map] using this
    | rule head =>
      simp only [rulesFrom, allDeclarations]
      split
      · have := ih (false :: blocks) hsucc
          (offset + (Part.rule head).text.byteSize) (offset + (Part.rule head).text.byteSize)
        simpa [declarationsFrom, List.flatMap_map] using this
      · -- the block that the head opens is one more open block, at depth zero
        have hcons : (0 :: depths.map Nat.succ).Nodup := by simp [hsucc]
        have := ih (false :: blocks) hcons
          (offset + (Part.rule head).text.byteSize) (offset + (Part.rule head).text.byteSize)
        refine List.Perm.subperm ?_ |>.trans this
        simp only [declarationsFrom, List.flatMap_cons, List.flatMap_map, List.append_assoc,
          RuleHead.toRule]
        exact List.perm_append_comm_assoc ..

/-! ## Where declarations and rules stand -/

/-- The parts stand at the offset and reach to the end of the sheet. -/
def Stand (source : Text) (offset : Nat) (parts : List Part) : Prop :=
  ∃ before, source = before ++ parts.flatMap Part.text ∧ before.byteSize = offset

theorem stand_parts (source : Text) : Stand source 0 (parts source) :=
  ⟨[], (flatMap_text_parts source).symm, rfl⟩

theorem Stand.isBoundary {offset : Nat} {parts : List Part} (h : Stand source offset parts) :
    source.IsBoundary offset := by
  obtain ⟨before, hsource, rfl⟩ := h
  exact hsource ▸ Text.isBoundary_byteSize_append _ _

theorem Stand.tail {offset : Nat} {p : Part} {rest : List Part}
    (h : Stand source offset (p :: rest)) : Stand source (offset + p.text.byteSize) rest := by
  obtain ⟨before, hsource, rfl⟩ := h
  exact ⟨before ++ p.text, by simpa using hsource, Text.byteSize_append ..⟩

/-- Where the last part other than white space ended, behind a part. -/
def Part.lastBehind (last behind : Nat) : Part → Nat
  | .space _ => last
  | _ => behind

theorem Part.le_lastBehind {last behind : Nat} (h : last ≤ behind) (p : Part) :
    last ≤ p.lastBehind last behind := by
  cases p <;> first | exact Nat.le_refl _ | exact h

theorem Part.lastBehind_le {last behind : Nat} (h : last ≤ behind) (p : Part) :
    p.lastBehind last behind ≤ behind := by
  cases p <;> first | exact Nat.le_refl _ | exact h

theorem Part.isBoundary_lastBehind {last behind : Nat} (hlast : source.IsBoundary last)
    (hbehind : source.IsBoundary behind) (p : Part) :
    source.IsBoundary (p.lastBehind last behind) := by
  cases p <;> first | exact hbehind | exact hlast

theorem mem_allDeclarations_cons {d : Declaration} {last offset : Nat} {p : Part}
    {rest : List Part} :
    d ∈ allDeclarations source last offset (p :: rest) ↔
      (∃ t, p = .declaration t ∧ d = t.toDeclaration source last offset) ∨
        d ∈ allDeclarations source (p.lastBehind last (offset + p.text.byteSize))
          (offset + p.text.byteSize) rest := by
  cases p <;> simp [allDeclarations, Part.lastBehind]

theorem DeclarationText.byteSize_text_pos (d : DeclarationText) : 0 < d.text.byteSize :=
  Text.byteSize_pos (by simp [DeclarationText.text])

theorem DeclarationText.fits_toDeclaration {last offset : Nat} (t : DeclarationText)
    {rest : List Part} (hle : last ≤ offset) (hlast : source.IsBoundary last)
    (h : Stand source offset (.declaration t :: rest)) :
    (t.toDeclaration source last offset).Fits source where
  leadingStart_le_start := hle
  start_lt_stop := Nat.lt_add_of_pos_right t.byteSize_text_pos
  isBoundary_leadingStart := hlast
  isBoundary_start := h.isBoundary
  isBoundary_stop := h.tail.isBoundary

/-- The declarations of the sheet are pieces of it, and stand behind the last part before them. -/
theorem fits_of_mem_allDeclarations {parts : List Part} {last offset : Nat} {d : Declaration}
    (hle : last ≤ offset) (hlast : source.IsBoundary last) (h : Stand source offset parts)
    (hd : d ∈ allDeclarations source last offset parts) :
    d.Fits source ∧ last ≤ d.leadingStart := by
  induction parts generalizing last offset with
  | nil => simp [allDeclarations] at hd
  | cons p rest ih =>
    have hbehind : last ≤ offset + p.text.byteSize := by omega
    rcases mem_allDeclarations_cons.mp hd with ⟨t, rfl, rfl⟩ | hd
    · exact ⟨t.fits_toDeclaration hle hlast h, Nat.le_refl _⟩
    · obtain ⟨hfits, hbegin⟩ := ih (p.lastBehind_le hbehind)
        (p.isBoundary_lastBehind hlast h.tail.isBoundary) h.tail hd
      exact ⟨hfits, Nat.le_trans (p.le_lastBehind hbehind) hbegin⟩

/-- The declarations of the sheet come one behind the other. -/
theorem pairwise_allDeclarations {parts : List Part} {last offset : Nat} (hle : last ≤ offset)
    (hlast : source.IsBoundary last) (h : Stand source offset parts) :
    (allDeclarations source last offset parts).Pairwise Declaration.Apart := by
  induction parts generalizing last offset with
  | nil => exact .nil
  | cons p rest ih =>
    have hbehind : last ≤ offset + p.text.byteSize := by omega
    have hrest := ih (p.lastBehind_le hbehind)
      (p.isBoundary_lastBehind hlast h.tail.isBoundary) h.tail
    cases p with
    | declaration t =>
      refine List.pairwise_cons.mpr ⟨fun d hd => Or.inl ?_, hrest⟩
      exact (fits_of_mem_allDeclarations (Nat.le_refl _) h.tail.isBoundary h.tail hd).2
    | _ => exact hrest

/-- The offset is behind the last part before the parts, and not inside a declaration among them.
-/
structure IsCut (source : Text) (last offset : Nat) (parts : List Part) (n : Nat) : Prop where
  last_le : last ≤ n
  isBoundary : source.IsBoundary n
  spares : ∀ d ∈ allDeclarations source last offset parts, d.Spares n

theorem isCut_last {last offset : Nat} {parts : List Part} (hle : last ≤ offset)
    (hlast : source.IsBoundary last) (h : Stand source offset parts) :
    IsCut source last offset parts last :=
  ⟨Nat.le_refl _, hlast, fun _ hd => Or.inl (fits_of_mem_allDeclarations hle hlast h hd).2⟩

theorem IsCut.cons {last offset n : Nat} {p : Part} {rest : List Part} (hle : last ≤ offset)
    (h : IsCut source (p.lastBehind last (offset + p.text.byteSize)) (offset + p.text.byteSize)
      rest n) : IsCut source last offset (p :: rest) n := by
  have hbehind : last ≤ offset + p.text.byteSize := by omega
  refine ⟨Nat.le_trans (p.le_lastBehind hbehind) h.last_le, h.isBoundary, fun d hd => ?_⟩
  rcases mem_allDeclarations_cons.mp hd with ⟨t, rfl, rfl⟩ | hd
  · exact Or.inr h.last_le
  · exact h.spares d hd

/-- A block ends where no declaration is cut. -/
theorem isCut_blockStop {parts : List Part} (depth : Nat) {last offset : Nat}
    (hle : last ≤ offset) (hlast : source.IsBoundary last) (h : Stand source offset parts) :
    IsCut source last offset parts (blockStop depth last offset parts) := by
  induction parts generalizing depth last offset with
  | nil => exact isCut_last hle hlast h
  | cons p rest ih =>
    have hrest := fun depth => ih depth
      (p.lastBehind_le (Nat.le_trans hle (Nat.le_add_right _ p.text.byteSize)))
      (p.isBoundary_lastBehind hlast h.tail.isBoundary) h.tail
    cases p with
    | close =>
      cases depth with
      | zero => exact .cons hle (isCut_last (Nat.le_refl _) h.tail.isBoundary h.tail)
      | succ depth => exact .cons hle (hrest depth)
    | rule head => exact .cons hle (hrest (depth + 1))
    | atBlock head => exact .cons hle (hrest (depth + 1))
    | _ => exact .cons hle (hrest depth)

/-- A rule ends where no declaration is cut. -/
theorem isCut_stop_of_mem_rulesFrom {parts : List Part} {blocks : List Bool} {last offset : Nat}
    {r : Rule} (hle : last ≤ offset) (hlast : source.IsBoundary last)
    (h : Stand source offset parts) (hr : r ∈ rulesFrom source blocks offset parts) :
    IsCut source last offset parts r.stop := by
  induction parts generalizing blocks last offset with
  | nil => simp [rulesFrom] at hr
  | cons p rest ih =>
    have hrest : ∀ blocks, r ∈ rulesFrom source blocks (offset + p.text.byteSize) rest →
        IsCut source (p.lastBehind last (offset + p.text.byteSize)) (offset + p.text.byteSize)
          rest r.stop := fun blocks hr =>
      ih (p.lastBehind_le (Nat.le_trans hle (Nat.le_add_right _ _)))
        (p.isBoundary_lastBehind hlast h.tail.isBoundary) h.tail hr
    cases p with
    | rule head =>
      simp only [rulesFrom] at hr
      split at hr
      · exact .cons hle (hrest _ hr)
      · rcases List.mem_cons.mp hr with rfl | hr
        · exact .cons hle (isCut_blockStop 0 (Nat.le_refl _) h.tail.isBoundary h.tail)
        · exact .cons hle (hrest _ hr)
    | atBlock head => exact .cons hle (hrest _ hr)
    | close => exact .cons hle (hrest _ hr)
    | _ => exact .cons hle (hrest _ hr)

/-- The declarations of the rules are declarations of the sheet, each at most once. -/
theorem declarations_rules_subperm (source : Text) :
    ((rules source).flatMap Rule.declarations).Subperm
      (allDeclarations source 0 0 (parts source)) := by
  rw [rules_eq]
  exact declarations_subperm (parts source) [] List.nodup_nil 0 0

/-- The rules of any sheet fit together. -/
theorem fits_rules (source : Text) : Fits source (rules source) := by
  have hstand := stand_parts source
  have hzero := Text.isBoundary_zero source
  have hsub := declarations_rules_subperm source
  have hcut : ∀ r ∈ rules source, IsCut source 0 0 (parts source) r.stop := fun r hr =>
    isCut_stop_of_mem_rulesFrom (Nat.le_refl 0) hzero hstand (rules_eq source ▸ hr)
  refine ⟨fun r hr d hd => ?_, ?_, fun r hr => (hcut r hr).isBoundary,
    fun r hr d hd => (hcut r hr).spares d (hsub.subset hd)⟩
  · have hmem := hsub.subset (List.mem_flatMap_of_mem hr hd)
    exact (fits_of_mem_allDeclarations (Nat.le_refl 0) hzero hstand hmem).1
  · obtain ⟨l, hperm, hsublist⟩ := hsub
    have hall := pairwise_allDeclarations (Nat.le_refl 0) hzero hstand
    exact (hperm.pairwise_iff Declaration.Apart.symm).mp (hall.sublist hsublist)

end LeadingTrim.Sheet
