/-
# Rules of sound sheets are closed

In a sound sheet every block is closed. So a rule ends behind a closing brace of the sheet
(`exists_stop_of_mem_rules`), and not where its last part happens to end. One step of the check
leads from the number of open blocks in front of a part to the number behind it
(`Part.openBehind`); the rest is an induction along the parts, once for the end of a block and once
for the rules.
-/

import LeadingTrim.Proofs.Sheet.Extent
import LeadingTrim.Sheet.Soundness

namespace LeadingTrim.Sheet

variable {source t : Text} {ended : Bool} {depth opened last offset n : Nat} {p : Part}
  {all rest : List Part}

/-- The number of open blocks behind a part. -/
def Part.openBehind (opened : Nat) : Part → Nat
  | .rule _ | .atBlock _ => opened + 1
  | .close => opened - 1
  | _ => opened

/-- What is behind a part of a sound sheet is sound. -/
theorem isSoundFrom_tail (h : isSoundFrom opened ended t (p :: rest) = true) :
    ∃ ended' t', isSoundFrom (p.openBehind opened) ended' t' rest = true := by
  simp only [isSoundFrom, Bool.and_eq_true] at h
  obtain ⟨-, h⟩ := h
  cases p with
  | space | comment | lineComment => exact ⟨_, _, h⟩
  | declaration | atStatement | rule | atBlock | close =>
    exact ⟨_, _, (Bool.and_eq_true_iff.mp h).2⟩
  | stray => cases h

/-- The offset is behind a closing brace among the parts. -/
def IsBehindClose (offset : Nat) (all : List Part) (n : Nat) : Prop :=
  ∃ front behind, all = front ++ .close :: behind ∧
    n = offset + Text.byteSize (front.flatMap Part.text ++ ['}'])

theorem isBehindClose_close (offset : Nat) (rest : List Part) :
    IsBehindClose offset (.close :: rest) (offset + Part.close.text.byteSize) :=
  ⟨[], rest, rfl, rfl⟩

theorem IsBehindClose.cons (h : IsBehindClose (offset + p.text.byteSize) rest n) :
    IsBehindClose offset (p :: rest) n := by
  obtain ⟨front, behind, rfl, rfl⟩ := h
  refine ⟨p :: front, behind, rfl, ?_⟩
  rw [List.flatMap_cons, List.append_assoc, Text.byteSize_append p.text,
    Nat.add_assoc]

/-- A block ends behind a closing brace. The blocks opened inside it are open in front of it. -/
theorem isBehindClose_blockStop (h : isSoundFrom opened ended t all = true)
    (hdepth : depth < opened) : IsBehindClose offset all (blockStop depth last offset all) := by
  induction all generalizing depth opened ended t last offset with
  | nil =>
    simp only [isSoundFrom, Bool.and_eq_true, beq_iff_eq] at h
    omega
  | cons p rest ih =>
    obtain ⟨ended', t', hrest⟩ := isSoundFrom_tail h
    cases p with
    | close =>
      cases depth with
      | zero => exact isBehindClose_close _ _
      | succ depth => exact (ih hrest (show depth < opened - 1 by omega)).cons
    | rule | atBlock => exact (ih hrest (Nat.succ_lt_succ hdepth)).cons
    | _ => exact (ih hrest hdepth).cons

/-- A rule ends behind a closing brace. -/
theorem isBehindClose_of_mem_rulesFrom {blocks : List Bool} {r : Rule}
    (h : isSoundFrom opened ended t all = true) (hr : r ∈ rulesFrom source blocks offset all) :
    IsBehindClose offset all r.stop := by
  induction all generalizing blocks opened ended t offset with
  | nil => simp [rulesFrom] at hr
  | cons p rest ih =>
    obtain ⟨ended', t', hrest⟩ := isSoundFrom_tail h
    cases p with
    | rule head =>
      simp only [rulesFrom] at hr
      split at hr
      · exact (ih hrest hr).cons
      · rcases List.mem_cons.mp hr with rfl | hr
        · exact (isBehindClose_blockStop hrest (Nat.succ_pos opened)).cons
        · exact (ih hrest hr).cons
    | _ => exact (ih hrest hr).cons

/-- In a sound sheet a rule ends behind a closing brace of the sheet. -/
theorem exists_stop_of_mem_rules (hsound : isSound source = true) {r : Rule}
    (hr : r ∈ rules source) :
    ∃ before after, source = before ++ '}' :: after ∧ r.stop = (before ++ ['}']).byteSize := by
  obtain ⟨front, behind, hparts, hstop⟩ :=
    isBehindClose_of_mem_rulesFrom (isSoundFrom_of_isSound hsound) (rules_eq source ▸ hr)
  refine ⟨front.flatMap Part.text, behind.flatMap Part.text, ?_, by rw [hstop, Nat.zero_add]⟩
  conv => lhs; rw [← flatMap_text_parts source, hparts]
  rw [List.flatMap_append, List.flatMap_cons]
  rfl

end LeadingTrim.Sheet
