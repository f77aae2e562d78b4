/-
# Cuts

Edits that come one behind the other cut a text: in front of each a piece is kept, and the piece
behind that is replaced. What is said of edits and the text that they are applied to is proved along
such a cut.
-/

import LeadingTrim.Edit.Basic
import LeadingTrim.Proofs.Text.Boundary

namespace LeadingTrim.Edit

/-- The edits replace pieces of the text that stands at the offset, one behind the other. -/
inductive Cuts : Nat → Text → List Edit → Prop
  | nil (offset : Nat) (t : Text) : Cuts offset t []
  | cons {offset : Nat} {kept gone t : Text} {e : Edit} {rest : List Edit}
    (hstart : e.start = offset + kept.byteSize) (hstop : e.stop = e.start + gone.byteSize)
    (hrest : Cuts e.stop t rest) : Cuts offset (kept ++ gone ++ t) (e :: rest)

/-- Edits between characters that come one behind the other cut the text behind the first of its two
parts, if they begin there or later. -/
theorem cuts_of_pairwise (before t : Text) (edits : List Edit)
    (horder : edits.Pairwise fun a b => a.stop ≤ b.start)
    (hedit : ∀ e ∈ edits, before.byteSize ≤ e.start ∧ e.start ≤ e.stop
      ∧ (before ++ t).IsBoundary e.start ∧ (before ++ t).IsBoundary e.stop) :
    Cuts before.byteSize t edits := by
  induction edits generalizing before t with
  | nil => exact .nil _ _
  | cons e edits ih =>
    obtain ⟨hfirst, horder⟩ := List.pairwise_cons.mp horder
    obtain ⟨hcursor, hle, hstart, hstop⟩ := hedit e List.mem_cons_self
    -- the text in front of the edit, the text that it replaces, and the text behind it
    obtain ⟨kept, t', rfl, hkept⟩ := hstart.of_append hcursor
    rw [← List.append_assoc] at hstop
    have hsize : (before ++ kept).byteSize = e.start := by rw [Text.byteSize_append]; omega
    obtain ⟨gone, behind, rfl, hgone⟩ := hstop.of_append (by omega)
    have hbehind : (before ++ kept ++ gone).byteSize = e.stop := by
      rw [Text.byteSize_append]; omega
    rw [← List.append_assoc]
    refine .cons (by omega) (by omega) ?_
    rw [← hbehind]
    refine ih (before ++ kept ++ gone) behind horder fun a ha => ?_
    obtain ⟨-, hale, hastart, hastop⟩ := hedit a (List.mem_cons_of_mem _ ha)
    exact ⟨hbehind ▸ hfirst a ha, hale, by simpa using hastart, by simpa using hastop⟩

variable {offset : Nat} {t : Text} {edits : List Edit}

theorem Cuts.le_start (h : Cuts offset t edits) :
    ∀ e ∈ edits, offset ≤ e.start ∧ e.start ≤ e.stop := by
  induction h with
  | nil => simp
  | cons hstart hstop _ ih =>
    intro a ha
    rcases List.mem_cons.mp ha with rfl | ha
    · omega
    · have := ih a ha
      omega

/-- The piece in front of an edit. -/
theorem slice_of_cut {before kept gone t : Text} {n : Nat}
    (hn : n = before.byteSize + kept.byteSize) :
    (before ++ (kept ++ gone ++ t)).slice before.byteSize n = kept :=
  Text.slice_eq_of_append (s := before) (t := kept) (u := gone ++ t) (by simp) rfl hn.symm

end LeadingTrim.Edit
