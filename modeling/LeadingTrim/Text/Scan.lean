/-
# Scanning a text into pieces

`scan` cuts a text from left to right into pieces. At the start of each piece a step function
looks at the whole rest of the text, says what the piece is, how many characters it has beyond its
first, and in which state the next piece is looked for; or it ends the scan. The recursion is on
the text itself, so no bound has to be given. The pieces are a first part of the text
(`exists_texts_scan_append`).
-/

import LeadingTrim.Text.Basic

namespace LeadingTrim.Text

variable {σ κ : Type}

/-- What a step function finds at the start of a piece. -/
structure Found (σ κ : Type) where
  /-- What the piece is. -/
  kind : κ
  /-- The state in which the next piece is looked for. -/
  next : σ
  /-- The number of characters of the piece beyond its first. -/
  more : Nat

/-- The pieces of a text with what each of them is; the second argument counts the characters that
still belong to the piece before. -/
def scan (step : σ → Char → Text → Option (Found σ κ)) : σ → Nat → Text → List (κ × Text)
  | _, _, [] => []
  | s, skip + 1, _ :: rest => scan step s skip rest
  | s, 0, c :: rest =>
    match step s c rest with
    | none => []
    | some found => (found.kind, c :: rest.take found.more) :: scan step found.next found.more rest

/-- The pieces' texts, one after the other. -/
def texts (pieces : List (κ × Text)) : Text := pieces.flatMap Prod.snd

variable {step : σ → Char → Text → Option (Found σ κ)}

/-- Characters that belong to the piece before are passed over. -/
theorem scan_eq_scan_drop (s : σ) (skip : Nat) (t : Text) :
    scan step s skip t = scan step s 0 (t.drop skip) := by
  induction t generalizing skip with
  | nil => simp [scan]
  | cons c t ih =>
    cases skip with
    | zero => rfl
    | succ skip => simpa [scan] using ih skip

/-- The pieces make up a first part of the text. -/
theorem exists_texts_scan_append (s : σ) (t : Text) :
    ∃ rest, texts (scan step s 0 t) ++ rest = t := by
  induction h : t.length using Nat.strongRecOn generalizing s t with
  | ind n ih =>
    cases t with
    | nil => exact ⟨[], rfl⟩
    | cons c t =>
      rw [scan]
      split
      · exact ⟨c :: t, rfl⟩
      · next found _ =>
        rw [scan_eq_scan_drop]
        have shorter : (t.drop found.more).length < n := by
          simp only [List.length_drop, List.length_cons] at h ⊢; omega
        obtain ⟨rest, hrest⟩ := ih _ shorter found.next (t.drop found.more) rfl
        refine ⟨rest, ?_⟩
        simp only [texts, List.flatMap_cons, List.cons_append, List.append_assoc] at hrest ⊢
        rw [hrest, List.take_append_drop]

end LeadingTrim.Text
