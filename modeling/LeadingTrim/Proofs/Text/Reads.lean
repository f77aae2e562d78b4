/-
# What a scan reads

That a scan reads some pieces is said here for the pieces alone, from the state before the first to
the state behind the last, with the text that follows them (`Reads`). What a step finds may depend
on the text that follows, so the relation holds for that text only; moving it to another text is
done step by step. Readings are put together (`Reads.append`) and taken apart (`Reads.of_append`),
and the scan of a text is a reading (`exists_reads_scan`).
-/

import LeadingTrim.Text.Scan

namespace LeadingTrim.Text

variable {σ κ : Type} {step : σ → Char → Text → Option (Found σ κ)}

@[simp] theorem texts_nil : texts ([] : List (κ × Text)) = [] := rfl

@[simp] theorem texts_cons (p : κ × Text) (l : List (κ × Text)) :
    texts (p :: l) = p.2 ++ texts l := rfl

theorem texts_append (l m : List (κ × Text)) : texts (l ++ m) = texts l ++ texts m := by
  simp [texts]

/-- Between two states a scan reads the pieces, which are followed by a text. -/
inductive Reads (step : σ → Char → Text → Option (Found σ κ)) :
    σ → List (κ × Text) → σ → Text → Prop
  | nil (s : σ) (r : Text) : Reads step s [] s r
  | cons {s s' s'' : σ} {k : κ} {c : Char} {x r : Text} {l : List (κ × Text)}
    (hfirst : step s c (x ++ (texts l ++ r)) = some ⟨k, s', x.length⟩)
    (hrest : Reads step s' l s'' r) : Reads step s ((k, c :: x) :: l) s'' r

variable {s s' s'' : σ} {l m : List (κ × Text)} {r : Text}

theorem Reads.append (h : Reads step s l s' (texts m ++ r)) (h' : Reads step s' m s'' r) :
    Reads step s (l ++ m) s'' r := by
  induction l generalizing s with
  | nil =>
    cases h
    exact h'
  | cons p l ih =>
    cases h with
    | cons hfirst hrest =>
      rw [List.cons_append]
      refine .cons ?_ (ih hrest)
      rw [texts_append, List.append_assoc]
      exact hfirst

theorem Reads.of_append (h : Reads step s (l ++ m) s'' r) :
    ∃ s', Reads step s l s' (texts m ++ r) ∧ Reads step s' m s'' r := by
  induction l generalizing s with
  | nil => exact ⟨s, .nil _ _, h⟩
  | cons p l ih =>
    rw [List.cons_append] at h
    cases h with
    | cons hfirst hrest =>
      obtain ⟨s', hl, hm⟩ := ih hrest
      rw [texts_append, List.append_assoc] at hfirst
      exact ⟨s', .cons hfirst hl, hm⟩

theorem Reads.piece_ne_nil (h : Reads step s l s' r) : ∀ p ∈ l, p.2 ≠ [] := by
  induction h with
  | nil => simp
  | cons _ _ ih =>
    intro p hp
    rcases List.mem_cons.mp hp with rfl | hp
    · simp
    · exact ih p hp

/-- What is read is what the scan begins with. -/
theorem Reads.scan_eq (h : Reads step s l s' r) :
    scan step s 0 (texts l ++ r) = l ++ scan step s' 0 r := by
  induction h with
  | nil => rfl
  | @cons s s' s'' k c x r l hfirst _ ih =>
    rw [texts_cons, List.append_assoc, List.cons_append, scan, hfirst]
    dsimp only
    rw [List.take_left, scan_eq_scan_drop, List.drop_left, ih]
    rfl

/-- Every piece of a scan is found by a step. -/
theorem exists_of_mem_scan {skip : Nat} {t : Text} {p : κ × Text} (h : p ∈ scan step s skip t) :
    ∃ s c rest found, step s c rest = some found ∧
      p = (found.kind, c :: rest.take found.more) := by
  induction t generalizing s skip with
  | nil => simp [scan] at h
  | cons c t ih =>
    cases skip with
    | succ skip => exact ih h
    | zero =>
      rw [scan] at h
      split at h
      · simp at h
      next found hfound =>
        rcases List.mem_cons.mp h with rfl | h
        · exact ⟨s, c, t, found, hfound, rfl⟩
        · exact ih h

/-- Behind some of its pieces a scan goes on with the others. -/
theorem exists_scan_drop {t : Text} (h : scan step s 0 t = l ++ m) :
    ∃ s', scan step s' 0 (t.drop (texts l).length) = m := by
  induction l generalizing s t with
  | nil => exact ⟨s, h⟩
  | cons p l ih =>
    cases t with
    | nil => simp [scan] at h
    | cons c t =>
      rw [scan] at h
      split at h
      · simp at h
      next found _ =>
        obtain ⟨rfl, hrest⟩ := List.cons.inj h
        rw [scan_eq_scan_drop] at hrest
        obtain ⟨s', hs'⟩ := ih hrest
        refine ⟨s', ?_⟩
        have hdrop : (c :: t).drop (texts ((found.kind, c :: t.take found.more) :: l)).length =
            (t.drop found.more).drop (texts l).length := by
          rw [texts_cons, List.length_append, List.length_cons, Nat.add_right_comm,
            List.drop_succ_cons, List.length_take, List.drop_drop]
          rcases Nat.le_total found.more t.length with hle | hle
          · rw [Nat.min_eq_left hle]
          · rw [Nat.min_eq_right hle, List.drop_eq_nil_of_le (by omega),
              List.drop_eq_nil_of_le (by omega)]
        rw [hdrop, hs']

theorem scan_ne_nil {c : Char} {t : Text} {found : Found σ κ} (h : step s c t = some found) :
    texts (scan step s 0 (c :: t)) ≠ [] := by
  rw [scan, h]
  simp

/-- A scan of a first part of a text that is not all of it is a reading. -/
theorem exists_reads_scan (s : σ) (w : Text) (hr : r ≠ [])
    (hw : texts (scan step s 0 (w ++ r)) = w) :
    ∃ s', Reads step s (scan step s 0 (w ++ r)) s' r ∧ scan step s' 0 r = [] := by
  induction hn : w.length using Nat.strongRecOn generalizing s w with
  | ind n ih =>
    cases w with
    | nil =>
      obtain ⟨c, t, rfl⟩ := List.exists_cons_of_ne_nil hr
      have hnone : scan step s 0 (c :: t) = [] := by
        rw [scan]
        split
        · rfl
        next found hfound => exact absurd hw (scan_ne_nil hfound)
      rw [List.nil_append, hnone]
      exact ⟨s, .nil _ _, hnone⟩
    | cons c w =>
      rw [List.cons_append] at hw ⊢
      cases hfound : step s c (w ++ r) with
      | none =>
        rw [scan, hfound] at hw
        simp at hw
      | some found =>
        have hscan : scan step s 0 (c :: (w ++ r)) =
            (found.kind, c :: (w ++ r).take found.more) ::
              scan step found.next 0 ((w ++ r).drop found.more) := by
          rw [scan, hfound]
          dsimp only
          rw [scan_eq_scan_drop]
        rw [hscan, texts_cons, List.cons_append] at hw
        injection hw with _ hw
        -- the piece ends in the first part
        have hle : found.more ≤ w.length := by
          have hlength := congrArg List.length hw
          have hpos := List.length_pos_iff.mpr hr
          rw [List.length_append, List.length_take, List.length_append] at hlength
          omega
        rw [List.take_append_of_le_length hle, List.drop_append_of_le_length hle] at hw
        rw [List.take_append_of_le_length hle, List.drop_append_of_le_length hle] at hscan
        have hrest : texts (scan step found.next 0 (w.drop found.more ++ r)) = w.drop found.more :=
          List.append_cancel_left (hw.trans (List.take_append_drop _ _).symm)
        obtain ⟨s', hreads, hend⟩ := ih (w.drop found.more).length
          (by simp only [List.length_drop, List.length_cons] at hn ⊢; omega) found.next _ hrest rfl
        refine ⟨s', ?_, hend⟩
        rw [hscan]
        refine .cons ?_ hreads
        rw [hrest, ← List.append_assoc, List.take_append_drop, hfound, List.length_take,
          Nat.min_eq_left hle]

end LeadingTrim.Text
