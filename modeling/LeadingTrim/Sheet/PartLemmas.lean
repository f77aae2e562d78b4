/-
# The parts of a style sheet lose nothing

Each part is a first part of the text at whose front it is read (`text_part_isPrefix`), no part is
empty (`text_part_ne_nil`), and so the texts of the parts make up the sheet (`flatMap_text_parts`).
-/

import LeadingTrim.Sheet.Part

namespace LeadingTrim.Sheet

/-! ## Rows -/

theorem texts_row_isPrefix (p : Place) (t : Text) : Text.texts (row p t) <+: t :=
  Text.exists_texts_scan_append _ t

theorem texts_fillers_isPrefix (t : Text) : Text.texts (fillers t) <+: t :=
  Text.exists_texts_scan_append _ t

theorem texts_append (l l' : List Lexeme) :
    Text.texts (l ++ l') = Text.texts l ++ Text.texts l' := by
  simp [Text.texts]

theorem splitRow_append (l : List Lexeme) : (splitRow l).1 ++ (splitRow l).2 = l := by
  rw [splitRow, ← List.reverse_append, List.takeWhile_append_dropWhile, List.reverse_reverse]

/-- A first part and what follows it are the text. -/
theorem append_drop_of_isPrefix {s t : Text} (h : s <+: t) : s ++ t.drop s.length = t := by
  obtain ⟨r, rfl⟩ := h
  simp

/-- A first part and the character behind it are a first part. -/
theorem append_singleton_isPrefix {s t : Text} {c : Char} (h : s <+: t)
    (hc : (t.drop s.length).head? = some c) : s ++ [c] <+: t := by
  obtain ⟨r, rfl⟩ := h
  rw [List.drop_left] at hc
  cases r with
  | nil => simp at hc
  | cons d r =>
    obtain rfl : d = c := by simpa using hc
    exact ⟨r, by simp⟩

/-! ## Declarations -/

/-- The text of a declaration is its name, its gap, a colon and a first part of what is behind. -/
theorem DeclarationText.text_read_isPrefix (name gap behind : Text) :
    (DeclarationText.read name gap behind).text <+: name ++ gap ++ ':' :: behind := by
  have hvalue := texts_row_isPrefix (.value .value) behind
  have tail : ∀ v, v <+: behind → name ++ gap ++ ':' :: v <+: name ++ gap ++ ':' :: behind := by
    rintro v ⟨r, hr⟩
    exact ⟨r, by rw [← hr]; simp⟩
  cases hend : (behind.drop (Text.texts (row (.value .value) behind)).length).head? == some ';' with
  | true =>
    simpa only [read, text, hend, if_true, List.append_assoc, List.cons_append,
      List.nil_append, List.singleton_append]
      using tail _ (append_singleton_isPrefix hvalue (beq_iff_eq.mp hend))
  | false =>
    have hsplit : Text.texts (splitRow (row (.value .value) behind)).1 <+: behind := by
      refine List.IsPrefix.trans ⟨Text.texts (splitRow (row (.value .value) behind)).2, ?_⟩ hvalue
      rw [← texts_append, splitRow_append]
    simpa only [read, text, hend, Bool.false_eq_true, if_false, List.append_nil,
      List.append_assoc, List.cons_append, List.nil_append, List.singleton_append]
      using tail _ hsplit

/-- A declaration is a first part of the text at whose front it is found. -/
theorem text_isPrefix_of_declaration? {t : Text} {d : DeclarationText}
    (h : declaration? t = some d) : d.text <+: t := by
  unfold declaration? at h
  split at h
  · simp at h
  next n _ =>
  dsimp only at h
  split at h
  next behind hbehind =>
    have whole : t.take (n + 1) ++ Text.texts (fillers (t.drop (n + 1))) ++ ':' :: behind = t := by
      rw [← hbehind, List.append_assoc, append_drop_of_isPrefix (texts_fillers_isPrefix _),
        List.take_append_drop]
    split at h
    · obtain rfl := Option.some.inj h
      have := DeclarationText.text_read_isPrefix (t.take (n + 1))
        (Text.texts (fillers (t.drop (n + 1)))) behind
      rwa [whole] at this
    · simp at h
  · simp at h

/-! ## Heads -/

theorem SelectorPiece.text_ofFiller (l : Lexeme) : (SelectorPiece.ofFiller l).text = l.2 := by
  unfold SelectorPiece.ofFiller
  split <;> rfl

theorem flatMap_text_map_ofFiller (l : List Lexeme) :
    (l.map SelectorPiece.ofFiller).flatMap SelectorPiece.text = Text.texts l := by
  induction l with
  | nil => rfl
  | cons a l ih => simp [Text.texts, ih, SelectorPiece.text_ofFiller]

/-- The pieces of a selector list make up its text. -/
theorem flatMap_text_selectorPieces (current : Text) (held l : List Lexeme)
    (h : current = [] → held = []) :
    (selectorPieces current held l).flatMap SelectorPiece.text =
      current ++ Text.texts held ++ Text.texts l := by
  induction l generalizing current held with
  | nil =>
    rw [selectorPieces, List.flatMap_append, flatMap_text_map_ofFiller]
    cases current with
    | nil => simp [Text.texts]
    | cons c current => simp [Text.texts, SelectorPiece.text]
  | cons a l ih =>
    rw [selectorPieces]
    split
    · cases current with
      | nil => simp [h rfl, ih [] [] (fun _ => rfl), Text.texts, SelectorPiece.text_ofFiller]
      | cons c current => simp [ih (c :: current) (held ++ [a]) (by simp), Text.texts]
    · split
      · cases current with
        | nil => simp [h rfl, ih [] [] (fun _ => rfl), Text.texts, SelectorPiece.text]
        | cons c current =>
          simp [ih [] [] (fun _ => rfl), flatMap_text_map_ofFiller, Text.texts, SelectorPiece.text]
      · simp [ih _ [] (fun _ => rfl), Text.texts]

/-- An at-rule's part is a first part of the text. -/
theorem text_atPart_isPrefix (inBlock : Bool) (rest : Text) :
    (atPart inBlock rest).text <+: '@' :: rest := by
  have hrow := texts_row_isPrefix
    (preludePlace inBlock ('@' :: rest.takeWhile isKeywordChar)) (rest.dropWhile isKeywordChar)
  have tail : ∀ v, v <+: rest.dropWhile isKeywordChar →
      '@' :: (rest.takeWhile isKeywordChar ++ v) <+: '@' :: rest := by
    rintro v ⟨r, hr⟩
    exact ⟨r, by rw [List.cons_append, List.append_assoc, hr, List.takeWhile_append_dropWhile]⟩
  unfold atPart
  dsimp only
  split
  next hbrace => simpa [Part.text, AtHead.text] using tail _ (append_singleton_isPrefix hrow hbrace)
  next hend => simpa [Part.text] using tail _ (append_singleton_isPrefix hrow hend)
  · simpa [Part.text] using tail _ hrow

theorem flatMap_text_splitRow (l : List Lexeme) :
    (selectorPieces [] [] (splitRow l).1).flatMap SelectorPiece.text ++ Text.texts (splitRow l).2
      = Text.texts l := by
  rw [flatMap_text_selectorPieces [] [] _ fun _ => rfl, List.nil_append]
  simp only [Text.texts, List.flatMap_nil, List.nil_append]
  exact (texts_append _ _).symm.trans (congrArg Text.texts (splitRow_append l))

/-- A rule's head, or what stands in its place, is a first part of the text. -/
theorem text_rulePart_isPrefix (c : Char) (rest : Text) :
    (rulePart c rest).text <+: c :: rest := by
  have hrow := texts_row_isPrefix .selector (c :: rest)
  unfold rulePart
  dsimp only
  split
  · exact ⟨rest, rfl⟩
  next hbrace _ =>
    have := append_singleton_isPrefix hrow hbrace
    rwa [← flatMap_text_splitRow] at this
  next hend _ => exact append_singleton_isPrefix hrow hend
  · exact hrow

/-! ## Parts -/

/-- The part at the front is a first part of the text. -/
theorem text_part_isPrefix (depth : Nat) (c : Char) (rest : Text) :
    (part depth c rest).text <+: c :: rest := by
  unfold part
  split
  next found _ =>
    have : c :: rest.take found.more <+: c :: rest := by simp [List.take_prefix]
    dsimp only
    split <;> exact this
  · split
    next h =>
      rw [beq_iff_eq] at h
      exact ⟨rest, by simp [Part.text, h]⟩
    · split
      next h =>
        rw [beq_iff_eq] at h
        exact h ▸ text_atPart_isPrefix _ rest
      · split
        next h => exact text_isPrefix_of_declaration? h
        · exact text_rulePart_isPrefix c rest

theorem texts_ne_nil_of_row {c : Char} {rest : Text} {l : List Lexeme}
    (h : row .selector (c :: rest) = l) (hl : l ≠ []) : Text.texts l ≠ [] := by
  subst h
  unfold row at hl ⊢
  rw [Text.scan] at hl ⊢
  split at hl
  · exact absurd rfl hl
  · simp [Text.texts]

/-- No part is empty. -/
theorem text_part_ne_nil (depth : Nat) (c : Char) (rest : Text) :
    (part depth c rest).text ≠ [] := by
  unfold part
  split
  · dsimp only
    split <;> simp [Part.text]
  · split
    · simp [Part.text]
    · split
      · unfold atPart
        dsimp only
        split <;> simp [Part.text, AtHead.text]
      · split
        · simp [Part.text, DeclarationText.text]
        · unfold rulePart
          dsimp only
          split
          · simp [Part.text]
          · simp [Part.text, RuleHead.text]
          · simp [Part.text]
          next hne => exact texts_ne_nil_of_row rfl hne

/-- The first part of a text is the part at its front, and the others are those of the rest. -/
theorem exists_scan_partStep (depth : Nat) (c : Char) (rest : Text) :
    ∃ behind, c :: rest = (part depth c rest).text ++ behind ∧
      Text.scan partStep depth 0 (c :: rest) = (part depth c rest, (part depth c rest).text) ::
        Text.scan partStep ((part depth c rest).depthBehind depth) 0 behind := by
  obtain ⟨behind, hbehind⟩ := text_part_isPrefix depth c rest
  obtain ⟨d, x, hx⟩ := List.exists_cons_of_ne_nil (text_part_ne_nil depth c rest)
  refine ⟨behind, hbehind.symm, ?_⟩
  simp only [Text.scan, partStep]
  rw [Text.scan_eq_scan_drop, hx]
  rw [hx, List.cons_append] at hbehind
  obtain ⟨rfl, hrest⟩ := List.cons.inj hbehind
  rw [← hrest, List.length_cons, Nat.add_sub_cancel, List.drop_left, List.take_left]

theorem map_fst_scan_partStep {depth : Nat} {c : Char} {x s : Text} {p : Part}
    (h : part depth c (x ++ s) = p) (htext : p.text = c :: x) :
    (Text.scan partStep depth 0 (c :: x ++ s)).map Prod.fst =
      p :: (Text.scan partStep (p.depthBehind depth) 0 s).map Prod.fst := by
  obtain ⟨behind, hbehind, hscan⟩ := exists_scan_partStep depth c (x ++ s)
  rw [h, htext, ← List.cons_append] at hbehind
  obtain rfl := List.append_cancel_left hbehind
  rw [List.cons_append, hscan, h, List.map_cons]

/-- The parts from any number of open blocks on make up the text. -/
theorem flatMap_text_scan_partStep (depth : Nat) (t : Text) :
    ((Text.scan partStep depth 0 t).map Prod.fst).flatMap Part.text = t := by
  induction hn : t.length using Nat.strongRecOn generalizing t depth with
  | ind n ih =>
    cases t with
    | nil => rfl
    | cons c rest =>
      obtain ⟨behind, hbehind, hscan⟩ := exists_scan_partStep depth c rest
      have hpos := List.length_pos_iff.mpr (text_part_ne_nil depth c rest)
      have hlength := congrArg List.length hbehind
      rw [List.length_append, hn] at hlength
      rw [hscan, List.map_cons, List.flatMap_cons, ih behind.length (by omega) _ behind rfl,
        ← hbehind]

/-- The texts of the parts make up the text. -/
theorem flatMap_text_partsOf (t : Text) : (partsOf t).flatMap Part.text = t :=
  flatMap_text_scan_partStep 0 t

/-- The texts of the parts make up the sheet. -/
theorem flatMap_text_parts (t : Text) : (parts t).flatMap Part.text = t := by
  cases t with
  | nil => rfl
  | cons c rest =>
    rw [parts]
    split
    · simp [Part.text, flatMap_text_partsOf]
    · exact flatMap_text_partsOf _

end LeadingTrim.Sheet
