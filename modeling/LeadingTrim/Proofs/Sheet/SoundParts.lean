/-
# The parts of a sound sheet

The check of a sheet and the reading of its parts go along the text together. What both know of each
part where it stands is said once (`SoundParts`), and holds of every sound sheet
(`soundParts_of_isSoundFrom`, `exists_soundParts`): the part is read off the text that is left, its
row is sound, and nothing but white space and comments stands between a declaration without a
semicolon and the end of its block.
-/

import LeadingTrim.Proofs.Sheet.Ended

namespace LeadingTrim.Sheet

variable {depth : Nat} {ended : Bool} {t : Text} {p : Part} {all front rest : List Part}

/-- Whether a block has to end behind a part, if it had to in front of it or not. -/
def Part.endedBehind (ended : Bool) : Part → Bool
  | .space _ | .comment _ | .lineComment _ => ended
  | .declaration d => !d.terminated
  | _ => false

/-- White space, a comment or a closing brace may stand where a block has to end. -/
def Part.mayEnd : Part → Bool
  | .space _ | .comment _ | .lineComment _ | .close => true
  | _ => false

/-- The parts of a text, each sound where it stands. The arguments are as for `isSoundFrom`. -/
inductive SoundParts : Nat → Bool → Text → List Part → Prop
  | nil : SoundParts 0 false [] []
  | cons {depth : Nat} {ended : Bool} {c : Char} {x s : Text} {p : Part} {rest : List Part}
    (hpart : part depth c (x ++ s) = p) (htext : p.text = c :: x)
    (hrow : p.hasSoundRow (0 < depth) (c :: (x ++ s)) = true) (hstray : ∀ text, p ≠ .stray text)
    (hclose : p = .close → 0 < depth) (hended : ended = true → p.mayEnd = true)
    (hrest : SoundParts (p.depthBehind depth) (p.endedBehind ended) s rest) :
    SoundParts depth ended (c :: (x ++ s)) (p :: rest)

/-- One step of the check. -/
theorem isSoundFrom_cons (h : isSoundFrom depth ended t (p :: rest) = true) :
    p.hasSoundRow (0 < depth) t = true ∧ (∀ text, p ≠ .stray text) ∧ (p = .close → 0 < depth) ∧
      (ended = true → p.mayEnd = true) ∧
      isSoundFrom (p.depthBehind depth) (p.endedBehind ended) (t.drop p.text.length) rest =
        true := by
  simp only [isSoundFrom, Bool.and_eq_true] at h
  obtain ⟨hrow, h⟩ := h
  cases p with
  | space | comment | lineComment => exact ⟨hrow, by simp, by simp, fun _ => rfl, h⟩
  | declaration | atStatement | rule | atBlock =>
    obtain ⟨hended, h⟩ := Bool.and_eq_true_iff.mp h
    exact ⟨hrow, by simp, by simp, fun hend => by simp [hend] at hended, h⟩
  | close =>
    obtain ⟨hopen, h⟩ := Bool.and_eq_true_iff.mp h
    exact ⟨hrow, by simp, fun _ => of_decide_eq_true hopen, fun _ => rfl, h⟩
  | stray => cases h

/-- The parts of a text that is found sound are sound where they stand. -/
theorem soundParts_of_isSoundFrom
    (h : isSoundFrom depth ended t ((Text.scan partStep depth 0 t).map Prod.fst) = true) :
    SoundParts depth ended t ((Text.scan partStep depth 0 t).map Prod.fst) := by
  induction hall : (Text.scan partStep depth 0 t).map Prod.fst generalizing depth ended t with
  | nil =>
    cases t with
    | nil =>
      obtain ⟨hdepth, hended⟩ : depth = 0 ∧ ended = false := by
        simpa [Text.scan, isSoundFrom] using h
      rw [hdepth, hended]
      exact .nil
    | cons c s =>
      obtain ⟨behind, -, hscan⟩ := exists_scan_partStep depth c s
      rw [hscan] at hall
      cases hall
  | cons p rest ih =>
    cases t with
    | nil => cases hall
    | cons c s =>
      obtain ⟨behind, htext, hscan⟩ := exists_scan_partStep depth c s
      obtain ⟨x, hx⟩ : ∃ x, (part depth c s).text = c :: x := by
        cases hpart : (part depth c s).text with
        | nil => exact absurd hpart (text_part_ne_nil depth c s)
        | cons a x => exact ⟨x, by rw [hpart] at htext; rw [(List.cons.inj htext).1]⟩
      rw [hx] at htext
      obtain rfl : s = x ++ behind := (List.cons.inj htext).2
      rw [hscan] at hall
      obtain ⟨rfl, hrest⟩ := List.cons.inj hall
      rw [hscan, List.map_cons] at h
      obtain ⟨hrow, hstray, hclose, hended, h⟩ := isSoundFrom_cons h
      rw [hx, ← List.cons_append, List.drop_left] at h
      have htail := ih h hrest
      exact .cons rfl hx hrow hstray hclose hended htail

theorem part_brace (depth : Nat) (rest : Text) : part depth '\x7d' rest = .close := by
  rw [part_of_filler_eq_none (filler_eq_none_of_ne (by decide) (by decide) _), if_pos (by decide)]

namespace SoundParts

theorem scan_eq (h : SoundParts depth ended t all) :
    (Text.scan partStep depth 0 t).map Prod.fst = all := by
  induction h with
  | nil => rfl
  | cons hpart htext _ _ _ _ _ ih => rw [← List.cons_append, map_fst_scan_partStep hpart htext, ih]

theorem flatMap_text (h : SoundParts depth ended t all) : all.flatMap Part.text = t := by
  rw [← h.scan_eq]
  exact flatMap_text_scan_partStep depth t

theorem isSoundFrom (h : SoundParts depth ended t all) : isSoundFrom depth ended t all = true := by
  induction h with
  | nil => rfl
  | @cons depth ended c x s p rest hpart htext hrow hstray hclose hended _ ih =>
    simp only [Sheet.isSoundFrom, Bool.and_eq_true]
    have hdrop : (c :: (x ++ s)).drop p.text.length = s := by
      rw [htext, ← List.cons_append, List.drop_left]
    refine ⟨hrow, ?_⟩
    rw [hdrop]
    cases p with
    | space | comment | lineComment => exact ih
    | declaration | atStatement | rule | atBlock =>
      cases ended with
      | false => exact ih
      | true => cases hended rfl
    | close => exact Bool.and_eq_true_iff.mpr ⟨decide_eq_true (hclose rfl), ih⟩
    | stray text => exact absurd rfl (hstray text)

/-- The parts from one on stand in the text behind those in front of them. -/
theorem of_append (h : SoundParts depth ended t (front ++ rest)) :
    ∃ depth' ended' t', t = front.flatMap Part.text ++ t' ∧ SoundParts depth' ended' t' rest := by
  induction front generalizing depth ended t with
  | nil => exact ⟨depth, ended, t, rfl, h⟩
  | cons p front ih =>
    cases h with
    | @cons _ _ c x s _ _ _ htext _ _ _ _ hrest =>
    obtain ⟨depth', ended', t', rfl, h⟩ := ih hrest
    exact ⟨depth', ended', t', by rw [List.flatMap_cons, htext]; simp, h⟩

/-- Behind a declaration without a semicolon there are white space and comments up to the end of the
block. -/
theorem exists_endsBlock {c : Char} {x s : Text} {d : DeclarationText}
    (hpart : part depth c (x ++ s) = .declaration d) (htext : d.text = c :: x)
    (hrow : (Part.declaration d).hasSoundRow (0 < depth) (c :: (x ++ s)) = true)
    (hend : d.terminated = false) (hrest : SoundParts depth true s rest) :
    ∃ l v behind, s = Text.texts l ++ '\x7d' :: v ∧ EndsBlock d l v ∧
      rest = l.map (fun p => .ofFiller p.1 p.2) ++ .close :: behind := by
  have hd := declaration?_of_part hpart
  rw [← List.cons_append, ← htext] at hd hrow
  have hrow' : isSoundRow 0 false (Sheet.row (.value .value) (d.value ++ s)) = true := by
    have hdrop : (d.text ++ s).drop (d.name ++ d.gap ++ [':']).length = d.value ++ s := by
      rw [DeclarationText.text, hend]
      simp
    rwa [Part.hasSoundRow, hdrop] at hrow
  have hsound := hrest.isSoundFrom
  rw [← hrest.scan_eq] at hsound
  obtain ⟨l, v, rfl, hl⟩ := Sheet.exists_endsBlock hd hend hrow' hsound
  obtain ⟨n, n', -, -, hreads⟩ := hl.reads
  have hclose : (Text.scan partStep depth 0 ('\x7d' :: v)).map Prod.fst =
      .close :: (Text.scan partStep (depth - 1) 0 v).map Prod.fst :=
    map_fst_scan_partStep (x := []) (p := .close) (part_brace depth v) rfl
  refine ⟨l, v, (Text.scan partStep (depth - 1) 0 v).map Prod.fst, rfl, hl, ?_⟩
  rw [← hrest.scan_eq, scan_partStep_of_reads hl.isFiller hreads, hclose]

end SoundParts

/-- The parts of a sound sheet are sound where they stand, a byte order mark left aside. -/
theorem exists_soundParts {source : Text} (h : isSound source = true) :
    ∃ mark t all, source = mark ++ t ∧ SoundParts 0 false t all ∧
      (mark = [] ∧ source.head? ≠ some byteOrderMark ∧ parts source = all ∨
        mark = [byteOrderMark] ∧ parts source = .space [byteOrderMark] :: all) := by
  replace h := isSoundFrom_of_isSound h
  cases source with
  | nil => exact ⟨[], [], [], rfl, .nil, .inl ⟨rfl, nofun, rfl⟩⟩
  | cons c rest =>
    rw [parts] at h
    rw [parts]
    split
    next hmark =>
      rw [if_pos hmark] at h
      obtain ⟨-, -, -, -, h⟩ := isSoundFrom_cons h
      rw [beq_iff_eq] at hmark
      exact ⟨[c], rest, partsOf rest, rfl, soundParts_of_isSoundFrom h,
        .inr ⟨by rw [hmark], by rw [hmark]⟩⟩
    next hmark =>
      rw [if_neg hmark] at h
      exact ⟨[], c :: rest, partsOf (c :: rest), rfl, soundParts_of_isSoundFrom h,
        .inl ⟨rfl, by simpa using hmark, rfl⟩⟩

/-- The parts of a sound sheet from one on are sound where they stand. -/
theorem exists_soundParts_of_append {source : Text} (h : isSound source = true)
    (hparts : parts source = front ++ p :: rest) (hp : p ≠ .space [byteOrderMark]) :
    ∃ before depth ended t, source = before ++ t ∧ SoundParts depth ended t (p :: rest) := by
  obtain ⟨mark, t, all, rfl, hsound, ⟨rfl, -, hall⟩ | ⟨rfl, hall⟩⟩ := exists_soundParts h
  · rw [← hall, hparts] at hsound
    obtain ⟨depth, ended, t', rfl, htail⟩ := hsound.of_append
    exact ⟨_, depth, ended, t', rfl, htail⟩
  · rw [hall] at hparts
    cases front with
    | nil => exact absurd (List.cons.inj hparts).1.symm hp
    | cons q front =>
      rw [(List.cons.inj hparts).2] at hsound
      obtain ⟨depth, ended, t', rfl, htail⟩ := hsound.of_append
      exact ⟨_, depth, ended, t', (List.append_assoc _ _ _).symm, htail⟩

end LeadingTrim.Sheet
