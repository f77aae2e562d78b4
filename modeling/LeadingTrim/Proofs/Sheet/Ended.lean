/-
# Declarations at the end of a block

A declaration without a semicolon is the last one of its block. In a sound sheet nothing but white
space and comments stand between it and the brace that closes the block (`exists_endsBlock`). They
are read as part of its row, and left out of its value. So they are read again behind another value
(`EndsBlock.reads`), and a calm value in front of them is the value of a declaration
(`EndsBlock.declaration?_of_isCalmValue`).
-/

import LeadingTrim.Proofs.Sheet.CalmDeclaration

namespace LeadingTrim.Sheet

open Text (isSheetSpace isBlank Reads)

/-! ## White space and comments in a value -/

/-- Two slashes open a comment in all states of a value outside of brackets, or in none. -/
theorem commentsSlashes_eq_of_isValueGround {n m : Nesting} (hn : n.outer = []) (hm : m.outer = [])
    (hground : IsValueGround n.ground) (hground' : IsValueGround m.ground) (t : Text) :
    n.place.commentsSlashes t = m.place.commentsSlashes t := by
  rw [Nesting.ground_of_nil hn] at hground
  rw [Nesting.ground_of_nil hm] at hground'
  have hreads : ∀ p : Place, p = .value .value ∨ p = .behindValue .value →
      p.readsValues = true := by
    rintro p (rfl | rfl) <;> rfl
  unfold Place.commentsSlashes
  rw [hreads _ hground.place, hreads _ hground'.place, if_pos rfl, if_pos rfl]

/-- White space and comments are read again from another state of a value. -/
theorem exists_reads_of_isValueGround {n m n' : Nesting} {l : List Lexeme} {u : Text}
    (hn : n.outer = []) (hm : m.outer = []) (hground : IsValueGround n.ground)
    (hground' : IsValueGround m.ground) (hl : ∀ p ∈ l, p.isFiller = true)
    (h : Reads lexeme n l n' u) : ∃ m', Reads lexeme m l m' u ∧ m'.outer = [] := by
  induction l generalizing n m with
  | nil => exact ⟨m, .nil _ _, hm⟩
  | cons p l ih =>
    cases h with
    | @cons _ n₁ _ k c x _ _ hfirst hrest =>
    obtain ⟨hfiller, hslashes⟩ := filler_of_lexeme hfirst (hl _ List.mem_cons_self)
    obtain ⟨m₁, hfirst', -⟩ := lexeme_of_filler (n := m) hfiller fun hk => by
      rw [← commentsSlashes_eq_of_isValueGround hn hm hground hground', hslashes hk]
    have houter : ∀ {n n₁ : Nesting},
        lexeme n c (x ++ (Text.texts l ++ u)) = some ⟨k, n₁, x.length⟩ →
          n.outer = [] → n₁.outer = [] := by
      intro n n₁ h hn
      have hlength := (leadsTo_of_lexeme h).length_outer
      have hk := hl (k, c :: x) List.mem_cons_self
      rw [hn] at hlength
      refine List.length_eq_zero_iff.mp (hlength.trans ?_)
      cases k <;> first | rfl | cases hk
    obtain ⟨m', hrest', hm'⟩ := ih (houter hfirst hn) (houter hfirst' hm)
      ((leadsTo_of_lexeme hfirst).isValueGround hground)
      ((leadsTo_of_lexeme hfirst').isValueGround hground')
      (fun q hq => hl q (List.mem_cons_of_mem _ hq)) hrest
    exact ⟨m', .cons hfirst' hrest', hm'⟩

/-- White space or a comment is a part of its own, behind which the parts go on as before. -/
theorem map_fst_scan_of_filler {c : Char} {x s : Text} {k : Kind} (depth : Nat)
    (h : filler c (x ++ s) = some ⟨k, (), x.length⟩) :
    (Text.scan partStep depth 0 (c :: x ++ s)).map Prod.fst =
      .ofFiller k (c :: x) :: (Text.scan partStep depth 0 s).map Prod.fst := by
  have htext : (Part.ofFiller k (c :: x)).text = c :: x := by cases k <;> rfl
  have hdepth : (Part.ofFiller k (c :: x)).depthBehind depth = depth := by cases k <;> rfl
  have hpart : part depth c (x ++ s) = .ofFiller k (c :: x) := part_of_filler h
  rw [map_fst_scan_partStep hpart htext, hdepth]

/-- White space and comments of a row are parts of their own, too. -/
theorem scan_partStep_of_reads {n n' : Nesting} {l : List Lexeme} {u : Text}
    (hl : ∀ p ∈ l, p.isFiller = true) (h : Reads lexeme n l n' u) (depth : Nat) :
    (Text.scan partStep depth 0 (Text.texts l ++ u)).map Prod.fst =
      l.map (fun p => .ofFiller p.1 p.2) ++ (Text.scan partStep depth 0 u).map Prod.fst := by
  induction l generalizing n with
  | nil => rfl
  | cons p l ih =>
    cases h with
    | @cons _ n₁ _ k c x _ _ hfirst hrest =>
    obtain ⟨hfiller, -⟩ := filler_of_lexeme hfirst (hl (k, c :: x) List.mem_cons_self)
    rw [Text.texts_cons, List.append_assoc, map_fst_scan_of_filler depth hfiller,
      ih (fun q hq => hl q (List.mem_cons_of_mem _ hq)) hrest]
    rfl

/-- White space and comments do not matter for what has to follow. -/
theorem isSoundFrom_ofFiller (depth : Nat) (ended : Bool) (k : Kind) (x s : Text)
    (rest : List Part) :
    isSoundFrom depth ended (x ++ s) (.ofFiller k x :: rest) = isSoundFrom depth ended s rest := by
  have hstep : isSoundFrom depth ended (x ++ s) (.ofFiller k x :: rest) =
      isSoundFrom depth ended ((x ++ s).drop x.length) rest := by
    cases k <;> exact Bool.true_and _
  rw [hstep, List.drop_left]

/-! ## The end of a block -/

theorem fillers_cons {c : Char} {rest : Text} {k : Kind} {more : Nat}
    (h : filler c rest = some ⟨k, (), more⟩) :
    fillers (c :: rest) = (k, c :: rest.take more) :: fillers (rest.drop more) := by
  unfold fillers
  rw [Text.scan, h]
  dsimp only
  rw [Text.scan_eq_scan_drop]

theorem fillers_of_filler_eq_none {c : Char} {rest : Text} (h : filler c rest = none) :
    fillers (c :: rest) = [] := by
  unfold fillers
  rw [Text.scan, h]

/-- Where the block has to end, white space and comments are all that stands in front of its
closing brace. -/
theorem exists_of_isSoundFrom_ended {depth : Nat} {s : Text}
    (h : isSoundFrom depth true s ((Text.scan partStep depth 0 s).map Prod.fst) = true) :
    ∃ v, s = Text.texts (fillers s) ++ '\x7d' :: v := by
  induction hn : s.length using Nat.strongRecOn generalizing s with
  | ind n ih =>
    cases s with
    | nil => simp [Text.scan, isSoundFrom] at h
    | cons c rest =>
      cases hfiller : filler c rest with
      | some found =>
        obtain ⟨k, ⟨⟩, more⟩ := found
        obtain ⟨x, s, rfl, rfl⟩ : ∃ x s, rest = x ++ s ∧ more = x.length :=
          ⟨rest.take more, rest.drop more, (List.take_append_drop more rest).symm,
            by rw [List.length_take, Nat.min_eq_left (filler_le hfiller)]⟩
        rw [← List.cons_append, map_fst_scan_of_filler depth hfiller, isSoundFrom_ofFiller] at h
        obtain ⟨v, hv⟩ := ih s.length (by simp at hn; omega) h rfl
        refine ⟨v, ?_⟩
        rw [fillers_cons hfiller, List.take_left, List.drop_left, Text.texts_cons,
          List.append_assoc, ← hv]
        rfl
      | none =>
        rw [fillers_of_filler_eq_none hfiller]
        obtain ⟨behind, -, hscan⟩ := exists_scan_partStep depth c rest
        rw [hscan, List.map_cons, part_of_filler_eq_none hfiller] at h
        by_cases hbrace : c = '\x7d'
        · exact ⟨rest, by rw [hbrace]; rfl⟩
        -- nothing else can stand at the end of the block
        exfalso
        rw [if_neg (by simpa using hbrace)] at h
        split at h
        · unfold atPart at h
          dsimp only at h
          split at h <;> simp [isSoundFrom] at h
        · split at h
          · simp [isSoundFrom] at h
          · unfold rulePart at h
            dsimp only at h
            split at h <;> simp [isSoundFrom] at h

/-- A row ends at a brace or a semicolon. -/
theorem isRowEnd_of_lexeme_eq_none {n : Nesting} {c : Char} {rest : Text}
    (h : lexeme n c rest = none) : isRowEnd c = true := by
  unfold lexeme at h
  by_cases hbrace : (c == '\x7b' || c == '\x7d') = true
  · rw [isRowEnd, hbrace]
    rfl
  rw [if_neg hbrace] at h
  by_cases hsemicolon : (c == ';') = true
  · rw [isRowEnd, hsemicolon, Bool.or_true]
  rw [if_neg hsemicolon] at h
  dsimp only at h
  repeat' split at h
  all_goals cases h

theorem filler_eq_none_of_isRowEnd {c : Char} (hc : isRowEnd c = true) (rest : Text) :
    filler c rest = none := by
  simp only [isRowEnd, Bool.or_eq_true, beq_iff_eq] at hc
  rcases hc with (rfl | rfl) | rfl <;>
    exact filler_eq_none_of_ne (by decide) (by decide) rest

/-- White space and comments at the end of a row are those that the text begins with. -/
theorem fillers_eq_of_scan_lexeme {n : Nesting} {s : Text} {l : List Lexeme}
    (h : Text.scan lexeme n 0 s = l) (hl : ∀ p ∈ l, p.isFiller = true) : fillers s = l := by
  induction l generalizing n s with
  | nil =>
    cases s with
    | nil => rfl
    | cons c rest =>
      rw [Text.scan] at h
      split at h
      next hnone =>
        exact fillers_of_filler_eq_none
          (filler_eq_none_of_isRowEnd (isRowEnd_of_lexeme_eq_none hnone) rest)
      · cases h
  | cons p l ih =>
    cases s with
    | nil => simp [Text.scan] at h
    | cons c rest =>
      rw [Text.scan] at h
      split at h
      · cases h
      next found hfound =>
        obtain ⟨k, n', more⟩ := found
        obtain ⟨rfl, hrest⟩ := List.cons.inj h
        obtain ⟨hfiller, -⟩ := filler_of_lexeme hfound (hl _ List.mem_cons_self)
        rw [Text.scan_eq_scan_drop] at hrest
        rw [fillers_cons hfiller, ih hrest fun q hq => hl q (List.mem_cons_of_mem _ hq)]

/-- Behind the declaration nothing but the white space and the comments stand in front of a closing
brace. They are part of the row that the declaration's value is read from. -/
structure EndsBlock (d : DeclarationText) (l : List Lexeme) (v : Text) : Prop where
  isFiller : ∀ p ∈ l, p.isFiller = true
  row : Text.texts (row (.value .value) (d.value ++ (Text.texts l ++ '\x7d' :: v))) =
    d.value ++ Text.texts l
  reads : ∃ n n', n.outer = [] ∧ IsValueGround n.ground ∧ Reads lexeme n l n' ('\x7d' :: v)

/-- Nothing that is no closing brace and no white space stands behind a declaration without a
semicolon. -/
theorem exists_endsBlock {depth : Nat} {d : DeclarationText} {s : Text}
    (h : declaration? (d.text ++ s) = some d) (hend : d.terminated = false)
    (hrowSound : isSoundRow 0 false (Sheet.row (.value .value) (d.value ++ s)) = true)
    (hsound : isSoundFrom depth true s ((Text.scan partStep depth 0 s).map Prod.fst) = true) :
    ∃ l v, s = Text.texts l ++ '\x7d' :: v ∧ EndsBlock d l v := by
  have hrow := row_of_declaration? h
  rw [hend, if_neg (by decide)] at hrow
  -- the row goes on with what stands in front of the brace
  have hsplit := splitRow_append (Sheet.row (.value .value) (d.value ++ s))
  obtain ⟨n, hn⟩ : ∃ n, Text.scan lexeme n 0 ((d.value ++ s).drop _) =
      (splitRow (Sheet.row (.value .value) (d.value ++ s))).2 :=
    Text.exists_scan_drop hsplit.symm
  rw [← hrow, List.drop_left] at hn
  have hl := isFiller_of_mem_splitRow (l := Sheet.row (.value .value) (d.value ++ s))
  have hfillers := fillers_eq_of_scan_lexeme hn hl
  obtain ⟨v, hv⟩ := exists_of_isSoundFrom_ended hsound
  obtain ⟨value, l, hpair⟩ :
      ∃ value l, splitRow (Sheet.row (.value .value) (d.value ++ s)) = (value, l) := ⟨_, _, rfl⟩
  rw [hpair] at hrow hl hfillers hsplit
  rw [hfillers] at hv
  subst hv
  have htexts : Text.texts (value ++ l) = d.value ++ Text.texts l := by
    rw [Text.texts_append, ← hrow]
  rw [← List.append_assoc] at hsplit hrowSound
  rw [← hsplit] at hrowSound
  obtain ⟨n', hreads, -⟩ : ∃ n', Reads lexeme (.start (.value .value)) (Sheet.row (.value .value)
      (d.value ++ Text.texts l ++ '\x7d' :: v)) n' ('\x7d' :: v) ∧ _ :=
    Text.exists_reads_scan _ _ (List.cons_ne_nil _ _)
      ((congrArg Text.texts hsplit.symm).trans htexts)
  rw [← hsplit] at hreads
  obtain ⟨m, hvalue, hreads⟩ := hreads.of_append
  have houter : m.outer.length = 0 := by
    rw [isSoundRow_append_of_isFiller hl] at hrowSound
    exact (length_outer_of_reads hvalue).trans (bracketsAfter_of_isSoundRow hrowSound)
  refine ⟨l, v, rfl, hl, ?_, m, n', List.length_eq_zero_iff.mp houter,
    isValueGround_of_reads hvalue ground_start_value, hreads⟩
  rw [← List.append_assoc, ← hsplit, htexts]

/-! ## In front of another text -/

/-- Whether white space stands on both sides of the colon between a name and a value. -/
def isSpaced (separator : Text) : Bool :=
  let gap := fillers separator
  gap.getLast?.any (·.1 == .space)
    && (separator.drop ((Text.texts gap).length + 1)).head?.any isSheetSpace

theorem isSpaced_iff {gap u blanks : Text} (hgap : Text.texts (fillers (gap ++ ':' :: u)) = gap) :
    isSpaced (gap ++ ':' :: blanks) = true ↔
      (fillers (gap ++ ':' :: u)).getLast?.any (·.1 == .space) = true ∧
        blanks.head?.any isSheetSpace = true := by
  have hdrop : (gap ++ ':' :: blanks).drop (gap.length + 1) = blanks := by
    rw [← List.drop_drop, List.drop_left]
    rfl
  unfold isSpaced
  dsimp only
  rw [fillers_colon_congr hgap, hgap, hdrop, Bool.and_eq_true]

namespace EndsBlock

variable {d : DeclarationText} {l : List Lexeme} {v : Text}

/-- The declaration is read again whatever stands behind the brace. -/
theorem keeps (h : EndsBlock d l v) {v' : Text}
    (hopen : KeepsOpen d.text (Text.texts l ++ '\x7d' :: v) (Text.texts l ++ '\x7d' :: v')) :
    (Part.declaration d).Keeps (Text.texts l ++ '\x7d' :: v) (Text.texts l ++ '\x7d' :: v') :=
  ⟨hopen, fun _ => ⟨Text.texts l, v, v', rfl, rfl, h.row⟩⟩

theorem stringsKeep (h : EndsBlock d l v) (s s' : Text) : StringsKeep l s s' := by
  rintro front x behind rfl
  cases h.isFiller (.string, x) (by simp)

/-- What stands in front of the brace is read again behind another value. -/
theorem exists_reads (h : EndsBlock d l v) {m : Nesting} (hm : m.outer = [])
    (hground : IsValueGround m.ground) (v' : Text) :
    ∃ m', Reads lexeme m l m' ('\x7d' :: v') ∧ m'.outer = [] := by
  obtain ⟨n, n', hn, hn', hreads⟩ := h.reads
  refine exists_reads_of_isValueGround hn hm hn' hground h.isFiller
    (reads_congr (by decide) ?_ (h.stringsKeep _ _) hreads)
  rintro ⟨k, x⟩ hp rfl
  cases h.isFiller _ hp

/-- No calm word goes on into white space, a comment in its brackets, or the brace. -/
theorem endsCalm (h : EndsBlock d l v)
    (hslashes : ¬ ['/', '/'] <+: Text.texts l ++ '\x7d' :: v) (v' : Text) :
    EndsCalm (Text.texts l ++ '\x7d' :: v') := by
  obtain ⟨n, n', -, -, hreads⟩ := h.reads
  cases hreads with
  | nil => exact Or.inl (endsWord_cons (by decide) _)
  | @cons _ n₁ _ k c x _ l hfirst _ =>
    obtain ⟨hfiller, -⟩ := filler_of_lexeme hfirst (h.isFiller (k, c :: x) List.mem_cons_self)
    cases (filler_eq_some_iff.mp hfiller).1 with
    | space hc => exact Or.inl (endsWord_cons (endsPlain_of_isSheetSpace hc) _)
    | comment => exact Or.inr ⟨'*', _, rfl, rfl⟩
    | lineComment hhead =>
      obtain ⟨y, rfl⟩ := List.head?_eq_some_iff.mp hhead
      exact absurd ⟨_, rfl⟩ hslashes

/-- A calm value is that of a declaration at the end of the block. It ends with a bracket if two
slashes are behind it, and white space stands on both sides of the colon if a brace is opened behind
it. -/
theorem declaration?_of_isCalmValue (h : EndsBlock d l v) {name gap u blanks value : Text}
    (hne : name ≠ []) (hname : nameLength name = name.length)
    (hgap : Text.texts (fillers (gap ++ ':' :: u)) = gap)
    (hblanks : ∀ c ∈ blanks, isBlank c = true) (hv : IsCalmValue value)
    (hslashes : ['/', '/'] <+: Text.texts l ++ '\x7d' :: v → value.getLast? = some ')')
    (hbrace : braceFirst (Text.texts l ++ '\x7d' :: v) = true →
      isSpaced (gap ++ ':' :: blanks) = true) (v' : Text) :
    declaration? (name ++ gap ++ ':' :: (blanks ++ value ++ (Text.texts l ++ '\x7d' :: v'))) =
      some ⟨name, gap, blanks ++ value, false⟩ := by
  have hcalm := isCalm_blanks_append hblanks hv
  have hnonempty : blanks ++ value ≠ [] := by simp [hv.ne_nil]
  have hopens : braceFirst (Text.texts l ++ '\x7d' :: v') =
      braceFirst (Text.texts l ++ '\x7d' :: v) := by
    have hend : braceFirst ('\x7d' :: v') = braceFirst ('\x7d' :: v) := rfl
    exact braceFirst_append_congr hend _
  have hbegins : beginsValue ((fillers (gap ++ ':' :: u)).getLast?.any (·.1 == .space))
      (blanks ++ value ++ (Text.texts l ++ '\x7d' :: v')) = true := by
    refine beginsValue_append (fun _ => hcalm.ne) hnonempty fun hopen => ?_
    rw [hopens] at hopen
    obtain ⟨hspace, hblank⟩ := (isSpaced_iff hgap).mp (hbrace hopen)
    refine ⟨hspace, ?_⟩
    cases blanks with
    | nil => cases hblank
    | cons c blanks => exact hblank
  rw [← fillers_colon_congr hgap] at hbegins
  rw [declaration?_of_beginsValue hne hname hgap hbegins]
  obtain ⟨value', m, hvalue, htexts, houter, hground, hlast⟩ := exists_reads_of_isCalmValue hblanks
    hv (Decidable.or_iff_not_imp_left.mpr fun hlast => h.endsCalm (mt hslashes hlast) v')
  obtain ⟨m', hreads, houter'⟩ := h.exists_reads houter hground v'
  have hrow : Sheet.row (.value .value) (blanks ++ value ++ (Text.texts l ++ '\x7d' :: v')) =
      value' ++ l := by
    have hscan := (hvalue.append hreads).scan_eq
    rw [scan_of_isRowEnd (by decide) houter', List.append_nil, Text.texts_append, htexts,
      List.append_assoc] at hscan
    exact hscan
  obtain ⟨p, hp⟩ : ∃ p, value'.getLast? = some p := by
    cases hnil : value'.getLast? with
    | some p => exact ⟨p, rfl⟩
    | none =>
      rw [List.getLast?_eq_none_iff.mp hnil] at htexts
      exact absurd htexts.symm hnonempty
  have hend : ((blanks ++ value ++ (Text.texts l ++ '\x7d' :: v')).drop
      (Text.texts (value' ++ l)).length).head? = some '\x7d' := by
    rw [Text.texts_append, htexts, ← List.append_assoc, List.drop_left]
    rfl
  unfold DeclarationText.read
  dsimp only
  rw [hrow, hend, splitRow_append_of_isFiller hp (hlast p hp) h.isFiller]
  simp [htexts]

end EndsBlock

end LeadingTrim.Sheet
