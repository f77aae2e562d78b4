/-
# Declarations with calm values

A declaration is read off wherever its name, its gap, a colon and a calm value are written in front
of a semicolon (`declaration?_of_isCalmValue`), and is the part there if a part begins with it
(`part_of_declaration?`). No brace and no semicolon of the value ends it early, and no lexeme of the
value goes on behind it.
-/

import LeadingTrim.Proofs.Sheet.Calm
import LeadingTrim.Proofs.Sheet.PartLocal
import LeadingTrim.Sheet.Comment

namespace LeadingTrim.Sheet

open Text (isSheetSpace isBlank Reads)

/-! ## Calm values -/

/-- A value that is written: it is calm and has no blank at either end. -/
structure IsCalmValue (v : Text) : Prop where
  calm : IsCalm 0 v 0
  ne_nil : v ≠ []
  head : ∀ c ∈ v.head?, isBlank c = false
  last : ∀ c ∈ v.getLast?, isBlank c = false

variable {blanks value : Text}

theorem isCalm_blanks_append (hblanks : ∀ c ∈ blanks, isBlank c = true) (hv : IsCalmValue value) :
    IsCalm 0 (blanks ++ value) 0 :=
  (isCalm_of_all (fun c hc => by simp [isCalmChar, hblanks c hc]) 0).append hv.calm

theorem getLast?_blanks_append (hv : IsCalmValue value) (blanks : Text) :
    (blanks ++ value).getLast? = value.getLast? := by
  rw [List.getLast?_append, List.getLast?_eq_some_getLast hv.ne_nil]
  rfl

theorem IsCalm.mem {d d' : Nat} {t : Text} (h : IsCalm d t d') :
    ∀ c ∈ t, isCalmChar c = true ∨ c ∈ ['/', '(', ')'] := by
  induction h with
  | nil => simp
  | char hc _ ih => exact List.forall_mem_cons.mpr ⟨Or.inl hc, ih⟩
  | slash _ ih => exact List.forall_mem_cons.mpr ⟨Or.inr (by decide), ih⟩
  | opening _ ih => exact List.forall_mem_cons.mpr ⟨Or.inr (by decide), ih⟩
  | closing _ ih => exact List.forall_mem_cons.mpr ⟨Or.inr (by decide), ih⟩

/-- Neither braces nor semicolons nor colons are in a calm text. -/
theorem IsCalm.ne {d d' : Nat} {t : Text} (h : IsCalm d t d') {c : Char} (hc : c ∈ t) :
    c ∉ ['\x7b', '\x7d', ';', ':'] := by
  intro hmem
  have hnot : ∀ c ∈ ['\x7b', '\x7d', ';', ':'],
      isCalmChar c = false ∧ c ∉ ['/', '(', ')'] := by decide
  obtain ⟨hcalm, hothers⟩ := hnot c hmem
  rcases h.mem c hc with hc | hc
  · rw [hcalm] at hc
    cases hc
  · exact hothers hc

/-- Without stars and quotes there is no comment to leave out. -/
theorem stripComments_of_not_mem {t : Text} (h : ∀ c ∈ t, c ∉ ['*', '"', '\'']) :
    stripComments t = t := by
  have hscan : ∀ before,
      Text.texts ((Text.scan valuePiece ⟨none, before⟩ 0 t).filter Prod.fst) = t := by
    induction t with
    | nil => exact fun _ => rfl
    | cons c t ih =>
      intro before
      obtain ⟨hc, ht⟩ := List.forall_mem_cons.mp h
      simp only [List.mem_cons, List.not_mem_nil, or_false, not_or] at hc
      obtain ⟨-, hdouble, hsingle⟩ := hc
      have hstar : (c == '/' && t.head? == some '*') = false := by
        cases t with
        | nil => simp
        | cons d t =>
          have hd : d ≠ '*' := fun hd => ht d List.mem_cons_self (by simp [hd])
          simp [hd]
      have hpiece : valuePiece ⟨none, before⟩ c t = some ⟨true, ⟨none, some c⟩, 0⟩ := by
        simp [valuePiece, hdouble, hsingle, hstar]
      rw [Text.scan, hpiece]
      simp [Text.texts_cons, ih ht]
  exact hscan none

/-- What is told of a calm value with blanks in front of it is the value. -/
theorem trim_stripComments_of_isCalmValue (hblanks : ∀ c ∈ blanks, isBlank c = true)
    (hv : IsCalmValue value) : Text.trim (stripComments (blanks ++ value)) = value := by
  rw [stripComments_of_not_mem, Text.trim_append_of_isBlank hblanks]
  · have hstart : Text.trimStart value = value := by
      obtain ⟨c, t, rfl⟩ := List.exists_cons_of_ne_nil hv.ne_nil
      exact List.dropWhile_cons_of_neg (by simp [hv.head c rfl])
    have hend : Text.trimEnd (value ++ []) = value :=
      Text.trimEnd_append_blanks hv.last (by simp)
    rw [List.append_nil] at hend
    rw [Text.trim, hstart, hend]
  · intro c hc hmem
    have hnone : ∀ c ∈ ['*', '"', '\''], isCalmChar c = false ∧ c ∉ ['/', '(', ')'] := by decide
    obtain ⟨hcalm, hothers⟩ := hnone c hmem
    rcases (isCalm_blanks_append hblanks hv).mem c hc with h | h
    · rw [hcalm] at h
      cases h
    · exact hothers h

/-! ## Names and gaps -/

theorem isNameChar_head?_of_fillers {g v : Text}
    (h : Text.texts (fillers (g ++ ':' :: v)) = g) (v' : Text) :
    ∀ c ∈ (g ++ ':' :: v').head?, isNameChar c = false := by
  intro c hc
  cases g with
  | nil =>
    obtain rfl : ':' = c := by simpa using hc
    decide
  | cons a g =>
    obtain rfl : a = c := by simpa using hc
    -- a filler begins with white space or a slash
    cases hfiller : filler a (g ++ ':' :: v) with
    | none =>
      rw [List.cons_append, fillers, Text.scan, hfiller] at h
      cases h
    | some found =>
      by_cases hslash : a = '/'
      · subst hslash
        decide
      · cases hspace : isSheetSpace a with
        | false => rw [filler_eq_none_of_ne hspace hslash] at hfiller; cases hfiller
        | true =>
          have hstops : ∀ c ∈ wordStops, isNameChar c = false := by decide
          exact hstops a (mem_wordStops (endsPlain_of_isSheetSpace hspace))

/-- A declaration is read off its name and its gap, if a value begins behind the colon. -/
theorem declaration?_of_beginsValue {name gap behind v : Text} (hne : name ≠ [])
    (hname : nameLength name = name.length) (hgap : Text.texts (fillers (gap ++ ':' :: v)) = gap)
    (hvalue : beginsValue ((fillers (gap ++ ':' :: behind)).getLast?.any (·.1 == .space)) behind =
      true) : declaration? (name ++ gap ++ ':' :: behind) = some (.read name gap behind) := by
  refine declaration?_eq_some_iff.mpr ⟨behind, rfl, hne, ?_, ?_, hvalue, rfl⟩
  · rw [List.append_assoc, nameLength_append_of_head (isNameChar_head?_of_fillers hgap behind)]
    exact hname
  · show Text.texts (fillers (gap ++ ':' :: behind)) = gap
    rw [fillers_colon_congr hgap, hgap]

theorem part_of_declaration? {depth : Nat} {c : Char} {rest : Text} {d : DeclarationText}
    (h : declaration? (c :: rest) = some d) : part depth c rest = .declaration d := by
  obtain ⟨hword, hslash⟩ := beginsWord_of_declaration? h
  obtain ⟨-, -, hne, hname, -⟩ := declaration?_eq_some_iff.mp h
  have hpos := List.length_pos_iff.mpr hne
  have hstart := isNameStart_of_nameLength (c := c) (t := rest) (by omega)
  have hbrace : (c == '\x7d') = false := by
    rw [beq_eq_false_iff_ne]
    rintro rfl
    exact absurd hword (by decide)
  have hat : (c == '@') = false := by
    rw [beq_eq_false_iff_ne]
    rintro rfl
    exact absurd hstart (by decide)
  rw [part_of_filler_eq_none (filler_eq_none_of_ne (isSheetSpace_of_beginsWord hword) hslash _),
    hbrace, hat, h]
  rfl

/-! ## Values -/

theorem braceFirst_append_of_ne {u : Text} (hu : ∀ c ∈ u, c ∉ ['\x7b', '\x7d', ';', ':'])
    (s : Text) : braceFirst (u ++ s) = braceFirst s := by
  induction u with
  | nil => rfl
  | cons c u ih =>
    obtain ⟨hc, hu⟩ := List.forall_mem_cons.mp hu
    simp only [List.mem_cons, List.not_mem_nil, or_false, not_or] at hc
    obtain ⟨hopening, hclosing, hsemicolon, -⟩ := hc
    rw [List.cons_append, braceFirst, ih hu, beq_eq_false_iff_ne.mpr hopening,
      bne_iff_ne.mpr hsemicolon, bne_iff_ne.mpr hclosing]
    rfl

/-- A value without braces, semicolons and colons begins behind a colon if no brace is opened behind
it, or if white space stands on both sides of the colon. -/
theorem beginsValue_append {u s : Text} {space : Bool}
    (hu : ∀ c ∈ u, c ∉ ['\x7b', '\x7d', ';', ':']) (hne : u ≠ [])
    (hs : braceFirst s = true → space = true ∧ u.head?.any isSheetSpace = true) :
    beginsValue space (u ++ s) = true := by
  cases u with
  | nil => exact absurd rfl hne
  | cons c u =>
    have hall := braceFirst_append_of_ne hu s
    have hcolon : (c == ':') = false := by
      rw [beq_eq_false_iff_ne]
      rintro rfl
      exact hu ':' List.mem_cons_self (by decide)
    have hrest := braceFirst_append_of_ne (fun a ha => hu a (List.mem_cons_of_mem _ ha)) s
    rw [List.cons_append] at hall ⊢
    unfold beginsValue
    dsimp only
    rw [if_neg (by simp [hcolon]), hall, hrest]
    cases hbrace : braceFirst s with
    | false => simp
    | true =>
      obtain ⟨rfl, hblank⟩ := hs hbrace
      rw [if_pos rfl, show isSheetSpace c = true from hblank]
      rfl

theorem ground_start_value : IsValueGround (Nesting.start (.value .value)).ground :=
  ⟨Or.inl rfl, rfl⟩

/-- A calm value is read as a row that does not end with white space. -/
theorem exists_reads_of_isCalmValue (hblanks : ∀ c ∈ blanks, isBlank c = true)
    (hv : IsCalmValue value) {s : Text} (hs : value.getLast? = some ')' ∨ EndsCalm s) :
    ∃ l n, Reads lexeme (.start (.value .value)) l n s ∧ Text.texts l = blanks ++ value ∧
      n.outer = [] ∧ IsValueGround n.ground ∧ ∀ p ∈ l.getLast?, Lexeme.isFiller p = false := by
  have hend := getLast?_blanks_append hv blanks
  have hlast : ∀ c ∈ (blanks ++ value).getLast?, isSheetSpace c = false := by
    intro c hc
    rw [hend] at hc
    cases hspace : isSheetSpace c with
    | false => rfl
    | true =>
      have hblank := hv.last c hc
      rw [Text.isBlank_of_isSheetSpace hspace] at hblank
      cases hblank
  obtain ⟨l, n, hreads, htexts, hdepth, hl⟩ := exists_reads_of_isCalm
    (isCalm_blanks_append hblanks hv) (n := .start (.value .value)) rfl hlast (by rwa [hend])
  refine ⟨l, n, hreads, htexts, List.length_eq_zero_iff.mp hdepth,
    isValueGround_of_reads hreads ground_start_value, fun p hp => ?_⟩
  rcases hl p (List.mem_of_getLast? hp) with ⟨-, hspaces⟩ | hk | hk | hk
  · -- white space at the end of the row would be at the end of the value
    have hne := hreads.piece_ne_nil p (List.mem_of_getLast? hp)
    have hmem : p.2.getLast hne ∈ (blanks ++ value).getLast? := by
      obtain ⟨l', rfl⟩ := List.getLast?_eq_some_iff.mp hp
      rw [← htexts, Text.texts_append, List.getLast?_append]
      simp [Text.texts, List.getLast?_eq_some_getLast hne]
    have hfalse := hlast _ hmem
    rw [hspaces _ (List.getLast_mem hne)] at hfalse
    cases hfalse
  all_goals simp [Lexeme.isFiller, hk]

theorem scan_of_isRowEnd {e : Char} (he : isRowEnd e = true) {n : Nesting} (hn : n.outer = [])
    (v : Text) : Text.scan lexeme n 0 (e :: v) = [] := by
  simp only [isRowEnd, Bool.or_eq_true, beq_iff_eq] at he
  rcases he with (rfl | rfl) | rfl
  · rfl
  · rfl
  · have hnone : lexeme n ';' v = none := by simp [lexeme, hn]
    rw [Text.scan, hnone]

/-- A calm value in front of a semicolon is that of a declaration. -/
theorem declaration?_of_isCalmValue {name gap v v' : Text} (hne : name ≠ [])
    (hname : nameLength name = name.length) (hgap : Text.texts (fillers (gap ++ ':' :: v)) = gap)
    (hblanks : ∀ c ∈ blanks, isBlank c = true) (hv : IsCalmValue value) :
    declaration? (name ++ gap ++ ':' :: (blanks ++ value ++ ';' :: v')) =
      some ⟨name, gap, blanks ++ value, true⟩ := by
  have hcalm := isCalm_blanks_append hblanks hv
  have hnonempty : blanks ++ value ≠ [] := by simp [hv.ne_nil]
  have hsemicolon : braceFirst (';' :: v') = false := rfl
  rw [declaration?_of_beginsValue hne hname hgap
    (beginsValue_append (fun _ => hcalm.ne) hnonempty fun hbrace => by simp [hsemicolon] at hbrace)]
  obtain ⟨l, n, hreads, htexts, houter, -, -⟩ := exists_reads_of_isCalmValue hblanks hv
    (s := ';' :: v') (Or.inr (Or.inl (endsWord_cons (by decide) v')))
  have hrow : row (.value .value) (blanks ++ value ++ ';' :: v') = l := by
    have hscan := hreads.scan_eq
    rw [scan_of_isRowEnd (by decide) houter, List.append_nil, htexts] at hscan
    exact hscan
  unfold DeclarationText.read
  dsimp only
  have hend : ((';' :: v').head? == some ';') = true := rfl
  rw [hrow, htexts, List.drop_left, hend, if_pos rfl, htexts]

end LeadingTrim.Sheet
