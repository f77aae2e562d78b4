/-
# Heads with pseudo-elements

The head of a rule is the head of a rule again when a pseudo-element is put behind each of its
selectors (`exists_part_withPseudo`). That its selector list is read again is not enough, for a name
with a colon behind it may begin a declaration. It does not: the colon of a pseudo-element is
followed by another one, and behind any other colon there are the braces and semicolons that were
there before.
-/

import LeadingTrim.Proofs.Sheet.CalmDeclaration
import LeadingTrim.Proofs.Sheet.SelectorList

namespace LeadingTrim.Sheet

open Text (isSheetSpace Reads)

variable {name : Text} {l l' : List Lexeme}

/-! ## Braces and semicolons -/

/-- The braces and semicolons of a text. -/
def rowEnds (t : Text) : Text := t.filter isRowEnd

theorem rowEnds_append (s t : Text) : rowEnds (s ++ t) = rowEnds s ++ rowEnds t :=
  List.filter_append ..

/-- The first of them decides. -/
theorem braceFirst_eq (t : Text) : braceFirst t = ((rowEnds t).head? == some '\x7b') := by
  induction t with
  | nil => rfl
  | cons c t ih =>
    rw [braceFirst, rowEnds, List.filter_cons]
    cases hc : isRowEnd c with
    | true =>
      have h := braceFirst_of_isRowEnd hc t
      rw [braceFirst] at h
      rw [h]
      rfl
    | false =>
      simp only [isRowEnd, Bool.or_eq_false_iff, beq_eq_false_iff_ne] at hc
      obtain ⟨⟨hopening, hclosing⟩, hsemicolon⟩ := hc
      rw [beq_eq_false_iff_ne.mpr hopening, bne_iff_ne.mpr hsemicolon, bne_iff_ne.mpr hclosing, ih]
      rfl

theorem rowEnds_pseudoElement (hname : IsPseudoName name) : rowEnds (pseudoElement name) = [] := by
  refine List.filter_eq_nil_iff.mpr fun c hc => ?_
  have hends : ∀ c, isRowEnd c = true → c ≠ ':' ∧ c.isAlpha = false := by
    intro c hc
    simp only [isRowEnd, Bool.or_eq_true, beq_iff_eq] at hc
    rcases hc with (rfl | rfl) | rfl <;> decide
  intro hend
  obtain ⟨hcolon, halpha⟩ := hends c hend
  rcases List.mem_cons.mp hc with rfl | hc
  · exact hcolon rfl
  · rcases List.mem_cons.mp hc with rfl | hc
    · exact hcolon rfl
    · rw [hname.isAlpha c hc] at halpha
      cases halpha

theorem rowEnds_withPseudo (hname : IsPseudoName name) (pieces : List SelectorPiece) :
    rowEnds (pieces.flatMap (SelectorPiece.withPseudo (pseudoElement name))) =
      rowEnds (pieces.flatMap SelectorPiece.text) := by
  induction pieces with
  | nil => rfl
  | cons piece pieces ih =>
    rw [List.flatMap_cons, List.flatMap_cons, rowEnds_append, rowEnds_append, ih]
    cases piece with
    | branch text =>
      rw [SelectorPiece.withPseudo, rowEnds_append, rowEnds_pseudoElement hname, List.append_nil]
      rfl
    | gap text => rfl

/-- A value that begins in front of a selector list with pseudo-elements begins in front of the list
without them. -/
theorem beginsValue_of_withPseudo {space : Bool} {y b b' u s : Text} (hname : IsPseudoName name)
    (hends : rowEnds b' = rowEnds b)
    (h : beginsValue space (y ++ pseudoElement name ++ (b' ++ ' ' :: '\x7b' :: s)) = true) :
    beginsValue space (y ++ (b ++ u)) = true := by
  have hbrace : ∀ z : Text,
      braceFirst (z ++ pseudoElement name ++ (b' ++ ' ' :: '\x7b' :: s)) = false →
        braceFirst (z ++ (b ++ u)) = false := by
    intro z hz
    rw [braceFirst_eq, rowEnds_append, rowEnds_append, rowEnds_pseudoElement hname, rowEnds_append,
      List.append_nil, hends, ← List.append_assoc] at hz
    rw [braceFirst_eq, rowEnds_append, rowEnds_append, ← List.append_assoc]
    cases hzb : rowEnds z ++ rowEnds b with
    | nil =>
      rw [hzb] at hz
      cases hz
    | cons c t => rwa [hzb] at hz
  cases y with
  | nil => cases h
  | cons c y =>
    rw [List.cons_append, List.cons_append, beginsValue] at h
    rw [List.cons_append, beginsValue]
    split at h
    · cases h
    next hc =>
    rw [if_neg hc]
    split at h
    next hspace =>
      rw [if_pos hspace]
      rcases Bool.or_eq_true_iff.mp h with h | h
      · rw [h]
        rfl
      · rw [← List.cons_append, hbrace (c :: y) (by simpa using h)]
        simp
    next hspace =>
      rw [if_neg hspace]
      rcases Bool.or_eq_true_iff.mp h with h | h
      · rw [h]
        rfl
      · rw [hbrace y (by simpa using h)]
        simp

/-! ## No declaration -/

theorem isNameChar_of_mem_take_nameLength (t : Text) :
    ∀ c ∈ t.take (nameLength t), isNameChar c = true := by
  have hstart : ∀ {c : Char}, isNameStart c = true → isNameChar c = true := by
    intro c hc
    rw [isNameChar, hc]
    rfl
  have hrun : ∀ t : Text, ∀ c ∈ t.take (t.takeWhile isNameChar).length, isNameChar c = true := by
    intro t c hc
    rw [← List.prefix_iff_eq_take.mp (List.takeWhile_prefix isNameChar)] at hc
    exact List.all_eq_true.mp List.all_takeWhile c hc
  unfold nameLength
  split
  next rest =>
    rw [Nat.add_comm]
    simpa [isNameChar] using hrun rest
  next c rest hc =>
    split
    next h =>
      rw [Nat.add_comm]
      rw [List.take_succ_cons, List.take_succ_cons]
      simpa [hstart h] using ⟨by decide, hrun rest⟩
    · simp
  next c rest _ _ =>
    split
    next h =>
      rw [Nat.add_comm]
      simpa [hstart h] using hrun rest
    · simp
  · simp

theorem colon_not_mem_of_nameLength {x s : Text} (h : nameLength (x ++ s) = x.length) :
    ':' ∉ x := by
  intro hmem
  have hname := isNameChar_of_mem_take_nameLength (x ++ s) ':'
  rw [h, List.take_left] at hname
  exact absurd (hname hmem) (by decide)

/-- The colon of a pseudo-element is behind a text without a colon. -/
theorem exists_append_of_colon_not_mem {x y z : Text} (hx : ':' ∉ x)
    (h : z ++ pseudoElement name = x ++ y) : ∃ u, z = x ++ u ∧ y = u ++ pseudoElement name := by
  rcases List.append_eq_append_iff.mp h with ⟨u, hz, hcolon⟩ | ⟨u, hz, hy⟩
  · cases u with
    | nil => exact ⟨[], by simpa using hz.symm, by simpa using hcolon.symm⟩
    | cons c u =>
      obtain ⟨rfl, -⟩ := List.cons.inj hcolon
      exact absurd (by rw [hz]; simp) hx
  · exact ⟨u, hz, hy⟩

/-- A lexeme that is no filler is behind the fillers at the front. -/
theorem exists_append_of_isFiller {front rest read behind : List Lexeme} {p : Lexeme}
    (hfront : ∀ q ∈ front, q.isFiller = true) (hp : p.isFiller = false)
    (h : read ++ p :: behind = front ++ rest) :
    ∃ z, read = front ++ z ∧ rest = z ++ p :: behind := by
  rcases List.append_eq_append_iff.mp h with ⟨z, hz, hcons⟩ | ⟨z, hread, hrest⟩
  · cases z with
    | nil => exact ⟨[], by simpa using hz.symm, by simpa using hcons.symm⟩
    | cons q z =>
      obtain ⟨rfl, -⟩ := List.cons.inj hcons
      rw [hfront p (by rw [hz]; simp)] at hp
      cases hp
  · exact ⟨z, hread, hrest⟩

/-- Behind a name and fillers at the front of a list with pseudo-elements there is the text that is
behind them in the list, up to the first pseudo-element. -/
theorem BeginsAlike.exists_of_name (h : BeginsAlike name l l') {x : Text} {front rest : List Lexeme}
    (hl' : l' = (Kind.word, x) :: (front ++ rest)) (hfront : ∀ p ∈ front, p.isFiller = true)
    (hx : ':' ∉ x) :
    ∃ y behind behind', Text.texts l = x ++ Text.texts front ++ (y ++ behind) ∧
      Text.texts rest = y ++ pseudoElement name ++ behind' := by
  obtain ⟨read, back, behind, p, more, behind', rfl, rfl, htexts, hwords⟩ := h
  cases read with
  | nil =>
    -- the name is the word in front of the pseudo-element, which goes on behind it
    simp only [List.nil_append, List.cons_append, List.cons.injEq] at hl'
    obtain ⟨rfl, hmore⟩ := hl'
    rw [Text.texts_cons] at htexts
    obtain ⟨y, hback, htail⟩ := exists_append_of_colon_not_mem hx htexts.symm
    obtain rfl : front = [] := by
      cases more with
      | nil => simp [pseudoElement] at htail
      | cons q more =>
        have hmore' : [] ++ q :: (more ++ behind') = front ++ rest := hmore
        obtain ⟨z, hz, -⟩ := exists_append_of_isFiller hfront (hwords q (by simp)) hmore'
        exact (List.append_eq_nil_iff.mp hz.symm).1
    refine ⟨y, Text.texts behind, Text.texts behind', by simp [Text.texts_append, hback], ?_⟩
    rw [List.nil_append] at hmore
    rw [← hmore, Text.texts_append, htail]
  | cons q read =>
    simp only [List.cons_append, List.cons.injEq, List.append_assoc] at hl'
    obtain ⟨rfl, hmore⟩ := hl'
    obtain ⟨z, rfl, rfl⟩ := exists_append_of_isFiller hfront (hwords p List.mem_cons_self) hmore
    refine ⟨Text.texts z ++ Text.texts back, Text.texts behind, Text.texts behind',
      by simp [Text.texts_append], ?_⟩
    rw [← List.cons_append, Text.texts_append, Text.texts_append, htexts]
    simp

/-- Where a declaration begins with a selector list, its name and the gap behind the name are
lexemes of the list. -/
theorem exists_lexemes_of_name {x gap behind s : Text} (hx : x ≠ [])
    (ht : Text.texts l ++ ' ' :: '\x7b' :: s = x ++ gap ++ ':' :: behind)
    (hlength : nameLength (Text.texts l ++ ' ' :: '\x7b' :: s) = x.length)
    (hgap : Text.texts (fillers (gap ++ ':' :: behind)) = gap)
    (hrow : row .selector (Text.texts l ++ ' ' :: '\x7b' :: s) = l ++ [(.space, [' '])]) :
    ∃ rest, l = (Kind.word, x) :: (fillers (gap ++ ':' :: behind) ++ rest) ∧
      Text.texts rest ++ ' ' :: '\x7b' :: s = ':' :: behind := by
  obtain ⟨c, y, rfl⟩ := List.exists_cons_of_ne_nil hx
  have hname : nameLength (c :: (y ++ (gap ++ ':' :: behind))) = y.length + 1 := by
    rw [← List.cons_append, ← List.append_assoc, ← ht, hlength, List.length_cons]
  obtain ⟨more, hmore⟩ := exists_row_of_name hname
  rw [← List.cons_append, ← List.append_assoc, ← ht, hrow] at hmore
  have htexts := congrArg Text.texts hmore
  simp only [Text.texts_append, Text.texts_cons, Text.texts_nil, hgap] at htexts
  have hbehind : Text.texts more ++ '\x7b' :: s = ':' :: behind := by
    rw [← List.singleton_append, ← List.append_assoc, ← List.append_nil [' '], htexts] at ht
    simpa using ht
  -- the space in front of the brace is the last of these lexemes, but not the first
  obtain rfl | ⟨rest, q, rfl⟩ := more.eq_nil_or_concat
  · exact absurd (List.cons.inj hbehind).1 (by decide)
  rw [List.concat_eq_append] at hmore hbehind
  rw [← List.append_assoc, ← List.cons_append] at hmore
  obtain ⟨hl, hq⟩ := List.append_inj' hmore rfl
  obtain rfl := (List.cons.inj hq).1
  exact ⟨rest, hl, by simpa [Text.texts_append] using hbehind⟩

/-- No declaration begins with a selector list with pseudo-elements, if none begins with the list
without them. -/
theorem declaration?_eq_none_of_beginsAlike {u s : Text} (hname : IsPseudoName name)
    (halike : BeginsAlike name l l') (hends : rowEnds (Text.texts l') = rowEnds (Text.texts l))
    (hrow : row .selector (Text.texts l' ++ ' ' :: '\x7b' :: s) = l' ++ [(.space, [' '])])
    (h : declaration? (Text.texts l ++ u) = none) :
    declaration? (Text.texts l' ++ ' ' :: '\x7b' :: s) = none := by
  refine Option.eq_none_iff_forall_ne_some.mpr fun d hd => ?_
  obtain ⟨behind, ht, hne, hlength, hgap, hvalue, -⟩ := declaration?_eq_some_iff.mp hd
  obtain ⟨c, x, hx⟩ := List.exists_cons_of_ne_nil hne
  have hcolon : ':' ∉ d.name := by
    rw [ht, List.append_assoc] at hlength
    exact colon_not_mem_of_nameLength hlength
  have hends' : ∀ a ∈ (d.gap ++ ':' :: behind).head?, isNameChar a = false := by
    rw [ht, hx, List.append_assoc, List.cons_append] at hlength
    exact isNameChar_of_nameLength hlength
  obtain ⟨rest, hl', hrest⟩ := exists_lexemes_of_name hne ht hlength hgap hrow
  obtain ⟨y, b, b', hl, hrest'⟩ := halike.exists_of_name hl' isFiller_of_mem_fillers hcolon
  rw [hgap] at hl
  have hsame : rowEnds b' = rowEnds b := by
    rw [hl', hl, Text.texts_cons, Text.texts_append, hrest', hgap] at hends
    simp only [rowEnds_append, rowEnds_pseudoElement hname, List.append_assoc,
      List.nil_append] at hends
    exact List.append_cancel_left (List.append_cancel_left (List.append_cancel_left hends))
  rw [hrest', List.append_assoc] at hrest
  cases y with
  | nil =>
    obtain ⟨-, rfl⟩ := List.cons.inj hrest
    cases hvalue
  | cons a y =>
    rw [List.cons_append, List.cons_append] at hrest
    obtain ⟨rfl, rfl⟩ := List.cons.inj hrest
    have ht' : Text.texts l ++ u = d.name ++ d.gap ++ ':' :: (y ++ (b ++ u)) := by
      rw [hl]
      simp
    have hsome : declaration? (Text.texts l ++ u) =
        some (.read d.name d.gap (y ++ (b ++ u))) := by
      refine declaration?_eq_some_iff.mpr ⟨_, ht', hne, ?_, ?_, ?_, rfl⟩
      · rw [ht, List.append_assoc, nameLength_append_of_head hends'] at hlength
        rw [ht', List.append_assoc, nameLength_append_of_head, hlength]
        · rfl
        · cases hd : d.gap <;> rw [hd] at hends' <;> exact hends'
      · exact (congrArg Text.texts (fillers_colon_congr hgap)).trans hgap
      · have hfillers : fillers (d.gap ++ ':' :: (y ++ (b ++ u))) = _ := fillers_colon_congr hgap
        rw [← hfillers] at hvalue
        exact beginsValue_of_withPseudo hname hsame hvalue
    rw [h] at hsome
    cases hsome

/-- The lists begin with a filler both or neither. -/
theorem BeginsAlike.isFiller_head? (h : BeginsAlike name l l')
    (hl : ∀ p ∈ l.head?, p.isFiller = false) :
    ∃ p ∈ l'.head?, p.isFiller = false := by
  obtain ⟨read, back, behind, p, more, behind', rfl, rfl, -, hwords⟩ := h
  cases read with
  | nil => exact ⟨p, rfl, hwords p List.mem_cons_self⟩
  | cons q read => exact ⟨q, rfl, hl q rfl⟩

/-! ## Heads -/

/-- What begins with no filler is read as a row that begins with none. -/
theorem filler_eq_none_iff_row {c : Char} {rest : Text} :
    filler c rest = none ↔ ∀ p ∈ (row .selector (c :: rest)).head?, p.isFiller = false := by
  unfold row
  rw [Text.scan]
  cases hfiller : filler c rest with
  | some found =>
    obtain ⟨n, h, -⟩ := lexeme_of_filler (n := .start .selector) hfiller fun _ => rfl
    rw [h]
    simp [isFiller_of_filler hfiller]
  | none =>
    refine iff_of_true rfl fun p hp => ?_
    cases hlexeme : lexeme (.start .selector) c rest with
    | none =>
      rw [hlexeme] at hp
      cases hp
    | some found =>
      rw [hlexeme] at hp
      obtain rfl := Option.some.inj hp
      obtain ⟨k, n, more⟩ := found
      refine Bool.eq_false_iff.mpr fun hk => ?_
      cases hfiller.symm.trans (filler_of_lexeme hlexeme hk).1

/-- The lexemes of a head are read again with a pseudo-element behind each of its selectors. -/
theorem exists_readsWithPseudo_of_row {w s r : Text}
    (hrow : Text.texts (row .selector (w ++ '\x7b' :: s)) = w)
    (hsound : isSoundRow 0 false (row .selector (w ++ '\x7b' :: s)) = true)
    (hequals : hasBareEquals 0 (row .selector (w ++ '\x7b' :: s)) = false)
    (hclosed : ClosesComments w ('\x7b' :: s)) (hname : IsPseudoName name)
    (hr : ∀ c ∈ r.head?, isNameChar c = false) :
    ∃ l', ReadsWithPseudo name (splitRow (row .selector (w ++ '\x7b' :: s))).1
      (headOf (row .selector (w ++ '\x7b' :: s))).selectors l' r := by
  obtain ⟨n, hreads, -⟩ : ∃ n,
      Reads lexeme (.start .selector) (row .selector (w ++ '\x7b' :: s)) n ('\x7b' :: s) ∧ _ :=
    Text.exists_reads_scan _ w (List.cons_ne_nil _ _) hrow
  obtain ⟨all, hall⟩ : ∃ l, row .selector (w ++ '\x7b' :: s) = l := ⟨_, rfl⟩
  rw [hall] at hrow hsound hequals hreads ⊢
  have hsplit := splitRow_append all
  have hstray := ne_stray_of_isSoundRow hsound
  rw [← hsplit] at hequals hsound hreads hrow
  rw [isSoundRow_append_of_isFiller isFiller_of_mem_splitRow] at hsound
  obtain ⟨n', hlist, hgap⟩ := hreads.of_append
  rw [← hrow, Text.texts_append] at hclosed
  have hwalk : ListWalk (Text.texts (splitRow all).2 ++ '\x7b' :: s) [] [] (splitRow all).1
      (.start .selector) n' := by
    refine ⟨.nil _ _, hlist, by simp, by simp, fun _ => rfl, fun _ => rfl,
      isFiller_of_mem_getLast?_splitRow, fun q hq => hstray q ?_, (hasBareEquals_append hequals).1,
      hsound, ?_⟩
    · rw [← hsplit]
      exact List.mem_append_left _ hq
    · simpa using hclosed.of_append_left
  refine hwalk.exists_readsWithPseudo ?_ hname hr
  refine List.length_eq_zero_iff.mp ((length_outer_of_reads hlist).trans ?_)
  exact bracketsAfter_of_isSoundRow hsound

/-- A list that is read up to a space and a brace is a row with that space. -/
theorem row_append_space {m : Nesting} {s : Text}
    (h : Reads lexeme (.start .selector) l m (' ' :: '\x7b' :: s)) (hm : m.IsFlat) :
    row .selector (Text.texts l ++ ' ' :: '\x7b' :: s) = l ++ [(.space, [' '])] := by
  have hspace : Reads lexeme m [(.space, [' '])] (m.behindSpace ('\x7b' :: s)) ('\x7b' :: s) :=
    .cons (lexeme_space m rfl ('\x7b' :: s)) (.nil _ _)
  have hscan := (h.append hspace).scan_eq
  rw [scan_of_isRowEnd rfl (hm.behindSpace _).outer, List.append_nil, Text.texts_append,
    List.append_assoc] at hscan
  exact hscan

/-- The space behind a list belongs to the gap of the head. -/
theorem ReadsWithPseudo.headOf_eq {pieces : List SelectorPiece} {r : Text}
    (h : ReadsWithPseudo name l pieces l' r) :
    headOf (l' ++ [(.space, [' '])]) = ⟨selectorPieces [] [] l', [' ']⟩ := by
  obtain ⟨p, hp, hlast⟩ := h.last
  rw [headOf, splitRow_append_of_isFiller hp hlast (by simp [Lexeme.isFiller])]
  rfl

/-- The head of a rule is a head with a pseudo-element behind each of its selectors. -/
theorem exists_part_withPseudo {depth : Nat} {inBlock : Bool} {c : Char} {x r : Text}
    {head : RuleHead} (h : part depth c (x ++ r) = .rule head) (htext : head.text = c :: x)
    (hsound : (Part.rule head).hasSoundRow inBlock (c :: (x ++ r)) = true)
    (hclosed : ClosesComments head.text r) (hname : IsPseudoName name) (depth' : Nat)
    (s : Text) :
    (∃ text, .branch text ∈ head.selectors) ∧ ∃ c' rest' head',
      head.selectors.flatMap (SelectorPiece.withPseudo (pseudoElement name)) ++ ' ' :: '\x7b' :: s =
        c' :: rest' ∧
      part depth' c' rest' = .rule head' ∧ head'.gap = [' '] ∧
      head'.selector = head.selectors.flatMap (SelectorPiece.withPseudo (pseudoElement name)) := by
  obtain ⟨hfiller, hbrace, hat, hnone, hpart⟩ := part_eq_rule_iff.mp h
  obtain ⟨w, u, ht, hw, hrow, rfl⟩ := exists_of_rulePart hpart
  simp only [Part.hasSoundRow, Bool.and_eq_true, Bool.not_eq_true'] at hsound
  obtain ⟨⟨hsound, hequals⟩, -⟩ := hsound
  have hclosed' : ClosesComments w ('\x7b' :: u) := by
    have hhead := selector_append_gap_headOf (row .selector (w ++ '\x7b' :: u))
    rw [hrow] at hhead
    rw [← List.cons_append, ← htext, RuleHead.text, hhead, List.append_assoc,
      List.append_cancel_left_eq] at ht
    obtain rfl := (List.cons.inj ht).2
    rw [RuleHead.text, hhead] at hclosed
    exact hclosed.of_append_left
  rw [filler_eq_none_iff_row, ht] at hfiller
  rw [ht] at hsound hequals hnone
  have hr : ∀ c ∈ (' ' :: '\x7b' :: s).head?, isNameChar c = false := by simp; decide
  obtain ⟨l', hl'⟩ := exists_readsWithPseudo_of_row hrow hsound hequals hclosed' hname hr
  obtain ⟨m, hreads, hflat⟩ := hl'.reads
  -- the first lexeme is no filler, and so begins the list
  obtain ⟨q, hq⟩ : ∃ q, (row .selector (w ++ '\x7b' :: u)).head? = some q := by
    cases hnil : row .selector (w ++ '\x7b' :: u) with
    | nil =>
      rw [hnil] at hrow
      exact absurd hrow.symm hw
    | cons q rest => exact ⟨q, rfl⟩
  have hfirst := exists_head?_splitRow hq (hfiller q hq)
  have halike := hl'.beginsAlike q hfirst (hfiller q hq)
  obtain ⟨p, hp, hword⟩ := halike.isFiller_head? fun a ha => by
    rw [hfirst] at ha
    obtain rfl := Option.some.inj ha
    exact hfiller q hq
  have hrow' := row_append_space hreads hflat
  have htexts : (headOf (row .selector (w ++ '\x7b' :: u))).selectors.flatMap SelectorPiece.text =
      Text.texts (splitRow (row .selector (w ++ '\x7b' :: u))).1 :=
    flatMap_text_selectorPieces [] [] _ fun _ => rfl
  have hends : rowEnds (Text.texts l') =
      rowEnds (Text.texts (splitRow (row .selector (w ++ '\x7b' :: u))).1) := by
    rw [hl'.texts_eq, rowEnds_withPseudo hname, htexts]
  have hw' : w ++ '\x7b' :: u = Text.texts (splitRow (row .selector (w ++ '\x7b' :: u))).1 ++
      (Text.texts (splitRow (row .selector (w ++ '\x7b' :: u))).2 ++ '\x7b' :: u) := by
    rw [← List.append_assoc, ← Text.texts_append, splitRow_append, hrow]
  rw [← hl'.texts_eq]
  obtain ⟨c', rest', ht'⟩ : ∃ c' rest', Text.texts l' ++ ' ' :: '\x7b' :: s = c' :: rest' :=
    List.exists_cons_of_ne_nil (by simp)
  obtain rfl : c' = c := by
    have hhead := hl'.head?_append
      (Text.texts (splitRow (row .selector (w ++ '\x7b' :: u))).2 ++ '\x7b' :: u)
    rw [← hw', ← ht, ht'] at hhead
    exact Option.some.inj hhead
  have hhead := hl'.headOf_eq
  refine ⟨hl'.branch, c', rest', headOf (l' ++ [(.space, [' '])]), ht', part_eq_rule_iff.mpr
    ⟨?_, hbrace, hat, ?_, ?_⟩, ?_, ?_⟩
  · rw [filler_eq_none_iff_row, ← ht', hrow', List.head?_append, hp]
    simpa using hword
  · rw [← ht']
    rw [hw'] at hnone
    exact declaration?_eq_none_of_beginsAlike hname halike hends hrow' hnone
  · have hbehind : (Text.texts l' ++ [' ']) ++ '\x7b' :: s =
        Text.texts l' ++ ' ' :: '\x7b' :: s := by simp
    rw [← hrow', ← hbehind]
    refine rulePart_eq (by rw [hbehind, ht']) (by simp) ?_
    rw [hbehind, hrow', Text.texts_append]
    rfl
  · rw [hhead]
  · rw [hhead]
    exact flatMap_text_selectorPieces [] [] l' fun _ => rfl

end LeadingTrim.Sheet
