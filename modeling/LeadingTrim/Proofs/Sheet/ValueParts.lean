/-
# Values part by part

Every value is a row of characters, strings and comments (`exists_areParts`), of which only the last
can be a string or a comment that nothing ends. Without its comments the value is what is left when
some of them are taken away whole: those with white space or an end directly beside them
(`stripComments_parts`). Where something has been taken away, white space stands before or behind
(`seamsBlank_markedParts`), since a comment with another one behind it goes only with white space or
the begin of the value before it. A quote begins a string behind a backslash, too, so that strings
are not those of a reader for which the backslash hides the quote
(`not_isInfix_stripComments_string`).
-/

import LeadingTrim.Font.FamilyList
import LeadingTrim.Proofs.Sheet.ValueComments

namespace LeadingTrim.Sheet

open Text (isBlank)

/-! ## Parts -/

/-- A part of a value. -/
inductive ValuePart
  /-- A character outside strings and comments, or a string. -/
  | item (x : ValueItem)
  /-- A comment. -/
  | comment (text : Text)
  /-- A string that nothing ends. -/
  | openString (q : Char) (content : Text)
  /-- A comment that nothing ends. -/
  | openComment (text : Text)
  deriving DecidableEq

/-- The part as it is written. -/
def ValuePart.text : ValuePart → Text
  | .item x => x.text
  | .comment text => runText [text]
  | .openString q content => q :: content
  | .openComment text => '/' :: '*' :: text

/-- Whether the part is a comment. -/
def ValuePart.isComment : ValuePart → Bool
  | .comment _ | .openComment _ => true
  | .item _ | .openString .. => false

/-- The parts one behind the other. -/
def partsText (parts : List ValuePart) : Text := parts.flatMap ValuePart.text

/-- Whether nothing in a text ends a string: the quote is in it behind a backslash only. -/
def keepsOpen (q : Char) : Text → Bool
  | [] => true
  | ['\\'] => true
  | '\\' :: _ :: t => keepsOpen q t
  | c :: t => c != q && keepsOpen q t

/-- The parts are those of their text. A string goes up to the next quote without a backslash before
it, and a comment up to the next `*/`; one without an end is the last part. -/
def AreParts : List ValuePart → Prop
  | [] => True
  | .item x :: rest =>
    x.IsSound ∧ (x = .plain '/' → (partsText rest).head? ≠ some '*') ∧ AreParts rest
  | .comment text :: rest => IsCommentText text ∧ AreParts rest
  | .openString q content :: rest =>
    (q = '"' ∨ q = '\'') ∧ keepsOpen q content = true ∧ rest = []
  | .openComment text :: rest => IsCommentText text ∧ rest = []

instance decidableAreParts : DecidablePred AreParts
  | [] => inferInstanceAs (Decidable True)
  | .item x :: rest =>
    have := decidableAreParts rest
    inferInstanceAs (Decidable
      (x.IsSound ∧ (x = .plain '/' → (partsText rest).head? ≠ some '*') ∧ AreParts rest))
  | .comment text :: rest =>
    have := decidableAreParts rest
    inferInstanceAs (Decidable (IsCommentText text ∧ AreParts rest))
  | .openString q content :: rest =>
    inferInstanceAs (Decidable ((q = '"' ∨ q = '\'') ∧ keepsOpen q content = true ∧ rest = []))
  | .openComment text :: rest => inferInstanceAs (Decidable (IsCommentText text ∧ rest = []))

variable {part : ValuePart} {parts : List ValuePart} {before : Option Char} {t : Text}

theorem partsText_cons (part : ValuePart) (parts : List ValuePart) :
    partsText (part :: parts) = part.text ++ partsText parts :=
  List.flatMap_cons

theorem ValuePart.text_ne_nil (part : ValuePart) : part.text ≠ [] := by
  cases part with
  | item x => cases x <;> exact List.cons_ne_nil _ _
  | comment _ => simp [text, runText]
  | openString q content => exact List.cons_ne_nil _ _
  | openComment _ => exact List.cons_ne_nil _ _

/-! ## Every value has parts -/

theorem isCommentText_cons {c : Char} :
    IsCommentText (c :: t) ↔ ¬ (c = '*' ∧ t.head? = some '/') ∧ IsCommentText t := by
  have hprefix : ['*', '/'] <+: c :: t ↔ c = '*' ∧ t.head? = some '/' := by
    cases t with
    | nil => simp
    | cons d t => simp [eq_comm]
  rw [IsCommentText, List.infix_cons_iff, hprefix, not_or, IsCommentText]

/-- A text has no end of a comment in it, or there is a first one. -/
theorem isCommentText_or_exists (t : Text) :
    IsCommentText t ∨ ∃ text rest, t = text ++ '*' :: '/' :: rest ∧ IsCommentText text := by
  induction t with
  | nil => exact Or.inl (by decide)
  | cons c t ih =>
    by_cases hend : c = '*' ∧ t.head? = some '/'
    · obtain ⟨rfl, hhead⟩ := hend
      obtain ⟨rest, rfl⟩ := List.head?_eq_some_iff.mp hhead
      exact Or.inr ⟨[], rest, rfl, by decide⟩
    · rcases ih with htext | ⟨text, rest, rfl, htext⟩
      · exact Or.inl (isCommentText_cons.mpr ⟨hend, htext⟩)
      · refine Or.inr ⟨c :: text, rest, rfl, isCommentText_cons.mpr ⟨?_, htext⟩⟩
        rintro ⟨rfl, hhead⟩
        obtain ⟨text, rfl⟩ := List.head?_eq_some_iff.mp hhead
        exact hend ⟨rfl, rfl⟩

theorem isQuotedBy_cons {q c : Char} (hc : c ≠ '\\') :
    isQuotedBy q (c :: t) = (c != q && isQuotedBy q t) := by
  rw [isQuotedBy]
  · rintro rfl
    exact fun _ => hc rfl
  · rintro d t rfl
    exact fun _ => hc rfl

/-- Nothing in a text ends a string, or there is a first place where it ends. -/
theorem keepsOpen_or_exists (q : Char) (t : Text) :
    keepsOpen q t = true ∨
      ∃ content rest, t = content ++ q :: rest ∧ isQuotedBy q content = true := by
  fun_induction keepsOpen q t with
  | case1 => exact Or.inl rfl
  | case2 => exact Or.inl rfl
  | case3 c t ih =>
    rcases ih with hopen | ⟨content, rest, rfl, hcontent⟩
    · exact Or.inl hopen
    · exact Or.inr ⟨'\\' :: c :: content, rest, rfl, by rwa [isQuotedBy]⟩
  | case4 c t hlast hescape ih =>
    have hne := ne_backslash hlast hescape
    by_cases hc : c = q
    · exact Or.inr ⟨[], t, by rw [hc]; rfl, rfl⟩
    · rcases ih with hopen | ⟨content, rest, rfl, hcontent⟩
      · exact Or.inl (by simp [hc, hopen])
      · exact Or.inr ⟨c :: content, rest, rfl, by simp [isQuotedBy_cons hne, hc, hcontent]⟩

/-- Every text is the text of parts. -/
theorem exists_areParts (t : Text) : ∃ parts, AreParts parts ∧ partsText parts = t := by
  induction h : t.length using Nat.strongRecOn generalizing t with
  | ind n ih =>
    subst h
    cases t with
    | nil => exact ⟨[], trivial, rfl⟩
    | cons c t =>
      by_cases hquote : c = '"' ∨ c = '\''
      · rcases keepsOpen_or_exists c t with hopen | ⟨content, rest, rfl, hcontent⟩
        · exact ⟨[.openString c t], ⟨hquote, hopen, rfl⟩, List.flatMap_singleton ..⟩
        · obtain ⟨parts, hparts, rfl⟩ := ih rest.length (by simp; omega) rest rfl
          refine ⟨.item (.quoted c content) :: parts, ⟨⟨hquote, hcontent⟩, ?_, hparts⟩, ?_⟩
          · exact fun heq => ValueItem.noConfusion heq
          · simp [partsText_cons, ValuePart.text, ValueItem.text]
      · by_cases hcomment : c = '/' ∧ t.head? = some '*'
        · obtain ⟨rfl, hhead⟩ := hcomment
          obtain ⟨t, rfl⟩ := List.head?_eq_some_iff.mp hhead
          rcases isCommentText_or_exists t with htext | ⟨text, rest, rfl, htext⟩
          · exact ⟨[.openComment t], ⟨htext, rfl⟩, List.flatMap_singleton ..⟩
          · obtain ⟨parts, hparts, rfl⟩ := ih rest.length (by simp; omega) rest rfl
            refine ⟨.comment text :: parts, ⟨htext, hparts⟩, ?_⟩
            simp [partsText_cons, ValuePart.text, runText]
        · obtain ⟨parts, hparts, rfl⟩ := ih t.length (by simp) t rfl
          refine ⟨.item (.plain c) :: parts, ⟨not_or.mp hquote, ?_, hparts⟩, rfl⟩
          exact fun hslash hhead => hcomment ⟨ValueItem.plain.inj hslash, hhead⟩

/-! ## Which parts are kept -/

/-- Whether a part of a value is kept: all but the comments that have white space or an end beside
them. -/
def isKept (before : Option Char) (part : ValuePart) (behind : List ValuePart) : Bool :=
  !(part.isComment && (isOpen before || isOpen (partsText behind).head?))

/-- The parts, each with whether it is kept. -/
def markedParts : Option Char → List ValuePart → List (ValuePart × Bool)
  | _, [] => []
  | before, part :: rest =>
    (part, isKept before part rest) :: markedParts part.text.getLast? rest

/-- The characters of the parts, each with whether it is kept. -/
def characters (marked : List (ValuePart × Bool)) : List (Char × Bool) :=
  marked.flatMap fun p => p.1.text.map fun c => (c, p.2)

/-- The characters that are kept. -/
def keptText (chars : List (Char × Bool)) : Text := (chars.filter Prod.snd).map Prod.fst

theorem characters_cons (p : ValuePart × Bool) (marked : List (ValuePart × Bool)) :
    characters (p :: marked) = (p.1.text.map fun c => (c, p.2)) ++ characters marked :=
  List.flatMap_cons

theorem keptText_append (kept : Bool) (t : Text) (chars : List (Char × Bool)) :
    keptText ((t.map fun c => (c, kept)) ++ chars) =
      (if kept then t else []) ++ keptText chars := by
  rw [keptText, List.filter_append, List.map_append, keptText]
  cases kept <;> simp [List.filter_map, Function.comp_def]

theorem map_fst_characters (marked : List (ValuePart × Bool)) :
    (characters marked).map Prod.fst = partsText (marked.map Prod.fst) := by
  simp [characters, partsText, List.map_flatMap, List.flatMap_map, Function.comp_def]

theorem map_fst_markedParts : (markedParts before parts).map Prod.fst = parts := by
  induction parts generalizing before with
  | nil => rfl
  | cons part parts ih => rw [markedParts, List.map_cons, ih]

/-- Whether a part is kept is told by the characters beside it. -/
theorem eq_isKept_of_markedParts {front behind : List (ValuePart × Bool)} {kept : Bool}
    (h : markedParts before parts = front ++ (part, kept) :: behind) :
    kept = isKept ((partsText (front.map Prod.fst)).getLast?.or before) part
      (behind.map Prod.fst) := by
  induction front generalizing before parts with
  | nil =>
    cases parts with
    | nil => cases h
    | cons first parts =>
      obtain ⟨hfirst, rfl⟩ := List.cons.inj h
      obtain ⟨rfl, rfl⟩ := Prod.mk.inj hfirst
      rw [map_fst_markedParts]
      rfl
  | cons m front ih =>
    cases parts with
    | nil => cases h
    | cons first parts =>
      obtain ⟨rfl, hrest⟩ := List.cons.inj h
      rw [ih hrest, List.map_cons, partsText_cons, List.getLast?_append, Option.or_assoc,
        List.getLast?_eq_some_getLast first.text_ne_nil, Option.some_or]

/-! ## What is kept of the parts -/

theorem keptFrom_keepsOpen {q : Char} (h : keepsOpen q t = true) (before : Option Char) :
    keptFrom ⟨some q, before⟩ t = t := by
  fun_induction keepsOpen q t generalizing before with
  | case1 => rfl
  | case2 => rfl
  | case3 c t ih =>
    have hstep : valuePiece ⟨some q, before⟩ '\\' ([c] ++ t) =
        some ⟨true, ⟨some q, some '\\'⟩, [c].length⟩ := by simp [valuePiece]
    exact (keptFrom_cons hstep).trans (congrArg _ (ih h _))
  | case4 c t hlast hescape ih =>
    simp only [Bool.and_eq_true, bne_iff_ne] at h
    have hne := ne_backslash hlast hescape
    have hstep : valuePiece ⟨some q, before⟩ c t = some ⟨true, ⟨some q, some c⟩, 0⟩ := by
      simp [valuePiece, h.1, hne]
    exact (keptFrom_kept hstep).trans (congrArg _ (ih h.2 _))

theorem commentTail_eq_none (h : IsCommentText t) : commentTail t = none := by
  induction t with
  | nil => rfl
  | cons c t ih =>
    obtain ⟨hend, ht⟩ := isCommentText_cons.mp h
    rw [commentTail_cons, if_neg hend, ih ht]
    rfl

/-- A comment that nothing ends goes up to the end of the value, and is not kept. -/
theorem keptFrom_openComment (h : IsCommentText t) (before : Option Char) :
    keptFrom ⟨none, before⟩ ('/' :: '*' :: t) = [] := by
  have hlength : commentLength ('/' :: '*' :: t) = none :=
    congrArg (Option.map (· + 2)) (commentTail_eq_none h)
  have hpiece : valuePiece ⟨none, before⟩ '/' ('*' :: t ++ []) =
      some ⟨false, ⟨none, some '/'⟩, ('*' :: t).length⟩ := by
    rw [List.append_nil, valuePiece, hlength]
    simp [isOpen]
  have hstep := keptFrom_cons hpiece
  rw [List.append_nil] at hstep
  exact hstep

theorem ValueItem.getLast?_text (x : ValueItem) : x.text.getLast? = some x.edge := by
  cases x with
  | plain c => rfl
  | quoted q content =>
    rw [text, ← List.cons_append, List.getLast?_concat]
    rfl

theorem getLast?_runText (text : Text) : (runText [text]).getLast? = some '/' := by
  have hsplit : runText [text] = ('/' :: '*' :: (text ++ ['*'])) ++ ['/'] := by simp [runText]
  rw [hsplit, List.getLast?_concat]

/-- What is kept of a value is told part by part. -/
theorem keptFrom_partsText (h : AreParts parts) (before : Option Char) :
    keptFrom ⟨none, before⟩ (partsText parts) =
      keptText (characters (markedParts before parts)) := by
  induction parts generalizing before with
  | nil => rfl
  | cons part parts ih =>
    rw [markedParts, characters_cons, keptText_append, partsText_cons]
    cases part with
    | item x =>
      obtain ⟨hx, hslash, hparts⟩ := h
      rw [ValuePart.text, keptFrom_item hx before hslash, ← ih hparts, x.getLast?_text]
      rfl
    | comment text =>
      obtain ⟨htext, hparts⟩ := h
      rw [ValuePart.text, keptFrom_comment htext, ← ih hparts, getLast?_runText]
      cases hopen : isOpen before || isOpen (partsText parts).head? <;>
        simp [isKept, ValuePart.isComment, hopen]
    | openString q content =>
      obtain ⟨hq, hcontent, rfl⟩ := h
      have hopen : keptFrom ⟨none, before⟩ (q :: content) =
          q :: keptFrom ⟨some q, some q⟩ content :=
        keptFrom_kept (by rcases hq with rfl | rfl <;> rfl)
      rw [keptFrom_keepsOpen hcontent] at hopen
      simpa [partsText, ValuePart.text, isKept, ValuePart.isComment, markedParts, characters,
        keptText] using hopen
    | openComment text =>
      obtain ⟨htext, rfl⟩ := h
      have hopen : isOpen none = true := rfl
      simpa [partsText, ValuePart.text, isKept, ValuePart.isComment, markedParts, characters,
        keptText, hopen] using keptFrom_openComment htext before

/-! ## Where parts have been taken away -/

/-- Where characters have been taken away there is a blank before or behind. The arguments are the
character that was kept last, and whether any was taken away since. -/
def SeamsBlank : Option Char → Bool → List (Char × Bool) → Prop
  | _, _, [] => True
  | last, cut, (c, true) :: rest =>
    (cut = true → isOpen last = true ∨ isBlank c = true) ∧ SeamsBlank (some c) false rest
  | last, _, (_, false) :: rest => SeamsBlank last true rest

variable {last : Option Char} {cut : Bool} {chars : List (Char × Bool)}

theorem seamsBlank_kept (ht : t ≠ [])
    (hfirst : cut = true → isOpen last = true ∨ isOpen t.head? = true)
    (h : SeamsBlank t.getLast? false chars) :
    SeamsBlank last cut ((t.map fun c => (c, true)) ++ chars) := by
  induction t generalizing last cut with
  | nil => exact absurd rfl ht
  | cons c t ih =>
    refine ⟨hfirst, ?_⟩
    cases t with
    | nil => exact h
    | cons d t => exact ih (List.cons_ne_nil d t) (fun hcut => absurd hcut Bool.false_ne_true) h

theorem seamsBlank_removed (ht : t ≠ []) (h : SeamsBlank last true chars) :
    SeamsBlank last cut ((t.map fun c => (c, false)) ++ chars) := by
  induction t generalizing cut with
  | nil => exact absurd rfl ht
  | cons c t ih =>
    cases t with
    | nil => exact h
    | cons d t => exact @ih true (List.cons_ne_nil d t)

theorem head?_partsText_cons (part : ValuePart) (parts : List ValuePart) :
    (partsText (part :: parts)).head? = part.text.head? := by
  rw [partsText_cons, List.head?_append_of_ne_nil _ part.text_ne_nil]

/-- Blanks are at the seams of what is kept. In front of the parts either nothing has been taken
away since the last character that was kept, or this character or the first one of the parts is a
blank or missing. -/
theorem seamsBlank_markedParts
    (h : cut = false ∧ last = before ∨
      cut = true ∧ (isOpen last = true ∨ isOpen (partsText parts).head? = true)) :
    SeamsBlank last cut (characters (markedParts before parts)) := by
  induction parts generalizing before last cut with
  | nil => exact trivial
  | cons part parts ih =>
    rw [markedParts, characters_cons]
    rw [head?_partsText_cons] at h
    cases hkept : isKept before part parts with
    | true =>
      refine seamsBlank_kept part.text_ne_nil (fun hcut => ?_) (ih (Or.inl ⟨rfl, rfl⟩))
      rcases h with ⟨hnot, -⟩ | ⟨-, hopen⟩
      · exact absurd (hnot.symm.trans hcut) Bool.false_ne_true
      · exact hopen
    | false =>
      refine seamsBlank_removed part.text_ne_nil (ih (Or.inr ⟨rfl, ?_⟩))
      simp only [isKept, Bool.not_eq_false', Bool.and_eq_true, Bool.or_eq_true] at hkept
      obtain ⟨hcomment, hopen⟩ := hkept
      rcases h with ⟨-, rfl⟩ | ⟨-, hlast | hhead⟩
      · exact hopen
      · exact Or.inl hlast
      · -- a comment behind one that is gone does not begin with a blank
        have hslash : part.text.head? = some '/' := by
          cases part with
          | comment _ => rfl
          | openComment _ => rfl
          | item _ => exact absurd hcomment Bool.false_ne_true
          | openString _ _ => exact absurd hcomment Bool.false_ne_true
        rw [hslash] at hhead
        exact absurd hhead (by decide)

/-- Characters that have been taken away are passed over. -/
theorem SeamsBlank.of_gap_append {gap : List (Char × Bool)} (hgap : ∀ c ∈ gap, c.2 = false)
    (h : SeamsBlank last true (gap ++ chars)) : SeamsBlank last true chars := by
  induction gap with
  | nil => exact h
  | cons c gap ih =>
    obtain ⟨c, kept⟩ := c
    obtain ⟨hc, hrest⟩ := List.forall_mem_cons.mp hgap
    obtain rfl : kept = false := hc
    exact ih hrest h

/-- Of two characters that have come together one is a blank. -/
theorem SeamsBlank.isBlank_or {front gap behind : List (Char × Bool)} {a b : Char}
    (h : SeamsBlank last cut (front ++ (a, true) :: (gap ++ (b, true) :: behind))) (hne : gap ≠ [])
    (hgap : ∀ c ∈ gap, c.2 = false) : isBlank a = true ∨ isBlank b = true := by
  induction front generalizing last cut with
  | nil =>
    obtain ⟨⟨c, kept⟩, gap, rfl⟩ := List.exists_cons_of_ne_nil hne
    obtain ⟨hc, hrest⟩ := List.forall_mem_cons.mp hgap
    obtain rfl : kept = false := hc
    have hcut : SeamsBlank (some a) true ((b, true) :: behind) := .of_gap_append hrest h.2
    exact hcut.1 rfl
  | cons c front ih =>
    obtain ⟨c, kept⟩ := c
    cases kept with
    | true => exact ih h.2
    | false => exact ih h

/-- Every value has parts, and without its comments it is what is left when some of them are taken
away: those with white space or an end directly beside them. Where two characters have come
together one of them is white space. -/
theorem stripComments_parts (raw : Text) :
    (∃ parts, AreParts parts ∧ partsText parts = raw) ∧
      ∀ parts, AreParts parts → partsText parts = raw →
        ∃ marked : List (ValuePart × Bool), marked.map Prod.fst = parts ∧
          (characters marked).map Prod.fst = raw ∧
          keptText (characters marked) = stripComments raw ∧
          (∀ front part kept behind, marked = front ++ (part, kept) :: behind →
            (kept = false ↔ part.isComment = true ∧
              (isOpen (partsText (front.map Prod.fst)).getLast? = true ∨
                isOpen (partsText (behind.map Prod.fst)).head? = true))) ∧
          ∀ front a gap b behind,
            characters marked = front ++ (a, true) :: (gap ++ (b, true) :: behind) → gap ≠ [] →
              (∀ c ∈ gap, c.2 = false) → isBlank a = true ∨ isBlank b = true := by
  refine ⟨exists_areParts raw, ?_⟩
  rintro parts hparts rfl
  have hseams : SeamsBlank none false (characters (markedParts none parts)) :=
    seamsBlank_markedParts (Or.inl ⟨rfl, rfl⟩)
  refine ⟨markedParts none parts, map_fst_markedParts, ?_, (keptFrom_partsText hparts none).symm,
    fun front part kept behind hsplit => ?_, fun front a gap b behind hsplit hne hgap => ?_⟩
  · rw [map_fst_characters, map_fst_markedParts]
  · rw [eq_isKept_of_markedParts hsplit, Option.or_none, isKept, Bool.not_eq_false',
      Bool.and_eq_true, Bool.or_eq_true]
  · exact (hsplit ▸ hseams).isBlank_or hne hgap

/-- A value with comments beside blanks and between characters, a string, and a comment that nothing
ends. -/
def variedParts : List ValuePart :=
  [.item (.plain 'é'), .item (.plain '\t'), .comment "a".toList, .comment "\"*".toList,
    .item (.plain ' '), .item (.quoted '"' "b\\\"/*".toList), .comment "c".toList,
    .item (.plain '/'), .openComment "'/".toList]

theorem stripComments_parts_variedParts :
    AreParts variedParts ∧ partsText variedParts = "é\t/*a*//*\"**/ \"b\\\"/*\"/*c*///*'/".toList ∧
      ∃ marked : List (ValuePart × Bool), marked.map Prod.fst = variedParts ∧
        (characters marked).map Prod.fst = "é\t/*a*//*\"**/ \"b\\\"/*\"/*c*///*'/".toList ∧
        keptText (characters marked) = "é\t \"b\\\"/*\"/*c*//".toList := by
  have hparts : AreParts variedParts := by decide +kernel
  have htext : partsText variedParts = "é\t/*a*//*\"**/ \"b\\\"/*\"/*c*///*'/".toList := by
    decide +kernel
  refine ⟨hparts, htext, ?_⟩
  obtain ⟨marked, hmarked, hraw, hkept, -⟩ := (stripComments_parts _).2 variedParts hparts htext
  exact ⟨marked, hmarked, hraw, hkept.trans (by decide +kernel)⟩

/-- A backslash hides a quote from the reader of family lists, but a string begins there all the
same. So a string that the reader finds is not kept, and its name is another one. -/
theorem not_isInfix_stripComments_string :
    (¬ ∀ front q content behind, '*' ∉ front →
      front.foldl Font.commas.next Text.Depth.outside = Text.Depth.outside →
      Text.isQuote q = true → isQuotedBy q content = true →
      (q :: (content ++ [q])) <:+: stripComments (front ++ q :: (content ++ q :: behind))) ∧
    Font.families "Jo\\'s Sans, 'A /* B */ C'".toList =
      ["Jo\\'s Sans".toList, "A /* B */ C".toList] ∧
    Font.families (stripComments "Jo\\'s Sans, 'A /* B */ C'".toList) =
      ["Jo\\'s Sans".toList, "A  C".toList] := by
  refine ⟨fun h => ?_, by decide +kernel, by decide +kernel⟩
  have hkept := h "Jo\\'s Sans, ".toList '\'' "A /* B */ C".toList [] (by decide) (by decide)
    (by decide) (by decide)
  exact absurd hkept (by decide +kernel)

end LeadingTrim.Sheet
