/-
# One setting in three places

A line height and a list of families mean the same where a directive gives them, where declarations
of their own do, and in the shorthand (`resolve_settings`). The three are taken apart by different
readers. A line height is read up to a blank or to the end of the text (`front?_append`). The lists
are those whose names mean the same to a reader that heeds quotes and parentheses and to one that
splits at every comma (`Lists`), and blanks around such a list may be trimmed. The mark `!important`
is not found in them: behind an exclamation mark inside quotes there is still the closing quote
(`ClosesMarks`).
-/

import LeadingTrim.Metrics.Offset
import LeadingTrim.Proofs.Directive.Parse
import LeadingTrim.Proofs.Font.Families
import LeadingTrim.Proofs.Font.LastWord

namespace LeadingTrim

open Text (isBlank isQuote)

/-! ## Line heights as written -/

/-- A line height as it is written. -/
structure LineHeightText where
  /-- The digits in front of the point. -/
  whole : Text
  /-- The digits behind the point; without any there is no point. -/
  fraction : Text
  /-- The unit. -/
  unit : Text

namespace LineHeightText

/-- The text of the number. -/
def number (h : LineHeightText) : Text :=
  h.whole ++ if h.fraction = [] then [] else '.' :: h.fraction

/-- The text of the line height. -/
def text (h : LineHeightText) : Text := h.number ++ h.unit

/-- The number is made of digits, and the unit is a percent sign or made of letters. -/
structure IsSound (h : LineHeightText) : Prop where
  whole_ne_nil : h.whole ≠ []
  whole : ∀ c ∈ h.whole, c.isDigit = true
  fraction : ∀ c ∈ h.fraction, c.isDigit = true
  unit : h.unit = ['%'] ∨ ∀ c ∈ h.unit, c.isAlpha = true

end LineHeightText

theorem isDigit_eq_false_of_isAlpha {c : Char} (hc : c.isAlpha = true) : c.isDigit = false := by
  rw [Bool.eq_false_iff]
  intro hdigit
  rw [Directive.isAlpha_iff] at hc
  simp only [Char.isDigit, ge_iff_le, Bool.and_eq_true, decide_eq_true_eq,
    UInt32.le_iff_toNat_le, Char.toNat_val, Char.reduceToNat] at hdigit
  omega

theorem isAlphanum_eq_false_of_isBlank {c : Char} (hc : isBlank c = true) :
    c.isAlphanum = false := by
  rw [Bool.eq_false_iff]
  intro h
  have hplain := Font.isPlain_of_isAlphanum h
  simp [Font.isPlain, hc] at hplain

/-- No number goes on where the text begins. -/
def EndsNumber (t : Text) : Prop := ∀ c ∈ t.head?, c.isDigit = false ∧ c ≠ '.'

variable {h : LineHeightText} {t rest : Text}

theorem EndsNumber.takeWhile_append (ht : EndsNumber t) {digits : Text}
    (hdigits : ∀ c ∈ digits, c.isDigit = true) :
    (digits ++ t).takeWhile Char.isDigit = digits ∧ (digits ++ t).dropWhile Char.isDigit = t := by
  rw [List.takeWhile_append_of_pos hdigits, List.dropWhile_append_of_pos hdigits]
  cases t with
  | nil => simp
  | cons c t =>
    have hc : ¬ c.isDigit = true := by simp [(ht c rfl).1]
    rw [List.takeWhile_cons_of_neg hc, List.dropWhile_cons_of_neg hc, List.append_nil]
    exact ⟨rfl, rfl⟩

theorem endsNumber_of_isBlank (hrest : ∀ c ∈ rest.head?, isBlank c = true) : EndsNumber rest := by
  intro c hc
  have hblank := hrest c hc
  refine ⟨?_, ?_⟩
  · have halphanum := isAlphanum_eq_false_of_isBlank hblank
    rw [Char.isAlphanum, Bool.or_eq_false_iff] at halphanum
    exact halphanum.2
  · rintro rfl
    exact absurd hblank (by decide)

namespace LineHeightText.IsSound

theorem numberLength_append (hh : h.IsSound) (ht : EndsNumber t) :
    LineHeight.numberLength (h.number ++ t) = h.number.length := by
  rw [number]
  split
  next hnone =>
    obtain ⟨htake, -⟩ := ht.takeWhile_append hh.whole
    have hpoint : ∀ behind, t ≠ '.' :: behind := by
      rintro behind rfl
      exact (ht '.' rfl).2 rfl
    rw [List.append_nil, LineHeight.numberLength]
    simp only [htake, List.drop_left]
  next hsome =>
    obtain ⟨htake, -⟩ := ht.takeWhile_append hh.fraction
    have hwhole : ((h.whole ++ '.' :: h.fraction) ++ t).takeWhile Char.isDigit = h.whole := by
      rw [List.append_assoc, List.takeWhile_append_of_pos hh.whole, List.cons_append,
        List.takeWhile_cons_of_neg (by decide), List.append_nil]
    rw [LineHeight.numberLength]
    simp only [hwhole]
    rw [List.append_assoc, List.drop_left, List.cons_append]
    simp only [htake]
    split
    next hzero => exact absurd (List.length_eq_zero_iff.mp hzero) hsome
    next n hn =>
      simp only [List.length_append, List.length_cons, hn]
      omega

/-- A unit is no part of a number, and neither is a blank behind one. -/
theorem endsNumber (hh : h.IsSound) (hrest : ∀ c ∈ rest.head?, isBlank c = true) :
    EndsNumber (h.unit ++ rest) := by
  intro c hc
  cases hunit : h.unit with
  | nil =>
    rw [hunit] at hc
    exact endsNumber_of_isBlank hrest c hc
  | cons d unit =>
    rw [hunit, List.cons_append, List.head?_cons, Option.mem_some_iff] at hc
    subst hc
    rcases hh.unit with hpercent | halpha
    · rw [hpercent] at hunit
      rw [← (List.cons.inj hunit).1]
      decide
    · have hd := halpha d (hunit ▸ List.mem_cons_self)
      refine ⟨isDigit_eq_false_of_isAlpha hd, ?_⟩
      rintro rfl
      exact absurd hd (by decide)

theorem unitLength_append (hh : h.IsSound) (hrest : ∀ c ∈ rest.head?, isBlank c = true) :
    LineHeight.unitLength (h.unit ++ rest) = h.unit.length := by
  rcases hh.unit with hpercent | halpha
  · rw [hpercent]
    rfl
  · have htake : (h.unit ++ rest).takeWhile Char.isAlpha = h.unit := by
      rw [List.takeWhile_append_of_pos halpha]
      cases rest with
      | nil => simp
      | cons c rest =>
        have hc := isAlphanum_eq_false_of_isBlank (hrest c rfl)
        rw [Char.isAlphanum, Bool.or_eq_false_iff] at hc
        rw [List.takeWhile_cons_of_neg (by simp [hc.1]), List.append_nil]
    unfold LineHeight.unitLength
    split
    next behind heq =>
      -- neither a letter nor a blank is a percent sign
      cases hunit : h.unit with
      | nil =>
        rw [hunit, List.nil_append] at heq
        exact absurd (hrest '%' (by rw [heq]; rfl)) (by decide)
      | cons c unit =>
        rw [hunit, List.cons_append] at heq
        have hc := halpha c (hunit ▸ List.mem_cons_self)
        rw [(List.cons.inj heq).1] at hc
        exact absurd hc (by decide)
    · rw [htake]

/-- A line height in front of a blank or at the end is read. -/
theorem front?_append (hh : h.IsSound) : ∃ value, ∀ rest : Text,
    (∀ c ∈ rest.head?, isBlank c = true) →
      LineHeight.front? (h.text ++ rest) = some (⟨value, h.unit⟩, rest) := by
  have hnumber : ∃ value, Decimal.unsigned? h.number = some value := by
    obtain ⟨hwhole, hfraction⟩ := Directive.exists_unsigned? hh.whole hh.fraction
    rw [number]
    split
    · rw [List.append_nil]
      exact hwhole hh.whole_ne_nil
    next hne => exact hfraction hne
  obtain ⟨value, hvalue⟩ := hnumber
  refine ⟨value, fun rest hrest => ?_⟩
  have hlength := hh.numberLength_append (hh.endsNumber hrest)
  rw [text, List.append_assoc]
  have htake : (h.number ++ (h.unit ++ rest)).take
      (LineHeight.numberLength (h.number ++ (h.unit ++ rest))) = h.number := by
    rw [hlength, List.take_left]
  have hne : LineHeight.numberLength (h.number ++ (h.unit ++ rest)) ≠ 0 := by
    rw [hlength, number, List.length_append]
    have := List.length_pos_iff.mpr hh.whole_ne_nil
    omega
  rw [Directive.front?_of_unsigned? hne (htake ▸ hvalue)]
  simp only [hlength, List.drop_left, hh.unitLength_append hrest, List.take_left]

end LineHeightText.IsSound

namespace Font

/-! ## Names for every reader -/

/-- The name means the same to a reader that takes it as it stands. -/
def FamilyName.IsSimple : FamilyName → Prop
  | .quoted _ name =>
    (∀ c ∈ name, isQuote c = false ∧ c ≠ ',') ∧ Directive.isSingleLine name = true
  | .bare word more => '!' ∉ word ∧ ∀ m ∈ more, m.1 = [' '] ∧ '!' ∉ m.2

/-- The entry is of a name that means the same to every reader, and around it are blanks that end
no line. -/
structure FamilyEntry.IsSimple (e : FamilyEntry) : Prop extends e.IsSound where
  simple : e.family.IsSimple
  line_before : Directive.isSingleLine e.before = true
  line_after : Directive.isSingleLine e.after = true

/-- The text of a list. -/
def listed (entries : List FamilyEntry) : Text := Text.joinWith [','] (entries.map FamilyEntry.text)

/-- The text is a list of the families for every reader. -/
def Lists (families : List Text) (t : Text) : Prop :=
  ∃ entries : List FamilyEntry, entries ≠ [] ∧ (∀ e ∈ entries, e.IsSimple) ∧
    entries.map (·.family.name) = families ∧ t = listed entries

variable {f : FamilyName} {e : FamilyEntry} {names : List Text} {t : Text}

theorem text_bare {word : Text} {more : List (Text × Text)} (hmore : ∀ m ∈ more, m.1 = [' ']) :
    (FamilyName.bare word more).text = (FamilyName.bare word more).name := by
  rw [FamilyName.text, FamilyName.name]
  induction more generalizing word with
  | nil => exact List.append_nil word
  | cons m more ih =>
    obtain ⟨hm, hmore⟩ := List.forall_mem_cons.mp hmore
    rw [List.flatMap_cons, hm, List.map_cons, Text.joinWith_cons_cons, ← ih hmore,
      List.append_assoc]

/-- A name is had back when it is taken as it stands but for quotes. -/
theorem unquote_text (hf : f.IsSound) (hsimple : f.IsSimple) : unquote f.text = f.name := by
  cases f with
  | quoted q name => exact congrArg (Option.getD · _) (quoted?_quoted hf.1 name)
  | bare word more =>
    rw [unquote, quoted?_bare hf]
    exact text_bare fun m hm => (hsimple.2 m hm).1

theorem comma_not_mem_of_isBlank {gap : Text} (hgap : ∀ c ∈ gap, isBlank c = true) : ',' ∉ gap :=
  fun hmem => absurd (hgap ',' hmem) (by decide)

theorem comma_not_mem_text (he : e.IsSimple) : ',' ∉ e.text := by
  simp only [FamilyEntry.text, List.mem_append, not_or]
  refine ⟨comma_not_mem_of_isBlank he.before, ?_, comma_not_mem_of_isBlank he.after⟩
  have hf := he.family
  have hsimple := he.simple
  cases hfamily : e.family with
  | quoted q name =>
    rw [hfamily] at hf hsimple
    have hq : ',' ≠ q := by
      rintro rfl
      exact absurd hf.1 (by decide)
    simp only [FamilyName.text, List.mem_cons, List.mem_append, not_or]
    exact ⟨hq, fun hmem => (hsimple.1 ',' hmem).2 rfl, hq, List.not_mem_nil⟩
  | bare word more =>
    rw [hfamily] at hf
    exact fun hmem => absurd (isQuiet_of_mem_bare hf ',' hmem) (by decide)

theorem Lists.directiveFamilies (h : Lists names t) : directiveFamilies t = names := by
  obtain ⟨entries, hne, hentries, rfl, rfl⟩ := h
  have hsplit : Text.splitOn ',' (listed entries) = entries.map FamilyEntry.text :=
    Text.splitOn_joinWith (by simpa using hne)
      (List.forall_mem_map.mpr fun e he => comma_not_mem_text (hentries e he))
  rw [Font.directiveFamilies, hsplit, List.map_map]
  refine List.map_congr_left fun e he => ?_
  have hsound := (hentries e he).toIsSound
  change unquote (Text.trim e.text) = e.family.name
  rw [hsound.trim_text, unquote_text hsound.family (hentries e he).simple]

theorem Lists.families (h : Lists names t) : families t = names := by
  obtain ⟨entries, hne, hentries, rfl, rfl⟩ := h
  have hsound : ∀ e ∈ entries, e.IsSound := fun e he => (hentries e he).toIsSound
  have hwhole : ∀ x ∈ entries.map FamilyEntry.text, commas.IsWhole x :=
    List.forall_mem_map.mpr fun e he => (hsound e he).isWhole_text
  rw [listed, families_joinWith (by simpa using hne) hwhole, filter_trim_text hsound, List.map_map]
  exact List.map_congr_left fun e he => (hsound e he).family.familyName_text

/-! ## Trimmed lists -/

theorem listed_cons_cons (e e' : FamilyEntry) (entries : List FamilyEntry) :
    listed (e :: e' :: entries) = e.text ++ ',' :: listed (e' :: entries) :=
  Text.joinWith_cons_cons [','] e.text e'.text (entries.map FamilyEntry.text)

theorem Lists.trimEnd (h : Lists names t) : Lists names t.trimEnd ∧ t.trimEnd ≠ [] := by
  obtain ⟨entries, hne, hentries, rfl, rfl⟩ := h
  induction entries with
  | nil => exact absurd rfl hne
  | cons e entries ih =>
    obtain ⟨he, hentries⟩ := List.forall_mem_cons.mp hentries
    cases entries with
    | nil =>
      obtain ⟨front, c, hconcat, hc⟩ := he.family.ink_text.2
      have htrim : Text.trimEnd e.text = e.before ++ e.family.text := by
        have htext : Text.trimEnd (e.before ++ front ++ [c] ++ e.after) =
            e.before ++ front ++ [c] := trimEnd_append_of_isBlank hc he.after
        simpa [FamilyEntry.text, hconcat] using htext
      change Lists _ (Text.trimEnd e.text) ∧ Text.trimEnd e.text ≠ []
      rw [htrim]
      refine ⟨⟨[{ e with after := [] }], by simp, ?_, rfl, ?_⟩, by simp [hconcat]⟩
      · simpa using
          { he with after := fun c hc => absurd hc List.not_mem_nil, line_after := rfl }
      · simp [listed, Text.joinWith, FamilyEntry.text]
    | cons e' entries =>
      obtain ⟨⟨entries', hne', hentries', hnames, heq⟩, hnil⟩ := ih (by simp) hentries
      obtain ⟨e'', entries', rfl⟩ := List.exists_cons_of_ne_nil hne'
      have htrim : Text.trimEnd (listed (e :: e' :: entries)) =
          e.text ++ ',' :: Text.trimEnd (listed (e' :: entries)) := by
        rw [listed_cons_cons, ← List.singleton_append, ← List.append_assoc,
          Text.trimEnd_append hnil, List.append_assoc]
        rfl
      rw [htrim]
      refine ⟨⟨e :: e'' :: entries', by simp, List.forall_mem_cons.mpr ⟨he, hentries'⟩, ?_, ?_⟩,
        by simp⟩
      · rw [List.map_cons, hnames]
        rfl
      · rw [listed_cons_cons, heq]

theorem listed_eq_append (e : FamilyEntry) (entries : List FamilyEntry) :
    listed (e :: entries) = e.before ++ listed ({ e with before := [] } :: entries) := by
  cases entries with
  | nil => simp [listed, Text.joinWith, FamilyEntry.text]
  | cons e' entries => simp [listed_cons_cons, FamilyEntry.text]

theorem Lists.trimStart (h : Lists names t) : Lists names t.trimStart := by
  obtain ⟨entries, hne, hentries, rfl, rfl⟩ := h
  obtain ⟨e, entries, rfl⟩ := List.exists_cons_of_ne_nil hne
  obtain ⟨he, hrest⟩ := List.forall_mem_cons.mp hentries
  have htrim : Text.trimStart (listed (e :: entries)) =
      listed ({ e with before := [] } :: entries) := by
    obtain ⟨c, rest, hcons, hc⟩ := he.family.ink_text.1
    have hhead : ∃ rest, listed ({ e with before := [] } :: entries) = c :: rest := by
      cases entries with
      | nil => exact ⟨rest ++ e.after, by simp [listed, Text.joinWith, FamilyEntry.text, hcons]⟩
      | cons e' entries =>
        exact ⟨rest ++ (e.after ++ ',' :: listed (e' :: entries)),
          by simp [listed_cons_cons, FamilyEntry.text, hcons]⟩
    obtain ⟨rest, hhead⟩ := hhead
    rw [listed_eq_append, Text.trimStart, List.dropWhile_append_of_pos he.before, hhead,
      List.dropWhile_cons_of_neg (by simp [hc])]
  refine ⟨{ e with before := [] } :: entries, by simp, List.forall_mem_cons.mpr ⟨?_, hrest⟩, rfl,
    htrim⟩
  exact { he with before := fun c hc => absurd hc List.not_mem_nil, line_before := rfl }

theorem Lists.trim (h : Lists names t) : Lists names t.trim ∧ t.trim ≠ [] :=
  h.trimStart.trimEnd

/-! ## Lists on one line -/

theorem isSingleLine_iff : Directive.isSingleLine t = true ↔
    ∀ c ∈ t, Directive.isSingleLine [c] = true := by
  simp [Directive.isSingleLine]

theorem isSingleLine_of_isBlank_eq_false {c : Char} (hc : isBlank c = false) :
    Directive.isSingleLine [c] = true := by
  by_contra h
  simp only [Directive.isSingleLine, List.all_cons, List.all_nil, Bool.and_true,
    Bool.not_eq_true', Bool.not_eq_false, Bool.or_eq_true, beq_iff_eq] at h
  rw [Bool.eq_false_iff] at hc
  refine hc ?_
  rcases h with ((rfl | rfl) | h) | h
  · decide
  · decide
  · simp [isBlank, h]
  · simp [isBlank, h]

theorem isSingleLine_text (hf : f.IsSound) (hsimple : f.IsSimple) :
    ∀ c ∈ f.text, Directive.isSingleLine [c] = true := by
  cases f with
  | quoted q name =>
    have hq := isSingleLine_of_isBlank_eq_false (isBlank_of_isQuote hf.1)
    refine List.forall_mem_cons.mpr ⟨hq, List.forall_mem_append.mpr ⟨?_, by simpa using hq⟩⟩
    exact isSingleLine_iff.mp hsimple.2
  | bare word more =>
    have hword : ∀ word, IsWord word → ∀ c ∈ word, Directive.isSingleLine [c] = true :=
      fun word hword c hc => isSingleLine_of_isBlank_eq_false (hword.ink c hc)
    refine List.forall_mem_append.mpr ⟨hword word hf.1, fun c hc => ?_⟩
    obtain ⟨m, hm, hc⟩ := List.mem_flatMap.mp hc
    rcases List.mem_append.mp hc with hc | hc
    · rw [(hsimple.2 m hm).1, List.mem_singleton] at hc
      rw [hc]
      decide
    · exact hword m.2 (hf.2 m hm).2 c hc

theorem Lists.isSingleLine (h : Lists names t) : Directive.isSingleLine t = true := by
  obtain ⟨entries, -, hentries, -, rfl⟩ := h
  refine isSingleLine_iff.mpr fun c hc => ?_
  rcases Text.mem_of_mem_joinWith hc with hc | ⟨text, htext, hc⟩
  · rw [List.mem_singleton.mp hc]
    decide
  · obtain ⟨e, he, rfl⟩ := List.mem_map.mp htext
    have hsimple := hentries e he
    rcases List.mem_append.mp hc with hc | hc
    · exact isSingleLine_iff.mp hsimple.line_before c hc
    rcases List.mem_append.mp hc with hc | hc
    · exact isSingleLine_text hsimple.family hsimple.simple c hc
    · exact isSingleLine_iff.mp hsimple.line_after c hc

/-! ## The mark at the end of a value -/

/-- Behind each exclamation mark a quote is still to come. -/
def ClosesMarks : Text → Prop
  | [] => True
  | c :: t => (c = '!' → ∃ q ∈ t, isQuote q = true) ∧ ClosesMarks t

theorem closesMarks_of_not_mem (h : '!' ∉ t) : ClosesMarks t := by
  induction t with
  | nil => exact trivial
  | cons c t ih =>
    rw [List.mem_cons, not_or] at h
    exact ⟨fun hc => absurd hc.symm h.1, ih h.2⟩

theorem closesMarks_of_isBlank {gap : Text} (hgap : ∀ c ∈ gap, isBlank c = true) :
    ClosesMarks gap :=
  closesMarks_of_not_mem fun hmem => absurd (hgap '!' hmem) (by decide)

theorem ClosesMarks.append {s : Text} (hs : ClosesMarks s) (ht : ClosesMarks t) :
    ClosesMarks (s ++ t) := by
  induction s with
  | nil => exact ht
  | cons c s ih =>
    refine ⟨fun hc => ?_, ih hs.2⟩
    obtain ⟨q, hq, hquote⟩ := hs.1 hc
    exact ⟨q, List.mem_append_left t hq, hquote⟩

theorem ClosesMarks.exists_isQuote {front behind : Text}
    (h : ClosesMarks (front ++ '!' :: behind)) : ∃ q ∈ behind, isQuote q = true := by
  induction front with
  | nil => exact h.1 rfl
  | cons c front ih => exact ih h.2

theorem closesMarks_quoted {q : Char} (hq : isQuote q = true) (content : Text) :
    ClosesMarks (content ++ [q]) := by
  induction content with
  | nil =>
    refine closesMarks_of_not_mem fun hmem => ?_
    rw [← List.mem_singleton.mp hmem] at hq
    exact absurd hq (by decide)
  | cons c content ih => exact ⟨fun _ => ⟨q, by simp, hq⟩, ih⟩

theorem closesMarks_text (hf : f.IsSound) (hsimple : f.IsSimple) : ClosesMarks f.text := by
  cases f with
  | quoted q name => exact closesMarks_quoted hf.1 (q :: name)
  | bare word more =>
    refine closesMarks_of_not_mem fun hmem => ?_
    rcases List.mem_append.mp hmem with hmem | hmem
    · exact hsimple.1 hmem
    · obtain ⟨m, hm, hmem⟩ := List.mem_flatMap.mp hmem
      rcases List.mem_append.mp hmem with hmem | hmem
      · rw [(hsimple.2 m hm).1] at hmem
        exact absurd hmem (by decide)
      · exact (hsimple.2 m hm).2 hmem

theorem FamilyEntry.IsSimple.closesMarks (h : e.IsSimple) : ClosesMarks e.text :=
  (closesMarks_of_isBlank h.before).append
    ((closesMarks_text h.family h.simple).append (closesMarks_of_isBlank h.after))

theorem Lists.closesMarks (h : Lists names t) : ClosesMarks t := by
  obtain ⟨entries, hne, hentries, -, rfl⟩ := h
  induction entries with
  | nil => exact absurd rfl hne
  | cons e entries ih =>
    obtain ⟨he, hentries⟩ := List.forall_mem_cons.mp hentries
    cases entries with
    | nil => exact he.closesMarks
    | cons e' entries =>
      rw [listed_cons_cons]
      exact he.closesMarks.append ⟨fun hc => absurd hc (by decide), ih (by simp) hentries⟩

theorem mem_trimStart {c : Char} (hc : isBlank c = false) (hmem : c ∈ t) : c ∈ t.trimStart := by
  rw [← Text.takeWhile_append_trimStart t, List.mem_append] at hmem
  refine hmem.resolve_left fun hblank => ?_
  rw [List.all_eq_true.mp List.all_takeWhile c hblank] at hc
  exact absurd hc (by decide)

/-- A value has no mark at its end if a quote stands behind each exclamation mark. -/
theorem withoutImportant_of_closesMarks (h : ClosesMarks t.trimEnd) :
    withoutImportant t = t.trimEnd := by
  by_cases hmem : '!' ∈ t.trimEnd
  · obtain ⟨front, behind, hsplit, hbehind⟩ := Text.exists_last_of_mem hmem
    obtain ⟨q, hq, hquote⟩ := ClosesMarks.exists_isQuote (hsplit ▸ h)
    rw [withoutImportant_of_eq_append hsplit hbehind]
    refine if_neg fun hword => ?_
    -- the word of a mark has no quote in it
    have hplain := isPlain_of_sameWord hword (by decide) q
      (mem_trimStart (isBlank_of_isQuote hquote) hq)
    simp [isPlain, hquote] at hplain
  · exact withoutImportant_of_not_mem hmem

end Font

/-! ## The line height as a text -/

theorem trimEnd_of_ink (ht : ∀ c ∈ t, isBlank c = false) : Text.trimEnd t = t := by
  induction t with
  | nil => rfl
  | cons c t ih =>
    obtain ⟨hc, ht⟩ := List.forall_mem_cons.mp ht
    rw [Text.trimEnd_cons, List.all_cons, hc, Bool.false_and, if_neg Bool.false_ne_true, ih ht]

namespace LineHeightText.IsSound

theorem ne_nil (hh : h.IsSound) : h.text ≠ [] := by
  simp [text, number, hh.whole_ne_nil]

theorem isPlain (hh : h.IsSound) : ∀ c ∈ h.text, Font.isPlain c = true ∧ c ≠ '!' := by
  have halphanum : ∀ c : Char, c.isAlphanum = true → Font.isPlain c = true ∧ c ≠ '!' := by
    refine fun c hc => ⟨Font.isPlain_of_isAlphanum hc, ?_⟩
    rintro rfl
    exact absurd hc (by decide)
  have hdigit : ∀ c : Char, c.isDigit = true → Font.isPlain c = true ∧ c ≠ '!' :=
    fun c hc => halphanum c (Bool.or_eq_true_iff.mpr (Or.inr hc))
  refine List.forall_mem_append.mpr ⟨List.forall_mem_append.mpr
    ⟨fun c hc => hdigit c (hh.whole c hc), ?_⟩, fun c hc => ?_⟩
  · split
    · exact fun c hc => absurd hc List.not_mem_nil
    · exact List.forall_mem_cons.mpr ⟨by decide, fun c hc => hdigit c (hh.fraction c hc)⟩
  · rcases hh.unit with hpercent | halpha
    · rw [hpercent, List.mem_singleton] at hc
      rw [hc]
      decide
    · exact halphanum c (Bool.or_eq_true_iff.mpr (Or.inl (halpha c hc)))

theorem ink (hh : h.IsSound) : ∀ c ∈ h.text, isBlank c = false := by
  intro c hc
  have hplain := (hh.isPlain c hc).1
  simp only [Font.isPlain, Bool.not_eq_true', Bool.or_eq_false_iff] at hplain
  exact hplain.1.1.1.1.1

theorem closesMarks (hh : h.IsSound) : Font.ClosesMarks h.text :=
  Font.closesMarks_of_not_mem fun hmem => (hh.isPlain '!' hmem).2 rfl

theorem withoutImportant (hh : h.IsSound) : Font.withoutImportant h.text = h.text := by
  have htrim := trimEnd_of_ink hh.ink
  rw [Font.withoutImportant_of_closesMarks (htrim.symm ▸ hh.closesMarks), htrim]

theorem trim (hh : h.IsSound) : Text.trim h.text = h.text := by
  obtain ⟨c, rest, hcons⟩ := List.exists_cons_of_ne_nil hh.ne_nil
  have hc := hh.ink c (hcons ▸ List.mem_cons_self)
  have hstart : Text.trimStart h.text = h.text := by
    rw [hcons, Text.trimStart, List.dropWhile_cons_of_neg (by simp [hc])]
  rw [Text.trim, hstart, trimEnd_of_ink hh.ink]

end LineHeightText.IsSound

/-! ## The settings in a directive -/

namespace Directive

theorem read?_both : read? "both".toList = some ⟨.inside, .both, none, none⟩ := by
  rfl

theorem tail?_settings {names : List Text} (hh : h.IsSound) {value : Float}
    (hfront : LineHeight.front? (h.text ++ ' ' :: t) = some (⟨value, h.unit⟩, ' ' :: t))
    (hlist : Font.Lists names t) :
    tail? (' ' :: (h.text ++ ' ' :: t)) = some (some ⟨value, h.unit⟩, some (' ' :: t)) := by
  obtain ⟨c, rest, hcons⟩ := List.exists_cons_of_ne_nil hh.ne_nil
  have hc := hh.ink c (hcons ▸ List.mem_cons_self)
  have hstart : Text.trimStart (' ' :: (h.text ++ ' ' :: t)) = h.text ++ ' ' :: t := by
    rw [Text.trimStart, List.dropWhile_cons_of_pos (by decide), hcons, List.cons_append,
      List.dropWhile_cons_of_neg (by simp [hc])]
  have hne : t ≠ [] := fun hnil => hlist.trimEnd.2 (by rw [hnil]; rfl)
  have htail : isFamilyTail (' ' :: t) = true := by
    simpa [isFamilyTail, hlist.isSingleLine, hne] using show isBlank ' ' = true by decide
  rw [tail?_of_front? (hstart.symm ▸ hfront) (by simp [hstart]), if_neg (List.cons_ne_nil _ _),
    if_pos htail]

/-- A directive gives the line height and the families that are written in it. -/
theorem read?_settings {names : List Text} (hh : h.IsSound) {value : Float}
    (hfront : ∀ rest : Text, (∀ c ∈ rest.head?, isBlank c = true) →
      LineHeight.front? (h.text ++ rest) = some (⟨value, h.unit⟩, rest))
    (hlist : Font.Lists names t) :
    read? ("both ".toList ++ (h.text ++ ' ' :: t)) =
      some ⟨.inside, .both, some ⟨value, h.unit⟩, some names⟩ := by
  obtain ⟨hend, hne⟩ := hlist.trimEnd
  have hvalue : Text.trim ("both ".toList ++ (h.text ++ ' ' :: t)) =
      "both".toList ++ ' ' :: (h.text ++ ' ' :: t.trimEnd) := by
    have hstart : Text.trimStart ("both ".toList ++ (h.text ++ ' ' :: t)) =
        ("both ".toList ++ h.text ++ [' ']) ++ t := by
      rw [Text.trimStart]
      simp [isBlank]
    rw [Text.trim, hstart, Text.trimEnd_append hne]
    simp
  have hplacement : placement? ("both".toList ++ ' ' :: (h.text ++ ' ' :: t.trimEnd)) =
      some (.both, ' ' :: (h.text ++ ' ' :: t.trimEnd)) :=
    placement?_eq_some_iff.mpr (keyword?_eq_some_iff.mpr ⟨rfl, rfl⟩)
  have hblank : ∀ c ∈ (' ' :: t.trimEnd).head?, isBlank c = true := by
    rintro c ⟨⟩
    decide
  have htail := tail?_settings hh (hfront _ hblank) hend
  have hspace : ∀ c ∈ [' '], isBlank c = true := by decide
  have hbehind : Text.trim (' ' :: t.trimEnd) = Text.trim t.trimEnd :=
    Text.trim_append_of_isBlank hspace t.trimEnd
  obtain ⟨htrim, hne'⟩ := hend.trim
  have hfamily : (((some (' ' :: t.trimEnd)).map Text.trim).filter fun f => !f.isEmpty).map
      Font.directiveFamilies = some names := by
    rw [Option.map_some, hbehind, Option.filter_some_pos (by simpa using hne'), Option.map_some,
      htrim.directiveFamilies]
  have hkeyword : keyword? "outside".toList
      ("both".toList ++ ' ' :: (h.text ++ ' ' :: t.trimEnd)) = none := rfl
  rw [read?, parse, hvalue, hkeyword]
  simp only [parseBehind, hplacement, htail, hfamily]
  rfl

end Directive

/-! ## The settings in declarations -/

namespace Font

/-- Declarations that say nothing of the font. -/
def IsSilent (declarations : List (Text × Text)) : Prop :=
  ∀ d ∈ declarations, d.1.lower ≠ "font".toList ∧ d.1.lower ≠ "font-family".toList ∧
    d.1.lower ≠ "line-height".toList

variable {silent : List (Text × Text)} {names : List Text}

theorem foldl_declare_of_isSilent (hsilent : IsSilent silent) (font : Ambient) :
    silent.foldl (fun font d => font.declare d.1 d.2) font = font := by
  induction silent with
  | nil => rfl
  | cons d silent ih =>
    obtain ⟨⟨hfont, hfamily, hlineHeight⟩, hsilent⟩ := List.forall_mem_cons.mp hsilent
    rw [List.foldl_cons, Ambient.declare, if_neg hfamily, if_neg hlineHeight, if_neg hfont,
      ih hsilent]

theorem declare_fontFamily (hlist : Lists names t) (font : Ambient) :
    font.declare "font-family".toList t = { font with family := names } := by
  have hend := hlist.trimEnd.1
  rw [Ambient.declare, withoutImportant_of_closesMarks hend.closesMarks, hend.families]
  rfl

theorem declare_lineHeight (hh : h.IsSound) (font : Ambient) :
    font.declare "line-height".toList h.text = { font with lineHeight := some h.text } := by
  rw [Ambient.declare, hh.withoutImportant]
  rfl

theorem isSizeToken_sixteen : IsSizeToken "16px".toList :=
  ⟨⟨by decide, by decide, by decide⟩, by decide, by decide, by decide⟩

theorem isGap_space : IsGap [' '] := ⟨by decide, by decide⟩

theorem shorthand?_settings (hh : h.IsSound) (hlist : Lists names t) :
    shorthand? ("16px/".toList ++ (h.text ++ ' ' :: t)) = some ⟨names, some h.text⟩ := by
  obtain ⟨htrim, hne⟩ := hlist.trim
  have htoken : IsToken h.text := isToken_of_isPlain hh.ne_nil fun c hc => (hh.isPlain c hc).1
  have hbegins : BeginsWith "16px".toList h.text ([' '] ++ t.trimEnd)
      ("16px".toList ++ ('/' :: h.text ++ ([' '] ++ t.trimEnd))) :=
    beginsWith_attached isSizeToken_sixteen htoken isGap_space
  have hstyles : AreStyles [] := fun style hstyle => absurd hstyle List.not_mem_nil
  have hread := shorthand?_of_beginsWith hstyles isSizeToken_sixteen isGap_space hne hbegins
  rw [htrim.families] at hread
  exact hread

theorem declare_font (hh : h.IsSound) (hlist : Lists names t) (font : Ambient) :
    font.declare "font".toList ("16px/".toList ++ (h.text ++ ' ' :: t)) =
      ⟨names, some h.text⟩ := by
  obtain ⟨hend, hne⟩ := hlist.trimEnd
  have htrim : Text.trimEnd ("16px/".toList ++ (h.text ++ ' ' :: t)) =
      "16px/".toList ++ (h.text ++ ' ' :: t.trimEnd) := by
    have := Text.trimEnd_append hne ("16px/".toList ++ (h.text ++ [' ']))
    simpa using this
  have hmarks : ClosesMarks ("16px/".toList ++ (h.text ++ ' ' :: t.trimEnd)) :=
    (closesMarks_of_not_mem (by decide)).append
      (hh.closesMarks.append ⟨fun hc => absurd hc (by decide), hend.closesMarks⟩)
  rw [Ambient.declare, withoutImportant_of_closesMarks (htrim.symm ▸ hmarks), htrim,
    shorthand?_settings hh hend]
  rfl

variable {before between behind : List (Text × Text)}

theorem ambient_declarations (hh : h.IsSound) (hlist : Lists names t) (hbefore : IsSilent before)
    (hbetween : IsSilent between) (hbehind : IsSilent behind) :
    ambient (before ++ ("font-family".toList, t) ::
      (between ++ ("line-height".toList, h.text) :: behind)) = ⟨names, some h.text⟩ := by
  rw [ambient, List.foldl_append, foldl_declare_of_isSilent hbefore, List.foldl_cons,
    declare_fontFamily hlist, List.foldl_append, foldl_declare_of_isSilent hbetween,
    List.foldl_cons, declare_lineHeight hh, foldl_declare_of_isSilent hbehind]

theorem ambient_shorthand (hh : h.IsSound) (hlist : Lists names t) (hbefore : IsSilent before)
    (hbehind : IsSilent behind) :
    ambient (before ++ ("font".toList, "16px/".toList ++ (h.text ++ ' ' :: t)) :: behind) =
      ⟨names, some h.text⟩ := by
  rw [ambient, List.foldl_append, foldl_declare_of_isSilent hbefore, List.foldl_cons,
    declare_font hh hlist, foldl_declare_of_isSilent hbehind]

end Font

/-! ## The metrics -/

open Font

/-- Of a directive's own settings none is taken from around it. -/
theorem resolve_of_given {d : Directive} {lineHeight : LineHeight} {names : List Text}
    (hlineHeight : d.lineHeight = some lineHeight) (hvalue : (lineHeight.value != 0.0) = true)
    (hfamily : d.fontFamily = some names) (font : Ambient) (table : FontTable)
    (defaultFamily : Text) (defaultLineHeight : Float) :
    Metrics.resolve d font table defaultFamily defaultLineHeight =
      ⟨table.lookup (names ++ [defaultFamily]), lineHeight.normalize⟩ := by
  have hgiven : (some lineHeight).filter (fun h => h.value != 0.0) = some lineHeight :=
    Option.filter_some_pos hvalue
  rw [Metrics.resolve, hlineHeight, hfamily, LineHeight.resolve, hgiven]
  rfl

/-- A directive without settings has those around it. -/
theorem resolve_of_ambient (hh : h.IsSound) {lineHeight : LineHeight}
    (hread : LineHeight.read? h.text = some lineHeight) {d : Directive}
    (hlineHeight : d.lineHeight = none) (hfamily : d.fontFamily = none) (names : List Text)
    (table : FontTable) (defaultFamily : Text) (defaultLineHeight : Float) :
    Metrics.resolve d ⟨names, some h.text⟩ table defaultFamily defaultLineHeight =
      ⟨table.lookup (names ++ [defaultFamily]), lineHeight.normalize⟩ := by
  rw [Metrics.resolve, hlineHeight, hfamily, LineHeight.resolve]
  simp [hh.trim, hread]

/-- A line height and a list of families give the same metrics in a directive, in declarations of
their own, and in a shorthand, whatever the fonts and the defaults are. In the directive this goes
for line heights that are read as another number than zero. -/
theorem resolve_settings (hh : h.IsSound) {entries : List FamilyEntry} (hne : entries ≠ [])
    (hentries : ∀ e ∈ entries, e.IsSimple) :
    ∃ lineHeight given bare, LineHeight.read? h.text = some lineHeight ∧
      Directive.read? ("both ".toList ++ (h.text ++ ' ' :: listed entries)) = some given ∧
      Directive.read? "both".toList = some bare ∧
      ∀ {before between behind : List (Text × Text)}, IsSilent before → IsSilent between →
        IsSilent behind → ∀ (table : FontTable) (defaultFamily : Text) (defaultLineHeight : Float),
          let resolve d declarations :=
            Metrics.resolve d (ambient declarations) table defaultFamily defaultLineHeight
          let metrics : Metrics :=
            ⟨table.lookup (entries.map (·.family.name) ++ [defaultFamily]), lineHeight.normalize⟩
          (lineHeight.value != 0.0 → ∀ declarations, resolve given declarations = metrics) ∧
            resolve bare (before ++ ("font-family".toList, listed entries) ::
              (between ++ ("line-height".toList, h.text) :: behind)) = metrics ∧
            resolve bare (before ++ ("font".toList, "16px/".toList ++
              (h.text ++ ' ' :: listed entries)) :: behind) = metrics := by
  have hlist : Lists (entries.map (·.family.name)) (listed entries) :=
    ⟨entries, hne, hentries, rfl, rfl⟩
  obtain ⟨value, hfront⟩ := hh.front?_append
  have hread : LineHeight.read? h.text = some ⟨value, h.unit⟩ := by
    have := hfront [] (by simp)
    rw [List.append_nil] at this
    rw [LineHeight.read?, this]
  refine ⟨⟨value, h.unit⟩, _, _, hread, Directive.read?_settings hh hfront hlist,
    Directive.read?_both, fun hbefore hbetween hbehind table defaultFamily defaultLineHeight => ?_⟩
  refine ⟨fun hvalue declarations => ?_, ?_, ?_⟩
  · exact resolve_of_given rfl hvalue rfl _ table defaultFamily defaultLineHeight
  · dsimp only
    rw [ambient_declarations hh hlist hbefore hbetween hbehind]
    exact resolve_of_ambient hh hread rfl rfl _ table defaultFamily defaultLineHeight
  · dsimp only
    rw [ambient_shorthand hh hlist hbefore hbehind]
    exact resolve_of_ambient hh hread rfl rfl _ table defaultFamily defaultLineHeight

/-- A name with a parenthesis and the mark `!important` between quotes, and one of two words. -/
def mixedEntries : List FamilyEntry :=
  [⟨[], .quoted '"' "(A !important".toList, " ".toList⟩,
    ⟨"\t".toList, .bare "Old".toList [([' '], "Style/é".toList)], []⟩]

theorem isSimple_of_mem_mixedEntries : ∀ e ∈ mixedEntries, e.IsSimple := by
  have hword : ∀ word ∈ ["Old".toList, "Style/é".toList], IsWord word := by
    intro word hword
    rcases List.mem_cons.mp hword with rfl | hword
    · exact ⟨by decide, by decide, by decide⟩
    · rw [List.mem_singleton.mp hword]
      exact ⟨by decide, by decide, by decide⟩
  refine List.forall_mem_cons.mpr ⟨?_, List.forall_mem_cons.mpr ⟨?_, by simp⟩⟩
  · exact { before := by decide, family := ⟨by decide, by decide, by decide⟩, after := by decide,
            simple := ⟨by decide, by decide⟩, line_before := by decide, line_after := by decide }
  · refine { before := by decide, family := ⟨hword _ (by decide), ?_⟩, after := by decide,
             simple := ⟨by decide, by decide⟩, line_before := by decide, line_after := by decide }
    rintro m (_ | ⟨_, hm⟩)
    · exact ⟨isGap_space, hword _ (by decide)⟩
    · exact absurd hm List.not_mem_nil

theorem resolve_settings_mixedEntries :
    LineHeightText.IsSound ⟨"050".toList, "0".toList, "%".toList⟩ ∧ mixedEntries ≠ [] ∧
      (∀ e ∈ mixedEntries, e.IsSimple) ∧ IsSilent [("color".toList, "red".toList)] ∧
      (LineHeight.read? "050.0%".toList).any (·.value != 0.0) ∧
      ∃ given bare,
        Directive.read? "both 050.0% \"(A !important\" ,\tOld Style/é".toList = some given ∧
        Directive.read? "both".toList = some bare ∧
        ∀ table default defaultLineHeight,
          let resolve d declarations :=
            Metrics.resolve d (ambient declarations) table default defaultLineHeight
          resolve given [("color".toList, "red".toList)] =
              resolve bare [("font-family".toList, "\"(A !important\" ,\tOld Style/é".toList),
                ("color".toList, "red".toList), ("line-height".toList, "050.0%".toList)] ∧
            resolve given [("color".toList, "red".toList)] =
              resolve bare
                [("font".toList, "16px/050.0% \"(A !important\" ,\tOld Style/é".toList)] := by
  have hsound : LineHeightText.IsSound ⟨"050".toList, "0".toList, "%".toList⟩ :=
    ⟨by decide, by decide, by decide, Or.inl rfl⟩
  have hne : mixedEntries ≠ [] := List.cons_ne_nil _ _
  have hsilent : IsSilent [("color".toList, "red".toList)] := by
    intro d hd
    rw [List.mem_singleton.mp hd]
    decide
  have hnone : IsSilent [] := fun d hd => absurd hd List.not_mem_nil
  have hvalue : (LineHeight.read? "050.0%".toList).any (·.value != 0.0) := by decide +kernel
  refine ⟨hsound, hne, isSimple_of_mem_mixedEntries, hsilent, hvalue, ?_⟩
  obtain ⟨lineHeight, given, bare, hread, hgiven, hbare, hresolve⟩ :=
    resolve_settings hsound hne isSimple_of_mem_mixedEntries
  refine ⟨given, bare, hgiven, hbare, fun table default defaultLineHeight => ?_⟩
  obtain ⟨hfirst, hsecond, -⟩ := hresolve hnone hsilent hnone table default defaultLineHeight
  obtain ⟨-, -, hthird⟩ := hresolve hnone hnone hnone table default defaultLineHeight
  rw [show LineHeight.read? "050.0%".toList = some lineHeight from hread] at hvalue
  have hgivenMetrics := hfirst hvalue [("color".toList, "red".toList)]
  exact ⟨hgivenMetrics.trans hsecond.symm, hgivenMetrics.trans hthird.symm⟩

end LeadingTrim
