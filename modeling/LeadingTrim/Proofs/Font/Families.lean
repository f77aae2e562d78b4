/-
# Family lists as they are written

A family name is written between quotes or as a row of words (`FamilyName`), and a list is written
with commas between the names and blanks around them (`FamilyEntry`). The splitter at the commas
comes back to the outside behind each name, whatever stands between quotes (`isWhole_text`), so the
pieces are the entries (`families_joinWith`). An entry without its blanks is the name as written
(`trim_text`), and from that the name is read (`familyName_text`).
-/

import LeadingTrim.Proofs.Font.Shorthand

namespace LeadingTrim.Text

/-! ## Joined texts -/

theorem splitOn_of_not_mem {separator : Char} {x : Text} (hx : separator ∉ x) :
    splitOn separator x = [x] := by
  have happend := splitOn_append hx (show splitOn separator [] = [[]] from rfl)
  rwa [List.append_nil] at happend

/-- A joined text is split where it was joined. -/
theorem splitOn_joinWith {separator : Char} {xs : List Text} (hne : xs ≠ [])
    (hxs : ∀ x ∈ xs, separator ∉ x) : splitOn separator (joinWith [separator] xs) = xs := by
  induction xs with
  | nil => exact absurd rfl hne
  | cons x xs ih =>
    obtain ⟨hx, hxs⟩ := List.forall_mem_cons.mp hxs
    cases xs with
    | nil => exact splitOn_of_not_mem hx
    | cons y xs =>
      rw [joinWith_cons_cons, List.singleton_append,
        splitOn_append hx (splitOn_separator separator _), List.append_nil,
        ih (List.cons_ne_nil y xs) hxs]

/-! ## Words -/

theorem words_cons_of_isBlank {c : Char} (hc : isBlank c = true) (t : Text) :
    words (c :: t) = words t := by
  cases t <;> simp [words, hc]

theorem words_blank_append {gap : Text} (hgap : ∀ c ∈ gap, isBlank c = true) (t : Text) :
    words (gap ++ t) = words t := by
  induction gap with
  | nil => rfl
  | cons c gap ih =>
    obtain ⟨hc, hgap⟩ := List.forall_mem_cons.mp hgap
    rw [List.cons_append, words_cons_of_isBlank hc, ih hgap]

/-- A word in front of a blank or at the end is the first one. -/
theorem words_append {word rest : Text} (hne : word ≠ []) (hword : ∀ c ∈ word, isBlank c = false)
    (hrest : ∀ c ∈ rest.head?, isBlank c = true) : words (word ++ rest) = word :: words rest := by
  induction word with
  | nil => exact absurd rfl hne
  | cons c word ih =>
    obtain ⟨hc, hword⟩ := List.forall_mem_cons.mp hword
    have hc : ¬ isBlank c = true := by simp [hc]
    cases word with
    | nil =>
      cases rest with
      | nil => simp [words, hc]
      | cons d rest =>
        have hd := hrest d rfl
        simp [words, hc, hd]
    | cons d word =>
      have hd : ¬ isBlank d = true := by simp [hword d List.mem_cons_self]
      have hrest := ih (List.cons_ne_nil d word) hword
      rw [List.cons_append] at hrest
      rw [List.cons_append, List.cons_append, words, if_neg hc]
      simp only [if_neg hd, hrest]

namespace Splitter

variable {p : Splitter}

/-- Texts that are not split are had back from the text in which they are joined. -/
theorem split_joinWith {separator : Char} (hends : p.ends Depth.outside separator = true)
    {xs : List Text} (hne : xs ≠ []) (hxs : ∀ x ∈ xs, p.IsWhole x) :
    (p.split (joinWith [separator] xs)).map Prod.fst = xs := by
  induction xs with
  | nil => exact absurd rfl hne
  | cons x xs ih =>
    obtain ⟨hx, hxs⟩ := List.forall_mem_cons.mp hxs
    cases xs with
    | nil => rw [joinWith, hx.split]; rfl
    | cons y xs =>
      have hseparates : p.ends (x.foldl p.next Depth.outside) separator = true := by
        rwa [hx.closed]
      have hpieces := pieces_append_separator hx.split hseparates (joinWith [separator] (y :: xs))
      rw [hx.closed] at hpieces
      rw [joinWith_cons_cons, List.singleton_append, split, hpieces, List.map_cons, ← split,
        ih (List.cons_ne_nil y xs) hxs]

end Splitter

end LeadingTrim.Text

namespace LeadingTrim.Font

open Text (isBlank isQuote Depth)

/-! ## Names -/

/-- A character that means nothing to the reader of a family list. -/
def isQuiet (c : Char) : Bool := !(isQuote c || c == ',' || c == '(' || c == ')' || c == '\\')

/-- A word of a family name. -/
structure IsWord (word : Text) : Prop where
  ne_nil : word ≠ []
  ink : ∀ c ∈ word, isBlank c = false
  quiet : ∀ c ∈ word, isQuiet c = true

/-- A family name as it is written. -/
inductive FamilyName
  /-- Between a pair of quotes. -/
  | quoted (q : Char) (name : Text)
  /-- A word, and more words with the gap in front of each. -/
  | bare (word : Text) (more : List (Text × Text))

/-- The text of the name. -/
def FamilyName.text : FamilyName → Text
  | .quoted q name => q :: (name ++ [q])
  | .bare word more => word ++ more.flatMap fun m => m.1 ++ m.2

/-- The name: what is between the quotes, or the words with single spaces between them. -/
def FamilyName.name : FamilyName → Text
  | .quoted _ name => name
  | .bare word more => Text.joinWith [' '] (word :: more.map Prod.snd)

/-- No quote is inside the quotes, and words are words. -/
def FamilyName.IsSound : FamilyName → Prop
  | .quoted q name => isQuote q = true ∧ q ∉ name ∧ '\\' ∉ name
  | .bare word more => IsWord word ∧ ∀ m ∈ more, IsGap m.1 ∧ IsWord m.2

variable {f : FamilyName}

theorem isBlank_of_isQuote {q : Char} (hq : isQuote q = true) : isBlank q = false := by
  simp only [isQuote, Bool.or_eq_true, beq_iff_eq] at hq
  rcases hq with rfl | rfl <;> decide

theorem isQuiet_of_isBlank {c : Char} (hc : isBlank c = true) : isQuiet c = true := by
  rw [isQuiet, Bool.not_eq_true', Bool.eq_false_iff]
  intro h
  simp only [isQuote, Bool.or_eq_true, beq_iff_eq] at h
  rcases h with ((((rfl | rfl) | rfl) | rfl) | rfl) | rfl <;> exact absurd hc (by decide)

theorem isWhole_of_isQuiet {t : Text} (h : ∀ c ∈ t, isQuiet c = true) : commas.IsWhole t := by
  refine Text.Splitter.isWhole_of_forall fun c hc => ?_
  have hquiet := h c hc
  simp only [isQuiet, Bool.not_eq_true', Bool.or_eq_false_iff, beq_eq_false_iff_ne, ne_eq] at hquiet
  obtain ⟨⟨⟨⟨hquote, hcomma⟩, hopen⟩, hclose⟩, hescape⟩ := hquiet
  constructor
  · simp [Text.Splitter.ends, commas, hcomma]
  · simp [Text.Splitter.next, commas, Depth.outside, hquote, hopen, hclose, hescape]

theorem isQuiet_of_mem_bare {word : Text} {more : List (Text × Text)}
    (h : (FamilyName.bare word more).IsSound) :
    ∀ c ∈ (FamilyName.bare word more).text, isQuiet c = true := by
  refine List.forall_mem_append.mpr ⟨h.1.quiet, fun c hc => ?_⟩
  obtain ⟨m, hm, hc⟩ := List.mem_flatMap.mp hc
  rcases List.mem_append.mp hc with hc | hc
  · exact isQuiet_of_isBlank ((h.2 m hm).1.blank c hc)
  · exact (h.2 m hm).2.quiet c hc

/-- A name as it is written is not split at commas. -/
theorem FamilyName.IsSound.isWhole_text (h : f.IsSound) : commas.IsWhole f.text := by
  cases f with
  | quoted q name => exact Text.Splitter.isWhole_quoted h.1 h.2.1 h.2.2
  | bare word more => exact isWhole_of_isQuiet (isQuiet_of_mem_bare h)

/-- A name as it is written begins and ends with characters that are not blank. -/
theorem FamilyName.IsSound.ink_text (h : f.IsSound) :
    (∃ c rest, f.text = c :: rest ∧ isBlank c = false) ∧
      ∃ front c, f.text = front ++ [c] ∧ isBlank c = false := by
  cases f with
  | quoted q name =>
    exact ⟨⟨q, name ++ [q], rfl, isBlank_of_isQuote h.1⟩,
      ⟨q :: name, q, rfl, isBlank_of_isQuote h.1⟩⟩
  | bare word more =>
    constructor
    · obtain ⟨c, word', rfl⟩ := List.exists_cons_of_ne_nil h.1.ne_nil
      exact ⟨c, _, rfl, h.1.ink c List.mem_cons_self⟩
    · -- the last word ends the name
      have hlast : ∀ front word : Text, IsWord word →
          ∃ front' c, front ++ word = front' ++ [c] ∧ isBlank c = false := by
        intro front word hword
        have hconcat := List.dropLast_concat_getLast hword.ne_nil
        exact ⟨front ++ word.dropLast, word.getLast hword.ne_nil,
          by rw [List.append_assoc, hconcat], hword.ink _ (List.getLast_mem hword.ne_nil)⟩
      rcases List.eq_nil_or_concat more with rfl | ⟨more, m, rfl⟩
      · simpa [FamilyName.text] using hlast [] word h.1
      · have hm := (h.2 m (by simp)).2
        simpa [FamilyName.text] using
          hlast (word ++ (more.flatMap fun m => m.1 ++ m.2) ++ m.1) m.2 hm

theorem words_bare {word : Text} {more : List (Text × Text)}
    (h : (FamilyName.bare word more).IsSound) :
    Text.words (FamilyName.bare word more).text = word :: more.map Prod.snd := by
  obtain ⟨hword, hmore⟩ := h
  rw [FamilyName.text]
  induction more generalizing word with
  | nil => exact Text.words_append hword.ne_nil hword.ink (by simp)
  | cons m more ih =>
    obtain ⟨⟨hgap, hnext⟩, hmore⟩ := List.forall_mem_cons.mp hmore
    have hhead : ∀ c ∈ ((m :: more).flatMap fun m => m.1 ++ m.2).head?, isBlank c = true := by
      obtain ⟨c, gap, hcons⟩ := List.exists_cons_of_ne_nil hgap.ne_nil
      intro d hd
      simp only [List.flatMap_cons, hcons, List.cons_append, List.head?_cons,
        Option.mem_some_iff] at hd
      exact hd ▸ hgap.blank c (hcons ▸ List.mem_cons_self)
    rw [Text.words_append hword.ne_nil hword.ink hhead, List.flatMap_cons, List.append_assoc,
      Text.words_blank_append hgap.blank, ih hnext hmore]
    rfl

theorem quoted?_of_isQuote_eq_false {c : Char} (hc : isQuote c = false) (rest : Text) :
    quoted? (c :: rest) = none := by
  rw [quoted?, hc, Bool.false_and, if_neg Bool.false_ne_true]

theorem quoted?_quoted {q : Char} (hq : isQuote q = true) (name : Text) :
    quoted? (q :: (name ++ [q])) = some name := by
  simp [quoted?, hq]

theorem quoted?_bare {word : Text} {more : List (Text × Text)}
    (h : (FamilyName.bare word more).IsSound) :
    quoted? (FamilyName.bare word more).text = none := by
  obtain ⟨⟨c, rest, hcons, -⟩, -⟩ := FamilyName.IsSound.ink_text h
  have hquiet := isQuiet_of_mem_bare h c (hcons ▸ List.mem_cons_self)
  rw [hcons]
  refine quoted?_of_isQuote_eq_false ?_ rest
  simp only [isQuiet, Bool.not_eq_true', Bool.or_eq_false_iff] at hquiet
  exact hquiet.1.1.1.1

/-- The name is read from what is written. -/
theorem FamilyName.IsSound.familyName_text (h : f.IsSound) : familyName f.text = f.name := by
  cases f with
  | quoted q name => exact congrArg (Option.getD · _) (quoted?_quoted h.1 name)
  | bare word more =>
    rw [familyName, quoted?_bare h, words_bare h]
    rfl

/-! ## Entries of lists -/

/-- A name in a list, with the blanks around it. -/
structure FamilyEntry where
  /-- The blanks in front. -/
  before : Text
  /-- The name. -/
  family : FamilyName
  /-- The blanks behind. -/
  after : Text

/-- The text of an entry. -/
def FamilyEntry.text (e : FamilyEntry) : Text := e.before ++ (e.family.text ++ e.after)

/-- The name is sound, and around it are blanks. -/
structure FamilyEntry.IsSound (e : FamilyEntry) : Prop where
  before : ∀ c ∈ e.before, isBlank c = true
  family : e.family.IsSound
  after : ∀ c ∈ e.after, isBlank c = true

variable {e : FamilyEntry}

theorem FamilyEntry.IsSound.isWhole_text (h : e.IsSound) : commas.IsWhole e.text :=
  (isWhole_of_isQuiet fun c hc => isQuiet_of_isBlank (h.before c hc)).append
    (h.family.isWhole_text.append
      (isWhole_of_isQuiet fun c hc => isQuiet_of_isBlank (h.after c hc)))

/-- A text that ends with a character that is not blank is trimmed up to that one. -/
theorem trimEnd_append_of_isBlank {front gap : Text} {c : Char} (hc : isBlank c = false)
    (hgap : ∀ c ∈ gap, isBlank c = true) :
    Text.trimEnd (front ++ [c] ++ gap) = front ++ [c] :=
  Text.trimEnd_append_blanks (by simpa using hc) hgap

/-- An entry without its blanks is the name as written. -/
theorem FamilyEntry.IsSound.trim_text (h : e.IsSound) : Text.trim e.text = e.family.text := by
  obtain ⟨⟨c, rest, hcons, hc⟩, ⟨front, d, hconcat, hd⟩⟩ := h.family.ink_text
  rw [FamilyEntry.text, Text.trim_append_of_isBlank h.before, Text.trim, Text.trimStart, hcons,
    List.cons_append, List.dropWhile_cons_of_neg (by simp [hc]), ← List.cons_append, ← hcons,
    hconcat, trimEnd_append_of_isBlank hd h.after]

theorem commas_ends_comma : commas.ends Depth.outside ',' = true := by decide

/-- The families of entries that are joined are those of the entries one by one. -/
theorem families_joinWith {xs : List Text} (hne : xs ≠ []) (hxs : ∀ x ∈ xs, commas.IsWhole x) :
    families (Text.joinWith [','] xs) =
      ((xs.map Text.trim).filter fun entry => !entry.isEmpty).map familyName := by
  have hsplit := congrArg (List.map Text.trim)
    (Text.Splitter.split_joinWith commas_ends_comma hne hxs)
  rw [List.map_map] at hsplit
  exact congrArg (fun l => (l.filter fun entry => !entry.isEmpty).map familyName) hsplit

/-- Without their blanks entries are the names as written, and none of them is left out. -/
theorem filter_trim_text {entries : List FamilyEntry} (h : ∀ e ∈ entries, e.IsSound) :
    ((entries.map FamilyEntry.text).map Text.trim).filter (fun entry => !entry.isEmpty) =
      entries.map (·.family.text) := by
  have htrim : (entries.map FamilyEntry.text).map Text.trim = entries.map (·.family.text) := by
    rw [List.map_map]
    exact List.map_congr_left fun e he => (h e he).trim_text
  rw [htrim, List.filter_eq_self.mpr]
  refine List.forall_mem_map.mpr fun e he => ?_
  obtain ⟨⟨c, rest, hcons, -⟩, -⟩ := (h e he).family.ink_text
  simp [hcons]

/-- A list of families as it is written is read as the names in it: what stands between quotes, and
words with single spaces between them. -/
theorem families_text {entries : List FamilyEntry} (h : ∀ e ∈ entries, e.IsSound) :
    families (Text.joinWith [','] (entries.map FamilyEntry.text)) =
      entries.map (·.family.name) := by
  by_cases hne : entries = []
  · rw [hne]
    rfl
  · have hwhole : ∀ x ∈ entries.map FamilyEntry.text, commas.IsWhole x :=
      List.forall_mem_map.mpr fun e he => (h e he).isWhole_text
    rw [families_joinWith (by simpa using hne) hwhole, filter_trim_text h, List.map_map]
    exact List.map_congr_left fun e he => (h e he).family.familyName_text

/-- Names with commas, blanks and a parenthesis between quotes, an empty one, and one of two words
with a line break between them. -/
def variedEntries : List FamilyEntry :=
  [⟨[' '], .quoted '"' " A,(b) 's".toList, []⟩, ⟨[], .quoted '\'' [], "\t".toList⟩,
    ⟨"\u2003".toList, .bare "Old".toList [("\r\n ".toList, "Style/é".toList)], ['\n']⟩]

theorem families_text_variedEntries :
    (∀ e ∈ variedEntries, e.IsSound) ∧
      families " \" A,(b) 's\",''\t,\u2003Old\r\n Style/é\n".toList =
        [" A,(b) 's".toList, [], "Old Style/é".toList] := by
  have hword : ∀ word ∈ ["Old".toList, "Style/é".toList], IsWord word := by
    intro word hword
    rcases List.mem_cons.mp hword with rfl | hword
    · exact ⟨by decide, by decide, by decide⟩
    · rw [List.mem_singleton.mp hword]
      exact ⟨by decide, by decide, by decide⟩
  have hsound : ∀ e ∈ variedEntries, e.IsSound := by
    simp only [variedEntries, List.forall_mem_cons, List.not_mem_nil, false_implies, implies_true,
      and_true]
    refine ⟨⟨by decide, ⟨by decide, by decide, by decide⟩, by decide⟩,
      ⟨by decide, ⟨by decide, by decide, by decide⟩, by decide⟩, by decide,
      ⟨hword _ (by decide), ?_⟩, by decide⟩
    rintro m (_ | ⟨_, hm⟩)
    · exact ⟨⟨by decide, by decide⟩, hword _ (by decide)⟩
    · exact absurd hm List.not_mem_nil
  exact ⟨hsound, families_text hsound⟩

end LeadingTrim.Font
