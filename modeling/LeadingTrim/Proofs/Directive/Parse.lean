/-
# Reading directives by their grammar

The reader takes a value apart from left to right and does not go back as the grammar does, but for
one case: a number that does not end as a line height is read again as a part of a family list. Each
step of the reader is compared with the part of the grammar that it stands for, from the tail
(`isTail_tail?`) over the placement (`first?_placement`) to the whole value (`isReading_parse`).
What the pieces of the match mean is what is read, and nothing else is read.
-/

import Mathlib.Data.List.Forall2
import LeadingTrim.Proofs.Directive.Grammar
import LeadingTrim.Trimmer

namespace LeadingTrim.Directive

open Text (Pattern Way isBlank)
open Text.Pattern

variable {β : Type} {pieces : Pieces} {last : Option Char} {t : Text}

/-! ## Numbers that can be read -/

theorem toLower_eq_self {c : Char} (hc : c.isDigit = true ∨ c = '.') : c.toLower = c := by
  rcases hc with hc | rfl
  · simp only [Char.isDigit, ge_iff_le, Bool.and_eq_true, decide_eq_true_eq,
      UInt32.le_iff_toNat_le, Char.toNat_val, Char.reduceToNat] at hc
    unfold Char.toLower
    rw [dif_neg]
    simp only [ge_iff_le, UInt32.le_iff_toNat_le, Char.toNat_val, Char.reduceToNat]
    omega
  · rfl

/-- A text that begins like a number is not one of the words that are numbers. -/
theorem float?_eq_unsigned? {c : Char} (hc : c.isDigit = true ∨ c = '.') (rest : Text) :
    Decimal.float? (c :: rest) = Decimal.unsigned? (c :: rest) := by
  have hne : ∀ d ∈ ['-', '+', 'i', 'n'], c ≠ d := by
    rintro d hd rfl
    revert hc
    revert hd
    simp only [List.mem_cons, List.not_mem_nil, or_false]
    rintro (rfl | rfl | rfl | rfl) <;> decide
  have hword : ∀ d w, d ∈ ['-', '+', 'i', 'n'] → d.toLower = d →
      Text.sameWord (c :: rest) (d :: w) = false := by
    intro d w hd hlower
    simp only [Text.sameWord, Text.lower, List.map_cons, toLower_eq_self hc, hlower]
    exact beq_eq_false_iff_ne.mpr fun h => hne d hd (List.cons.inj h).1
  rw [Decimal.float?]
  · simp [hword]
  · exact fun rest' heq => hne '-' (by simp) (List.cons.inj heq).1
  · exact fun rest' heq => hne '+' (by simp) (List.cons.inj heq).1

/-- Digits with decimals, digits alone and decimals alone are numbers. -/
theorem exists_unsigned? {whole fraction : Text} (hwhole : ∀ c ∈ whole, c.isDigit = true)
    (hfraction : ∀ c ∈ fraction, c.isDigit = true) :
    (whole ≠ [] → ∃ value, Decimal.unsigned? whole = some value) ∧
      (fraction ≠ [] → ∃ value, Decimal.unsigned? (whole ++ '.' :: fraction) = some value) := by
  have htake : ∀ l : Text, (∀ c ∈ l, c.isDigit = true) →
      l.takeWhile Char.isDigit = l ∧ l.dropWhile Char.isDigit = [] := fun l hl =>
    ⟨List.takeWhile_eq_self_iff.mpr hl, List.dropWhile_eq_nil_iff.mpr hl⟩
  constructor
  · intro hne
    obtain ⟨h, h'⟩ := htake whole hwhole
    simp [Decimal.unsigned?, h, h', hne]
  · intro hne
    obtain ⟨h, h'⟩ := htake fraction hfraction
    have hpoint : ¬ Char.isDigit '.' = true := by decide
    have hw : (whole ++ '.' :: fraction).takeWhile Char.isDigit = whole := by
      rw [List.takeWhile_append_of_pos hwhole, List.takeWhile_cons_of_neg hpoint, List.append_nil]
    have hd : (whole ++ '.' :: fraction).dropWhile Char.isDigit = '.' :: fraction := by
      rw [List.dropWhile_append_of_pos hwhole, List.dropWhile_cons_of_neg hpoint]
    simp [Decimal.unsigned?, hw, hd, h, h', hne]

/-- The number of a line height can be read. -/
theorem exists_float? (h : LineHeight.numberLength t ≠ 0) :
    ∃ value, Decimal.float? (t.take (LineHeight.numberLength t)) = some value ∧
      Decimal.unsigned? (t.take (LineHeight.numberLength t)) = some value := by
  have hdigits : ∀ l : Text, ∀ c ∈ l.takeWhile Char.isDigit, c.isDigit = true := fun l =>
    List.all_eq_true.mp List.all_takeWhile
  have hread : ∀ number : Text, (∃ c rest, number = c :: rest ∧ (c.isDigit = true ∨ c = '.')) →
      (∃ value, Decimal.unsigned? number = some value) →
      ∃ value, Decimal.float? number = some value ∧ Decimal.unsigned? number = some value := by
    rintro _ ⟨c, rest, rfl, hc⟩ ⟨value, hvalue⟩
    exact ⟨value, (float?_eq_unsigned? hc rest).trans hvalue, hvalue⟩
  rcases numberLength_cases t with ⟨rest, -, hfraction, -, htake, -⟩ | ⟨-, hlength, htake, -⟩
  · rw [htake]
    refine hread _ ?_ ((exists_unsigned? (hdigits t) (hdigits rest)).2 hfraction)
    cases hwhole : t.takeWhile Char.isDigit with
    | nil => exact ⟨'.', _, rfl, Or.inr rfl⟩
    | cons c whole =>
      exact ⟨c, _, rfl, Or.inl (hdigits t c (hwhole ▸ List.mem_cons_self))⟩
  · rw [htake]
    have hne : t.takeWhile Char.isDigit ≠ [] := fun hnil => h (hlength.mpr hnil)
    refine hread _ ?_ ((exists_unsigned? (hdigits t) (hdigits t)).1 hne)
    obtain ⟨c, whole, hwhole⟩ := List.exists_cons_of_ne_nil hne
    exact ⟨c, whole, hwhole, Or.inl (hdigits t c (hwhole ▸ List.mem_cons_self))⟩

/-! ## Trimmed texts -/

/-- Blanks in front do not matter for the trimmed text. -/
theorem trim_cons_trimStart {c : Char} (hc : isBlank c = true) (t : Text) :
    Text.trim (c :: Text.trimStart t) = Text.trim t := by
  have h : Text.trimStart (c :: Text.trimStart t) = Text.trimStart t := by
    rw [Text.trimStart, List.dropWhile_cons_of_pos hc, Text.trimStart, List.dropWhile_idempotent]
  rw [Text.trim, h, ← Text.trim]

/-- A text with a character that is not blank is not trimmed to nothing. -/
theorem trim_ne_nil {c : Char} {t : Text} (hc : isBlank c = false) (hmem : c ∈ t) :
    Text.trim t ≠ [] := by
  intro hnil
  have hall := List.all_eq_true.mp (Text.trimEnd_eq_nil_iff.mp hnil)
  rw [← Text.takeWhile_append_trimStart t, List.mem_append] at hmem
  rcases hmem with hmem | hmem
  · rw [List.mem_takeWhile_imp hmem] at hc
    exact absurd hc (by decide)
  · rw [hall c hmem] at hc
    exact absurd hc (by decide)

/-- The last character, if there is one, is not blank. -/
def EndsInk (t : Text) : Prop := ∀ c ∈ t.getLast?, isBlank c = false

theorem EndsInk.of_suffix {s t : Text} (ht : EndsInk t) (hsuffix : s <:+ t) : EndsInk s := by
  intro c hc
  obtain ⟨front, rfl⟩ := hsuffix
  refine ht c ?_
  rw [List.getLast?_append, Option.mem_def.mp hc]
  rfl

theorem endsInk_trimEnd (t : Text) : EndsInk (Text.trimEnd t) :=
  fun _ hc => Text.isBlank_of_mem_getLast?_trimEnd hc

theorem isBlank_of_trimStart_eq_cons {c : Char} {rest : Text} (h : Text.trimStart t = c :: rest) :
    isBlank c = false := by
  have hhead := List.head?_dropWhile_not isBlank t
  rw [show t.dropWhile isBlank = c :: rest from h] at hhead
  simpa using hhead

/-- Nothing is left to pass over in front of a trimmed text. -/
theorem trimStart_trim (t : Text) : Text.trimStart (Text.trim t) = Text.trim t := by
  obtain ⟨tail, happend, -⟩ := Text.exists_trimEnd_append (Text.trimStart t)
  cases h : Text.trim t with
  | nil => rfl
  | cons c rest =>
    rw [Text.trim] at h
    rw [h, List.cons_append] at happend
    rw [Text.trimStart, List.dropWhile_cons_of_neg]
    simp [isBlank_of_trimStart_eq_cons happend]

/-! ## Family lists -/

theorem isTrimmed_trim (t : Text) : IsTrimmed t t.trim := by
  refine ⟨?_, ?_, fun c hc => Text.isBlank_of_mem_getLast?_trimEnd hc⟩
  · obtain ⟨back, happend, hback⟩ := Text.exists_trimEnd_append (Text.trimStart t)
    refine ⟨t.takeWhile isBlank, back, ?_, List.all_eq_true.mp List.all_takeWhile,
      List.all_eq_true.mp hback⟩
    rw [List.append_assoc, Text.trim, ← happend, Text.takeWhile_append_trimStart]
  · intro c hc
    rw [← trimStart_trim t] at hc
    obtain ⟨rest, hrest⟩ := List.head?_eq_some_iff.mp hc
    exact isBlank_of_trimStart_eq_cons hrest

/-- A text is quoted exactly if it consists of a text between two equal quotes. -/
theorem quoted?_eq_some_iff {t name : Text} :
    Font.quoted? t = some name ↔ ∃ q, (q = '"' ∨ q = '\'') ∧ t = q :: (name ++ [q]) := by
  constructor
  · intro h
    unfold Font.quoted? at h
    split at h
    · cases h
    next q rest =>
      rw [Option.ite_none_right_eq_some, Bool.and_eq_true, beq_iff_eq] at h
      obtain ⟨⟨hquote, hlast⟩, hname⟩ := h
      obtain ⟨inner, rfl⟩ := List.getLast?_eq_some_iff.mp hlast
      rw [List.dropLast_concat, Option.some.injEq] at hname
      refine ⟨q, ?_, by rw [hname]⟩
      simpa only [Text.isQuote, Bool.or_eq_true, beq_iff_eq] using hquote
  · rintro ⟨q, rfl | rfl, rfl⟩
    · simp [Font.quoted?, Text.isQuote]
    · simp [Font.quoted?, Text.isQuote]

theorem unquotes_unquote (t : Text) : Unquotes t (Font.unquote t) := by
  rw [Font.unquote]
  cases hquoted : Font.quoted? t with
  | some name =>
    obtain ⟨q, hq, rfl⟩ := quoted?_eq_some_iff.mp hquoted
    exact .quoted q name hq
  | none =>
    refine .bare t fun q inner hq heq => ?_
    rw [quoted?_eq_some_iff.mpr ⟨q, hq, heq⟩] at hquoted
    exact absurd hquoted (Option.some_ne_none inner)

theorem listNames_directiveFamilies (list : Text) :
    ListNames list (Font.directiveFamilies list.trim) := by
  refine ⟨list.trim, Text.splitOn ',' list.trim, isTrimmed_trim list,
    Text.splitOn_ne_nil ',' list.trim, (Text.joinWith_splitOn ',' list.trim).symm,
    fun entry hentry => Text.not_mem_of_mem_splitOn hentry, ?_⟩
  rw [Font.directiveFamilies, List.forall₂_map_right_iff, List.forall₂_same]
  exact fun entry _ => ⟨entry.trim, isTrimmed_trim entry, unquotes_unquote entry.trim⟩

/-! ## The tail -/

/-- What the pieces behind the placement mean. -/
structure TailMeans (pieces : Pieces) (lineHeight : Option LineHeight) (family : Option Text) :
    Prop where
  lineHeight : match pieces.lookup .number with
    | none => lineHeight = none
    | some number => ∃ value, Decimal.float? number = some value ∧
        lineHeight = some ⟨value, (pieces.lookup .unit).getD []⟩
  family : (family.map Text.trim).filter (fun list => !list.isEmpty) =
    (pieces.lookup .family).map Text.trim

/-- What is read behind the placement is what the pieces mean that are found there, in addition to
the ones in front. -/
def IsTail (pieces : Pieces) (found : Option Pieces)
    (read : Option (Option LineHeight × Option Text)) : Prop :=
  match found with
  | none => read = none
  | some found => ∃ lineHeight family, read = some (lineHeight, family) ∧
      TailMeans found lineHeight family ∧
      found.lookup .mode = pieces.lookup .mode ∧ found.lookup .placement = pieces.lookup .placement

/-- The pieces that are found in front of the tail. -/
def IsFront (pieces : Pieces) : Prop := ∀ x ∈ pieces, x.1 = .mode ∨ x.1 = .placement

theorem IsFront.lookup_eq_none (h : IsFront pieces) :
    pieces.lookup .number = none ∧ pieces.lookup .unit = none ∧ pieces.lookup .family = none := by
  simp only [List.lookup_eq_none_iff]
  refine ⟨fun x hx => ?_, fun x hx => ?_, fun x hx => ?_⟩ <;>
    rcases h x hx with h | h <;> simp [h]

theorem lookup_cons_of_ne {name other : Piece} (h : name ≠ other) (piece : Text) :
    ((other, piece) :: pieces : Pieces).lookup name = pieces.lookup name := by
  rw [List.lookup_cons, beq_eq_false_iff_ne.mpr h]

/-- The pieces of a line height are found in front of those that are found before. -/
theorem IsFront.lookup_lineHeight (h : IsFront pieces) (number behind : Text) {found : Pieces}
    (hfound : found = if LineHeight.unitLength behind = 0 then (.number, number) :: pieces
      else (.unit, behind.take (LineHeight.unitLength behind)) :: (.number, number) :: pieces) :
    found.lookup .number = some number ∧
      (found.lookup .unit).getD [] = behind.take (LineHeight.unitLength behind) ∧
      found.lookup .family = none ∧ found.lookup .mode = pieces.lookup .mode ∧
      found.lookup .placement = pieces.lookup .placement := by
  obtain ⟨-, hunit, hfamily⟩ := h.lookup_eq_none
  subst hfound
  split
  next hzero =>
    refine ⟨List.lookup_cons_self, ?_, ?_, rfl, rfl⟩
    · rw [lookup_cons_of_ne (by decide), hunit, hzero, List.take_zero, Option.getD_none]
    · rw [lookup_cons_of_ne (by decide), hfamily]
  · refine ⟨?_, ?_, ?_, rfl, rfl⟩
    · rw [lookup_cons_of_ne (by decide), List.lookup_cons_self]
    · rw [List.lookup_cons_self, Option.getD_some]
    · rw [lookup_cons_of_ne (by decide), lookup_cons_of_ne (by decide), hfamily]

/-- A text that fits as a family list is not trimmed to nothing, if its last character is not
blank. -/
theorem filter_trim_of_isFamilyTail {list : Text} (h : isFamilyTail list = true)
    (hlast : EndsInk list) :
    ((some list).map Text.trim).filter (fun l => !l.isEmpty) = some list.trim := by
  have hne : list.trim ≠ [] := by
    cases hl : list.getLast? with
    | none =>
      rw [List.getLast?_eq_none_iff.mp hl] at h
      exact absurd h Bool.false_ne_true
    | some c => exact trim_ne_nil (hlast c hl) (List.mem_of_getLast? hl)
  rw [Option.map_some, Option.filter_some_pos]
  simp [hne]

/-- A family list without a line height is one with the last of the blanks in front of it. -/
theorem isTail_list (hpieces : IsFront pieces) (hlast : EndsInk t)
    (htext : Text.trimStart t ≠ []) :
    IsTail pieces
      ((t.takeWhile isBlank).getLast?.bind fun c =>
        if isFamilyTail (c :: Text.trimStart t) then
          some ((.family, c :: Text.trimStart t) :: pieces)
        else none)
      (if (Text.trimStart t).length < t.length && isSingleLine (Text.trimStart t) then
        some (none, some t)
      else none) := by
  have hlength : t.length = (t.takeWhile isBlank).length + (Text.trimStart t).length := by
    rw [← List.length_append, Text.takeWhile_append_trimStart]
  cases hblanks : (t.takeWhile isBlank).getLast? with
  | none =>
    rw [List.getLast?_eq_none_iff.mp hblanks, List.length_nil] at hlength
    rw [if_neg (by simp; omega), Option.bind_none]
    rfl
  | some c =>
    have hc : isBlank c = true :=
      List.all_eq_true.mp List.all_takeWhile c (List.mem_of_getLast? hblanks)
    have hpos : 0 < (t.takeWhile isBlank).length :=
      List.length_pos_of_mem (List.mem_of_getLast? hblanks)
    have hfits : isFamilyTail (c :: Text.trimStart t) = isSingleLine (Text.trimStart t) := by
      simp [isFamilyTail, hc, htext]
    have hshorter : (Text.trimStart t).length < t.length := by omega
    rw [Option.bind_some, hfits, decide_eq_true hshorter, Bool.true_and]
    cases hline : isSingleLine (Text.trimStart t) with
    | false => rfl
    | true =>
      obtain ⟨hnumber, -, -⟩ := hpieces.lookup_eq_none
      refine ⟨none, some t, rfl, ⟨?_, ?_⟩, rfl, rfl⟩
      · rw [lookup_cons_of_ne (by decide), hnumber]
      rw [List.lookup_cons_self]
      have htrim := trim_cons_trimStart hc t
      have hend : EndsInk (c :: Text.trimStart t) := by
        intro d hd
        rw [List.getLast?_cons_of_ne_nil htext] at hd
        exact hlast.of_suffix (List.dropWhile_suffix isBlank) d hd
      have hfilter := filter_trim_of_isFamilyTail (hfits.trans hline) hend
      rw [Option.map_some, htrim] at hfilter
      rw [Option.map_some, hfilter]
      simp [htrim]

theorem front?_of_unsigned? {t : Text} {value : Float} (hnumber : LineHeight.numberLength t ≠ 0)
    (hvalue : Decimal.unsigned? (t.take (LineHeight.numberLength t)) = some value) :
    LineHeight.front? t =
      let behind := t.drop (LineHeight.numberLength t)
      some (⟨value, behind.take (LineHeight.unitLength behind)⟩,
        behind.drop (LineHeight.unitLength behind)) := by
  simp [LineHeight.front?, hnumber, hvalue]

theorem tail?_of_front? {lineHeight : LineHeight} {behind : Text}
    (hfront : LineHeight.front? (Text.trimStart t) = some (lineHeight, behind))
    (htext : Text.trimStart t ≠ []) :
    tail? t =
      if behind = [] then some (some lineHeight, none)
      else if isFamilyTail behind then some (some lineHeight, some behind)
      else if (Text.trimStart t).length < t.length && isSingleLine (Text.trimStart t) then
        some (none, some t)
      else none := by
  simp [tail?, hfront, htext]

/-- The reader finds behind the placement what the grammar does. -/
theorem isTail_tail? (last : Option Char) (hpieces : IsFront pieces) (hlast : EndsInk t) :
    IsTail pieces
      ((Pattern.many isBlank).first? (tailPattern.first? atEnd) ⟨pieces, last, t⟩) (tail? t) := by
  obtain ⟨hlookup, -, hfamily⟩ := hpieces.lookup_eq_none
  rw [first?_blanks]
  by_cases htext : Text.trimStart t = []
  · -- nothing but blanks
    have hread : tail? t = some (none, none) := by
      rw [tail?, htext]
      rfl
    rw [htext, tailEnd_nil, Option.some_or, hread]
    refine ⟨none, none, rfl, ⟨by rw [hlookup], by rw [hfamily]; rfl⟩, rfl, rfl⟩
  have halone := isTail_list hpieces hlast htext
  have hend : familyEnd pieces (Text.trimStart t) = none := by
    obtain ⟨c, rest, h⟩ := List.exists_cons_of_ne_nil htext
    rw [h, familyEnd_eq_none (isBlank_of_trimStart_eq_cons h)]
  by_cases hnumber : LineHeight.numberLength (Text.trimStart t) = 0
  · have hread : tail? t = if (Text.trimStart t).length < t.length &&
        isSingleLine (Text.trimStart t) then some (none, some t) else none := by
      simp [tail?, LineHeight.front?, hnumber, htext]
    rwa [tailEnd, numberEnd, if_pos hnumber, hend, Option.none_or, Option.none_or, hread]
  · obtain ⟨value, hfloat, hunsigned⟩ := exists_float? hnumber
    have hread := tail?_of_front? (front?_of_unsigned? hnumber hunsigned) htext
    rw [hread, tailEnd, numberEnd, if_neg hnumber, unitEnd, familyEnd, hend, Option.or_none]
    have hend' : ∀ n m, EndsInk (((Text.trimStart t).drop n).drop m) := fun n m =>
      hlast.of_suffix (((List.drop_suffix m _).trans (List.drop_suffix n _)).trans
        (List.dropWhile_suffix isBlank))
    replace hend' := hend' (LineHeight.numberLength (Text.trimStart t))
    generalize (Text.trimStart t).drop (LineHeight.numberLength (Text.trimStart t)) = behind at *
    obtain ⟨hnumber', hunit', hfamily', hmode, hplacement⟩ := hpieces.lookup_lineHeight
      ((Text.trimStart t).take (LineHeight.numberLength (Text.trimStart t))) behind rfl
    by_cases hbehind : behind.drop (LineHeight.unitLength behind) = []
    · rw [if_pos hbehind, if_pos hbehind, Option.some_or]
      refine ⟨_, _, rfl, ⟨?_, by rw [hfamily']; rfl⟩, hmode, hplacement⟩
      rw [hnumber', hunit']
      exact ⟨value, hfloat, rfl⟩
    · rw [if_neg hbehind, if_neg hbehind]
      cases hfits : isFamilyTail (behind.drop (LineHeight.unitLength behind)) with
      | false =>
        rw [if_neg Bool.false_ne_true, if_neg Bool.false_ne_true, Option.none_or]
        exact halone
      | true =>
        rw [if_pos rfl, if_pos rfl, Option.some_or]
        refine ⟨_, _, rfl, ⟨?_, ?_⟩, hmode, hplacement⟩
        · rw [lookup_cons_of_ne (by decide), hnumber', lookup_cons_of_ne (by decide), hunit']
          exact ⟨value, hfloat, rfl⟩
        · rw [List.lookup_cons_self]
          exact filter_trim_of_isFamilyTail hfits (hend' _)

/-! ## Keywords -/

theorem keyword?_eq_some_iff {word rest : Text} :
    keyword? word t = some rest ↔ t = word ++ rest ∧ rest.head?.any isWordChar = false := by
  rw [keyword?, Option.filter_eq_some_iff, Text.after?_eq_some_iff]
  simp

/-- The pattern of a keyword is matched where the reader finds the keyword. -/
theorem first?_keyword (word : Text) (pieces : Pieces) (last : Option Char) (t : Text)
    (hword : word.getLast?.any isWordChar = true)
    (g : Text → Pieces → Pieces) (k : Way Piece → Option β) :
    (Pattern.word word).first?
        (fun w => Pattern.edge.first? k { w with pieces := g w.rest w.pieces }) ⟨pieces, last, t⟩ =
      (keyword? word t).bind fun rest => k ⟨g rest pieces, word.getLast?, rest⟩ := by
  rw [first?_word, keyword?]
  cases Text.after? word t with
  | none => rfl
  | some rest =>
    have hlast : word.getLast?.or last = word.getLast? := by
      cases h : word.getLast? with
      | none => simp [h] at hword
      | some c => rfl
    rw [Option.bind_some, first?_edge, hlast, hword]
    cases hrest : rest.head?.any isWordChar with
    | true => simp [Option.filter, hrest]
    | false => simp [Option.filter, hrest]

theorem keyword?_unique {p q : Placement} {rest rest' : Text}
    (hp : keyword? p.keyword t = some rest) (hq : keyword? q.keyword t = some rest') : p = q := by
  rw [keyword?_eq_some_iff] at hp hq
  -- two letters tell the keywords apart
  have htake : ∀ (p : Placement) (rest : Text),
      (p.keyword ++ rest).take 2 = p.keyword.take 2 := by
    rintro (_ | _ | _) rest <;> rfl
  have h := congrArg (List.take 2) (hp.1.symm.trans hq.1)
  rw [htake, htake] at h
  cases p <;> cases q <;> first | rfl | exact absurd h (by decide)

/-- Of the keywords for placements, at most one is found. -/
theorem placement?_eq_some_iff {p : Placement} {rest : Text} :
    placement? t = some (p, rest) ↔ keyword? p.keyword t = some rest := by
  have hfound : ∀ q rest', placement? t = some (q, rest') → keyword? q.keyword t = some rest' := by
    intro q rest' h
    obtain ⟨q', -, hq'⟩ := List.exists_of_findSome?_eq_some h
    simp only [Option.map_eq_some_iff, Prod.mk.injEq] at hq'
    obtain ⟨_, hrest, rfl, rfl⟩ := hq'
    exact hrest
  refine ⟨hfound p rest, fun h => ?_⟩
  have hsome : (placement? t).isSome = true := by
    rw [placement?, List.findSome?_isSome_iff]
    exact ⟨p, by cases p <;> simp, by rw [h]; rfl⟩
  obtain ⟨⟨q, rest'⟩, hq⟩ := Option.isSome_iff_exists.mp hsome
  have hkeyword := hfound q rest' hq
  obtain rfl := keyword?_unique h hkeyword
  rw [hq, Option.some.inj (h.symm.trans hkeyword)]

/-- The pattern of a placement is matched where the reader finds a placement. -/
theorem first?_placement :
    placementPattern.first? atEnd ⟨pieces, last, t⟩ = (placement? t).bind fun found =>
      (Pattern.many isBlank).first? (tailPattern.first? atEnd)
        ⟨(.placement, found.1.keyword) :: pieces, found.1.keyword.getLast?, found.2⟩ := by
  have hedge : (Pattern.seq .edge (.seq (.many isBlank) tailPattern)).first? atEnd =
      Pattern.edge.first? ((Pattern.many isBlank).first? (tailPattern.first? atEnd)) :=
    funext fun w =>
      first?_seq.trans (congrArg (Pattern.edge.first? · w) (funext fun w => first?_seq))
  have hword : ∀ p : Placement, (Pattern.word p.keyword).first?
      (fun w => Pattern.edge.first? ((Pattern.many isBlank).first? (tailPattern.first? atEnd))
        { w with pieces := (.placement, t.take (t.length - w.rest.length)) :: w.pieces })
        ⟨pieces, last, t⟩ =
      (keyword? p.keyword t).bind fun rest =>
        (Pattern.many isBlank).first? (tailPattern.first? atEnd)
          ⟨(.placement, p.keyword) :: pieces, p.keyword.getLast?, rest⟩ := by
    intro p
    refine (first?_keyword _ _ _ _ (by cases p <;> decide)
      (fun rest pieces => (.placement, t.take (t.length - rest.length)) :: pieces) _).trans ?_
    refine Option.bind_congr fun rest hrest => ?_
    rw [(keyword?_eq_some_iff.mp hrest).1, List.length_append, Nat.add_sub_cancel, List.take_left]
  rw [placementPattern, first?_seq, first?_named, first?_either, first?_either, hedge]
  refine (congrArg₂ Option.or (hword .before)
    (congrArg₂ Option.or (hword .after) (hword .both))).trans ?_
  -- the reader tries the keywords in the same order
  cases hfound : placement? t with
  | none =>
    have hnone : ∀ p : Placement, keyword? p.keyword t = none := fun p =>
      Option.eq_none_iff_forall_ne_some.mpr fun rest h => by
        rw [placement?_eq_some_iff.mpr h] at hfound
        exact absurd hfound (Option.some_ne_none _)
    rw [hnone, hnone, hnone]
    rfl
  | some found =>
    obtain ⟨p, rest⟩ := found
    have hkeyword := placement?_eq_some_iff.mp hfound
    have hnone : ∀ q : Placement, q ≠ p → keyword? q.keyword t = none := fun q hq =>
      Option.eq_none_iff_forall_ne_some.mpr fun rest' h => hq (keyword?_unique h hkeyword)
    cases p with
    | before => simp [hkeyword, hnone .after, hnone .both]
    | after => simp [hkeyword, hnone .before, hnone .both]
    | both => simp [hkeyword, hnone .before, hnone .after]

/-- A placement is not found in front of a blank. -/
theorem placement?_of_isBlank {c : Char} (hc : isBlank c = true) (rest : Text) :
    placement? (c :: rest) = none := by
  rw [Option.eq_none_iff_forall_ne_some]
  rintro ⟨p, behind⟩ h
  have happend := (keyword?_eq_some_iff.mp (placement?_eq_some_iff.mp h)).1
  cases p <;> rw [(List.cons.inj happend).1] at hc <;> exact absurd hc (by decide)

/-! ## Directives -/

/-- A value is read as what the pieces mean that are found in it. -/
def IsReading (found : Option Pieces) (read : Except Refusal Directive) : Prop :=
  match found with
  | none => read = .error .malformed
  | some pieces => ∃ directive, read = .ok directive ∧ Means pieces directive

theorem isReading_parseBehind {mode : Option Text} {scope : Scope} (hpieces : IsFront pieces)
    (hmode : pieces.lookup .mode = mode) (hscope : Scope.ofKeyword? mode = some scope)
    (hmeans : scope = if mode.isSome then .outside else .inside)
    (hlast : EndsInk t) :
    IsReading (placementPattern.first? atEnd ⟨pieces, last, t⟩) (parseBehind mode t) := by
  rw [first?_placement, parseBehind]
  cases hplacement : placement? t with
  | none => rfl
  | some found =>
    obtain ⟨p, behind⟩ := found
    have hsuffix : behind <:+ t :=
      ⟨_, (keyword?_eq_some_iff.mp (placement?_eq_some_iff.mp hplacement)).1.symm⟩
    have hfront : IsFront ((.placement, p.keyword) :: pieces) := by
      rintro x (_ | ⟨_, hx⟩)
      · exact Or.inr rfl
      · exact hpieces x hx
    have htail := isTail_tail? p.keyword.getLast? hfront (hlast.of_suffix hsuffix)
    rw [Option.bind_some]
    cases hfound : (Pattern.many isBlank).first? (tailPattern.first? atEnd)
        ⟨(.placement, p.keyword) :: pieces, p.keyword.getLast?, behind⟩ with
    | none =>
      rw [hfound] at htail
      simp only [show tail? behind = none from htail]
      rfl
    | some pieces' =>
      rw [hfound] at htail
      obtain ⟨lineHeight, family, hread, htail, hmode', hplaced⟩ := htail
      have hmode'' : pieces'.lookup .mode = mode := by
        rw [hmode', lookup_cons_of_ne (by decide), hmode]
      simp only [hread, hscope]
      refine ⟨_, rfl, ?_, ?_, htail.lineHeight, ?_⟩
      · rw [hmode'', hmeans]
      · rw [hplaced, List.lookup_cons_self]
        cases p <;> rfl
      · cases hfamily : pieces'.lookup .family with
        | none => rw [htail.family, hfamily, Option.map_none, Option.map_none]
        | some list =>
          refine ⟨_, ?_, listNames_directiveFamilies list⟩
          rw [htail.family, hfamily, Option.map_some, Option.map_some]

/-- Blanks in front of a placement are passed over. -/
theorem first?_blanks_placement :
    (Pattern.many isBlank).first? (placementPattern.first? atEnd) ⟨pieces, last, t⟩ =
      placementPattern.first? atEnd
        ⟨pieces, (t.takeWhile isBlank).getLast?.or last, Text.trimStart t⟩ := by
  refine first?_many fun last c rest hc => ?_
  rw [first?_placement, placement?_of_isBlank hc, Option.bind_none]

/-- A value is read as the grammar has it. -/
theorem isReading_parse (value : Text) : IsReading (grammar.whole? value.trim) (parse value) := by
  have hlast : EndsInk value.trim := endsInk_trimEnd _
  have hblanks : ∀ w : Way Piece, (Pattern.seq (.many isBlank) placementPattern).first? atEnd w =
      placementPattern.first? atEnd
        ⟨w.pieces, (w.rest.takeWhile isBlank).getLast?.or w.last, Text.trimStart w.rest⟩ :=
    fun w => first?_seq.trans first?_blanks_placement
  have hmode := first?_keyword "outside".toList [] none value.trim (by decide)
    (fun _ pieces => pieces) fun w =>
      (Pattern.seq (.many isBlank) placementPattern).first? atEnd { w with
        pieces := (.mode, value.trim.take (value.trim.length - w.rest.length)) :: w.pieces }
  rw [whole?, Way.start, grammar, first?_seq, first?_maybe, first?_named, first?_seq]
  refine Eq.mpr (congrArg (fun x => IsReading (Option.or x _) _) hmode) ?_
  rw [parse, hblanks]
  cases hkeyword : keyword? "outside".toList value.trim with
  | none =>
    rw [Option.bind_none, Option.none_or, trimStart_trim]
    exact isReading_parseBehind (fun x hx => absurd hx List.not_mem_nil) rfl rfl rfl hlast
  | some behind =>
    have happend := (keyword?_eq_some_iff.mp hkeyword).1
    -- what begins with the keyword for the scope does not begin with one for a placement
    have hnone : placement? value.trim = none := by
      rw [Option.eq_none_iff_forall_ne_some]
      rintro ⟨p, rest⟩ h
      have hplaced := (keyword?_eq_some_iff.mp (placement?_eq_some_iff.mp h)).1
      have hheads := happend.symm.trans hplaced
      cases p <;> exact absurd (List.cons.inj hheads).1 (by decide)
    have hfront : IsFront [(.mode, "outside".toList)] := by
      intro x hx
      rw [List.mem_singleton.mp hx]
      exact Or.inl rfl
    have htake : value.trim.take (value.trim.length - behind.length) = "outside".toList := by
      rw [happend, List.length_append, Nat.add_sub_cancel, List.take_left]
    have hsuffix : behind.trimStart <:+ value.trim :=
      (List.dropWhile_suffix isBlank).trans ⟨_, happend.symm⟩
    rw [Option.bind_some, hblanks, trimStart_trim, htake, @first?_placement [], hnone,
      Option.bind_none, Option.or_none]
    exact isReading_parseBehind hfront rfl rfl rfl (hlast.of_suffix hsuffix)

/-- A value that cannot be read has not the form of a directive: what is read as the scope of one is
always known. -/
theorem parse_eq_error_of_read? {value : Text} (h : read? value = none) :
    parse value = .error .malformed := by
  have hreading := isReading_parse value
  cases hfound : grammar.whole? value.trim with
  | none =>
    rw [hfound] at hreading
    exact hreading
  | some pieces =>
    rw [hfound] at hreading
    obtain ⟨directive, hparse, -⟩ := hreading
    rw [read?, hparse] at h
    exact absurd h (Option.some_ne_none directive)

theorem parse_eq_ok_of_read? {value : Text} {directive : Directive}
    (h : read? value = some directive) : parse value = .ok directive := by
  rw [read?] at h
  cases hparse : parse value with
  | error refusal =>
    rw [hparse] at h
    cases h
  | ok found =>
    rw [hparse] at h
    exact congrArg Except.ok (Option.some.inj h)

/-- A declaration of a directive is fine exactly if the grammar matches its value without the blanks
at the ends, and then the directive is what the pieces mean; else the value is malformed, and the
problem holds the property, the value as it stands, and the place. -/
theorem outcome_grammar (t : Trimmer) (source : Text) (r : Sheet.Rule) (d : Sheet.Declaration) :
    match grammar.whole? d.value.trim with
    | some pieces => ∃ directive, parse d.value = .ok directive ∧ Means pieces directive ∧
        ∃ o, t.outcome source r d = .ok o
    | none => parse d.value = .error .malformed ∧
        t.outcome source r d = .error (.malformedDirective d.property d.value d.position) := by
  have hreading := isReading_parse d.value
  cases hfound : grammar.whole? d.value.trim with
  | none =>
    rw [hfound] at hreading
    have hparse : parse d.value = .error .malformed := hreading
    refine ⟨hparse, ?_⟩
    rw [Trimmer.outcome, hparse]
  | some pieces =>
    rw [hfound] at hreading
    obtain ⟨directive, hparse, hmeans⟩ := hreading
    have houtcome : ∃ o, t.outcome source r d = .ok o := by
      rw [Trimmer.outcome, hparse]
      exact ⟨_, rfl⟩
    exact ⟨directive, hparse, hmeans, houtcome⟩

/-- A number with more behind its unit than a blank is not a line height. The blank in front of it
belongs to the family list. -/
example : grammar.whole? "both  1.5em2 A".toList =
    some [(.family, " 1.5em2 A".toList), (.placement, "both".toList)] := by decide

end LeadingTrim.Directive
