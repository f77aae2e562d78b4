/-
# The grammar of directives

A value is a directive exactly if the grammar matches it as a whole, without the blanks at its ends:

    (outside\b)?\s*(before|after|both)\b\s*((\d*\.\d+|\d+)(%|[A-Za-z]+)?)?(\s.+)?

A number and a unit are matched in full or not at all (`first?_number`, `first?_unit`), since
nothing that may come behind them begins with one of their characters. So there is one way to match
the end of a directive (`first?_tail`), except that the last of the blanks behind the placement may
belong to a family list (`first?_blanks`).
-/

import Mathlib.Data.List.DropRight
import LeadingTrim.Proofs.Text.Pattern

namespace LeadingTrim.Directive

open Text (Pattern Way isBlank)
open Text.Pattern

/-- The pieces of a directive that have names. -/
inductive Piece where
  /-- The keyword for the scope. -/
  | mode
  /-- The keyword for the placement. -/
  | placement
  /-- The number of the line height. -/
  | number
  /-- Its unit. -/
  | unit
  /-- The family list, with the blank in front of it. -/
  | family
  deriving DecidableEq, Repr

/-- The pieces of a value. -/
abbrev Pieces := List (Piece × Text)

/-- Any character but those that end a line. -/
def isInLine (c : Char) : Bool :=
  !(c == '\n' || c == '\r' || c.toNat == 0x2028 || c.toNat == 0x2029)

/-- The number of a line height. -/
def numberPattern : Pattern Piece :=
  .either (.seq (.many Char.isDigit) (.seq (.one (· == '.')) (.many1 Char.isDigit)))
    (.many1 Char.isDigit)

/-- The unit of a line height, if there is one. -/
def unitPattern : Pattern Piece :=
  .maybe (.named .unit (.either (.one (· == '%')) (.many1 Char.isAlpha)))

/-- The family list, if there is one. -/
def familyPattern : Pattern Piece := .maybe (.named .family (.seq (.one isBlank) (.many1 isInLine)))

/-- What stands behind the placement. -/
def tailPattern : Pattern Piece :=
  .seq (.maybe (.seq (.named .number numberPattern) unitPattern)) familyPattern

/-- The placement and what stands behind it. -/
def placementPattern : Pattern Piece :=
  .seq (.named .placement (.either (.word "before".toList)
      (.either (.word "after".toList) (.word "both".toList))))
    (.seq .edge (.seq (.many isBlank) tailPattern))

/-- The grammar of directives. -/
def grammar : Pattern Piece :=
  .seq (.maybe (.named .mode (.seq (.word "outside".toList) .edge)))
    (.seq (.many isBlank) placementPattern)

/-- A text is another one with blanks around it. -/
structure IsTrimmed (t core : Text) : Prop where
  around : ∃ front back, t = front ++ core ++ back ∧ (∀ c ∈ front, isBlank c = true) ∧
    ∀ c ∈ back, isBlank c = true
  head : ∀ c ∈ core.head?, isBlank c = false
  last : ∀ c ∈ core.getLast?, isBlank c = false

/-- What an entry of a family list names: what stands between a pair of equal quotes around the
whole entry, or else the entry itself. -/
inductive Unquotes : (entry name : Text) → Prop
  | quoted (q : Char) (name : Text) (hq : q = '"' ∨ q = '\'') : Unquotes (q :: (name ++ [q])) name
  | bare (entry : Text)
      (h : ∀ q inner, q = '"' ∨ q = '\'' → entry ≠ q :: (inner ++ [q])) : Unquotes entry entry

/-- What a family list names: it is taken apart at all its commas, and each entry names a family
without the blanks around it. -/
def ListNames (list : Text) (names : List Text) : Prop :=
  ∃ core entries, IsTrimmed list core ∧ entries ≠ [] ∧ core = Text.joinWith [','] entries ∧
    (∀ entry ∈ entries, ',' ∉ entry) ∧
    List.Forall₂ (fun entry name => ∃ inner, IsTrimmed entry inner ∧ Unquotes inner name)
      entries names

/-- What the pieces of a value mean. -/
structure Means (pieces : Pieces) (d : Directive) : Prop where
  scope : d.scope = if (pieces.lookup .mode).isSome then .outside else .inside
  placement : pieces.lookup .placement = some (match d.placement with
    | .before => "before".toList
    | .after => "after".toList
    | .both => "both".toList)
  lineHeight : match pieces.lookup .number with
    | none => d.lineHeight = none
    | some number => ∃ value, Decimal.float? number = some value ∧
        d.lineHeight = some ⟨value, (pieces.lookup .unit).getD []⟩
  fontFamily : match pieces.lookup .family with
    | none => d.fontFamily = none
    | some list => ∃ names, d.fontFamily = some names ∧ ListNames list names

/-! ## Characters -/

theorem isAlpha_iff {c : Char} : c.isAlpha = true ↔
    (65 ≤ c.toNat ∧ c.toNat ≤ 90) ∨ (97 ≤ c.toNat ∧ c.toNat ≤ 122) := by
  unfold Char.isAlpha Char.isUpper Char.isLower
  simp only [ge_iff_le, Bool.or_eq_true, Bool.and_eq_true, decide_eq_true_eq,
    UInt32.le_iff_toNat_le, Char.toNat_val, Char.reduceToNat]

/-- The characters of numbers and units are not blank. -/
theorem isBlank_eq_false {c : Char} (h : c.isDigit = true ∨ c.isAlpha = true ∨ c = '.' ∨ c = '%') :
    isBlank c = false := by
  rw [Bool.eq_false_iff]
  intro hblank
  simp only [isBlank, Bool.or_eq_true, Bool.and_eq_true, decide_eq_true_eq,
    beq_iff_eq] at hblank
  rcases h with h | h | rfl | rfl
  · simp only [Char.isDigit, ge_iff_le, Bool.and_eq_true, decide_eq_true_eq,
      UInt32.le_iff_toNat_le, Char.toNat_val, Char.reduceToNat] at h
    omega
  · rw [isAlpha_iff] at h
    omega
  · simp at hblank
  · simp at hblank

/-! ## Numbers and units -/

/-- A number has decimals if there are any, and else consists of the digits in front. -/
theorem numberLength_cases (t : Text) :
    (∃ rest, t.dropWhile Char.isDigit = '.' :: rest ∧ rest.takeWhile Char.isDigit ≠ [] ∧
      LineHeight.numberLength t ≠ 0 ∧
      t.take (LineHeight.numberLength t) =
        t.takeWhile Char.isDigit ++ '.' :: rest.takeWhile Char.isDigit ∧
      t.drop (LineHeight.numberLength t) = rest.dropWhile Char.isDigit) ∨
    (∀ rest, t.dropWhile Char.isDigit = '.' :: rest → rest.takeWhile Char.isDigit = []) ∧
      (LineHeight.numberLength t = 0 ↔ t.takeWhile Char.isDigit = []) ∧
      t.take (LineHeight.numberLength t) = t.takeWhile Char.isDigit ∧
      t.drop (LineHeight.numberLength t) = t.dropWhile Char.isDigit := by
  obtain ⟨whole, behind, ht, hwhole, hbehind⟩ : ∃ whole behind, t = whole ++ behind ∧
      t.takeWhile Char.isDigit = whole ∧ t.dropWhile Char.isDigit = behind :=
    ⟨_, _, List.takeWhile_append_dropWhile.symm, rfl, rfl⟩
  have hdrop : t.drop whole.length = behind := by rw [ht, List.drop_left]
  rw [hwhole, hbehind]
  unfold LineHeight.numberLength
  simp only [hwhole, hdrop]
  split
  next rest =>
    split
    next hzero =>
      refine Or.inr ⟨fun rest' hrest => ?_, by simp, by rw [ht, List.take_left], hdrop⟩
      rw [← (List.cons.inj hrest).2]
      exact List.length_eq_zero_iff.mp hzero
    next n hn =>
      obtain ⟨fraction, behind', hrest, hfraction, hbehind'⟩ : ∃ fraction behind',
          rest = fraction ++ behind' ∧ rest.takeWhile Char.isDigit = fraction ∧
          rest.dropWhile Char.isDigit = behind' :=
        ⟨_, _, List.takeWhile_append_dropWhile.symm, rfl, rfl⟩
      have hlength : whole.length + n + 2 = (whole ++ '.' :: fraction).length := by
        rw [hfraction] at hn
        simp [hn]
        omega
      refine Or.inl ⟨rest, rfl, ?_, by omega, ?_, ?_⟩
      · rw [← List.length_pos_iff, hn]
        omega
      · rw [hlength, ht, hfraction, hrest, ← List.cons_append, ← List.append_assoc, List.take_left]
      · rw [hlength, ht, hbehind', hrest, ← List.cons_append, ← List.append_assoc, List.drop_left]
  next hne =>
    exact Or.inr ⟨fun rest hrest => absurd hrest (hne rest), by simp, by rw [ht, List.take_left],
      hdrop⟩

variable {β : Type} {pieces : Pieces} {last : Option Char} {t : Text}

/-- A number is taken in full, if nothing leads on from in front of a digit or a point. -/
theorem first?_number (f : Pieces → Text → Option β) (pieces : Pieces) (last : Option Char)
    (t : Text)
    (hf : ∀ pieces c rest, c.isDigit = true ∨ c = '.' → f pieces (c :: rest) = none) :
    numberPattern.first? (fun w => f w.pieces w.rest) ⟨pieces, last, t⟩ =
      if LineHeight.numberLength t = 0 then none
      else f pieces (t.drop (LineHeight.numberLength t)) := by
  have hdigit : ∀ c rest, c.isDigit = true → f pieces (c :: rest) = none := fun c rest hc =>
    hf pieces c rest (Or.inl hc)
  have hpoint : ∀ last c rest, Char.isDigit c = true →
      (Pattern.seq (.one (· == '.')) (.many1 Char.isDigit)).first?
        (fun w => f w.pieces w.rest) ⟨pieces, last, c :: rest⟩ = none := by
    intro last c rest hc
    have hne : ¬ (c == '.') = true := by
      rintro h
      rw [beq_iff_eq.mp h] at hc
      exact absurd hc (by decide)
    rw [first?_seq, first?_one_cons, if_neg hne]
  rw [numberPattern, first?_either, first?_seq, first?_many hpoint,
    first?_many1 Char.isDigit f pieces _ _ hdigit, first?_seq]
  rcases numberLength_cases t with ⟨rest, hbehind, hfraction, hlength, -, hdrop⟩ |
    ⟨hfraction, hlength, -, hdrop⟩
  · -- the digits in front alone do not lead on
    rw [hbehind, first?_one_cons, if_pos (beq_self_eq_true '.'),
      first?_many1 Char.isDigit f pieces _ _ hdigit, if_neg hfraction, if_neg hlength, hdrop,
      hf pieces '.' rest (Or.inr rfl), ite_self, Option.or_none]
  · have hnone : (Pattern.one (· == '.')).first?
        ((Pattern.many1 Char.isDigit).first? fun w => f w.pieces w.rest)
        ⟨pieces, (t.takeWhile Char.isDigit).getLast?.or last, t.dropWhile Char.isDigit⟩ = none := by
      cases hbehind : t.dropWhile Char.isDigit with
      | nil => exact first?_one_nil
      | cons c rest =>
        rw [first?_one_cons]
        split
        next hc =>
          rw [beq_iff_eq.mp hc] at hbehind
          rw [first?_many1 Char.isDigit f pieces _ _ hdigit, if_pos (hfraction rest hbehind)]
        · rfl
    rw [hnone, Option.none_or, hdrop]
    simp only [hlength]

/-- A unit is taken in full, if nothing leads on from in front of a letter or a percent sign. -/
theorem first?_unit (f : Pieces → Text → Option β) (pieces : Pieces) (last : Option Char) (t : Text)
    (hf : ∀ pieces c rest, c.isAlpha = true ∨ c = '%' → f pieces (c :: rest) = none) :
    unitPattern.first? (fun w => f w.pieces w.rest) ⟨pieces, last, t⟩ =
      f (if LineHeight.unitLength t = 0 then pieces
        else (.unit, t.take (LineHeight.unitLength t)) :: pieces)
        (t.drop (LineHeight.unitLength t)) := by
  obtain ⟨letters, behind, ht, hletters, hbehind⟩ : ∃ letters behind, t = letters ++ behind ∧
      t.takeWhile Char.isAlpha = letters ∧ t.dropWhile Char.isAlpha = behind :=
    ⟨_, _, List.takeWhile_append_dropWhile.symm, rfl, rfl⟩
  rw [unitPattern, first?_maybe, first?_named, first?_either]
  have hmany := first?_many1 Char.isAlpha
    (fun pieces' rest => f ((.unit, t.take (t.length - rest.length)) :: pieces') rest) pieces last t
    fun c rest hc => hf _ c rest (Or.inl hc)
  rw [hmany, hletters, hbehind]
  cases t with
  | nil => simp_all [LineHeight.unitLength, first?_one_nil]
  | cons c rest =>
    by_cases hpercent : c = '%'
    · subst hpercent
      rw [hf pieces '%' rest (Or.inr rfl), first?_one_cons, if_pos (beq_self_eq_true '%')]
      have hnil : letters = [] := by
        rw [← hletters, List.takeWhile_cons_of_neg (by decide)]
      simp [hnil, LineHeight.unitLength]
    · have hlength : LineHeight.unitLength (c :: rest) = letters.length := by
        rw [← hletters]
        unfold LineHeight.unitLength
        split
        next heq => exact absurd (List.cons.inj heq).1 hpercent
        · rfl
      have hone : (c == '%') = false := beq_eq_false_iff_ne.mpr hpercent
      rw [first?_one_cons, hone, if_neg Bool.false_ne_true, Option.none_or, hlength, ht,
        List.take_left, List.drop_left]
      by_cases hnil : letters = []
      · simp [hnil]
      · have hnone : f pieces (letters ++ behind) = none := by
          obtain ⟨d, letters', rfl⟩ := List.exists_cons_of_ne_nil hnil
          refine hf pieces d _ (Or.inl ?_)
          have hall := @List.all_takeWhile _ Char.isAlpha (c :: rest)
          rw [hletters] at hall
          exact List.all_eq_true.mp hall d List.mem_cons_self
        rw [hnone, if_neg hnil, if_neg (by simpa using hnil), Option.or_none]
        simp

/-! ## What stands behind the placement -/

/-- What is left of the pieces where only a family list may stand in front of the end. -/
def familyEnd (pieces : Pieces) (t : Text) : Option Pieces :=
  if t = [] then some pieces
  else if isFamilyTail t then some ((.family, t) :: pieces)
  else none

/-- What is left of the pieces where a unit may stand, too. -/
def unitEnd (pieces : Pieces) (t : Text) : Option Pieces :=
  familyEnd (if LineHeight.unitLength t = 0 then pieces
    else (.unit, t.take (LineHeight.unitLength t)) :: pieces) (t.drop (LineHeight.unitLength t))

/-- What is left of the pieces where a line height stands. -/
def numberEnd (pieces : Pieces) (t : Text) : Option Pieces :=
  if LineHeight.numberLength t = 0 then none
  else unitEnd ((.number, t.take (LineHeight.numberLength t)) :: pieces)
    (t.drop (LineHeight.numberLength t))

theorem familyEnd_eq_none {c : Char} (hc : isBlank c = false) (pieces : Pieces) (rest : Text) :
    familyEnd pieces (c :: rest) = none := by
  simp [familyEnd, isFamilyTail, hc]

theorem unitEnd_eq_none {c : Char} (hc : c.isDigit = true ∨ c = '.') (pieces : Pieces)
    (rest : Text) : unitEnd pieces (c :: rest) = none := by
  have hlength : LineHeight.unitLength (c :: rest) = 0 := by
    unfold LineHeight.unitLength
    split
    next heq =>
      rw [(List.cons.inj heq).1] at hc
      exact absurd hc (by decide)
    · rw [List.takeWhile_cons_of_neg, List.length_nil]
      rcases hc with hc | rfl
      · simp only [Char.isDigit, ge_iff_le, Bool.and_eq_true, decide_eq_true_eq,
          UInt32.le_iff_toNat_le, Char.toNat_val, Char.reduceToNat] at hc
        rw [isAlpha_iff]
        omega
      · decide
  rw [unitEnd, hlength, if_pos rfl, List.drop_zero, familyEnd_eq_none]
  rcases hc with hc | rfl
  · exact isBlank_eq_false (Or.inl hc)
  · rfl

theorem first?_family : familyPattern.first? atEnd ⟨pieces, last, t⟩ = familyEnd pieces t := by
  have hmany : ∀ l rest, (Pattern.many1 isInLine).first?
      (fun w => atEnd { w with
        pieces := (.family, t.take (t.length - w.rest.length)) :: w.pieces }) ⟨pieces, l, rest⟩ =
      if rest.takeWhile isInLine = [] then none
      else if rest.dropWhile isInLine = [] then some ((.family, t) :: pieces) else none := by
    intro l rest
    have h := first?_many1 isInLine
      (fun pieces' r => if r = [] then
        some ((Piece.family, t.take (t.length - r.length)) :: pieces') else none) pieces l rest
      fun c r _ => if_neg (List.cons_ne_nil c r)
    refine h.trans ?_
    split
    · rfl
    · split
      next hnil => simp [hnil]
      · rfl
  rw [familyPattern, first?_maybe, first?_named, first?_seq]
  unfold familyEnd atEnd at *
  cases t with
  | nil => rfl
  | cons c rest =>
    rw [first?_one_cons, hmany, if_neg (List.cons_ne_nil c rest), Option.or_none]
    have hline : isSingleLine rest = true ↔ rest.dropWhile isInLine = [] := by
      rw [List.dropWhile_eq_nil_iff]
      exact List.all_eq_true
    by_cases hdrop : rest.dropWhile isInLine = []
    · have htake : rest.takeWhile isInLine = rest := by
        have happend := @List.takeWhile_append_dropWhile _ isInLine rest
        rwa [hdrop, List.append_nil] at happend
      rw [htake, if_pos hdrop]
      cases rest with
      | nil => simp [isFamilyTail]
      | cons d rest => simp [isFamilyTail, hline.mpr hdrop]
    · have hnot : isSingleLine rest = false := Bool.eq_false_iff.mpr fun h => hdrop (hline.mp h)
      simp [isFamilyTail, hnot, hdrop]

theorem first?_tail :
    tailPattern.first? atEnd ⟨pieces, last, t⟩ =
      (numberEnd pieces t).or (familyEnd pieces t) := by
  have hfamily : familyPattern.first? atEnd = fun w => familyEnd w.pieces w.rest :=
    funext fun w => first?_family
  have hunit : unitPattern.first? (familyPattern.first? atEnd) =
      fun w => unitEnd w.pieces w.rest := by
    rw [hfamily]
    exact funext fun w => first?_unit familyEnd _ _ _ fun pieces c rest hc => familyEnd_eq_none
      (isBlank_eq_false (hc.elim (fun h => Or.inr (Or.inl h)) fun h => Or.inr (Or.inr (Or.inr h))))
      pieces rest
  have hnumber := first?_number
    (fun pieces' r => unitEnd ((.number, t.take (t.length - r.length)) :: pieces') r) pieces last t
    fun pieces' c rest hc => unitEnd_eq_none hc _ rest
  rw [tailPattern, first?_seq, first?_maybe, first?_seq, first?_named, hunit, hnumber,
    first?_family, numberEnd]
  have htake : t.take (t.length - (t.drop (LineHeight.numberLength t)).length) =
      t.take (LineHeight.numberLength t) := by
    rw [List.take_eq_take_iff, List.length_drop]
    omega
  rw [htake]

/-- What is left of the pieces behind the blanks that follow the placement. -/
def tailEnd (pieces : Pieces) (t : Text) : Option Pieces :=
  (numberEnd pieces t).or (familyEnd pieces t)

theorem tailEnd_nil : tailEnd pieces [] = some pieces := rfl

theorem numberLength_eq_zero {c : Char} (hc : isBlank c = true) (rest : Text) :
    LineHeight.numberLength (c :: rest) = 0 := by
  have hdigit : ¬ c.isDigit = true := fun h => by simp [isBlank_eq_false (Or.inl h)] at hc
  have hpoint : c ≠ '.' := by
    rintro rfl
    exact absurd hc (by decide)
  rw [LineHeight.numberLength, List.takeWhile_cons_of_neg hdigit, List.length_nil, List.drop_zero]
  split
  next heq => exact absurd (List.cons.inj heq).1 hpoint
  · rfl

theorem tailEnd_of_isBlank {c : Char} (hc : isBlank c = true) (rest : Text) :
    tailEnd pieces (c :: rest) = familyEnd pieces (c :: rest) := by
  rw [tailEnd, numberEnd, if_pos (numberLength_eq_zero hc rest), Option.none_or]

/-- If a family list does not fit behind the last blank, it does not behind one in front of that. -/
theorem isFamilyTail_eq_false (c : Char) (blanks : Text) {d : Char} (hd : isBlank d = true)
    (hrest : t ≠ []) (h : isFamilyTail (d :: t) = false) :
    isFamilyTail (c :: (blanks ++ t)) = false := by
  have hline : isSingleLine t = false := by simpa [isFamilyTail, hd, hrest] using h
  have happend : isSingleLine (blanks ++ t) = false := by
    unfold isSingleLine at hline ⊢
    rw [List.all_append, hline, Bool.and_false]
  rw [isFamilyTail, happend, Bool.and_false]

/-- Of the blanks behind the placement, all are passed over, or all but the last one. -/
theorem first?_blanks :
    (Pattern.many isBlank).first? (tailPattern.first? atEnd) ⟨pieces, last, t⟩ =
      (tailEnd pieces (Text.trimStart t)).or ((t.takeWhile isBlank).getLast?.bind fun c =>
        if isFamilyTail (c :: Text.trimStart t) then
          some ((.family, c :: Text.trimStart t) :: pieces)
        else none) := by
  induction t generalizing last with
  | nil => rfl
  | cons c t ih =>
    rw [first?_many_cons, first?_tail]
    by_cases hc : isBlank c = true
    · have htrim : Text.trimStart (c :: t) = Text.trimStart t := List.dropWhile_cons_of_pos hc
      have happend := Text.takeWhile_append_trimStart t
      rw [if_pos hc, ih, htrim, List.takeWhile_cons_of_pos hc, ← tailEnd, tailEnd_of_isBlank hc,
        Option.or_assoc, List.getLast?_cons]
      cases hend : tailEnd pieces (Text.trimStart t) with
      | some x => rfl
      | none =>
        have hrest : Text.trimStart t ≠ [] := by
          intro hnil
          rw [hnil, tailEnd_nil] at hend
          exact absurd hend (Option.some_ne_none _)
        rw [Option.none_or, Option.none_or]
        cases hlast : (t.takeWhile isBlank).getLast? with
        | none =>
          rw [List.getLast?_eq_none_iff.mp hlast, List.nil_append] at happend
          rw [happend]
          simp [familyEnd]
        | some d =>
          have hd : isBlank d = true :=
            List.all_eq_true.mp List.all_takeWhile d (List.mem_of_getLast? hlast)
          rw [Option.bind_some, Option.getD_some, Option.bind_some]
          cases hfits : isFamilyTail (d :: Text.trimStart t) with
          | true => rfl
          | false =>
            have hnone := isFamilyTail_eq_false c (t.takeWhile isBlank) hd hrest hfits
            rw [happend] at hnone
            simp [familyEnd, hnone]
    · have htrim : Text.trimStart (c :: t) = c :: t := List.dropWhile_cons_of_neg hc
      rw [if_neg hc, htrim, List.takeWhile_cons_of_neg hc]
      simp [tailEnd]

end LeadingTrim.Directive
