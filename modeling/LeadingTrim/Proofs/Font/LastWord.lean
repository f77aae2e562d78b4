/-
# The last word on a rule's font

A declaration can name the families of a rule's text (`NamesFamilies`), and it can set the line
height (`SetsLineHeight`); a shorthand that is understood does both. What a declaration says is its
value without the mark `!important` at the end, which is told by how the mark is written
(`Unmarked`). The families of a rule are those that the last declaration with a say names, and so it
is with the line height (`ambient_lastWord`). Each of the two is a part of the state of one fold
over the declarations, which a declaration with a say sets and any other leaves alone (`IsToldBy`).
-/

import LeadingTrim.Font.Ambient
import LeadingTrim.Proofs.Font.Shorthand
import Mathlib.Data.List.Induction

namespace LeadingTrim.Text

/-! ## Blanks and cases -/

/-- A letter is no blank in either case. -/
theorem isBlank_toLower (c : Char) : isBlank c.toLower = isBlank c := by
  cases hupper : c.isUpper with
  | false =>
    have hsame : c.toLower = c := dif_neg (of_decide_eq_false hupper)
    rw [hsame]
  | true =>
    have hsmall : ∀ n < 91, isBlank (Char.ofNat n).toLower = isBlank (Char.ofNat n) := by decide
    have hlt : c.toNat < 91 := by
      unfold Char.isUpper at hupper
      simp only [ge_iff_le, decide_eq_true_eq, UInt32.le_iff_toNat_le, Char.toNat_val,
        Char.reduceToNat] at hupper
      omega
    have h := hsmall c.toNat hlt
    rwa [Char.ofNat_toNat] at h

theorem trimStart_lower (t : Text) : trimStart (lower t) = lower (trimStart t) := by
  have hsame : isBlank ∘ Char.toLower = isBlank := funext isBlank_toLower
  rw [trimStart, lower, List.dropWhile_map, hsame]
  rfl

/-- To find a word in any case is to find it in lower case. -/
theorem sameWord_iff {t word : Text} (hword : word.lower = word) :
    t.sameWord word = true ↔ t.lower = word := by
  rw [sameWord, hword, beq_iff_eq]

/-- A character that is in a text has a last place there. -/
theorem exists_last_of_mem {t : Text} {c : Char} (h : c ∈ t) :
    ∃ front behind, t = front ++ c :: behind ∧ c ∉ behind := by
  obtain ⟨behind, front, hsplit, hbehind⟩ :=
    List.eq_append_cons_of_mem (List.mem_reverse.mpr h)
  refine ⟨front.reverse, behind.reverse, ?_, by simpa using hbehind⟩
  rw [← List.reverse_reverse t, hsplit]
  simp

end LeadingTrim.Text

namespace LeadingTrim.Font

open Text (isBlank)

/-! ## Values without the mark at their end -/

/-- The mark `!important`, in any case, with blanks inside and behind. -/
inductive IsMark : Text → Prop
  | intro {gap word tail : Text} (gap_blank : ∀ c ∈ gap, isBlank c = true)
      (word_same : word.sameWord "important".toList = true)
      (tail_blank : ∀ c ∈ tail, isBlank c = true) : IsMark ('!' :: (gap ++ (word ++ tail)))

/-- A value, and the value without blanks at its end and without the mark there if it has one. -/
inductive Unmarked : Text → Text → Prop
  | marked {value mark : Text} (h : IsMark mark) : Unmarked (value ++ mark) value.trimEnd
  | plain {value : Text} (h : ∀ front mark, IsMark mark → value ≠ front ++ mark) :
      Unmarked value value.trimEnd

variable {value front behind : Text}

theorem withoutImportant_of_not_mem (h : '!' ∉ value.trimEnd) :
    withoutImportant value = value.trimEnd := by
  rw [withoutImportant]
  exact if_neg (by simpa using h)

/-- Only the last exclamation mark can begin the mark. -/
theorem withoutImportant_of_eq_append (hvalue : value.trimEnd = front ++ '!' :: behind)
    (hbehind : '!' ∉ behind) :
    withoutImportant value =
      if behind.trimStart.sameWord "important".toList then front.trimEnd else value.trimEnd := by
  have hlower : Text.lower "important".toList = "important".toList := by decide
  have hpass : ∀ c ∈ behind.reverse, (c != '!') = true := fun c hc =>
    bne_iff_ne.mpr fun heq => hbehind (heq ▸ List.mem_reverse.mp hc)
  have hlast : ((front ++ '!' :: behind).reverse.takeWhile (· != '!')).reverse = behind := by
    rw [List.reverse_append, List.reverse_cons, List.append_assoc,
      List.takeWhile_append_of_pos hpass, List.singleton_append,
      List.takeWhile_cons_of_neg (by decide), List.append_nil, List.reverse_reverse]
  have hfront : (front ++ '!' :: behind).take
      ((front ++ '!' :: behind).length - behind.length - 1) = front := by
    have hlength : (front ++ '!' :: behind).length - behind.length - 1 = front.length := by
      simp only [List.length_append, List.length_cons]
      omega
    rw [hlength, List.take_left]
  rw [withoutImportant, hvalue]
  simp only [hlast, hfront, Text.trimStart_lower, Text.sameWord, hlower]
  exact if_pos (by simp)

/-- The word of the mark has no blank in it and no other mark. -/
theorem ink_of_sameWord_important {word : Text}
    (h : word.sameWord "important".toList = true) :
    word ≠ [] ∧ (∀ c ∈ word, isBlank c = false) ∧ '!' ∉ word := by
  have hlower : word.lower = "important".toList := beq_iff_eq.mp h
  refine ⟨?_, fun c hc => ?_, fun hmem => ?_⟩
  · rintro rfl
    exact absurd hlower (by decide)
  · have hc := isPlain_of_sameWord h (by decide) c hc
    simp only [isPlain, Bool.not_eq_true', Bool.or_eq_false_iff] at hc
    exact hc.1.1.1.1.1
  · have hmem : '!'.toLower ∈ word.lower := List.mem_map_of_mem hmem
    rw [hlower] at hmem
    exact absurd hmem (by decide)

theorem withoutImportant_append_mark {mark : Text} (h : IsMark mark) :
    withoutImportant (value ++ mark) = value.trimEnd := by
  obtain @⟨gap, word, tail, hgap, hword, htail⟩ := h
  obtain ⟨hne, hink, hmark⟩ := ink_of_sameWord_important hword
  -- the blanks at the end of the value are those behind the mark
  have hvalue : Text.trimEnd (value ++ '!' :: (gap ++ (word ++ tail))) =
      value ++ '!' :: (gap ++ word) := by
    have hlast : ∀ c ∈ ((value ++ '!' :: gap) ++ word).getLast?, isBlank c = false := by
      intro c hc
      rw [List.getLast?_append, List.getLast?_eq_some_getLast hne] at hc
      exact hink c (Option.some.inj hc ▸ List.getLast_mem hne)
    have := Text.trimEnd_append_blanks hlast htail
    simpa using this
  have hstart : Text.trimStart (gap ++ word) = word := by
    obtain ⟨c, rest, rfl⟩ := List.exists_cons_of_ne_nil hne
    rw [Text.trimStart, List.dropWhile_append_of_pos hgap,
      List.dropWhile_cons_of_neg (by simp [hink c List.mem_cons_self])]
  have hgap : '!' ∉ gap := fun hmem => absurd (hgap '!' hmem) (by decide)
  have hbehind : '!' ∉ gap ++ word := fun hmem => (List.mem_append.mp hmem).elim hgap hmark
  rw [withoutImportant_of_eq_append hvalue hbehind, hstart, if_pos hword]

theorem withoutImportant_of_forall_ne
    (h : ∀ front mark, IsMark mark → value ≠ front ++ mark) :
    withoutImportant value = value.trimEnd := by
  by_cases hmem : '!' ∈ value.trimEnd
  · obtain ⟨front, behind, hvalue, hbehind⟩ := Text.exists_last_of_mem hmem
    rw [withoutImportant_of_eq_append hvalue hbehind]
    refine if_neg fun hword => ?_
    -- else what is behind the exclamation mark makes a mark with it
    obtain ⟨tail, htail, hblank⟩ := Text.exists_trimEnd_append value
    have hmark : IsMark ('!' :: (behind.takeWhile isBlank ++ (Text.trimStart behind ++ tail))) :=
      .intro (List.all_eq_true.mp List.all_takeWhile) hword (List.all_eq_true.mp hblank)
    refine h front _ hmark ?_
    rw [← List.append_assoc, Text.takeWhile_append_trimStart, ← List.cons_append,
      ← List.append_assoc, ← hvalue, ← htail]
  · exact withoutImportant_of_not_mem hmem

theorem unmarked_iff {v : Text} : Unmarked value v ↔ withoutImportant value = v := by
  constructor
  · rintro (h | h)
    · exact withoutImportant_append_mark h
    · exact withoutImportant_of_forall_ne h
  · rintro rfl
    by_cases h : ∃ front mark, IsMark mark ∧ value = front ++ mark
    · obtain ⟨front, mark, hmark, rfl⟩ := h
      rw [withoutImportant_append_mark hmark]
      exact .marked hmark
    · have h : ∀ front mark, IsMark mark → value ≠ front ++ mark :=
        fun front mark hmark hvalue => h ⟨front, mark, hmark, hvalue⟩
      rw [withoutImportant_of_forall_ne h]
      exact .plain h

/-! ## What a declaration says -/

/-- The declaration names these families. -/
inductive NamesFamilies : Text × Text → List Text → Prop
  | list {property value v : Text} (name : property.sameWord "font-family".toList = true)
      (unmarked : Unmarked value v) : NamesFamilies (property, value) (families v)
  | shorthand {property value v : Text} {font : Ambient}
      (name : property.sameWord "font".toList = true) (unmarked : Unmarked value v)
      (read : shorthand? v = some font) : NamesFamilies (property, value) font.family

/-- The declaration sets this line height, or sets it to nothing. -/
inductive SetsLineHeight : Text × Text → Option Text → Prop
  | lineHeight {property value v : Text} (name : property.sameWord "line-height".toList = true)
      (unmarked : Unmarked value v) : SetsLineHeight (property, value) (some v)
  | shorthand {property value v : Text} {font : Ambient}
      (name : property.sameWord "font".toList = true) (unmarked : Unmarked value v)
      (read : shorthand? v = some font) : SetsLineHeight (property, value) font.lineHeight

/-- The declaration is of another property, or it is a shorthand that is not understood. -/
structure IsIdle (d : Text × Text) : Prop where
  families : d.1.sameWord "font-family".toList = false
  lineHeight : d.1.sameWord "line-height".toList = false
  shorthand : d.1.sameWord "font".toList = true → ∀ v, Unmarked d.2 v → shorthand? v = none

namespace Ambient

variable {property : Text} {d : Text × Text}

theorem declare_list (h : property.sameWord "font-family".toList = true) (font : Ambient) :
    font.declare property value = { font with family := families (withoutImportant value) } := by
  rw [declare, if_pos ((Text.sameWord_iff (by decide)).mp h)]

theorem declare_height (h : property.sameWord "line-height".toList = true) (font : Ambient) :
    font.declare property value = { font with lineHeight := some (withoutImportant value) } := by
  have h := (Text.sameWord_iff (by decide)).mp h
  rw [declare, if_neg (by rw [h]; decide), if_pos h]

theorem declare_shorthand (h : property.sameWord "font".toList = true) (font : Ambient) :
    font.declare property value = (shorthand? (withoutImportant value)).getD font := by
  have h := (Text.sameWord_iff (by decide)).mp h
  rw [declare, if_neg (by rw [h]; decide), if_neg (by rw [h]; decide), if_pos h]

theorem declare_idle (h : IsIdle d) (font : Ambient) : font.declare d.1 d.2 = font := by
  cases hfont : d.1.sameWord "font".toList with
  | true =>
    rw [declare_shorthand hfont, h.shorthand hfont _ (unmarked_iff.mpr rfl), Option.getD_none]
  | false =>
    have hne : ∀ word : Text, word.lower = word → d.1.sameWord word = false →
        d.1.lower ≠ word := fun word hword hnot heq =>
      Bool.false_ne_true (hnot.symm.trans ((Text.sameWord_iff hword).mpr heq))
    rw [declare, if_neg (hne _ (by decide) h.families), if_neg (hne _ (by decide) h.lineHeight),
      if_neg (hne _ (by decide) hfont)]

end Ambient

/-- A declaration lists families, sets a line height, is a shorthand that is understood, or has no
say. -/
theorem isIdle_or (d : Text × Text) :
    d.1.sameWord "font-family".toList = true ∨ d.1.sameWord "line-height".toList = true ∨
      (d.1.sameWord "font".toList = true ∧ ∃ font, shorthand? (withoutImportant d.2) = some font) ∨
        IsIdle d := by
  cases hlist : d.1.sameWord "font-family".toList with
  | true => exact Or.inl rfl
  | false =>
    cases hheight : d.1.sameWord "line-height".toList with
    | true => exact Or.inr (Or.inl rfl)
    | false =>
      cases hread : shorthand? (withoutImportant d.2) with
      | none =>
        refine Or.inr (Or.inr (Or.inr ⟨hlist, hheight, fun _ v hv => ?_⟩))
        rw [← unmarked_iff.mp hv, hread]
      | some font =>
        cases hfont : d.1.sameWord "font".toList with
        | true => exact Or.inr (Or.inr (Or.inl ⟨rfl, font, rfl⟩))
        | false =>
          exact Or.inr (Or.inr (Or.inr ⟨hlist, hheight, fun h =>
            absurd (hfont.symm.trans h) Bool.false_ne_true⟩))

/-! ## The last word -/

/-- What the last declaration with a say says, or the default where none has a say. -/
inductive LastWord {α : Type} (Tells : Text × Text → α → Prop) (default : α) :
    List (Text × Text) → α → Prop
  | said {front behind : List (Text × Text)} {d : Text × Text} {a : α} (tells : Tells d a)
      (silent : ∀ e ∈ behind, ∀ b, ¬ Tells e b) : LastWord Tells default (front ++ d :: behind) a
  | unsaid {ds : List (Text × Text)} (silent : ∀ e ∈ ds, ∀ b, ¬ Tells e b) :
      LastWord Tells default ds default

/-- A part of the settings that is as a declaration says, and as before if it says nothing. -/
structure IsToldBy {α : Type} (Tells : Text × Text → α → Prop) (part : Ambient → α) : Prop where
  said : ∀ (font : Ambient) d a, Tells d a → part (font.declare d.1 d.2) = a
  silent : ∀ (font : Ambient) d, (∀ a, ¬ Tells d a) → part (font.declare d.1 d.2) = part font

theorem ambient_concat (ds : List (Text × Text)) (d : Text × Text) :
    ambient (ds ++ [d]) = (ambient ds).declare d.1 d.2 := by
  rw [ambient, List.foldl_append]
  rfl

section

variable {α : Type} {Tells : Text × Text → α → Prop} {part : Ambient → α}

theorem IsToldBy.part_ambient_append (h : IsToldBy Tells part) (ds : List (Text × Text))
    {behind : List (Text × Text)} (hbehind : ∀ e ∈ behind, ∀ b, ¬ Tells e b) :
    part (ambient (ds ++ behind)) = part (ambient ds) := by
  induction behind using List.reverseRecOn with
  | nil => rw [List.append_nil]
  | append_singleton behind e ih =>
    obtain ⟨hbehind, he⟩ := List.forall_mem_append.mp hbehind
    rw [← List.append_assoc, ambient_concat, h.silent _ e (he e List.mem_cons_self), ih hbehind]

/-- One more declaration has the last word, or it leaves it to those before it. -/
theorem IsToldBy.lastWord_ambient (h : IsToldBy Tells part) (ds : List (Text × Text)) :
    LastWord Tells (part .unknown) ds (part (ambient ds)) := by
  induction ds using List.reverseRecOn with
  | nil => exact .unsaid fun e he => absurd he List.not_mem_nil
  | append_singleton ds d ih =>
    rw [ambient_concat]
    by_cases htold : ∃ a, Tells d a
    · obtain ⟨a, ha⟩ := htold
      rw [h.said _ d a ha]
      exact .said ha fun e he => absurd he List.not_mem_nil
    · have hd : ∀ e ∈ [d], ∀ b, ¬ Tells e b := by
        rintro e he b hb
        exact htold ⟨b, List.mem_singleton.mp he ▸ hb⟩
      rw [h.silent _ d (hd d List.mem_cons_self)]
      generalize part (ambient ds) = a at ih
      cases ih with
      | @said front behind e _ he hsilent =>
        rw [List.append_assoc, List.cons_append]
        exact .said he (List.forall_mem_append.mpr ⟨hsilent, hd⟩)
      | unsaid hsilent => exact .unsaid (List.forall_mem_append.mpr ⟨hsilent, hd⟩)

theorem IsToldBy.lastWord_iff (h : IsToldBy Tells part) {ds : List (Text × Text)} {a : α} :
    LastWord Tells (part .unknown) ds a ↔ part (ambient ds) = a := by
  constructor
  · rintro (⟨htold, hsilent⟩ | hsilent)
    · rw [List.append_cons, h.part_ambient_append _ hsilent, ambient_concat, h.said _ _ _ htold]
    · exact h.part_ambient_append [] hsilent
  · rintro rfl
    exact h.lastWord_ambient ds

end

theorem isToldBy_family : IsToldBy NamesFamilies Ambient.family where
  said := by
    rintro font _ _ (⟨name, unmarked⟩ | ⟨name, unmarked, read⟩)
    · rw [Ambient.declare_list name, unmarked_iff.mp unmarked]
    · rw [Ambient.declare_shorthand name, unmarked_iff.mp unmarked, read, Option.getD_some]
  silent := by
    intro font d hsilent
    rcases isIdle_or d with hlist | hheight | ⟨hfont, made, hread⟩ | hidle
    · exact absurd (.list hlist (unmarked_iff.mpr rfl)) (hsilent _)
    · rw [Ambient.declare_height hheight]
    · exact absurd (.shorthand hfont (unmarked_iff.mpr rfl) hread) (hsilent _)
    · rw [Ambient.declare_idle hidle]

theorem isToldBy_lineHeight : IsToldBy SetsLineHeight Ambient.lineHeight where
  said := by
    rintro font _ _ (⟨name, unmarked⟩ | ⟨name, unmarked, read⟩)
    · rw [Ambient.declare_height name, unmarked_iff.mp unmarked]
    · rw [Ambient.declare_shorthand name, unmarked_iff.mp unmarked, read, Option.getD_some]
  silent := by
    intro font d hsilent
    rcases isIdle_or d with hlist | hheight | ⟨hfont, made, hread⟩ | hidle
    · rw [Ambient.declare_list hlist]
    · exact absurd (.lineHeight hheight (unmarked_iff.mpr rfl)) (hsilent _)
    · exact absurd (.shorthand hfont (unmarked_iff.mpr rfl) hread) (hsilent _)
    · rw [Ambient.declare_idle hidle]

/-- Declarations without a say leave the settings alone, wherever they stand. -/
theorem ambient_append_idle {idle : List (Text × Text)} (hidle : ∀ d ∈ idle, IsIdle d)
    (front behind : List (Text × Text)) :
    ambient (front ++ idle ++ behind) = ambient (front ++ behind) := by
  have hsame : ambient (front ++ idle) = ambient front := by
    induction idle using List.reverseRecOn with
    | nil => rw [List.append_nil]
    | append_singleton idle d ih =>
      obtain ⟨hidle, hd⟩ := List.forall_mem_append.mp hidle
      rw [← List.append_assoc, ambient_concat, Ambient.declare_idle (hd d List.mem_cons_self),
        ih hidle]
  unfold ambient at hsame ⊢
  rw [List.foldl_append, hsame, ← List.foldl_append]

/-- The families are those that the last declaration with a say in them names, and the line height
is the one that the last declaration with a say in it sets. Declarations without a say can be put in
and taken out anywhere. -/
theorem ambient_lastWord (ds : List (Text × Text)) :
    (∀ names, LastWord NamesFamilies [] ds names ↔ (ambient ds).family = names) ∧
      (∀ height, LastWord SetsLineHeight none ds height ↔ (ambient ds).lineHeight = height) ∧
      ∀ front idle behind, ds = front ++ idle ++ behind → (∀ d ∈ idle, IsIdle d) →
        ambient ds = ambient (front ++ behind) := by
  refine ⟨fun names => isToldBy_family.lastWord_iff,
    fun height => isToldBy_lineHeight.lastWord_iff, ?_⟩
  rintro front idle behind rfl hidle
  exact ambient_append_idle hidle front behind

/-- A list of families and a shorthand that takes the list's place. -/
def overridingDeclarations : List (Text × Text) :=
  [("font-family".toList, "Georgia".toList),
    ("FONT".toList, "bold 16px/2 'Open Sans', serif ! Important ".toList)]

/-- A shorthand without a size, and another property. -/
def idleDeclarations : List (Text × Text) :=
  [("font".toList, "bold !important".toList), ("color".toList, "red".toList)]

theorem isIdle_of_mem_idleDeclarations : ∀ d ∈ idleDeclarations, IsIdle d := by
  have hread : shorthand? (withoutImportant "bold !important".toList) = none := by decide +kernel
  refine List.forall_mem_cons.mpr ⟨⟨by decide, by decide, fun _ v hv => ?_⟩,
    List.forall_mem_singleton.mpr ⟨by decide, by decide, fun h => absurd h (by decide)⟩⟩
  rw [← unmarked_iff.mp hv, hread]

theorem ambient_lastWord_overridden :
    (∀ d ∈ idleDeclarations, IsIdle d) ∧
      let height := [("Line-Height".toList, "3px!important".toList)]
      let declarations := overridingDeclarations ++ idleDeclarations ++ height
      LastWord NamesFamilies [] declarations ["Open Sans".toList, "serif".toList] ∧
        LastWord SetsLineHeight none declarations (some "3px".toList) ∧
        ambient declarations = ambient (overridingDeclarations ++ height) := by
  refine ⟨isIdle_of_mem_idleDeclarations, ?_⟩
  dsimp only
  obtain ⟨hfamily, hheight, hidle⟩ := ambient_lastWord
    (overridingDeclarations ++ idleDeclarations ++ [("Line-Height".toList, "3px!important".toList)])
  exact ⟨(hfamily _).mpr (by decide +kernel), (hheight _).mpr (by decide +kernel),
    hidle _ _ _ rfl isIdle_of_mem_idleDeclarations⟩

end LeadingTrim.Font
