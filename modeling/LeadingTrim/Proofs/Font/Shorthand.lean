/-
# Spellings of the `font` shorthand

The slash in front of the line height may stand at the end of the size, at the start of the line
height, at both or at neither, and a shorthand without one resets the line height to `normal`. Three
readers have a part in that: the one of tokens, the one that cuts the size off at its first slash,
and the one that looks for a slash in the tokens behind. All that is needed of the first is one
equation, for a token in front of a gap (`tokens_append`); words in front of the size are tokens
since no character of theirs means anything to it (`isPlain_of_isStyle`).

The spellings mean the same where no slash stands in the size (`shorthand?_written`). A size is cut
off at a slash inside parentheses as well, although the tokens keep parentheses whole.
-/

import LeadingTrim.Font.Shorthand
import LeadingTrim.Proofs.Text.TopLevel

namespace LeadingTrim.Font

open Text (isBlank isQuote Depth)

/-! ## Tokens -/

/-- A text that is a token as it stands: it is not split, and where it ends no quote, no parenthesis
and no backslash is waiting for more. -/
structure IsToken (t : Text) : Prop where
  ne_nil : t ≠ []
  split : blanks.split t = [(t, [])]
  closed : t.foldl blanks.next Depth.outside = Depth.outside

/-- What stands between two tokens. -/
structure IsGap (gap : Text) : Prop where
  ne_nil : gap ≠ []
  blank : ∀ c ∈ gap, isBlank c = true

theorem blanks_ends_of_isBlank {c : Char} (hc : isBlank c = true) :
    blanks.ends Depth.outside c = true := by
  have hne : ∀ d ∈ ['\\', '"', '\'', '(', ')'], c ≠ d := by
    rintro d hd rfl
    revert hc
    revert hd
    simp only [List.mem_cons, List.not_mem_nil, or_false]
    rintro (rfl | rfl | rfl | rfl | rfl) <;> decide
  simp only [List.mem_cons, List.not_mem_nil, or_false, forall_eq_or_imp, forall_eq] at hne
  simp [Text.Splitter.ends, blanks, isQuote, hc, hne]

theorem pieces_cons_of_isBlank {c : Char} (hc : isBlank c = true) (t : Text) :
    blanks.pieces Depth.outside (c :: t) = ([], c :: t) :: blanks.pieces Depth.outside t := by
  rw [Text.Splitter.pieces, if_pos (blanks_ends_of_isBlank hc)]

/-- Blanks in front belong to no token. -/
theorem tokens_of_isBlank {gap : Text} (hgap : ∀ c ∈ gap, isBlank c = true) (t : Text) :
    tokens (gap ++ t) = tokens t := by
  induction gap with
  | nil => rfl
  | cons c gap ih =>
    obtain ⟨hc, hgap⟩ := List.forall_mem_cons.mp hgap
    rw [← ih hgap, List.cons_append, tokens, Text.Splitter.split, pieces_cons_of_isBlank hc,
      List.filter_cons_of_neg (by simp)]
    rfl

/-- A token in front of a gap is the first one. -/
theorem tokens_append {t gap : Text} (ht : IsToken t) (hgap : IsGap gap) (rest : Text) :
    tokens (t ++ (gap ++ rest)) = (t, gap ++ rest) :: tokens rest := by
  obtain ⟨c, gap, rfl⟩ := List.exists_cons_of_ne_nil hgap.ne_nil
  obtain ⟨hc, hblank⟩ := List.forall_mem_cons.mp hgap.blank
  have hbehind : blanks.pieces (t.foldl blanks.next Depth.outside) (c :: gap ++ rest) =
      ([], c :: gap ++ rest) :: blanks.pieces Depth.outside (gap ++ rest) := by
    rw [ht.closed]
    exact pieces_cons_of_isBlank hc _
  have hpieces := Text.Splitter.pieces_append ht.split hbehind
  rw [tokens, Text.Splitter.split, hpieces, List.append_nil,
    List.filter_cons_of_pos (by simpa using ht.ne_nil), ← tokens_of_isBlank hblank rest]
  rfl

theorem IsToken.append {s t : Text} (hs : IsToken s) (ht : IsToken t) : IsToken (s ++ t) where
  ne_nil := by simp [hs.ne_nil]
  split := by
    refine Text.Splitter.pieces_append hs.split ?_
    rw [hs.closed]
    exact ht.split
  closed := by rw [List.foldl_append, hs.closed, ht.closed]

theorem isToken_slash : IsToken ['/'] := ⟨by decide, by decide, by decide⟩

/-! ## Plain texts -/

/-- A character that means nothing to the reader of a shorthand. -/
def isPlain (c : Char) : Bool :=
  !(isBlank c || isQuote c || c == '(' || c == ')' || c == '\\' || c == '/')

theorem isToken_of_isPlain {t : Text} (hne : t ≠ []) (hplain : ∀ c ∈ t, isPlain c = true) :
    IsToken t := by
  have hstep : ∀ c ∈ t, blanks.ends Depth.outside c = false ∧
      blanks.next Depth.outside c = Depth.outside := by
    intro c hc
    have h := hplain c hc
    simp only [isPlain, Bool.not_eq_true', Bool.or_eq_false_iff, beq_eq_false_iff_ne, ne_eq] at h
    obtain ⟨⟨⟨⟨⟨hblank, hquote⟩, hopen⟩, hclose⟩, hescape⟩, -⟩ := h
    constructor
    · simp [Text.Splitter.ends, blanks, hblank]
    · simp [Text.Splitter.next, blanks, Depth.outside, hquote, hopen, hclose, hescape]
  obtain ⟨hsplit, hclosed⟩ := Text.Splitter.isWhole_of_forall hstep
  exact ⟨hne, hsplit, hclosed⟩

theorem isPlain_of_isAlphanum {c : Char} (hc : c.isAlphanum = true) : isPlain c = true := by
  have hsmall : ∀ n < 123, (Char.ofNat n).isAlphanum = true → isPlain (Char.ofNat n) = true := by
    decide
  have hlt : c.toNat < 123 := by
    unfold Char.isAlphanum Char.isAlpha Char.isUpper Char.isLower at hc
    simp only [Char.isDigit, ge_iff_le, Bool.or_eq_true, Bool.and_eq_true, decide_eq_true_eq,
      UInt32.le_iff_toNat_le, Char.toNat_val, Char.reduceToNat] at hc
    omega
  have h := hsmall c.toNat hlt
  rw [Char.ofNat_toNat] at h
  exact h hc

theorem isPlain_of_isDigit {c : Char} (hc : c.isDigit = true) : isPlain c = true :=
  isPlain_of_isAlphanum (Bool.or_eq_true_iff.mpr (Or.inr hc))

theorem isPlain_of_toLower {c : Char} (hc : isPlain c.toLower = true) : isPlain c = true := by
  cases hupper : c.isUpper with
  | false =>
    have hsame : c.toLower = c := dif_neg (of_decide_eq_false hupper)
    rwa [hsame] at hc
  | true =>
    have halpha : c.isAlpha = true := Bool.or_eq_true_iff.mpr (Or.inl hupper)
    exact isPlain_of_isAlphanum (Bool.or_eq_true_iff.mpr (Or.inl halpha))

/-- Words are plain in any case if they are in lower case. -/
theorem isPlain_of_sameWord {t word : Text} (h : Text.sameWord t word = true)
    (hword : ∀ c ∈ word.lower, isPlain c = true) : ∀ c ∈ t, isPlain c = true := by
  intro c hc
  have hmem : c.toLower ∈ Text.lower t := List.mem_map_of_mem hc
  rw [beq_iff_eq.mp h] at hmem
  exact isPlain_of_toLower (hword _ hmem)

/-! ## Numbers -/

theorem isPlain_of_all_isDigit {digits : Text} (h : digits.all Char.isDigit = true) :
    ∀ c ∈ digits, isPlain c = true := fun c hc =>
  isPlain_of_isDigit (List.all_eq_true.mp h c hc)

theorem isPlain_of_exponent? {t : Text} (h : (Decimal.exponent? t).isSome = true) :
    ∀ c ∈ t, isPlain c = true := by
  unfold Decimal.exponent? at h
  split at h
  next negative digits hsign =>
  split at h
  · simp at h
  next hdigits =>
  simp only [Bool.or_eq_true, Bool.not_eq_true', not_or, Bool.not_eq_false] at hdigits
  have hplain := isPlain_of_all_isDigit hdigits.2
  split at hsign
  all_goals
    simp only [Prod.mk.injEq] at hsign
    obtain ⟨-, rfl⟩ := hsign
  · exact List.forall_mem_cons.mpr ⟨by decide, hplain⟩
  · exact List.forall_mem_cons.mpr ⟨by decide, hplain⟩
  · exact hplain

theorem isPlain_of_unsigned? {t : Text} (h : (Decimal.unsigned? t).isSome = true) :
    ∀ c ∈ t, isPlain c = true := by
  have hwhole : ∀ t : Text, ∀ c ∈ t.takeWhile Char.isDigit, isPlain c = true := fun t =>
    isPlain_of_all_isDigit List.all_takeWhile
  rw [← List.takeWhile_append_dropWhile (p := Char.isDigit) (l := t)]
  refine List.forall_mem_append.mpr ⟨hwhole t, ?_⟩
  rw [Decimal.unsigned?] at h
  split at h
  next fraction afterFraction hpoint =>
  split at h
  · simp at h
  have hexponent : ∀ c ∈ afterFraction, isPlain c = true := by
    split at h
    · simp
    next c rest =>
      split at h
      next hc =>
        rw [Option.isSome_map] at h
        refine List.forall_mem_cons.mpr ⟨?_, isPlain_of_exponent? h⟩
        simp only [Bool.or_eq_true, beq_iff_eq] at hc
        obtain rfl | rfl := hc <;> decide
      · simp at h
  split at hpoint
  all_goals
    simp only [Prod.mk.injEq] at hpoint
    obtain ⟨-, rfl⟩ := hpoint
  next rest hbehind =>
    rw [hbehind, ← List.takeWhile_append_dropWhile (p := Char.isDigit) (l := rest)]
    exact List.forall_mem_cons.mpr
      ⟨by decide, List.forall_mem_append.mpr ⟨hwhole rest, hexponent⟩⟩
  · exact hexponent

theorem isPlain_of_float? {t : Text} (h : (Decimal.float? t).isSome = true) :
    ∀ c ∈ t, isPlain c = true := by
  unfold Decimal.float? at h
  split at h
  next negative number hsign =>
  rw [Option.isSome_map] at h
  have hplain : ∀ c ∈ number, isPlain c = true := by
    split at h
    next hinfinity =>
      rw [Bool.or_eq_true] at hinfinity
      obtain hinfinity | hinfinity := hinfinity
      · exact isPlain_of_sameWord hinfinity (by decide)
      · exact isPlain_of_sameWord hinfinity (by decide)
    next =>
      split at h
      next hnan => exact isPlain_of_sameWord hnan (by decide)
      · exact isPlain_of_unsigned? h
  split at hsign
  all_goals
    simp only [Prod.mk.injEq] at hsign
    obtain ⟨-, rfl⟩ := hsign
  · exact List.forall_mem_cons.mpr ⟨by decide, hplain⟩
  · exact List.forall_mem_cons.mpr ⟨by decide, hplain⟩
  · exact hplain

/-! ## Words in front of the size -/

theorem isPlain_of_isStyle {t : Text} (h : isStyle t = true) : ∀ c ∈ t, isPlain c = true := by
  simp only [isStyle, isOneOf, Bool.or_eq_true, List.any_eq_true] at h
  obtain (⟨word, hword, hsame⟩ | hweight) | hangle := h
  · have hwords : ∀ word ∈ styleWords, ∀ c ∈ Text.lower word, isPlain c = true := by decide
    exact isPlain_of_sameWord hsame (hwords word hword)
  · rw [isWeight, Bool.and_eq_true, List.all_eq_true] at hweight
    exact fun c hc => isPlain_of_isDigit (hweight.2 c hc)
  · rw [isAngle, Bool.and_eq_true, beq_iff_eq] at hangle
    obtain ⟨hunit, hnumber⟩ := hangle
    intro c hc
    rw [← List.take_append_drop (t.length - 3) t, List.mem_append, hunit] at hc
    obtain hc | hc := hc
    · exact isPlain_of_float? hnumber c hc
    · have hdeg : ∀ c ∈ ['d', 'e', 'g'], isPlain c = true := by decide
      exact hdeg c hc

/-! ## The first token -/

theorem tokens_cons {c : Char} (hc : isBlank c = false) (t : Text) :
    ∃ piece behind more, tokens (c :: t) = (c :: piece, behind) :: more := by
  have hends : blanks.ends Depth.outside c = false := by simp [Text.Splitter.ends, blanks, hc]
  obtain ⟨piece, behind, more, hpieces, -⟩ :=
    blanks.head_pieces (blanks.next Depth.outside c) t
  refine ⟨piece, behind, more.filter fun piece => !piece.1.isEmpty, ?_⟩
  rw [tokens, Text.Splitter.split, Text.Splitter.pieces, hends, if_neg Bool.false_ne_true, hpieces,
    List.filter_cons_of_pos (by simp)]

/-- A token does not begin with a blank. -/
theorem IsToken.trimStart_append {t : Text} (ht : IsToken t) (rest : Text) :
    Text.trimStart (t ++ rest) = t ++ rest := by
  obtain ⟨c, t, rfl⟩ := List.exists_cons_of_ne_nil ht.ne_nil
  have hc : isBlank c = false := by
    rw [Bool.eq_false_iff]
    intro hc
    have hsplit := ht.split
    rw [Text.Splitter.split, pieces_cons_of_isBlank hc] at hsplit
    exact absurd (congrArg Prod.fst (List.cons.inj hsplit).1) (List.cons_ne_nil c t).symm
  rw [List.cons_append, Text.trimStart, List.dropWhile_cons_of_neg (by simp [hc])]

/-! ## Where the slash may stand -/

theorem isStyle_of_mem_slash {t : Text} (h : '/' ∈ t) : isStyle t = false := by
  rw [Bool.eq_false_iff]
  intro hstyle
  exact absurd (isPlain_of_isStyle hstyle '/' h) (by decide)

/-- A text without a slash is passed over on the way to the first one. -/
theorem append_slash {size : Text} (hslash : '/' ∉ size) (rest : Text) :
    (size ++ rest).takeWhile (· != '/') = size ++ rest.takeWhile (· != '/') ∧
      (size ++ rest).dropWhile (· != '/') = rest.dropWhile (· != '/') := by
  have hne : ∀ c ∈ size, (c != '/') = true := by
    intro c hc
    rw [bne_iff_ne]
    rintro rfl
    exact hslash hc
  exact ⟨List.takeWhile_append_of_pos hne, List.dropWhile_append_of_pos hne⟩

/-- A token that is a size and cannot be taken for anything else. -/
structure IsSizeToken (size : Text) : Prop where
  token : IsToken size
  isSize : isSize size = true
  noStyle : isStyle size = false
  noSlash : '/' ∉ size

/-- The tokens begin with the size and the line height, and the rest stands behind them. -/
def BeginsWith (size : Text) (lineHeight : Option Text) (rest t : Text) : Prop :=
  ∃ first behind more, tokens t = (first, behind) :: more ∧ isStyle first = false ∧
    first.takeWhile (· != '/') = size ∧
      lineHeightPart? (first, behind) more = some (lineHeight, rest)

variable {size before after lineHeight gap rest : Text}

/-- The size, the slash and the line height are one token. -/
theorem beginsWith_attached (hsize : IsSizeToken size) (hlineHeight : IsToken lineHeight)
    (hgap : IsGap gap) :
    BeginsWith size lineHeight (gap ++ rest) (size ++ '/' :: (lineHeight ++ (gap ++ rest))) := by
  obtain ⟨c, attached, hcons⟩ := List.exists_cons_of_ne_nil hlineHeight.ne_nil
  obtain ⟨htake, hdrop⟩ := append_slash hsize.noSlash ('/' :: lineHeight)
  have htokens := tokens_append (hsize.token.append (isToken_slash.append hlineHeight)) hgap rest
  simp only [List.append_assoc, List.cons_append, List.nil_append] at htokens
  refine ⟨_, _, _, htokens, isStyle_of_mem_slash (by simp), htake.trans (by simp), ?_⟩
  unfold lineHeightPart?
  rw [hdrop, hcons]
  rfl

/-- The slash is the end of the first token. -/
theorem beginsWith_slashBehind (hsize : IsSizeToken size) (hlineHeight : IsToken lineHeight)
    (hafter : IsGap after) (hgap : IsGap gap) :
    BeginsWith size lineHeight (gap ++ rest)
      (size ++ '/' :: (after ++ (lineHeight ++ (gap ++ rest)))) := by
  obtain ⟨htake, hdrop⟩ := append_slash hsize.noSlash ['/']
  have htokens := tokens_append (hsize.token.append isToken_slash) hafter
    (lineHeight ++ (gap ++ rest))
  rw [tokens_append hlineHeight hgap] at htokens
  rw [List.append_assoc] at htokens
  refine ⟨_, _, _, htokens, isStyle_of_mem_slash (by simp), htake.trans (by simp), ?_⟩
  unfold lineHeightPart?
  rw [hdrop]
  rfl

/-- The slash is the start of the second token. -/
theorem beginsWith_slashInFront (hsize : IsSizeToken size) (hlineHeight : IsToken lineHeight)
    (hbefore : IsGap before) (hgap : IsGap gap) :
    BeginsWith size lineHeight (gap ++ rest)
      (size ++ (before ++ '/' :: (lineHeight ++ (gap ++ rest)))) := by
  obtain ⟨c, attached, hcons⟩ := List.exists_cons_of_ne_nil hlineHeight.ne_nil
  obtain ⟨htake, hdrop⟩ := append_slash hsize.noSlash []
  rw [List.append_nil] at htake hdrop
  have htokens := tokens_append hsize.token hbefore ('/' :: lineHeight ++ (gap ++ rest))
  rw [show '/' :: lineHeight = ['/'] ++ lineHeight from rfl,
    tokens_append (isToken_slash.append hlineHeight) hgap] at htokens
  refine ⟨size, _, _, htokens, hsize.noStyle, htake.trans (by simp), ?_⟩
  unfold lineHeightPart?
  rw [hdrop, hcons]
  rfl

/-- The slash is a token of its own. -/
theorem beginsWith_slashAlone (hsize : IsSizeToken size) (hlineHeight : IsToken lineHeight)
    (hbefore : IsGap before) (hafter : IsGap after) (hgap : IsGap gap) :
    BeginsWith size lineHeight (gap ++ rest)
      (size ++ (before ++ '/' :: (after ++ (lineHeight ++ (gap ++ rest))))) := by
  obtain ⟨htake, hdrop⟩ := append_slash hsize.noSlash []
  rw [List.append_nil] at htake hdrop
  have htokens := tokens_append hsize.token hbefore
    (['/'] ++ (after ++ (lineHeight ++ (gap ++ rest))))
  rw [tokens_append isToken_slash hafter, tokens_append hlineHeight hgap] at htokens
  refine ⟨size, _, _, htokens, hsize.noStyle, htake.trans (by simp), ?_⟩
  unfold lineHeightPart?
  rw [hdrop]
  rfl

/-- A slash is found wherever blanks stand around it. -/
theorem beginsWith_slash (hsize : IsSizeToken size) (hlineHeight : IsToken lineHeight)
    (hbefore : ∀ c ∈ before, isBlank c = true) (hafter : ∀ c ∈ after, isBlank c = true)
    (hgap : IsGap gap) :
    BeginsWith size lineHeight (gap ++ rest)
      (size ++ (before ++ '/' :: (after ++ (lineHeight ++ (gap ++ rest))))) := by
  by_cases hnoBefore : before = []
  · by_cases hnoAfter : after = []
    · subst hnoBefore hnoAfter
      exact beginsWith_attached hsize hlineHeight hgap
    · subst hnoBefore
      exact beginsWith_slashBehind hsize hlineHeight ⟨hnoAfter, hafter⟩ hgap
  · by_cases hnoAfter : after = []
    · subst hnoAfter
      exact beginsWith_slashInFront hsize hlineHeight ⟨hnoBefore, hbefore⟩ hgap
    · exact beginsWith_slashAlone hsize hlineHeight ⟨hnoBefore, hbefore⟩ ⟨hnoAfter, hafter⟩ hgap

/-- Without a slash there is no line height. -/
theorem beginsWith_noSlash (hsize : IsSizeToken size) (hgap : IsGap gap)
    (hrest : rest.trimStart.head? ≠ some '/') (hne : rest.trimStart ≠ []) :
    BeginsWith size none (gap ++ rest) (size ++ (gap ++ rest)) := by
  obtain ⟨c, inked, hcons⟩ := List.exists_cons_of_ne_nil hne
  have hc : isBlank c = false := by
    have hhead := List.head?_dropWhile_not isBlank rest
    rw [show rest.dropWhile isBlank = c :: inked from hcons] at hhead
    simpa using hhead
  have hslash : c ≠ '/' := by
    rintro rfl
    exact hrest (by rw [hcons]; rfl)
  obtain ⟨piece, behind, more, hpieces⟩ := tokens_cons hc inked
  have hmore : tokens rest = (c :: piece, behind) :: more := by
    have hblank : ∀ c ∈ rest.takeWhile isBlank, isBlank c = true :=
      List.all_eq_true.mp List.all_takeWhile
    have htrim := tokens_of_isBlank hblank rest.trimStart
    rwa [Text.takeWhile_append_trimStart, hcons, hpieces] at htrim
  obtain ⟨htake, hdrop⟩ := append_slash hsize.noSlash []
  rw [List.append_nil] at htake hdrop
  have htokens := tokens_append hsize.token hgap rest
  rw [hmore] at htokens
  refine ⟨size, _, _, htokens, hsize.noStyle, htake.trans (by simp), ?_⟩
  simp only [lineHeightPart?, hdrop]
  simp [hslash]

/-! ## Shorthands -/

/-- Words with the gap behind each, as they are written. -/
def written (styles : List (Text × Text)) : Text := styles.flatMap fun style => style.1 ++ style.2

/-- Words for styles, weights and the like, each with a gap behind it. -/
def AreStyles (styles : List (Text × Text)) : Prop :=
  ∀ style ∈ styles, (style.1 ≠ [] ∧ isStyle style.1 = true) ∧ IsGap style.2

variable {styles : List (Text × Text)} {family : Text}

theorem written_cons (style : Text × Text) (styles : List (Text × Text)) (rest : Text) :
    written (style :: styles) ++ rest = style.1 ++ (style.2 ++ (written styles ++ rest)) := by
  simp [written]

theorem AreStyles.isToken_of_mem (h : AreStyles styles) {style : Text × Text}
    (hstyle : style ∈ styles) : IsToken style.1 :=
  have hword := (h style hstyle).1
  isToken_of_isPlain hword.1 (isPlain_of_isStyle hword.2)

/-- The words in front of the size are passed over. -/
theorem dropWhile_tokens_written (hstyles : AreStyles styles) (rest : Text) :
    (tokens (written styles ++ rest)).dropWhile (fun token => isStyle token.1) =
      (tokens rest).dropWhile fun token => isStyle token.1 := by
  induction styles with
  | nil => rfl
  | cons style styles ih =>
    obtain ⟨⟨⟨hne, hstyle⟩, hgap⟩, hmore⟩ := List.forall_mem_cons.mp hstyles
    have htoken := hstyles.isToken_of_mem List.mem_cons_self
    rw [written_cons, tokens_append htoken hgap,
      List.dropWhile_cons_of_pos (by simpa using hstyle), ih hmore]

/-- A shorthand begins with a word or with its size. -/
theorem trim_written (hstyles : AreStyles styles) (hsize : IsToken size) (middle : Text)
    (hfamily : family.trim ≠ []) :
    Text.trim (written styles ++ (size ++ (middle ++ family))) =
      written styles ++ (size ++ (middle ++ family.trimEnd)) := by
  have hend : family.trimEnd ≠ [] := by
    intro hnil
    rw [← Text.trim_trimEnd, hnil] at hfamily
    exact hfamily rfl
  have hstart : Text.trimStart (written styles ++ (size ++ (middle ++ family))) =
      written styles ++ (size ++ (middle ++ family)) := by
    cases styles with
    | nil => exact hsize.trimStart_append _
    | cons style styles =>
      rw [written_cons, (hstyles.isToken_of_mem List.mem_cons_self).trimStart_append]
  rw [Text.trim, hstart]
  simp only [← List.append_assoc]
  rw [Text.trimEnd_append hend]

/-- A text with a blank in it is no word that resets the property. -/
theorem isOneOf_resetWords_of_isBlank {c : Char} (hc : isBlank c = true) {t : Text} (hmem : c ∈ t) :
    isOneOf resetWords t = false := by
  have hwords : ∀ word ∈ resetWords, ∀ c ∈ Text.lower word, isPlain c = true := by decide
  rw [isOneOf, List.any_eq_false]
  intro word hword hsame
  have hplain := isPlain_of_sameWord hsame (hwords word hword) c hmem
  simp [isPlain, hc] at hplain

/-- What is read once the line height and the text behind it are found. -/
theorem shorthand?_of_beginsWith (hstyles : AreStyles styles) (hsize : IsSizeToken size)
    (hgap : IsGap gap) (hfamily : family.trim ≠ []) {slash : Text} {found : Option Text}
    (hbegins : BeginsWith size found (gap ++ family.trimEnd)
      (size ++ (slash ++ (gap ++ family.trimEnd)))) :
    shorthand? (written styles ++ (size ++ (slash ++ (gap ++ family)))) =
      some ⟨families family.trim, some (found.getD "normal".toList)⟩ := by
  obtain ⟨first, behind, more, htokens, hstyle, hcut, hpart⟩ := hbegins
  have hvalue := trim_written hstyles hsize.token (slash ++ gap) hfamily
  simp only [List.append_assoc] at hvalue
  have hreset : isOneOf resetWords
      (written styles ++ (size ++ (slash ++ (gap ++ family.trimEnd)))) = false := by
    obtain ⟨c, gap', hcons⟩ := List.exists_cons_of_ne_nil hgap.ne_nil
    have hc : c ∈ gap := by simp [hcons]
    exact isOneOf_resetWords_of_isBlank (hgap.blank c hc) (by simp [hc])
  have hread : (tokens (written styles ++ (size ++ (slash ++ (gap ++ family.trimEnd))))).dropWhile
      (fun token => isStyle token.1) = (first, behind) :: more := by
    rw [dropWhile_tokens_written hstyles, htokens, List.dropWhile_cons_of_neg (by simp [hstyle])]
  have hlist : Text.trim (gap ++ family.trimEnd) = family.trim := by
    rw [Text.trim_append_of_isBlank hgap.blank, Text.trim_trimEnd]
  have hempty : (Text.trim family).isEmpty = false := by simpa using hfamily
  simp only [shorthand?, hvalue, hreset, hread]
  simp only [hcut, hsize.isSize, hpart, hlist, hempty]
  rfl

/-- All spellings of the slash mean the same where the size has no slash in it, and without a slash
the line height is `normal`. -/
theorem shorthand?_written (hstyles : AreStyles styles) (hsize : IsSizeToken size)
    (hlineHeight : IsToken lineHeight) (hgap : IsGap gap) (hfamily : family.trim ≠ []) :
    (∀ before after : Text, (∀ c ∈ before, isBlank c = true) → (∀ c ∈ after, isBlank c = true) →
      shorthand? (written styles ++
          (size ++ (before ++ '/' :: (after ++ (lineHeight ++ (gap ++ family)))))) =
        some ⟨families family.trim, some lineHeight⟩) ∧
      (family.trimStart.head? ≠ some '/' →
        shorthand? (written styles ++ (size ++ (gap ++ family))) =
          some ⟨families family.trim, some "normal".toList⟩) := by
  refine ⟨fun before after hbefore hafter => ?_, fun hslash => ?_⟩
  · have hbegins : BeginsWith size lineHeight (gap ++ family.trimEnd)
        (size ++ ((before ++ '/' :: (after ++ lineHeight)) ++ (gap ++ family.trimEnd))) := by
      simpa using beginsWith_slash hsize hlineHeight hbefore hafter hgap
    simpa using shorthand?_of_beginsWith hstyles hsize hgap hfamily hbegins
  · have hstart : Text.trimStart family.trimEnd = family.trim := Text.trimStart_trimEnd family
    have hhead : family.trim.head? ≠ some '/' := by
      obtain ⟨tail, happend, -⟩ := Text.exists_trimEnd_append family.trimStart
      obtain ⟨c, list, hcons⟩ := List.exists_cons_of_ne_nil hfamily
      rw [← Text.trim, hcons] at happend
      rw [happend] at hslash
      rw [hcons]
      exact hslash
    have hbegins := beginsWith_noSlash hsize hgap (hstart ▸ hhead) (hstart ▸ hfamily)
    exact @shorthand?_of_beginsWith _ _ _ _ hstyles hsize hgap hfamily [] _ hbegins

theorem shorthand?_written_sample :
    AreStyles [("italic".toList, [' ']), ("10deg".toList, ['\t'])] ∧
      IsSizeToken "calc(1em * 2)".toList ∧ IsToken "var(--h, 1 / 2)".toList ∧
      IsGap "  ".toList ∧ Text.trim "\"A B\" , serif ".toList ≠ [] ∧
      (∀ c ∈ " ".toList, isBlank c = true) ∧
      List.head? (Text.trimStart "\"A B\" , serif ".toList) ≠ some '/' ∧
      shorthand? "italic 10deg\tcalc(1em * 2)/ var(--h, 1 / 2)  \"A B\" , serif ".toList =
        some ⟨["A B".toList, "serif".toList], some "var(--h, 1 / 2)".toList⟩ ∧
      shorthand? "italic 10deg\tcalc(1em * 2)  \"A B\" , serif ".toList =
        some ⟨["A B".toList, "serif".toList], some "normal".toList⟩ := by
  have hstyles : AreStyles [("italic".toList, [' ']), ("10deg".toList, ['\t'])] := by
    intro style hstyle
    rcases hstyle with _ | ⟨_, _ | ⟨_, hstyle⟩⟩
    · exact ⟨by decide, ⟨by decide, by decide⟩⟩
    · exact ⟨by decide, ⟨by decide, by decide⟩⟩
    · exact absurd hstyle List.not_mem_nil
  have hsize : IsSizeToken "calc(1em * 2)".toList :=
    ⟨⟨by decide, by decide, by decide⟩, by decide, by decide, by decide⟩
  have hlineHeight : IsToken "var(--h, 1 / 2)".toList := ⟨by decide, by decide, by decide⟩
  have hgap : IsGap "  ".toList := ⟨by decide, by decide⟩
  have hfamily : Text.trim "\"A B\" , serif ".toList ≠ [] := by decide
  have hblank : ∀ c ∈ " ".toList, isBlank c = true := by decide
  have hslash : List.head? (Text.trimStart "\"A B\" , serif ".toList) ≠ some '/' := by decide
  obtain ⟨hspelled, hreset⟩ := shorthand?_written hstyles hsize hlineHeight hgap hfamily
  have hlist : families (Text.trim "\"A B\" , serif ".toList) = ["A B".toList, "serif".toList] := by
    decide
  rw [hlist] at hreset
  refine ⟨hstyles, hsize, hlineHeight, hgap, hfamily, hblank, hslash, ?_, hreset hslash⟩
  rw [← hlist]
  exact hspelled [] " ".toList (by decide) hblank

/-- A size with a slash inside its parentheses is cut off there, and what follows is taken for the
line height. -/
example : shorthand? "calc(1em/2) Arial".toList =
    some ⟨["Arial".toList], some "2)".toList⟩ := by decide

end LeadingTrim.Font
