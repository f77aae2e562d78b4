/-
# Where words end

A word goes no further than the next white space, comma, semicolon, exclamation mark or bracket. So
the pieces that words are read from are the same whatever follows such a character
(`word_append`), but for an escape, which may hold that one character (`word_escape`).
-/

import LeadingTrim.Sheet.Nesting

namespace LeadingTrim.Sheet

open Text (isSheetSpace)

/-! ## The characters that end words -/

/-- The characters that no plain word holds. -/
def wordStops : List Char :=
  ['\t', '\n', '\x0b', '\x0c', '\r', ' ', ',', ';', '!', '\x7b', '\x7d', '(', ')', '[', ']']

theorem mem_wordStops {c : Char} (h : endsPlain c = true) : c ∈ wordStops := by
  simp only [endsPlain, isSheetSpace, List.contains_eq_mem, Bool.or_eq_true, Bool.and_eq_true,
    beq_iff_eq, decide_eq_true_eq, List.mem_cons, List.not_mem_nil, or_false] at h
  rcases h with (rfl | ⟨hlow, hhigh⟩) | rfl | rfl | rfl | rfl | rfl | rfl | rfl | rfl | rfl
  · decide
  · have hcases : c.toNat = 9 ∨ c.toNat = 10 ∨ c.toNat = 11 ∨ c.toNat = 12 ∨ c.toNat = 13 := by
      omega
    rw [← Char.ofNat_toNat c]
    rcases hcases with h | h | h | h | h <;> rw [h] <;> decide
  all_goals decide

/-- No word goes on into the text. -/
def EndsWord (r : Text) : Prop := ∀ c ∈ r.head?, endsPlain c = true

theorem EndsWord.mem_wordStops {c : Char} {r : Text} (h : EndsWord (c :: r)) : c ∈ wordStops :=
  Sheet.mem_wordStops (h c rfl)

theorem endsWord_cons {c : Char} (h : endsPlain c = true) (r : Text) : EndsWord (c :: r) := by
  intro d hd
  obtain rfl : c = d := by simpa using hd
  exact h

/-- No name and no number goes on into the text, which may begin with a slash. -/
def EndsName (r : Text) : Prop := ∀ c ∈ r.head?, c ∈ '/' :: wordStops

theorem EndsWord.endsName {r : Text} (h : EndsWord r) : EndsName r :=
  fun c hc => List.mem_cons_of_mem _ (Sheet.mem_wordStops (h c hc))

theorem endsName_slash (r : Text) : EndsName ('/' :: r) := by
  intro c hc
  obtain rfl : '/' = c := by simpa using hc
  exact List.mem_cons_self

theorem EndsName.mem {c : Char} {r : Text} (h : EndsName (c :: r)) : c ∈ '/' :: wordStops :=
  h c rfl

theorem EndsName.take {r : Text} (h : EndsName r) (n : Nat) : EndsName (r.take n) := by
  cases n with
  | zero => simp [EndsName]
  | succ n =>
    cases r with
    | nil => simp [EndsName]
    | cons c r =>
      intro d hd
      obtain rfl : c = d := by simpa using hd
      exact h.mem

variable {r : Text}

theorem takeWhile_append_of_endsName {p : Char → Bool} (hp : ∀ c ∈ '/' :: wordStops, p c = false)
    (h : EndsName r) (w : Text) : (w ++ r).takeWhile p = w.takeWhile p := by
  induction w with
  | nil =>
    cases r with
    | nil => rfl
    | cons c r => simp [hp c h.mem]
  | cons a w ih =>
    rw [List.cons_append, List.takeWhile_cons, List.takeWhile_cons, ih]

/-! ## Names and plain words -/

theorem isNameStart_of_isNameChar {c : Char} (h : isNameChar c = false) :
    isNameStart c = false ∧ c ≠ '-' := by
  simp only [isNameChar, Bool.or_eq_false_iff, beq_eq_false_iff_ne] at h
  exact ⟨h.1.1, h.2⟩

theorem nameLength_of_head (h : ∀ c ∈ r.head?, isNameChar c = false) : nameLength r = 0 := by
  cases r with
  | nil => rfl
  | cons c r =>
    obtain ⟨hname, hhyphen⟩ := isNameStart_of_isNameChar (h c rfl)
    simp [nameLength, hname, hhyphen]

theorem nameLength_of_ne {c : Char} (hc : c ≠ '-') (rest : Text) :
    nameLength (c :: rest) =
      if isNameStart c then 1 + (rest.takeWhile isNameChar).length else 0 := by
  simp [nameLength, hc]

theorem nameLength_hyphen {c : Char} (hc : c ≠ '-') (rest : Text) :
    nameLength ('-' :: c :: rest) =
      if isNameStart c then 2 + (rest.takeWhile isNameChar).length else 0 := by
  simp [nameLength]

/-- A name does not go on with a character that no name holds. -/
theorem nameLength_append_of_head (h : ∀ c ∈ r.head?, isNameChar c = false) (w : Text) :
    nameLength (w ++ r) = nameLength w := by
  have hchar : ∀ w : Text, (w ++ r).takeWhile isNameChar = w.takeWhile isNameChar := by
    intro w
    induction w with
    | nil =>
      cases r with
      | nil => rfl
      | cons c r => simp [h c rfl]
    | cons a w ih => rw [List.cons_append, List.takeWhile_cons, List.takeWhile_cons, ih]
  have hfirst := hchar []
  match w with
  | [] => exact nameLength_of_head h
  | [a] =>
    by_cases ha : a = '-'
    · subst ha
      cases r with
      | nil => rfl
      | cons c r =>
        obtain ⟨hname, hhyphen⟩ := isNameStart_of_isNameChar (h c rfl)
        rw [List.singleton_append, nameLength_hyphen hhyphen, hname]
        rfl
    · simp only [List.nil_append, List.takeWhile_nil] at hfirst
      simp [nameLength, ha, hfirst]
  | a :: b :: w =>
    rw [List.cons_append, List.cons_append]
    by_cases ha : a = '-'
    · subst ha
      by_cases hb : b = '-'
      · simp [nameLength, hb, hchar]
      · simp [nameLength, hchar]
    · have := hchar (b :: w)
      rw [List.cons_append] at this
      simp [nameLength, ha, this]

theorem EndsName.isNameChar (h : EndsName r) : ∀ c ∈ r.head?, isNameChar c = false := by
  have hstops : ∀ c ∈ '/' :: wordStops, Sheet.isNameChar c = false := by decide
  exact fun c hc => hstops c (h c hc)

theorem nameLength_append (h : EndsName r) (w : Text) : nameLength (w ++ r) = nameLength w :=
  nameLength_append_of_head h.isNameChar w

theorem plainTail_of_ne {c : Char} (hc : c ≠ '/') (rest : Text) :
    plainTail (c :: rest) = if endsPlain c then 0 else 1 + plainTail rest := by
  simp [plainTail, hc]

theorem plainTail_of_endsWord (h : EndsWord r) : plainTail r = 0 := by
  cases r with
  | nil => rfl
  | cons c r =>
    have hslash : ∀ c ∈ wordStops, c ≠ '/' := by decide
    rw [plainTail_of_ne (hslash c h.mem_wordStops), if_pos (h c rfl)]

theorem plainTail_append (h : EndsWord r) (w : Text) : plainTail (w ++ r) = plainTail w := by
  match w with
  | [] => exact plainTail_of_endsWord h
  | '/' :: c :: w =>
    simp only [List.cons_append, plainTail, plainTail_append h w]
  | [a] =>
    by_cases ha : a = '/'
    · subst ha
      cases r with
      | nil => rfl
      | cons c r => simp [plainTail, h c rfl]
    · rw [List.cons_append, plainTail_of_ne ha, plainTail_of_ne ha, List.nil_append,
        plainTail_of_endsWord h]
      rfl
  | a :: b :: w =>
    by_cases ha : a = '/'
    · subst ha
      simp only [List.cons_append, plainTail, plainTail_append h w]
    · rw [List.cons_append, plainTail_of_ne ha, plainTail_of_ne ha, plainTail_append h (b :: w)]

theorem plainLength_of_endsWord (h : EndsWord r) : plainLength r = 0 := by
  cases r with
  | nil => rfl
  | cons c r =>
    have hstart : ∀ c ∈ wordStops, c.isAlpha = false ∧ c ≠ '/' ∧ c ≠ '-' ∧ c ≠ '_' := by decide
    obtain ⟨halpha, hslash, hhyphen, hline⟩ := hstart c h.mem_wordStops
    simp [plainLength, halpha, hslash, hhyphen, hline]

theorem plainLength_of_ne {c : Char} (hc : c ≠ '/') (rest : Text) :
    plainLength (c :: rest) =
      if c.isAlpha then 1 + plainTail rest
      else if c = '-' ∨ c = '_' then
        if plainLength rest = 0 then 0 else plainLength rest + 1
      else 0 := by
  cases h : plainLength rest <;> simp [plainLength, hc, h]

theorem plainLength_append (h : EndsWord r) (w : Text) :
    plainLength (w ++ r) = plainLength w := by
  match w with
  | [] => exact plainLength_of_endsWord h
  | [a] =>
    by_cases ha : a = '/'
    · subst ha
      cases r with
      | nil => rfl
      | cons c r =>
        simp [plainLength, h c rfl]
    · rw [List.cons_append, plainLength_of_ne ha, plainLength_of_ne ha, List.nil_append,
        plainLength_of_endsWord h, plainTail_of_endsWord h]
      rfl
  | a :: b :: w =>
    by_cases ha : a = '/'
    · subst ha
      simp only [List.cons_append, plainLength, plainLength_append h w]
    · rw [List.cons_append, plainLength_of_ne ha, plainLength_of_ne ha,
        plainLength_append h (b :: w), plainTail_append h (b :: w)]

/-- A comment or a slash that stands alone ends a plain word that does not end in a slash. -/
theorem plainTail_append_slash {e : Char} (he : (e == '*' || endsPlain e) = true) {w : Text}
    (hw : w.getLast? ≠ some '/') (y : Text) : plainTail (w ++ '/' :: e :: y) = plainTail w := by
  match w with
  | [] => simp [plainTail, he]
  | '/' :: c :: w =>
    have hlast : w.getLast? ≠ some '/' := by
      cases w with
      | nil => simp
      | cons d w => simpa using hw
    simp only [List.cons_append, plainTail, plainTail_append_slash he hlast y]
  | [a] =>
    have ha : a ≠ '/' := by simpa using hw
    rw [List.cons_append, plainTail_of_ne ha, plainTail_of_ne ha, List.nil_append, plainTail,
      if_pos he]
    rfl
  | a :: b :: w =>
    have hlast : (b :: w).getLast? ≠ some '/' := by simpa using hw
    by_cases ha : a = '/'
    · subst ha
      have hlast' : w.getLast? ≠ some '/' := by
        cases w with
        | nil => simp
        | cons d w => simpa using hw
      simp only [List.cons_append, plainTail, plainTail_append_slash he hlast' y]
    · rw [List.cons_append, plainTail_of_ne ha, plainTail_of_ne ha,
        plainTail_append_slash he hlast y]

theorem plainLength_append_slash {e : Char} (he : (e == '*' || endsPlain e) = true) {w : Text}
    (hw : w.getLast? ≠ some '/') (y : Text) : plainLength (w ++ '/' :: e :: y) = plainLength w := by
  match w with
  | [] => simp [plainLength, he]
  | [a] =>
    have ha : a ≠ '/' := by simpa using hw
    rw [List.cons_append, plainLength_of_ne ha, plainLength_of_ne ha, List.nil_append, plainTail,
      plainLength, if_pos he, if_pos he]
    rfl
  | a :: b :: w =>
    have hlast : (b :: w).getLast? ≠ some '/' := by simpa using hw
    by_cases ha : a = '/'
    · subst ha
      have hlast' : w.getLast? ≠ some '/' := by
        cases w with
        | nil => simp
        | cons d w => simpa using hw
      simp only [List.cons_append, plainLength, plainLength_append_slash he hlast' y]
    · rw [List.cons_append, plainLength_of_ne ha, plainLength_of_ne ha,
        plainLength_append_slash he hlast y, plainTail_append_slash he hlast y]

/-! ## Numbers, colours and units -/

theorem takeWhile_isDigit_append (h : EndsName r) (w : Text) :
    (w ++ r).takeWhile Char.isDigit = w.takeWhile Char.isDigit :=
  takeWhile_append_of_endsName (by decide) h w

theorem exponentLength_append (h : EndsName r) (w : Text) :
    exponentLength (w ++ r) = exponentLength w := by
  cases w with
  | nil =>
    cases r with
    | nil => rfl
    | cons c r =>
      have hexponent : ∀ c ∈ '/' :: wordStops, c ≠ 'e' ∧ c ≠ 'E' := by decide
      obtain ⟨hsmall, hlarge⟩ := hexponent c h.mem
      simp [exponentLength, hsmall, hlarge]
  | cons a w =>
    have hdigits := takeWhile_isDigit_append h
    rw [List.cons_append]
    cases w with
    | nil =>
      have hnone := hdigits []
      simp only [List.nil_append, List.takeWhile_nil] at hnone
      cases r with
      | nil => rfl
      | cons c r =>
        have hhyphen : ∀ c ∈ '/' :: wordStops, c ≠ '-' := by decide
        simp [exponentLength, hhyphen c h.mem, hnone]
    | cons b w =>
      have hrest := hdigits (b :: w)
      rw [List.cons_append] at hrest
      by_cases hb : b = '-'
      · subst hb
        simp [exponentLength, hdigits]
      · simp [exponentLength, hb, hrest]

theorem length_takeWhile_le_length (p : Char → Bool) (t : Text) :
    (t.takeWhile p).length ≤ t.length := (List.takeWhile_prefix p).length_le

/-- The number of characters of the decimals at the front with the point before them. -/
def fractionLength : Text → Nat
  | '.' :: rest => match (rest.takeWhile Char.isDigit).length with
    | 0 => 0
    | n + 1 => n + 2
  | _ => 0

theorem fractionLength_cons (c : Char) (rest : Text) :
    fractionLength (c :: rest) =
      if c = '.' ∧ (rest.takeWhile Char.isDigit).length ≠ 0 then
        (rest.takeWhile Char.isDigit).length + 1
      else 0 := by
  by_cases hc : c = '.'
  · subst hc
    cases h : (rest.takeWhile Char.isDigit).length <;> simp [fractionLength, h]
  · simp [fractionLength, hc]

theorem fractionLength_append (h : EndsName r) (w : Text) :
    fractionLength (w ++ r) = fractionLength w := by
  cases w with
  | nil =>
    cases r with
    | nil => rfl
    | cons c r =>
      have hpoint : ∀ c ∈ '/' :: wordStops, c ≠ '.' := by decide
      have hc := hpoint c h.mem
      rw [List.nil_append, fractionLength_cons, if_neg fun h => hc h.1]
      rfl
  | cons a w =>
    rw [List.cons_append, fractionLength_cons, fractionLength_cons, takeWhile_isDigit_append h]

theorem fractionLength_le (t : Text) : fractionLength t ≤ t.length := by
  cases t with
  | nil => exact Nat.le_refl 0
  | cons c t =>
    have := length_takeWhile_le_length Char.isDigit t
    rw [fractionLength_cons, List.length_cons]
    split
    · omega
    · omega

theorem unsignedLength_eq (t : Text) :
    unsignedLength t =
      (t.takeWhile Char.isDigit).length
        + fractionLength (t.drop (t.takeWhile Char.isDigit).length)
        + exponentLength (t.drop ((t.takeWhile Char.isDigit).length
            + fractionLength (t.drop (t.takeWhile Char.isDigit).length))) := by
  unfold unsignedLength fractionLength
  rfl

theorem unsignedLength_append (h : EndsName r) (w : Text) :
    unsignedLength (w ++ r) = unsignedLength w := by
  have hdigits := length_takeWhile_le_length Char.isDigit w
  have hfraction := fractionLength_le (w.drop (w.takeWhile Char.isDigit).length)
  rw [List.length_drop] at hfraction
  rw [unsignedLength_eq, unsignedLength_eq, takeWhile_isDigit_append h,
    List.drop_append_of_le_length hdigits, fractionLength_append h,
    List.drop_append_of_le_length (by omega), exponentLength_append h]

/-- The sign of a number at the front. -/
def signLength (t : Text) : Nat := if t.head? = some '+' ∨ t.head? = some '-' then 1 else 0

theorem numberLength_eq (t : Text) :
    numberLength t =
      if unsignedLength (t.drop (signLength t)) = 0 then 0
      else signLength t + unsignedLength (t.drop (signLength t)) := by
  cases t with
  | nil => rfl
  | cons c t =>
    by_cases hplus : c = '+'
    · subst hplus
      cases h : unsignedLength t <;> simp [numberLength, signLength, h, Nat.add_assoc]
    · by_cases hminus : c = '-'
      · subst hminus
        cases h : unsignedLength t <;> simp [numberLength, signLength, h, Nat.add_assoc]
      · cases h : unsignedLength (c :: t) <;> simp [numberLength, signLength, hplus, hminus, h]

theorem numberLength_append (h : EndsName r) (w : Text) :
    numberLength (w ++ r) = numberLength w := by
  cases w with
  | nil =>
    have hsign : signLength r = 0 := by
      cases r with
      | nil => rfl
      | cons c r =>
        have hsign : ∀ c ∈ '/' :: wordStops, ¬ (c = '+' ∨ c = '-') := by decide
        simp [signLength, hsign c h.mem]
    have hunsigned := unsignedLength_append h []
    rw [List.nil_append] at hunsigned ⊢
    rw [numberLength_eq, hsign, List.drop_zero, hunsigned]
    rfl
  | cons a w =>
    have hsign : signLength (a :: w ++ r) = signLength (a :: w) := rfl
    have hle : signLength (a :: w) ≤ (a :: w).length := by
      unfold signLength
      split
      · simp
      · simp
    rw [numberLength_eq, numberLength_eq, hsign, List.drop_append_of_le_length hle,
      unsignedLength_append h]

theorem colourLength_append (h : EndsName r) (w : Text) :
    colourLength (w ++ r) = colourLength w := by
  unfold colourLength
  rw [List.take_append, takeWhile_append_of_endsName (by decide) (h.take _)]

theorem unitLength_append (h : EndsName r) {w : Text}
    (hplain : plainLength (w ++ r) = plainLength w) (next : Follow) :
    unitLength next (w ++ r) = unitLength next w := by
  unfold unitLength
  rw [takeWhile_append_of_endsName (by decide) h, nameLength_append h, hplain]

theorem digitsLength_append (h : EndsName r) (p : Place) (w : Text) :
    digitsLength p (w ++ r) = digitsLength p w := by
  unfold digitsLength
  rw [colourLength_append h, nameLength_append h]

/-! ## Words -/

theorem startsWith_append {first : Text} (hfirst : ∀ c ∈ first, c ∉ '/' :: wordStops)
    (h : EndsName r) (w : Text) : Text.startsWith first (w ++ r) = Text.startsWith first w := by
  unfold Text.startsWith
  induction first generalizing w with
  | nil => rfl
  | cons p first ih =>
    cases w with
    | nil =>
      cases r with
      | nil => rfl
      | cons c r =>
        have hne : p ≠ c := fun heq => hfirst p List.mem_cons_self (heq ▸ h.mem)
        simp [Text.after?, hne]
    | cons a w =>
      rw [List.cons_append, Text.after?, Text.after?]
      split
      · exact ih (fun c hc => hfirst c (List.mem_cons_of_mem _ hc)) w
      · rfl

theorem length_le_of_startsWith {first t : Text} (h : Text.startsWith first t = true) :
    first.length ≤ t.length := by
  obtain ⟨rest, hrest⟩ := Option.isSome_iff_exists.mp h
  rw [Text.after?_eq_some_iff] at hrest
  simp [hrest]

theorem startsWith_important_append (h : EndsName r) (a : Char) (w : Text) :
    Text.startsWith "!important".toList (a :: w ++ r) =
      Text.startsWith "!important".toList (a :: w) := by
  have htail : Text.startsWith "important".toList (w ++ r) =
      Text.startsWith "important".toList w := startsWith_append (by decide) h w
  have hcons : ∀ t, Text.startsWith "!important".toList (a :: t) =
      if '!' = a then Text.startsWith "important".toList t else false := by
    intro t
    show (if '!' = a then Text.after? "important".toList t else none).isSome = _
    split <;> rfl
  rw [List.cons_append, hcons, hcons, htail]

theorem nameLength_le (t : Text) : nameLength t ≤ t.length := by
  have hchar := length_takeWhile_le_length isNameChar
  cases t with
  | nil => exact Nat.le_refl _
  | cons a t =>
    have htail := hchar t
    rw [List.length_cons]
    by_cases ha : a = '-'
    · subst ha
      cases t with
      | nil => decide
      | cons b t =>
        have hrest := hchar t
        rw [List.length_cons]
        by_cases hb : b = '-'
        · subst hb
          simp only [nameLength]
          omega
        · rw [nameLength_hyphen hb]
          split <;> omega
    · rw [nameLength_of_ne ha]
      split <;> omega

theorem nameLengthAt_append (h : EndsName r) (p : Place) (w : Text) :
    nameLengthAt p (w ++ r) = nameLengthAt p w := by
  have hand : Text.startsWith "and".toList (w ++ r) = Text.startsWith "and".toList w :=
    startsWith_append (by decide) h w
  have hor : Text.startsWith "or".toList (w ++ r) = Text.startsWith "or".toList w :=
    startsWith_append (by decide) h w
  unfold nameLengthAt
  rw [hand, hor, nameLength_append h]

theorem nameLengthAt_le (p : Place) (t : Text) : nameLengthAt p t ≤ t.length := by
  have hshort : (if Text.startsWith "and".toList t then 3
      else if Text.startsWith "or".toList t then 2 else 0) ≤ t.length := by
    split
    next hand => exact length_le_of_startsWith hand
    · split
      next hor => exact length_le_of_startsWith hor
      · exact Nat.zero_le _
  unfold nameLengthAt
  split
  · exact Nat.zero_le _
  · exact hshort
  · exact hshort
  · exact nameLength_le t

theorem markText_cons_cons (a b : Char) (t : Text) :
    markText (a :: b :: t) = if a = ':' ∧ b = ':' then [':', ':'] else [a] := by
  unfold markText
  split
  next heq =>
    injection heq with ha htail
    injection htail with hb _
    rw [if_pos ⟨ha, hb⟩]
  next hne =>
    rw [if_neg]
    · rfl
    · rintro ⟨rfl, rfl⟩
      exact hne t rfl

theorem markText_append (h : EndsName r) (a : Char) (w : Text) :
    markText (a :: w ++ r) = markText (a :: w) := by
  cases w with
  | nil =>
    cases r with
    | nil => rfl
    | cons c r =>
      have hcolon : ∀ c ∈ '/' :: wordStops, c ≠ ':' := by decide
      have hc : ¬ (a = ':' ∧ c = ':') := fun h' => hcolon c h.mem h'.2
      rw [List.cons_append, List.nil_append, markText_cons_cons, if_neg hc]
      simp [markText]
  | cons b w =>
    rw [List.cons_append, List.cons_append, markText_cons_cons, markText_cons_cons]

theorem nameLengthAt_of_escape (p : Place) (t : Text) : nameLengthAt p ('\\' :: t) = 0 := by
  unfold nameLengthAt
  split
  · rfl
  · rfl
  · rfl
  · rfl

theorem nameOrMark_of_ne {a : Char} (ha : a ≠ '\\') (p : Place) (t : Text) :
    nameOrMark p (a :: t) =
      if nameLengthAt p (a :: t) = 0 then
        (.mark (markText (a :: t)), (markText (a :: t)).length)
      else (.name ((a :: t).take (nameLengthAt p (a :: t))), nameLengthAt p (a :: t)) := by
  unfold nameOrMark
  split
  next heq => exact absurd (List.cons.inj heq).1 ha
  next hzero _ => rw [if_pos hzero]
  next n hsucc => rw [hsucc, if_neg (Nat.succ_ne_zero n)]

theorem nameOrMark_append (h : EndsName r) {a : Char} (ha : a ≠ '\\') (p : Place) (w : Text) :
    nameOrMark p (a :: w ++ r) = nameOrMark p (a :: w) := by
  have hname := nameLengthAt_append h p (a :: w)
  have hmark := markText_append h a w
  rw [List.cons_append] at hname hmark ⊢
  rw [nameOrMark_of_ne ha, nameOrMark_of_ne ha, hname, hmark, ← List.cons_append,
    List.take_append_of_le_length (nameLengthAt_le p _)]

/-- A word goes no further than to what ends names, numbers and plain words. -/
theorem Place.word_append (h : EndsName r) {a : Char} (ha : a ≠ '\\') {w : Text}
    (hplain : plainLength (a :: w ++ r) = plainLength (a :: w)) (p : Place) :
    p.word (a :: w ++ r) = p.word (a :: w) := by
  unfold Place.word
  rw [numberLength_append h, nameLength_append h, hplain, startsWith_important_append h,
    nameOrMark_append h ha]

theorem word_append (h : EndsName r) {a : Char} (ha : a ≠ '\\') {w : Text}
    (hplain : plainLength (a :: w ++ r) = plainLength (a :: w)) (n : Nesting) :
    n.word (a :: w ++ r) = n.word (a :: w) := by
  unfold Nesting.word
  rw [unitLength_append h hplain, digitsLength_append h, Place.word_append h ha hplain]

/-- A character that begins neither a unit nor a colour begins the word of the place. -/
theorem word_eq_place_word {c : Char} (hunit : isUnitChar c = false) (hhex : isHex c = false)
    (n : Nesting) (t : Text) : n.word (c :: t) = n.place.word (c :: t) := by
  unfold Nesting.word
  dsimp only
  rw [if_neg]
  split
  · simp [unitLength, hunit]
  · simp [digitsLength, colourLength, hhex]
  · exact Nat.lt_irrefl 0

/-- Where nothing else begins, an escape or a mark stands. -/
theorem place_word_of_zero {t : Text} (hnumber : numberLength t = 0) (hname : nameLength t = 0)
    (hplain : plainLength t = 0) (himportant : Text.startsWith "!important".toList t = false)
    (p : Place) : p.word t = nameOrMark p t := by
  unfold Place.word
  rw [hnumber, hname, hplain, himportant]
  simp

/-- An escape is a word wherever it stands. -/
theorem word_escape (n : Nesting) (t : Text) :
    n.word ('\\' :: t) = (.name ['\\'], 1 + escapeLength t) := by
  rw [word_eq_place_word (by decide) (by decide), place_word_of_zero rfl rfl rfl rfl]
  unfold nameOrMark
  rw [nameLengthAt_of_escape]
  rfl

theorem nameLengthAt_colon (p : Place) (t : Text) : nameLengthAt p (':' :: t) = 0 := by
  unfold nameLengthAt
  split
  · rfl
  · rfl
  · rfl
  · rfl

/-- A colon is a mark wherever it stands. -/
theorem word_colon (n : Nesting) (t : Text) :
    n.word (':' :: t) = (.mark (markText (':' :: t)), (markText (':' :: t)).length) := by
  rw [word_eq_place_word (by decide) (by decide), place_word_of_zero rfl rfl rfl rfl,
    nameOrMark_of_ne (by decide), nameLengthAt_colon]
  rfl

end LeadingTrim.Sheet
