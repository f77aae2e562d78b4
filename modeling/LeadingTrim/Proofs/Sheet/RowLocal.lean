/-
# Rows in front of other texts

What is read as a row is settled where the row ends. The lexemes of a row in front of a brace or a
semicolon stay the same when the text behind that character is exchanged (`row_congr`), as long as
no comment that is open in a string of the row is ended there. The same is said of the lexemes in
front of any bracket (`reads_congr`).

White space in front of a colon looks for the next brace, which may be far behind the row, so that
it can join two selectors in front of one text and not in front of another. The states that are left
then differ, but the colon is read alike in both (`Agrees`).
-/

import LeadingTrim.Proofs.Sheet.Enclosed
import LeadingTrim.Proofs.Text.Reads
import LeadingTrim.Sheet.Lexeme

namespace LeadingTrim.Sheet

open Text (isSheetSpace Reads)

/-! ## Looking ahead -/

theorem braceFirst_append_congr {s s' : Text} (h : braceFirst s = braceFirst s') (u : Text) :
    braceFirst (u ++ s) = braceFirst (u ++ s') := by
  induction u with
  | nil => exact h
  | cons c u ih => simp only [List.cons_append, braceFirst, ih]

theorem head?_append_cons (w : Text) (d : Char) (v v' : Text) :
    (w ++ d :: v).head? = (w ++ d :: v').head? := by
  cases w <;> rfl

theorem head?_drop_append_cons {w : Text} {k : Nat} (hk : k ≤ w.length) (d : Char) (v v' : Text) :
    ((w ++ d :: v).drop k).head? = ((w ++ d :: v').drop k).head? := by
  rw [List.drop_append_of_le_length hk, List.drop_append_of_le_length hk, head?_append_cons]

/-- A run that is just the first part of a text. -/
theorem takeWhile_append_of_length_eq {p : Char → Bool} {x s s' : Text}
    (h : ((x ++ s).takeWhile p).length = x.length) (hhead : s.head? = s'.head?) :
    ((x ++ s').takeWhile p).length = x.length ∧ (x ++ s).dropWhile p = s ∧
      (x ++ s').dropWhile p = s' := by
  have hall : ∀ a ∈ x, p a = true := by
    have heq : (x ++ s).takeWhile p = x :=
      List.IsPrefix.eq_of_length
        (List.prefix_of_prefix_length_le (List.takeWhile_prefix p) (List.prefix_append x s)
          (Nat.le_of_eq h)) h
    have htake := List.all_takeWhile (p := p) (l := x ++ s)
    rw [heq] at htake
    exact List.all_eq_true.mp htake
  rw [List.takeWhile_append_of_pos hall, List.length_append] at h
  have hnil : s.takeWhile p = [] := List.length_eq_zero_iff.mp (by omega)
  have hnil' : s'.takeWhile p = [] := by
    cases s with
    | nil =>
      cases s' with
      | nil => rfl
      | cons b s' => simp at hhead
    | cons a s =>
      cases s' with
      | nil => simp at hhead
      | cons b s' =>
        obtain rfl : a = b := by simpa using hhead
        simpa [List.takeWhile_cons] using hnil
  have hdrop : ∀ s : Text, s.takeWhile p = [] → s.dropWhile p = s := fun s hs => by
    have := List.takeWhile_append_dropWhile (p := p) (l := s)
    rwa [hs, List.nil_append] at this
  refine ⟨?_, ?_, ?_⟩
  · rw [List.takeWhile_append_of_pos hall, hnil', List.append_nil]
  · rw [List.dropWhile_append_of_pos hall, hdrop s hnil]
  · rw [List.dropWhile_append_of_pos hall, hdrop s' hnil']

variable {d : Char} {v v' : Text}

theorem head?_append_ne_colon {w : Text} (hd : endsPlain d = true)
    (hw : (w ++ d :: v).head? = some ':') : w.head? = some ':' := by
  cases w with
  | nil =>
    have hcolon : ∀ c ∈ wordStops, c ≠ ':' := by decide
    exact absurd (Option.some.inj hw) (hcolon d (mem_wordStops hd))
  | cons a w => exact hw

/-- Whether a text joins selectors does not depend on what follows, unless a colon is first. -/
theorem joinsSelectors_congr {w : Text} (hw : (w ++ d :: v).head? ≠ some ':') :
    joinsSelectors (w ++ d :: v) = joinsSelectors (w ++ d :: v') := by
  cases w with
  | nil =>
    have hd : (d == ':') = false := by simpa using hw
    simp only [List.nil_append, joinsSelectors, hd, Bool.false_and]
  | cons a w =>
    have ha : (a == ':') = false := by simpa using hw
    simp only [List.cons_append, joinsSelectors, ha, Bool.false_and]

theorem plainTail_le (t : Text) : plainTail t ≤ t.length := by
  fun_induction plainTail t with
  | case1 => simp
  | case2 c rest _ ih => simp only [List.length_cons]; omega
  | case3 => simp
  | case4 c rest _ _ ih => simp only [List.length_cons]; omega
  | case5 => simp

theorem plainLength_le (t : Text) : plainLength t ≤ t.length := by
  fun_induction plainLength t with
  | case1 => simp
  | case2 => simp
  | case3 c rest _ n hn ih => simp only [List.length_cons]; omega
  | case4 c rest _ _ =>
    have := plainTail_le rest
    simp only [List.length_cons]
    omega
  | case5 => simp
  | case6 c rest _ _ _ n hn ih => simp only [List.length_cons]; omega
  | case7 => simp
  | case8 => simp

theorem commentsSlashes_congr (hd : endsPlain d = true) (p : Place) (w v v' : Text) :
    p.commentsSlashes (w ++ d :: v) = p.commentsSlashes (w ++ d :: v') := by
  unfold Place.commentsSlashes
  rw [plainLength_append (endsWord_cons hd v), plainLength_append (endsWord_cons hd v'),
    head?_drop_append_cons (plainLength_le w) d v v']

/-- The word at the front looks no further than to the first character that ends words. -/
theorem word_congr (hd : endsPlain d = true) (n : Nesting) (c : Char) (w v v' : Text) :
    n.word (c :: (w ++ d :: v)) = n.word (c :: (w ++ d :: v')) := by
  by_cases hc : c = '\\'
  · subst hc
    rw [word_escape, word_escape, escapeLength_congr hd w v v']
  · have hend := endsWord_cons hd v
    have hend' := endsWord_cons hd v'
    have h := word_append hend.endsName hc (plainLength_append hend (c :: w)) n
    have h' := word_append hend'.endsName hc (plainLength_append hend' (c :: w)) n
    rw [List.cons_append] at h h'
    rw [h, h']

/-! ## The front of a lexeme -/

/-- A character that a word or a comment begins with. -/
def beginsWord (c : Char) : Bool :=
  !(isSheetSpace c || ['\x7b', '\x7d', ';', ',', '(', '[', ')', ']', '\'', '"'].contains c)

theorem lexeme_of_beginsWord {c : Char} (hc : beginsWord c = true) (n : Nesting) (rest : Text) :
    lexeme n c rest =
      if c == '/' && rest.head? == some '*' then
        match commentLength (c :: rest) with
        | some length => some ⟨.comment, n, length - 1⟩
        | none => some ⟨.stray, n, 0⟩
      else if c == '/' && rest.head? == some '/' && n.place.commentsSlashes (c :: rest) then
        some ⟨.lineComment, n, (rest.takeWhile (· != '\n')).length⟩
      else
        some ⟨.word, n.behindWord (n.word (c :: rest)).1, (n.word (c :: rest)).2 - 1⟩ := by
  simp only [beginsWord, List.contains_eq_mem, List.mem_cons, List.not_mem_nil, or_false,
    Bool.not_eq_true', Bool.or_eq_false_iff, decide_eq_false_iff_not, not_or] at hc
  obtain ⟨hspace, h₁, h₂, h₃, h₄, h₅, h₆, h₇, h₈, h₉, h₁₀⟩ := hc
  unfold lexeme
  cases commentLength (c :: rest) <;>
    simp only [hspace, beq_eq_false_iff_ne.mpr h₁, beq_eq_false_iff_ne.mpr h₂,
      beq_eq_false_iff_ne.mpr h₃, beq_eq_false_iff_ne.mpr h₄, beq_eq_false_iff_ne.mpr h₅,
      beq_eq_false_iff_ne.mpr h₆, beq_eq_false_iff_ne.mpr h₇, beq_eq_false_iff_ne.mpr h₈,
      beq_eq_false_iff_ne.mpr h₉, beq_eq_false_iff_ne.mpr h₁₀, Bool.or_self, Bool.false_eq_true,
      if_false]

theorem lexeme_slash_star (n : Nesting) {rest : Text} (h : rest.head? = some '*') :
    lexeme n '/' rest = some (match commentLength ('/' :: rest) with
      | some length => ⟨.comment, n, length - 1⟩
      | none => ⟨.stray, n, 0⟩) := by
  rw [lexeme_of_beginsWord (by decide), if_pos (by simp [h])]
  cases commentLength ('/' :: rest) <;> rfl

theorem lexeme_slash_slash (n : Nesting) {rest : Text} (h : rest.head? = some '/')
    (hslashes : n.place.commentsSlashes ('/' :: rest) = true) :
    lexeme n '/' rest = some ⟨.lineComment, n, (rest.takeWhile (· != '\n')).length⟩ := by
  rw [lexeme_of_beginsWord (by decide), if_neg (by simp [h]), if_pos (by simp [h, hslashes])]

/-- The places in a selector, and where it is open whether a selector goes on. -/
def selectorPlaces : List Place :=
  [.selector, .pseudoClass, .pseudoName, .pseudoElement, .openArgument]

theorem behindMark_colon {n : Nesting} (hn : n.place ∈ selectorPlaces) :
    n.behindMark [':'] = n.goto .pseudoClass ∧ n.behindMark [':', ':'] = n.goto .pseudoElement := by
  simp only [selectorPlaces, List.mem_cons, List.not_mem_nil, or_false] at hn
  unfold Nesting.behindMark
  rcases hn with h | h | h | h | h <;> simp [h, Nesting.behindSelectorMark]

/-- A colon in a selector begins the name of a pseudo-class, two that of a pseudo-element. -/
theorem lexeme_colon {n : Nesting} (hn : n.place ∈ selectorPlaces) (rest : Text) :
    lexeme n ':' rest =
      if rest.head? = some ':' then some ⟨.word, n.goto .pseudoElement, 1⟩
      else some ⟨.word, n.goto .pseudoClass, 0⟩ := by
  obtain ⟨hone, htwo⟩ := behindMark_colon hn
  rw [lexeme_of_beginsWord (by decide), if_neg (by simp), if_neg (by simp), word_colon, ← hone,
    ← htwo]
  cases rest with
  | nil => rfl
  | cons a rest =>
    rw [markText_cons_cons, List.head?_cons]
    by_cases ha : a = ':'
    · rw [if_pos ⟨rfl, ha⟩, if_pos (congrArg some ha)]
      rfl
    · rw [if_neg fun h => ha h.2, if_neg fun h => ha (Option.some.inj h)]
      rfl

/-- The states read the text alike: they are the same, or differ where a colon is next. -/
inductive Agrees (t : Text) : Nesting → Nesting → Prop
  | same (n : Nesting) : Agrees t n n
  | colon (n : Nesting) {p p' : Place} (hp : p ∈ selectorPlaces) (hp' : p' ∈ selectorPlaces)
    (ht : t.head? = some ':') : Agrees t (n.goto p) (n.goto p')

theorem Agrees.lexeme_eq {n n' : Nesting} {c : Char} {rest : Text} (h : Agrees (c :: rest) n n') :
    lexeme n c rest = lexeme n' c rest := by
  cases h with
  | same => rfl
  | colon n hp hp' ht =>
    obtain rfl : c = ':' := Option.some.inj ht
    rw [lexeme_colon hp, lexeme_colon hp']
    rfl

theorem Agrees.eq_of_endsPlain {n n' : Nesting} (hd : endsPlain d = true)
    (h : Agrees (d :: v) n n') : n = n' := by
  cases h with
  | same => rfl
  | colon n hp hp' ht =>
    have hcolon := head?_append_ne_colon (w := []) hd ht
    simp at hcolon

theorem commentLength_of_head? {t : Text} (h : t.head? = some ':') : commentLength t = none := by
  cases t with
  | nil => rfl
  | cons c t =>
    obtain rfl : c = ':' := Option.some.inj h
    cases t <;> simp [commentLength]

/-- What white space leads to in front of two texts that begin alike. -/
theorem agrees_behindSpace (n : Nesting) (w : Text)
    (hspace : (commentLength (w ++ d :: v')).isSome = (commentLength (w ++ d :: v)).isSome) :
    Agrees (w ++ d :: v') (n.behindSpace (w ++ d :: v)) (n.behindSpace (w ++ d :: v')) := by
  have hhead : (w ++ d :: v).head? = (w ++ d :: v').head? := head?_append_cons w d v v'
  by_cases hw : (w ++ d :: v).head? = some ':'
  · have hplaces : ∀ t : Text, t.head? = some ':' →
        n.behindSpace t = n.goto .selector ∧ n.place ∈ selectorPlaces ∨
          n.behindSpace t = n.goto n.place := by
      intro t ht
      unfold Nesting.behindSpace
      dsimp only
      rw [commentLength_of_head? ht]
      split
      next hjoins =>
        refine Or.inl ⟨rfl, ?_⟩
        simp only [Bool.and_eq_true, Bool.or_eq_true, decide_eq_true_eq] at hjoins
        rcases hjoins.1 with h | h <;> simp [h, selectorPlaces]
      · exact Or.inr rfl
    have hw' := hhead ▸ hw
    rcases hplaces _ hw with ⟨h, hn⟩ | h <;> rcases hplaces _ hw' with ⟨h', hn'⟩ | h' <;>
      rw [h, h']
    · exact .same _
    · exact .colon n (by decide) hn hw'
    · exact .colon n hn' (by decide) hw'
    · exact .same _
  · rw [Nesting.behindSpace, Nesting.behindSpace, hspace, joinsSelectors_congr hw]
    exact .same _

/-! ## Lexemes -/

theorem isQuotable_slash {q : Char} (hq : (q == '\'' || q == '"') = true) :
    isQuotable q '/' = true := by
  rcases Bool.or_eq_true_iff.mp hq with h | h
  · obtain rfl := beq_iff_eq.mp h
    decide
  · obtain rfl := beq_iff_eq.mp h
    decide

/-- A lexeme stays the same when the text behind a character that ends words is exchanged. What
follows the lexeme is the rest of the row, that character, and the text that is exchanged. -/
theorem lexeme_congr {n n' : Nesting} {k : Kind} {c : Char} {x w : Text}
    (hd : endsPlain d = true) (hk : k ≠ .stray)
    (hopen : k = .string → KeepsOpen x (w ++ d :: v) (w ++ d :: v'))
    (hspace : k = .space →
      (commentLength (w ++ d :: v')).isSome = (commentLength (w ++ d :: v)).isSome)
    (h : lexeme n c (x ++ (w ++ d :: v)) = some ⟨k, n', x.length⟩) :
    ∃ n'', lexeme n c (x ++ (w ++ d :: v')) = some ⟨k, n'', x.length⟩ ∧
      Agrees (w ++ d :: v') n' n'' := by
  have hhead : (x ++ (w ++ d :: v')).head? = (x ++ (w ++ d :: v)).head? := by
    rw [← List.append_assoc, ← List.append_assoc, head?_append_cons]
  have hbehind : (w ++ d :: v).head? = (w ++ d :: v').head? := head?_append_cons w d v v'
  unfold lexeme at h ⊢
  by_cases hbraces : (c == '\x7b' || c == '\x7d') = true
  · rw [if_pos hbraces] at h
    cases h
  rw [if_neg hbraces] at h ⊢
  by_cases hsemicolon : (c == ';') = true
  · rw [if_pos hsemicolon] at h ⊢
    exact ⟨n', h, .same n'⟩
  rw [if_neg hsemicolon] at h ⊢
  by_cases hc : isSheetSpace c = true
  · rw [if_pos hc] at h ⊢
    simp only [Option.some.injEq, Text.Found.mk.injEq] at h ⊢
    obtain ⟨rfl, rfl, hmore⟩ := h
    obtain ⟨hmore', hdrop, hdrop'⟩ := takeWhile_append_of_length_eq hmore hbehind
    rw [hdrop, hdrop', hmore']
    exact ⟨_, ⟨rfl, rfl, rfl⟩, agrees_behindSpace n w (hspace rfl)⟩
  rw [if_neg hc] at h ⊢
  by_cases hcomma : (c == ',') = true
  · rw [if_pos hcomma] at h ⊢
    exact ⟨n', h, .same n'⟩
  rw [if_neg hcomma] at h ⊢
  by_cases hround : (c == '(') = true
  · rw [if_pos hround] at h ⊢
    exact ⟨n', h, .same n'⟩
  rw [if_neg hround] at h ⊢
  by_cases hsquare : (c == '[') = true
  · rw [if_pos hsquare] at h ⊢
    exact ⟨n', h, .same n'⟩
  rw [if_neg hsquare] at h ⊢
  by_cases hclosing : (c == ')' || c == ']') = true
  · rw [if_pos hclosing] at h ⊢
    exact ⟨n', h, .same n'⟩
  rw [if_neg hclosing] at h ⊢
  by_cases hquote : (c == '\'' || c == '"') = true
  · rw [if_pos hquote] at h ⊢
    cases hmore : stringTail c 0 (x ++ (w ++ d :: v)) with
    | none =>
      rw [hmore] at h
      exact absurd (congrArg Text.Found.kind (Option.some.inj h)).symm hk
    | some more =>
      rw [hmore] at h
      obtain rfl : more = x.length := congrArg Text.Found.more (Option.some.inj h)
      have hkind : k = .string := (congrArg Text.Found.kind (Option.some.inj h)).symm
      rw [stringTail_congr (isQuotable_slash hquote) (hopen hkind) hmore]
      exact ⟨n', h, .same n'⟩
  rw [if_neg hquote] at h ⊢
  rw [hhead]
  by_cases hcomment : (c == '/' && (x ++ (w ++ d :: v)).head? == some '*') = true
  · rw [if_pos hcomment] at h ⊢
    rw [← List.cons_append] at h ⊢
    cases hlength : commentLength (c :: x ++ (w ++ d :: v)) with
    | none =>
      rw [hlength] at h
      exact absurd (congrArg Text.Found.kind (Option.some.inj h)).symm hk
    | some length =>
      rw [hlength] at h
      have hmore : length - 1 = x.length := congrArg Text.Found.more (Option.some.inj h)
      have hwithin := commentLength_of_append hlength (by simp only [List.length_cons]; omega)
      rw [commentLength_append hwithin]
      exact ⟨n', h, .same n'⟩
  rw [if_neg hcomment] at h ⊢
  have hslashes : n.place.commentsSlashes (c :: (x ++ (w ++ d :: v'))) =
      n.place.commentsSlashes (c :: (x ++ (w ++ d :: v))) := by
    have h := commentsSlashes_congr hd n.place (c :: x ++ w) v' v
    rwa [List.append_assoc, List.append_assoc] at h
  rw [hslashes]
  by_cases hline : (c == '/' && (x ++ (w ++ d :: v)).head? == some '/'
      && n.place.commentsSlashes (c :: (x ++ (w ++ d :: v)))) = true
  · rw [if_pos hline] at h ⊢
    simp only [Option.some.injEq, Text.Found.mk.injEq] at h ⊢
    obtain ⟨rfl, rfl, hmore⟩ := h
    exact ⟨n, ⟨rfl, rfl, (takeWhile_append_of_length_eq hmore hbehind).1⟩, .same n⟩
  rw [if_neg hline] at h ⊢
  have hword := word_congr hd n c (x ++ w) v' v
  rw [List.append_assoc, List.append_assoc] at hword
  rw [hword]
  exact ⟨n', h, .same n'⟩

/-! ## Rows -/

/-- Where a lexeme is no stray character, a comment is at the front if it looks like one. -/
theorem isSome_commentLength_of_lexeme {n n' : Nesting} {k : Kind} {c : Char} {rest : Text}
    {more : Nat} (h : lexeme n c rest = some ⟨k, n', more⟩) (hk : k ≠ .stray) :
    (commentLength (c :: rest)).isSome = (c == '/' && rest.head? == some '*') := by
  by_cases hmark : c = '/' ∧ rest.head? = some '*'
  · obtain ⟨rfl, hhead⟩ := hmark
    rw [lexeme_slash_star n hhead] at h
    cases hlength : commentLength ('/' :: rest) with
    | none =>
      rw [hlength] at h
      exact absurd (congrArg Text.Found.kind (Option.some.inj h)).symm hk
    | some length => simp [hhead]
  · cases rest with
    | nil => simp [commentLength]
    | cons e rest =>
      have hne : ¬ (c = '/' ∧ e = '*') := fun he => hmark ⟨he.1, by rw [he.2]; rfl⟩
      rw [commentLength_cons_cons, if_neg hne]
      simpa using hne

theorem commentLength_of_endsWord {r : Text} (h : EndsWord r) : commentLength r = none := by
  match r with
  | [] => rfl
  | [c] => simp [commentLength]
  | c :: e :: r =>
    have hslash : ∀ c ∈ wordStops, c ≠ '/' := by decide
    rw [commentLength_cons_cons, if_neg fun h' => hslash c h.mem_wordStops h'.1]

/-- No comment that is open in a string of the row and is not ended by the text behind the row is
ended by the other text. -/
def StringsKeep (l : List Lexeme) (s s' : Text) : Prop :=
  ∀ l₁ x l₂, l = l₁ ++ (Kind.string, x) :: l₂ →
    KeepsOpen x (Text.texts l₂ ++ s) (Text.texts l₂ ++ s')

theorem StringsKeep.tail {p : Lexeme} {l : List Lexeme} {s s' : Text}
    (h : StringsKeep (p :: l) s s') : StringsKeep l s s' :=
  fun l₁ x l₂ hl => h (p :: l₁) x l₂ (by rw [hl]; rfl)

theorem KeepsOpen.stringsKeep {l : List Lexeme} {s s' : Text}
    (h : KeepsOpen (Text.texts l) s s') : StringsKeep l s s' := by
  rintro l₁ x l₂ rfl
  rw [Text.texts_append, Text.texts_cons] at h
  exact h.of_append.of_append_left

/-- The lexemes of a row stay the same when the text behind the character at its end is exchanged.
-/
theorem reads_congr_of_agrees {n n₀ n' : Nesting} {l : List Lexeme} (hd : endsPlain d = true)
    (hstray : ∀ p ∈ l, p.1 ≠ .stray) (hopen : StringsKeep l (d :: v) (d :: v'))
    (hn : Agrees (Text.texts l ++ d :: v') n n₀) (h : Reads lexeme n l n' (d :: v)) :
    Reads lexeme n₀ l n' (d :: v') := by
  induction l generalizing n n₀ with
  | nil =>
    cases h
    rw [hn.eq_of_endsPlain hd]
    exact .nil _ _
  | cons p l ih =>
    cases h with
    | @cons _ n₁ _ k c x _ _ hfirst hrest =>
    have hstray' : ∀ p ∈ l, p.1 ≠ .stray := fun p hp => hstray p (List.mem_cons_of_mem _ hp)
    have hstring : k = .string →
        KeepsOpen x (Text.texts l ++ d :: v) (Text.texts l ++ d :: v') := by
      rintro rfl
      exact KeepsOpen.of_append (u := [c]) (hopen [] (c :: x) l rfl)
    have hcomment : (commentLength (Text.texts l ++ d :: v')).isSome =
        (commentLength (Text.texts l ++ d :: v)).isSome := by
      -- a comment behind white space is the next lexeme of the row
      have hsame := ih hstray' hopen.tail (.same n₁) hrest
      cases hrest with
      | nil =>
        have hnone := commentLength_of_endsWord (endsWord_cons hd v)
        have hnone' := commentLength_of_endsWord (endsWord_cons hd v')
        rw [Text.texts_nil, List.nil_append, List.nil_append, hnone, hnone']
      | @cons _ _ _ k₂ c₂ x₂ _ l₂ hnext _ =>
        cases hsame with
        | cons hnext' _ =>
          have hk₂ : k₂ ≠ .stray := hstray (k₂, c₂ :: x₂) (by simp)
          have hsome := isSome_commentLength_of_lexeme hnext hk₂
          have hsome' := isSome_commentLength_of_lexeme hnext' hk₂
          have hhead := head?_append_cons (x₂ ++ Text.texts l₂) d v v'
          rw [List.append_assoc, List.append_assoc] at hhead
          rw [Text.texts_cons, List.cons_append, List.cons_append, List.cons_append,
            List.append_assoc, List.append_assoc, hsome, hsome', hhead]
    obtain ⟨n₂, hfirst', hagrees⟩ := lexeme_congr hd (hstray _ List.mem_cons_self) hstring
      (fun _ => hcomment) hfirst
    refine .cons ?_ (ih hstray' hopen.tail hagrees hrest)
    rw [Text.texts_cons, List.cons_append, List.cons_append, List.append_assoc] at hn
    rw [← hn.lexeme_eq]
    exact hfirst'

theorem reads_congr {n n' : Nesting} {l : List Lexeme} (hd : endsPlain d = true)
    (hstray : ∀ p ∈ l, p.1 ≠ .stray) (hopen : StringsKeep l (d :: v) (d :: v'))
    (h : Reads lexeme n l n' (d :: v)) : Reads lexeme n l n' (d :: v') :=
  reads_congr_of_agrees hd hstray hopen (.same n) h

/-- A character that can end a row. -/
def isRowEnd (c : Char) : Bool := c == '\x7b' || c == '\x7d' || c == ';'

theorem endsPlain_of_isRowEnd {c : Char} (h : isRowEnd c = true) : endsPlain c = true := by
  simp only [isRowEnd, Bool.or_eq_true, beq_iff_eq] at h
  rcases h with (rfl | rfl) | rfl <;> decide

theorem braceFirst_of_isRowEnd {c : Char} (h : isRowEnd c = true) (v : Text) :
    braceFirst (c :: v) = (c == '\x7b') := by
  simp only [isRowEnd, Bool.or_eq_true, beq_iff_eq] at h
  rcases h with (rfl | rfl) | rfl <;> simp [braceFirst]

theorem lexeme_of_isRowEnd {c : Char} (h : isRowEnd c = true) (n : Nesting) (v v' : Text) :
    lexeme n c v = lexeme n c v' := by
  simp only [isRowEnd, Bool.or_eq_true, beq_iff_eq] at h
  rcases h with (rfl | rfl) | rfl <;> rfl

/-- A row stays the same when the text behind the character that ends it is exchanged. -/
theorem row_congr {e : Char} (he : isRowEnd e = true) {p : Place} {w : Text}
    (hrow : Text.texts (row p (w ++ e :: v)) = w)
    (hstray : ∀ l ∈ row p (w ++ e :: v), l.1 ≠ .stray)
    (hopen : StringsKeep (row p (w ++ e :: v)) (e :: v) (e :: v')) :
    row p (w ++ e :: v') = row p (w ++ e :: v) := by
  obtain ⟨n, hreads, hend⟩ := Text.exists_reads_scan _ w (List.cons_ne_nil e v) hrow
  have hreads' := reads_congr (endsPlain_of_isRowEnd he) hstray hopen hreads
  have hend' : Text.scan lexeme n 0 (e :: v') = [] := by
    rw [Text.scan] at hend ⊢
    rw [lexeme_of_isRowEnd he n v' v]
    cases h : lexeme n e v with
    | none => rfl
    | some found =>
      rw [h] at hend
      cases hend
  have hscan := hreads'.scan_eq
  rw [hend', List.append_nil] at hscan
  rw [hrow] at hscan
  exact hscan

end LeadingTrim.Sheet
