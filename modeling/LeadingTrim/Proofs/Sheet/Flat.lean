/-
# Selectors outside of brackets

Outside of all brackets the state of a selector decides nothing about its words: the lexemes at the
front of a text are the same in every such state (`Nesting.IsFlat`). What follows them hardly
matters either. They are read again in front of a text that begins alike, or with the colon of a
pseudo-element (`Nesting.IsFlat.reads_congr`); only a colon and a backslash at their end would go
on there.
-/

import LeadingTrim.Proofs.Sheet.Ground
import LeadingTrim.Proofs.Sheet.PartLocal

namespace LeadingTrim.Sheet

open Text (isSheetSpace Reads)

/-! ## Words of a selector -/

/-- The number of characters of the word of a selector at the front. -/
def wordLength (t : Text) : Nat := (nameOrMark .selector t).2

theorem wordLength_cons (c : Char) (rest : Text) :
    wordLength (c :: rest) =
      if nameLength (c :: rest) = 0 then
        if c = '\\' then 1 + escapeLength rest
        else if c = ':' ∧ rest.head? = some ':' then 2
        else 1
      else nameLength (c :: rest) := by
  by_cases hc : c = '\\'
  · subst hc
    have hzero : nameLength ('\\' :: rest) = 0 := nameLengthAt_of_escape .selector rest
    rw [if_pos hzero, if_pos rfl]
    show (nameOrMark .selector ('\\' :: rest)).2 = _
    unfold nameOrMark
    rw [nameLengthAt_of_escape]
    rfl
  · rw [wordLength, nameOrMark_of_ne hc]
    by_cases hname : nameLength (c :: rest) = 0
    · rw [if_pos hname, if_neg hc, if_pos (show nameLengthAt .selector (c :: rest) = 0 from hname)]
      cases rest with
      | nil => simp [markText]
      | cons d rest =>
        rw [markText_cons_cons]
        by_cases hcolon : c = ':' ∧ d = ':'
        · simp [hcolon]
        · simp [hcolon]
    · rw [if_neg hname, if_neg (show nameLengthAt .selector (c :: rest) ≠ 0 from hname)]
      rfl

theorem wordLength_pos (c : Char) (rest : Text) : 0 < wordLength (c :: rest) := by
  rw [wordLength_cons]
  repeat' split
  all_goals omega

theorem nameLength_eq_zero_iff {c : Char} {rest : Text} :
    nameLength (c :: rest) = 0 ↔
      isNameStart c = false ∧
        (c = '-' → ∀ a ∈ rest.head?, a ≠ '-' ∧ isNameStart a = false) := by
  by_cases hc : c = '-'
  · subst hc
    have hhyphen : isNameStart '-' = false := by decide
    cases rest with
    | nil => simp [nameLength, hhyphen]
    | cons a rest =>
      by_cases ha : a = '-'
      · subst ha
        simp [nameLength]
      · rw [nameLength_hyphen ha]
        cases hstart : isNameStart a <;> simp [hhyphen, ha, hstart]
  · rw [nameLength_of_ne hc]
    cases hstart : isNameStart c <;> simp [hc]

theorem wordLength_colon (rest : Text) :
    wordLength (':' :: rest) = if rest.head? = some ':' then 2 else 1 := by
  rw [wordLength_cons, if_pos (nameLength_eq_zero_iff.mpr ⟨by decide, by simp⟩),
    if_neg (by decide)]
  simp

/-- An escape holds the colon behind its backslash. -/
theorem wordLength_backslash (rest : Text) : wordLength ('\\' :: ':' :: rest) = 2 := by
  rw [wordLength_cons, if_pos (nameLength_eq_zero_iff.mpr ⟨by decide, by simp⟩), if_pos rfl,
    escapeLength_cons, if_neg (by decide), if_neg (by decide)]

/-- A name that is all of the first part of a text does not go on behind it. -/
theorem isNameChar_of_nameLength {c : Char} {x u : Text}
    (h : nameLength (c :: (x ++ u)) = x.length + 1) : ∀ a ∈ u.head?, isNameChar a = false := by
  have run : ∀ y : Text, ((y ++ u).takeWhile isNameChar).length = y.length →
      ∀ a ∈ u.head?, isNameChar a = false := fun y hy => (all_of_length_takeWhile hy).2
  by_cases hc : c = '-'
  · subst hc
    cases x with
    | nil =>
      -- a hyphen alone is no name
      cases u with
      | nil => simp
      | cons a u =>
        by_cases ha : a = '-'
        · subst ha
          simp [nameLength] at h
          omega
        · rw [List.nil_append, nameLength_hyphen ha] at h
          split at h <;> simp at h
          omega
    | cons a x =>
      by_cases ha : a = '-'
      · subst ha
        exact run x (by simp [nameLength] at h; omega)
      · rw [List.cons_append, nameLength_hyphen ha] at h
        split at h
        · exact run x (by simp only [List.length_cons] at h; omega)
        · simp at h
  · rw [nameLength_of_ne hc] at h
    split at h
    · exact run x (by omega)
    · simp at h

theorem escapeLength_eq_zero_iff {t : Text} :
    escapeLength t = 0 ↔ ∀ a ∈ t.head?, a = '\n' ∨ a = '\r' := by
  cases t with
  | nil => simp [escapeLength]
  | cons c t =>
    rw [escapeLength_cons]
    by_cases hc : isHex c = true
    · have hne : c ≠ '\n' ∧ c ≠ '\r' := by
        constructor <;> rintro rfl <;> exact absurd hc (by decide)
      simp [hc, hne]
    · by_cases hline : c = '\n' ∨ c = '\r'
      · simp [hc, hline]
      · simp [hc, hline]

/-- The text begins like the other one, or a pseudo-element is put in front of it, which does not
join the lexeme before. -/
def FollowsAlike (x u u' : Text) : Prop :=
  u'.head? = u.head? ∨ u'.head? = some ':' ∧ x ≠ [':'] ∧ x ≠ ['\\']

theorem FollowsAlike.head?_append {x y u u' : Text} (h : FollowsAlike x u u') :
    (y ++ u').head? = (y ++ u).head? ∨ (y ++ u').head? = some ':' := by
  cases y with
  | nil => exact h.imp_right And.left
  | cons a y => exact Or.inl rfl

/-- What holds of a colon and of what the one text begins with holds of the other. -/
theorem FollowsAlike.forall_head?_append {P : Char → Prop} {x u u' : Text}
    (h : FollowsAlike x u u') (y : Text) (hcolon : P ':') (hu : ∀ a ∈ (y ++ u).head?, P a) :
    ∀ a ∈ (y ++ u').head?, P a := by
  rcases h.head?_append (y := y) with hhead | hhead
  · rwa [hhead]
  · rw [hhead]
    intro a ha
    obtain rfl := Option.some.inj ha
    exact hcolon

/-- An escape is read again in front of another text. -/
theorem FollowsAlike.escapeLength_eq {x u u' : Text} (hu : FollowsAlike ('\\' :: x) u u')
    (h : escapeLength (x ++ u) = x.length) : escapeLength (x ++ u') = x.length := by
  by_cases hx : x = []
  · subst hx
    rw [List.nil_append, List.length_nil, escapeLength_eq_zero_iff] at h ⊢
    rcases hu with hu | ⟨-, -, hne⟩
    · rwa [hu]
    · exact absurd rfl hne
  · rw [← h]
    refine escapeLength_append_congr hx (Nat.le_of_eq h) fun _ => hu.imp_right ?_
    rintro ⟨hcolon, -⟩ a ha
    rw [hcolon] at ha
    obtain rfl := Option.some.inj ha
    decide

/-- A word of a selector is read again in front of another text. -/
theorem wordLength_congr {c : Char} {x u u' : Text}
    (h : wordLength (c :: (x ++ u)) = x.length + 1) (hu : FollowsAlike (c :: x) u u') :
    wordLength (c :: (x ++ u')) = x.length + 1 := by
  rw [wordLength_cons] at h ⊢
  by_cases hname : nameLength (c :: (x ++ u)) = 0
  case neg =>
    rw [if_neg hname] at h
    have hend := isNameChar_of_nameLength h
    have hend' := hu.forall_head?_append [] (by decide : isNameChar ':' = false) hend
    have hsame : nameLength (c :: (x ++ u')) = nameLength (c :: (x ++ u)) :=
      (nameLength_append_of_head hend' (c :: x)).trans
        (nameLength_append_of_head hend (c :: x)).symm
    rw [hsame, if_neg hname, h]
  case pos =>
    rw [if_pos hname] at h
    have hname' : nameLength (c :: (x ++ u')) = 0 := by
      rw [nameLength_eq_zero_iff] at hname ⊢
      exact ⟨hname.1, fun hc => hu.forall_head?_append x (by decide) (hname.2 hc)⟩
    rw [if_pos hname']
    by_cases hc : c = '\\'
    · subst hc
      rw [if_pos rfl] at h ⊢
      rw [hu.escapeLength_eq (by omega), Nat.add_comm]
    · rw [if_neg hc] at h ⊢
      by_cases hcolon : c = ':' ∧ (x ++ u).head? = some ':'
      · rw [if_pos hcolon] at h
        cases x with
        | nil => simp at h
        | cons a x => exact (if_pos hcolon).trans h
      · rw [if_neg hcolon] at h
        obtain rfl : x = [] := List.length_eq_zero_iff.mp (by omega)
        rw [if_neg]
        · exact h
        · rintro ⟨rfl, hhead⟩
          rcases hu with hu | ⟨-, hne, -⟩
          · exact hcolon ⟨rfl, hu.symm.trans hhead⟩
          · exact hne rfl

/-! ## States outside of brackets -/

/-- Between two lexemes of a selector, outside of all brackets. -/
structure Nesting.IsFlat (n : Nesting) : Prop where
  outer : n.outer = []
  ground : IsSelectorGround (n.place, n.base)
  attached : n.attached = none ∨ ∃ p, n.attached = some (.arguments p)

theorem isFlat_start : (Nesting.start .selector).IsFlat := ⟨rfl, ⟨Or.inl rfl, rfl⟩, Or.inl rfl⟩

/-- Behind a comma a selector starts anew. -/
theorem Nesting.behindSeparator_eq_start {n : Nesting} (houter : n.outer = [])
    (hground : IsSelectorGround (n.place, n.base)) : n.behindSeparator = .start .selector := by
  have hsettle : n.settle = n := by
    unfold Nesting.settle
    rcases hground.place with hp | hp | hp | hp <;> simp only at hp <;> rw [hp]
  obtain ⟨place, base, attached, outer⟩ := n
  have hbase : base = .selector := hground.base
  have houter : outer = [] := houter
  rw [Nesting.behindSeparator, hsettle, hbase, houter]
  rfl

namespace Nesting.IsFlat

variable {n m n' : Nesting}

theorem commentsSlashes (h : n.IsFlat) (t : Text) : n.place.commentsSlashes t = true := by
  rcases h.ground.place with hp | hp | hp | hp <;> simp only at hp <;> rw [hp] <;> rfl

/-- Every word is a name or a mark. -/
theorem word_eq (h : n.IsFlat) (t : Text) : n.word t = nameOrMark .selector t := by
  have hplace : n.place.word t = nameOrMark .selector t := by
    rcases h.ground.place with hp | hp | hp | hp <;> simp only at hp <;> rw [hp] <;> rfl
  rcases h.attached with ha | ⟨p, ha⟩
  · rw [Nesting.word, ha]
    exact hplace
  · rw [Nesting.word, ha]
    exact hplace

theorem goto (h : n.IsFlat) {p : Place} (hp : IsSelectorGround (p, n.base)) : (n.goto p).IsFlat :=
  ⟨h.outer, hp, Or.inl rfl⟩

theorem behindWord (h : n.IsFlat) {w : Word} (hequals : w ≠ .mark ['=']) (hnumber : w ≠ .number) :
    (n.behindWord w).IsFlat := by
  have hsame := n.sameBrackets_behindWord w
  refine ⟨hsame.outer_eq_nil h.outer, ?_, ?_⟩
  · rw [hsame.base]
    exact place_behindWord_of_selector rfl h.ground hequals
  · have hplace := h.ground.place
    dsimp only at hplace
    cases w with
    | name text =>
      unfold Nesting.behindWord Nesting.behindName
      rcases hplace with hp | hp | hp | hp <;> rw [hp] <;>
        simp [Nesting.goto, Nesting.attach]
    | number => exact absurd rfl hnumber
    | value | string =>
      unfold Nesting.behindWord Nesting.behindValue
      rcases hplace with hp | hp | hp | hp <;> simp [hp, Nesting.goto]
    | mark text =>
      unfold Nesting.behindWord Nesting.behindMark
      rcases hplace with hp | hp | hp | hp <;> simp [hp, Nesting.behindSelectorMark, Nesting.goto]

theorem behindSpace (h : n.IsFlat) (rest : Text) : (n.behindSpace rest).IsFlat := by
  have hground : ∀ p, IsSelectorGround (p, n.base) → (n.goto p).IsFlat := fun p hp => h.goto hp
  unfold Nesting.behindSpace
  dsimp only
  split
  · exact hground _ ⟨Or.inl rfl, h.ground.base⟩
  · split
    · exact h
    · exact hground _ h.ground

theorem nameOrMark_ne {c : Char} (hequals : c ≠ '=') (rest : Text) :
    (nameOrMark .selector (c :: rest)).1 ≠ .mark ['='] ∧
      (nameOrMark .selector (c :: rest)).1 ≠ .number := by
  unfold nameOrMark
  split
  · simp
  · refine ⟨fun h => ?_, by simp⟩
    have hmark : markText (c :: rest) = ['='] := Word.mark.inj h
    unfold markText at hmark
    split at hmark
    · cases hmark
    · exact hequals (List.cons.inj hmark).1
  · simp

/-- What begins a word and no comment is read as a word. -/
theorem lexeme_word (h : n.IsFlat) {c : Char} (hc : beginsWord c = true) (hequals : c ≠ '=')
    {t : Text} (hslash : c = '/' → t.head? ≠ some '*' ∧ t.head? ≠ some '/') :
    ∃ n', lexeme n c t = some ⟨.word, n', wordLength (c :: t) - 1⟩ ∧ n'.IsFlat := by
  obtain ⟨hmark, hnumber⟩ := nameOrMark_ne hequals t
  rw [lexeme_of_beginsWord hc, if_neg, if_neg, h.word_eq]
  · exact ⟨_, rfl, h.behindWord hmark hnumber⟩
  · simp only [Bool.and_eq_true, beq_iff_eq, not_and, and_imp]
    exact fun hc hhead => absurd hhead (hslash hc).2
  · simp only [Bool.and_eq_true, beq_iff_eq, not_and]
    exact fun hc => (hslash hc).1

/-- White space and comments are read in every state. -/
theorem lexeme_filler (h : n.IsFlat) {c : Char} {rest : Text} {k : Kind} {more : Nat}
    (hfiller : filler c rest = some ⟨k, (), more⟩) :
    ∃ n', lexeme n c rest = some ⟨k, n', more⟩ ∧ n'.IsFlat := by
  obtain ⟨n', hn', rfl | ⟨r, rfl⟩⟩ := lexeme_of_filler hfiller fun _ => h.commentsSlashes _
  · exact ⟨_, hn', h⟩
  · exact ⟨_, hn', h.behindSpace r⟩

end Nesting.IsFlat

/-! ## Lexemes outside of brackets -/

theorem lexeme_quote (n : Nesting) {c : Char} (hc : c = '\'' ∨ c = '"') {rest : Text} {more : Nat}
    (h : stringTail c 0 rest = some more) :
    lexeme n c rest = some ⟨.string, n.behindWord .string, more⟩ := by
  rcases hc with rfl | rfl <;> simp [lexeme, isSheetSpace, h]

theorem lexeme_comma {n : Nesting} (h : n.outer = []) (rest : Text) :
    lexeme n ',' rest = some ⟨.comma, n.behindSeparator, 0⟩ := by
  simp [lexeme, isSheetSpace, h]

/-- A lexeme that is no bracket, and no equals sign. -/
structure Lexeme.IsFlat (p : Lexeme) : Prop where
  kind : p.1 ≠ .opening ∧ p.1 ≠ .closing ∧ p.1 ≠ .stray
  ne_equals : p ≠ (.word, ['='])

namespace Nesting.IsFlat

variable {n m n' : Nesting} {k : Kind} {c : Char} {x u u' : Text}

/-- A lexeme is read again from another state in front of another text. -/
theorem lexeme_congr (hn : n.IsFlat) (hm : m.IsFlat) (hp : Lexeme.IsFlat (k, c :: x))
    (hopen : KeepsOpen x u u')
    (hu : u'.head? = u.head? ∨ Lexeme.isFiller (k, c :: x) = false ∧ FollowsAlike (c :: x) u u')
    (h : lexeme n c (x ++ u) = some ⟨k, n', x.length⟩) :
    ∃ m', lexeme m c (x ++ u') = some ⟨k, m', x.length⟩ ∧ m'.IsFlat := by
  obtain ⟨hleads, hshows⟩ := leadsTo_and_shows_of_lexeme h
  have hfollows : FollowsAlike (c :: x) u u' := hu.elim Or.inl And.right
  have hfiller : ∀ k, Lexeme.isFiller (k, c :: x) = true →
      (u'.head? = u.head? ∨ Lexeme.isFiller (k, c :: x) = false ∧ FollowsAlike (c :: x) u u') →
      filler c (x ++ u) = some ⟨k, (), x.length⟩ →
      ∃ m', lexeme m c (x ++ u') = some ⟨k, m', x.length⟩ ∧ m'.IsFlat := by
    intro k hk hu hfound
    refine hm.lexeme_filler (filler_congr (EndsFiller.congr ?_) hfound)
    rcases hu with hu | ⟨hno, -⟩
    · exact hu.symm
    · rw [hk] at hno
      cases hno
  cases k with
  | space => exact hfiller _ rfl hu hshows
  | comment => exact hfiller _ rfl hu hshows
  | lineComment => exact hfiller _ rfl hu hshows.1
  | string =>
    obtain ⟨hc, htail⟩ := hshows
    have hquote : isQuotable c '/' = true := by rcases hc with rfl | rfl <;> decide
    exact ⟨_, lexeme_quote m hc (stringTail_congr hquote hopen htail),
      hm.behindWord (by simp) (by simp)⟩
  | comma =>
    obtain ⟨rfl, hmore⟩ := hshows
    rw [lexeme_comma hm.outer, ← hmore, Nesting.behindSeparator_eq_start hm.outer hm.ground]
    exact ⟨_, rfl, isFlat_start⟩
  | separator => exact absurd hn.outer hleads.1
  | opening => exact absurd rfl hp.kind.1
  | closing => exact absurd rfl hp.kind.2.1
  | stray => exact absurd rfl hp.kind.2.2
  | word =>
    obtain ⟨hc, hstar, hslashes, hmore⟩ := hshows
    rw [hn.word_eq] at hmore
    have hlength : wordLength (c :: (x ++ u)) = x.length + 1 := by
      have := wordLength_pos c (x ++ u)
      rw [wordLength] at this ⊢
      omega
    have hequals : c ≠ '=' := by
      rintro rfl
      rw [wordLength_cons, if_pos (nameLength_eq_zero_iff.mpr ⟨by decide, by simp⟩)] at hlength
      obtain rfl : x = [] := by simpa using hlength
      exact hp.ne_equals rfl
    obtain ⟨m', hm', hflat⟩ := hm.lexeme_word hc hequals (t := x ++ u') fun hslash => by
      have hline : (x ++ u).head? ≠ some '/' := fun hhead => by
        simpa [hn.commentsSlashes] using hslashes hslash hhead
      rcases hfollows.head?_append with hhead | hhead
      · rw [hhead]
        exact ⟨hstar hslash, hline⟩
      · simp [hhead]
    rw [wordLength_congr hlength hfollows] at hm'
    exact ⟨m', hm', hflat⟩

/-- The state behind a lexeme is outside of brackets, too. -/
theorem of_lexeme (hn : n.IsFlat) (hp : Lexeme.IsFlat (k, c :: x)) (hopen : KeepsOpen x u u)
    (h : lexeme n c (x ++ u) = some ⟨k, n', x.length⟩) : n'.IsFlat := by
  obtain ⟨m', hm', hflat⟩ := hn.lexeme_congr hn hp hopen (Or.inl rfl) h
  rw [h] at hm'
  obtain rfl : n' = m' := congrArg Text.Found.next (Option.some.inj hm')
  exact hflat

/-- Lexemes are read again from another state in front of another text. -/
theorem reads_congr {l : List Lexeme} (hn : n.IsFlat) (hm : m.IsFlat)
    (hl : ∀ p ∈ l, p.IsFlat) (hclosed : ClosesComments (Text.texts l) u)
    (hu : u'.head? = u.head? ∨
      ∀ p ∈ l.getLast?, p.isFiller = false ∧ FollowsAlike p.2 u u')
    (h : Reads lexeme n l n' u) : ∃ m', Reads lexeme m l m' u' ∧ m'.IsFlat := by
  induction l generalizing n m with
  | nil => exact ⟨m, .nil _ _, hm⟩
  | cons p l ih =>
    cases h with
    | @cons _ n₁ _ k c x _ _ hfirst hrest =>
    have hp := hl _ List.mem_cons_self
    rw [Text.texts_cons] at hclosed
    have hclosed₁ : ClosesComments x (Text.texts l ++ u) :=
      ClosesComments.of_append (u := [c]) hclosed.of_append_left
    have hu₁ : (Text.texts l ++ u').head? = (Text.texts l ++ u).head? ∨
        Lexeme.isFiller (k, c :: x) = false ∧
          FollowsAlike (c :: x) (Text.texts l ++ u) (Text.texts l ++ u') := by
      cases l with
      | nil => exact hu.imp_right fun h => h _ rfl
      | cons q l =>
        obtain ⟨d, y, hq⟩ := List.exists_cons_of_ne_nil (hrest.piece_ne_nil q List.mem_cons_self)
        rw [Text.texts_cons, hq]
        exact Or.inl rfl
    have hu₂ : u'.head? = u.head? ∨
        ∀ p ∈ l.getLast?, p.isFiller = false ∧ FollowsAlike p.2 u u' := by
      refine hu.imp_right fun h p hp => h p ?_
      cases l with
      | nil => cases hp
      | cons q l => rwa [List.getLast?_cons_cons]
    obtain ⟨m₁, hm₁, hflat⟩ := hn.lexeme_congr hm hp (hclosed₁.keepsOpen _) hu₁ hfirst
    obtain ⟨m', hm', hflat'⟩ := ih (hn.of_lexeme hp (hclosed₁.keepsOpen _) hfirst) hflat
      (fun p hp => hl p (List.mem_cons_of_mem _ hp)) hclosed.of_append hu₂ hrest
    exact ⟨m', .cons hm₁ hm', hflat'⟩

/-! ## Pseudo-elements -/

/-- A word is read in front of what is read from any state. -/
theorem reads_word (h : n.IsFlat) {l : List Lexeme} {r : Text} (hc : beginsWord c = true)
    (hequals : c ≠ '=') (hslash : c ≠ '/')
    (hlength : wordLength (c :: (x ++ (Text.texts l ++ r))) = x.length + 1)
    (hrest : ∀ {n : Nesting}, n.IsFlat → ∃ n', Reads lexeme n l n' r ∧ n'.IsFlat) :
    ∃ n', Reads lexeme n ((.word, c :: x) :: l) n' r ∧ n'.IsFlat := by
  obtain ⟨n₁, hfirst, hflat⟩ := h.lexeme_word hc hequals (t := x ++ (Text.texts l ++ r))
    fun heq => absurd heq hslash
  obtain ⟨n', hreads, hflat'⟩ := hrest hflat
  rw [hlength] at hfirst
  exact ⟨n', .cons hfirst hreads, hflat'⟩

end Nesting.IsFlat

/-- The name of a pseudo-element: one or more letters. -/
structure IsPseudoName (name : Text) : Prop where
  ne_nil : name ≠ []
  isAlpha : ∀ c ∈ name, c.isAlpha = true

/-- The pseudo-element with a name. -/
def pseudoElement (name : Text) : Text := ':' :: ':' :: name

/-- The text of the lexemes with a pseudo-element behind it is read from a state in front of another
text. The first of the lexemes are read again, up to a word that may hold the colon of the
pseudo-element. -/
def ReadsPseudoElement (name : Text) (m : Nesting) (l : List Lexeme) (r : Text) : Prop :=
  ∃ front back p more m', l = front ++ back ∧ Reads lexeme m (front ++ p :: more) m' r ∧
    m'.IsFlat ∧ Text.texts (front ++ p :: more) = Text.texts l ++ pseudoElement name ∧
    ∀ q ∈ p :: more, q.isFiller = false

namespace Nesting.IsFlat

variable {n m n' : Nesting} {name r u : Text} {l : List Lexeme}

theorem reads_name (h : n.IsFlat) (hname : IsPseudoName name)
    (hr : ∀ c ∈ r.head?, isNameChar c = false) :
    ∃ n', Reads lexeme n [(.word, name)] n' r ∧ n'.IsFlat := by
  obtain ⟨c, x, rfl⟩ := List.exists_cons_of_ne_nil hname.ne_nil
  have hc : c.isAlpha = true := hname.isAlpha c List.mem_cons_self
  have hne : c ≠ '=' ∧ c ≠ '-' := by constructor <;> rintro rfl <;> exact absurd hc (by decide)
  have hstart : isNameStart c = true := by simp [isNameStart, hc]
  obtain ⟨hbegins, hslash, hescape⟩ := beginsWord_of_isNameStart (Or.inl hstart)
  have hx : ∀ a ∈ x, isNameChar a = true := fun a ha => by
    simp [isNameChar, isNameStart, hname.isAlpha a (List.mem_cons_of_mem _ ha)]
  have hlength : nameLength (c :: (x ++ r)) = x.length + 1 := by
    rw [nameLength_of_ne hne.2, if_pos hstart, takeWhile_append_eq_left hx hr, Nat.add_comm]
  refine h.reads_word hbegins hne.1 hslash ?_ fun hflat => ⟨_, .nil _ _, hflat⟩
  rw [Text.texts_nil, List.nil_append, wordLength_cons, hlength, if_neg (Nat.succ_ne_zero _)]

theorem reads_colons (h : n.IsFlat) (hname : IsPseudoName name)
    (hr : ∀ c ∈ r.head?, isNameChar c = false) :
    ∃ n', Reads lexeme n [(.word, [':', ':']), (.word, name)] n' r ∧ n'.IsFlat :=
  h.reads_word (x := [':']) (by decide) (by decide) (by decide)
    (by rw [wordLength_colon]; simp) fun hflat => hflat.reads_name hname hr

theorem reads_colon (h : n.IsFlat) (hname : IsPseudoName name)
    (hr : ∀ c ∈ r.head?, isNameChar c = false) :
    ∃ n', Reads lexeme n [(.word, [':']), (.word, name)] n' r ∧ n'.IsFlat := by
  refine h.reads_word (x := []) (by decide) (by decide) (by decide) ?_
    fun hflat => hflat.reads_name hname hr
  obtain ⟨c, x, rfl⟩ := List.exists_cons_of_ne_nil hname.ne_nil
  have hc : c ≠ ':' := by
    rintro rfl
    exact absurd (hname.isAlpha ':' List.mem_cons_self) (by decide)
  rw [wordLength_colon, if_neg]
  · rfl
  · simpa using hc

/-- Behind lexemes of a selector a pseudo-element is read. -/
theorem readsPseudoElement (hn : n.IsFlat) (hm : m.IsFlat) (hl : ∀ p ∈ l, p.IsFlat)
    (hlast : ∀ p ∈ l.getLast?, p.isFiller = false)
    (hclosed : ClosesComments (Text.texts l) u) (h : Reads lexeme n l n' u)
    (hname : IsPseudoName name) (hr : ∀ c ∈ r.head?, isNameChar c = false) :
    ReadsPseudoElement name m l r := by
  have hother : (∀ p ∈ l.getLast?, p.2 ≠ [':'] ∧ p.2 ≠ ['\\']) →
      ReadsPseudoElement name m l r := by
    intro hne
    have hfollows : ∀ p ∈ l.getLast?, p.isFiller = false ∧
        FollowsAlike p.2 u (Text.texts [(Kind.word, [':', ':']), (.word, name)] ++ r) :=
      fun p hp => ⟨hlast p hp, Or.inr ⟨rfl, hne p hp⟩⟩
    obtain ⟨m₁, hm₁, hflat⟩ := hn.reads_congr hm hl hclosed (Or.inr hfollows) h
    obtain ⟨m', hm', hflat'⟩ := hflat.reads_colons hname hr
    exact ⟨l, [], _, _, m', by simp, hm₁.append hm', hflat',
      by simp [Text.texts_append, pseudoElement], by simp [Lexeme.isFiller]⟩
  -- a mark at the end goes on with the first colon, and the second one is a word of its own
  have hmark : ∀ front (q : Lexeme) c, q.2 = [c] → l = front ++ [q] → beginsWord c = true →
      c ≠ '=' → c ≠ '/' → (∀ rest, wordLength (c :: ':' :: rest) = 2) →
      ReadsPseudoElement name m l r := by
    rintro front q c hq rfl hc hequals hslash hlength
    have hlexemes : ∀ p ∈ front, p.IsFlat := fun p hp => hl p (List.mem_append_left _ hp)
    obtain ⟨n₁, hfront, -⟩ := h.of_append
    rw [Text.texts_append] at hclosed
    have hhead : (Text.texts [(Kind.word, [c, ':']), (.word, [':']), (.word, name)] ++ r).head? =
        (Text.texts [q] ++ u).head? := by simp [hq]
    obtain ⟨m₁, hm₁, hflat⟩ :=
      hn.reads_congr hm hlexemes hclosed.of_append_left (Or.inl hhead) hfront
    obtain ⟨m', hm', hflat'⟩ := hflat.reads_word (x := [':']) (l := [(.word, [':']), (.word, name)])
      (r := r) hc hequals hslash (hlength _) fun hflat => hflat.reads_colon hname hr
    exact ⟨front, [q], _, _, m', rfl, hm₁.append hm', hflat',
      by simp [Text.texts_append, pseudoElement, hq], by simp [Lexeme.isFiller]⟩
  rcases List.eq_nil_or_concat l with rfl | ⟨front, q, rfl⟩
  · exact hother (by simp)
  · rw [List.concat_eq_append] at *
    by_cases hcolon : q.2 = [':']
    · exact hmark front q ':' hcolon rfl (by decide) (by decide) (by decide) fun rest => by
        rw [wordLength_colon]
        rfl
    · by_cases hescape : q.2 = ['\\']
      · exact hmark front q '\\' hescape rfl (by decide) (by decide) (by decide)
          wordLength_backslash
      · refine hother fun p hp => ?_
        rw [List.getLast?_concat] at hp
        obtain rfl := Option.some.inj hp
        exact ⟨hcolon, hescape⟩

end Nesting.IsFlat

end LeadingTrim.Sheet
