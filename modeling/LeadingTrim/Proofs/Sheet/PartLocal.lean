/-
# Parts in front of other texts

A part of a sheet is read off its own text, and mostly it does not matter what follows. What has to
stay is said for each kind of part (`Part.Keeps`): white space may not go on, a comment to the end
of the line needs that end, a declaration without a semicolon needs the brace behind it, and no
comment that is open in a string may be closed. Then the part is read again (`part_congr`).
-/

import LeadingTrim.Proofs.Sheet.DeclarationLocal

namespace LeadingTrim.Sheet

open Text (isSheetSpace Reads)

/-! ## Sound rows -/

theorem ne_stray_of_isSoundRow {depth : Nat} {item : Bool} {l : List Lexeme}
    (h : isSoundRow depth item l = true) : ∀ p ∈ l, p.1 ≠ .stray := by
  induction l generalizing depth item with
  | nil => simp
  | cons p l ih =>
    obtain ⟨k, x⟩ := p
    have hrest : k ≠ .stray ∧ ∃ depth item, isSoundRow depth item l = true := by
      cases k
      case stray => simp [isSoundRow] at h
      case comma => exact ⟨by simp, _, _, (Bool.and_eq_true_iff.mp h).2⟩
      case closing => exact ⟨by simp, _, _, (Bool.and_eq_true_iff.mp h).2⟩
      all_goals exact ⟨by simp, _, _, h⟩
    obtain ⟨hk, depth', item', hrest⟩ := hrest
    intro p hp
    rcases List.mem_cons.mp hp with rfl | hp
    · exact hk
    · exact ih hrest p hp

/-- A sound row stays the same when the text behind the character that ends it is exchanged. -/
theorem row_congr_of_isSoundRow {e : Char} (he : isRowEnd e = true) {p : Place} {depth : Nat}
    {item : Bool} {w s s' : Text} (hrow : Text.texts (row p (w ++ e :: s)) = w)
    (hsound : isSoundRow depth item (row p (w ++ e :: s)) = true)
    (hopen : KeepsOpen (w ++ [e]) s s') : row p (w ++ e :: s') = row p (w ++ e :: s) := by
  refine row_congr he hrow (ne_stray_of_isSoundRow hsound) (KeepsOpen.stringsKeep ?_)
  rw [hrow]
  exact hopen.of_append_left

/-! ## At-rules -/

theorem dropWhile_append_eq_right {p : Char → Bool} {x s : Text} (hx : ∀ a ∈ x, p a = true)
    (hs : ∀ a ∈ s.head?, p a = false) : (x ++ s).dropWhile p = s := by
  have h := List.takeWhile_append_dropWhile (p := p) (l := x ++ s)
  rw [takeWhile_append_eq_left hx hs] at h
  exact List.append_cancel_left h

/-- The at-rule whose prelude is ended by the character. -/
def atRule (e : Char) (keyword prelude : Text) : Part :=
  if e = '\x7b' then .atBlock ⟨keyword, prelude⟩ else .atStatement (keyword ++ prelude ++ [e])

theorem text_atRule {e : Char} (he : e = '\x7b' ∨ e = ';') (keyword prelude : Text) :
    (atRule e keyword prelude).text = keyword ++ prelude ++ [e] := by
  rcases he with rfl | rfl <;> rfl

theorem atPart_eq_atRule {inBlock : Bool} {k prelude s : Text} {e : Char}
    (he : e = '\x7b' ∨ e = ';') (hk : ∀ a ∈ k, isKeywordChar a = true)
    (hstop : ∀ a ∈ (prelude ++ e :: s).head?, isKeywordChar a = false)
    (hrow : Text.texts (row (preludePlace inBlock ('@' :: k)) (prelude ++ e :: s)) = prelude) :
    atPart inBlock (k ++ (prelude ++ e :: s)) = atRule e ('@' :: k) prelude := by
  unfold atPart
  dsimp only
  rw [takeWhile_append_eq_left hk hstop, dropWhile_append_eq_right hk hstop, hrow, List.drop_left]
  rcases he with rfl | rfl <;> rfl

theorem preludeRow_append {inBlock : Bool} {k s : Text} (hk : ∀ a ∈ k, isKeywordChar a = true)
    (hs : ∀ a ∈ s.head?, isKeywordChar a = false) :
    preludeRow inBlock ('@' :: (k ++ s)) = row (preludePlace inBlock ('@' :: k)) s := by
  unfold preludeRow
  dsimp only
  rw [List.drop_one, List.tail_cons, takeWhile_append_eq_left hk hs,
    dropWhile_append_eq_right hk hs]

/-- An at-rule is a keyword with a prelude, which a brace or a semicolon ends. -/
theorem exists_of_atPart {inBlock : Bool} {rest : Text}
    (h : ∀ text, atPart inBlock rest ≠ .stray text) :
    ∃ k prelude e s, rest = k ++ (prelude ++ e :: s) ∧ (∀ a ∈ k, isKeywordChar a = true) ∧
      (∀ a ∈ (prelude ++ e :: s).head?, isKeywordChar a = false) ∧ (e = '\x7b' ∨ e = ';') ∧
      Text.texts (row (preludePlace inBlock ('@' :: k)) (prelude ++ e :: s)) = prelude := by
  have hkeyword : ∀ a ∈ rest.takeWhile isKeywordChar, isKeywordChar a = true :=
    List.all_eq_true.mp List.all_takeWhile
  have hstop : ∀ a ∈ (rest.dropWhile isKeywordChar).head?, isKeywordChar a = false := by
    intro a ha
    have hnot := List.head?_dropWhile_not isKeywordChar rest
    rw [Option.mem_def.mp ha] at hnot
    simpa using hnot
  obtain ⟨prelude, hrow⟩ : ∃ prelude, Text.texts (row (preludePlace inBlock
      ('@' :: rest.takeWhile isKeywordChar)) (rest.dropWhile isKeywordChar)) = prelude := ⟨_, rfl⟩
  have hprefix := texts_row_isPrefix (preludePlace inBlock
    ('@' :: rest.takeWhile isKeywordChar)) (rest.dropWhile isKeywordChar)
  have hbehind := append_drop_of_isPrefix (hrow ▸ hprefix)
  obtain ⟨e, s, he, hs⟩ : ∃ e s, (e = '\x7b' ∨ e = ';') ∧
      (rest.dropWhile isKeywordChar).drop prelude.length = e :: s := by
    unfold atPart at h
    dsimp only at h
    rw [hrow] at h
    split at h
    next hhead =>
      obtain ⟨s, hs⟩ := List.head?_eq_some_iff.mp hhead
      exact ⟨_, s, Or.inl rfl, hs⟩
    next hhead =>
      obtain ⟨s, hs⟩ := List.head?_eq_some_iff.mp hhead
      exact ⟨_, s, Or.inr rfl, hs⟩
    · exact absurd rfl (h _)
  rw [hs] at hbehind
  rw [← hbehind] at hrow hstop
  refine ⟨_, prelude, e, s, ?_, hkeyword, hstop, he, hrow⟩
  rw [hbehind]
  exact List.takeWhile_append_dropWhile.symm

/-- An at-rule is read again in front of another text. -/
theorem atPart_congr {inBlock : Bool} {x s s' : Text}
    (hstray : ∀ text, atPart inBlock (x ++ s) ≠ .stray text)
    (htext : (atPart inBlock (x ++ s)).text = '@' :: x)
    (hsound : isSoundRow 0 true (preludeRow inBlock ('@' :: (x ++ s))) = true)
    (hopen : KeepsOpen x s s') : atPart inBlock (x ++ s') = atPart inBlock (x ++ s) := by
  obtain ⟨k, prelude, e, r, hrest, hk, hstop, he, hrow⟩ := exists_of_atPart hstray
  have hpart := atPart_eq_atRule he hk hstop hrow
  rw [hrest, hpart, text_atRule he] at htext
  obtain rfl : x = k ++ prelude ++ [e] := (List.cons.inj htext).2.symm
  obtain rfl : s = r := by
    have : k ++ prelude ++ [e] ++ s = k ++ prelude ++ [e] ++ r := by rw [hrest]; simp
    exact List.append_cancel_left this
  rw [hrest, preludeRow_append hk hstop] at hsound
  have hend : isRowEnd e = true := by rcases he with rfl | rfl <;> rfl
  rw [List.append_assoc] at hopen
  have hcongr := row_congr_of_isSoundRow hend hrow hsound hopen.of_append
  have hstop' : ∀ a ∈ (prelude ++ e :: s').head?, isKeywordChar a = false := by
    rw [head?_append_cons prelude e s' s]
    exact hstop
  have hpart' := atPart_eq_atRule he hk hstop' (hcongr ▸ hrow)
  rw [hrest, hpart, ← hpart']
  simp

/-! ## Heads of rules -/

/-- The head with the given lexemes in front of its brace. -/
def headOf (lexemes : List Lexeme) : RuleHead :=
  ⟨selectorPieces [] [] (splitRow lexemes).1, Text.texts (splitRow lexemes).2⟩

theorem selector_append_gap_headOf (lexemes : List Lexeme) :
    (headOf lexemes).selector ++ (headOf lexemes).gap = Text.texts lexemes :=
  flatMap_text_splitRow lexemes

theorem rulePart_eq {c : Char} {rest w s : Text} (ht : c :: rest = w ++ '\x7b' :: s) (hw : w ≠ [])
    (hrow : Text.texts (row .selector (w ++ '\x7b' :: s)) = w) :
    rulePart c rest = .rule (headOf (row .selector (w ++ '\x7b' :: s))) := by
  unfold rulePart
  dsimp only
  rw [ht, hrow, List.drop_left]
  split
  next heq =>
    rw [heq] at hrow
    exact absurd hrow.symm hw
  · rfl
  next heq _ => simp at heq
  next hbrace _ _ => exact absurd rfl hbrace

/-- A head is a row of lexemes in front of a brace. -/
theorem exists_of_rulePart {c : Char} {rest : Text} {head : RuleHead}
    (h : rulePart c rest = .rule head) :
    ∃ w s, c :: rest = w ++ '\x7b' :: s ∧ w ≠ [] ∧
      Text.texts (row .selector (w ++ '\x7b' :: s)) = w ∧
      head = headOf (row .selector (w ++ '\x7b' :: s)) := by
  obtain ⟨w, hrow⟩ : ∃ w, Text.texts (row .selector (c :: rest)) = w := ⟨_, rfl⟩
  have hprefix := texts_row_isPrefix .selector (c :: rest)
  have hbehind := append_drop_of_isPrefix (hrow ▸ hprefix)
  unfold rulePart at h
  dsimp only at h
  rw [hrow] at h
  split at h
  · cases h
  next hhead hne =>
    obtain ⟨s, hs⟩ := List.head?_eq_some_iff.mp hhead
    rw [hs] at hbehind
    refine ⟨w, s, hbehind.symm, ?_, ?_, ?_⟩
    · rw [← hrow]
      exact texts_ne_nil_of_row rfl hne
    · rw [hbehind]
      exact hrow
    · rw [hbehind]
      exact (Part.rule.inj h).symm
  · cases h
  · cases h

theorem beginsWord_of_isNameStart {c : Char} (h : isNameStart c = true ∨ c = '-') :
    beginsWord c = true ∧ c ≠ '/' ∧ c ≠ '\\' := by
  have hothers : ∀ a ∈ '\'' :: '"' :: '/' :: '\\' :: wordStops,
      isNameStart a = false ∧ a ≠ '-' := by decide
  have hc : ∀ a ∈ '\'' :: '"' :: '/' :: '\\' :: wordStops, c ≠ a := by
    rintro a ha rfl
    obtain ⟨hstart, hhyphen⟩ := hothers c ha
    rcases h with h | h
    · rw [hstart] at h
      cases h
    · exact hhyphen h
  refine ⟨?_, hc _ (by decide), hc _ (by decide)⟩
  rw [beginsWord, Bool.not_eq_true', Bool.or_eq_false_iff]
  constructor
  · cases hspace : isSheetSpace c with
    | false => rfl
    | true => exact absurd rfl (hc c (by simp [mem_wordStops (endsPlain_of_isSheetSpace hspace)]))
  · rw [List.contains_eq_mem, decide_eq_false_iff_not]
    intro hmem
    have hsubset : ∀ a ∈ ['\x7b', '\x7d', ';', ',', '(', '[', ')', ']', '\'', '"'],
        a ∈ '\'' :: '"' :: '/' :: '\\' :: wordStops := by decide
    exact hc c (hsubset c hmem) rfl

theorem isNameStart_of_nameLength {c : Char} {t : Text} (h : nameLength (c :: t) ≠ 0) :
    isNameStart c = true ∨ c = '-' := by
  by_cases hc : c = '-'
  · exact Or.inr hc
  · rw [nameLength_of_ne hc] at h
    cases hstart : isNameStart c with
    | true => exact Or.inl rfl
    | false => simp [hstart] at h

/-- A name at the front of a selector is its first lexeme. -/
theorem lexeme_of_name {n : Nesting} (hn : n.place = .selector) (hattached : n.attached = none)
    {c : Char} {x s : Text} (hname : nameLength (c :: (x ++ s)) = x.length + 1) :
    lexeme n c (x ++ s) = some ⟨.word, n.goto .selector, x.length⟩ := by
  obtain ⟨hword, hslash, hescape⟩ := beginsWord_of_isNameStart
    (isNameStart_of_nameLength (t := x ++ s) (c := c) (by omega))
  have hc : (c == '/') = false := beq_eq_false_iff_ne.mpr hslash
  have hplace : n.word (c :: (x ++ s)) = (.name (c :: x), x.length + 1) := by
    have hat : nameLengthAt .selector (c :: (x ++ s)) = x.length + 1 := hname
    unfold Nesting.word
    simp only [hattached, Nat.lt_irrefl, if_false]
    unfold Place.word
    simp only [hn, Place.readsValues, Bool.not_false, if_true]
    rw [nameOrMark_of_ne hescape, hat, if_neg (by omega)]
    simp
  rw [lexeme_of_beginsWord hword, hc, Bool.false_and, Bool.false_and, hplace]
  simp [Nesting.behindWord, Nesting.behindName, hn]

/-- The name and the fillers at the front of a selector are its first lexemes. -/
theorem exists_row_of_name {c : Char} {x s : Text}
    (hname : nameLength (c :: (x ++ s)) = x.length + 1) :
    ∃ l, row .selector (c :: (x ++ s)) = (.word, c :: x) :: (fillers s ++ l) := by
  obtain ⟨l, hl⟩ := fillers_isPrefix (n := (Nesting.start .selector).goto .selector) rfl s
  refine ⟨l, ?_⟩
  unfold row
  rw [Text.scan, lexeme_of_name rfl rfl hname]
  dsimp only
  rw [List.take_left, Text.scan_eq_scan_drop, List.drop_left, hl]

theorem name_append_fillers_isPrefix {c : Char} {x s : Text}
    (hname : nameLength (c :: (x ++ s)) = x.length + 1) :
    c :: x ++ Text.texts (fillers s) <+: Text.texts (row .selector (c :: (x ++ s))) := by
  obtain ⟨l, hrow⟩ := exists_row_of_name hname
  rw [hrow, Text.texts_cons, Text.texts_append, ← List.append_assoc]
  exact List.prefix_append _ _

/-- No declaration begins with a head that is read again in front of another text. -/
theorem declaration?_eq_none_congr {w s s' : Text}
    (hrow : Text.texts (row .selector (w ++ '\x7b' :: s')) = w) (hcolon : w.getLast? ≠ some ':')
    (h : declaration? (w ++ '\x7b' :: s) = none) : declaration? (w ++ '\x7b' :: s') = none := by
  cases hd : declaration? (w ++ '\x7b' :: s') with
  | none => rfl
  | some d =>
    obtain ⟨behind, ht, hne, hname, hgap, hvalue, -⟩ := declaration?_eq_some_iff.mp hd
    obtain ⟨c, x, hcx⟩ := List.exists_cons_of_ne_nil hne
    rw [hcx, List.append_assoc, List.cons_append] at ht
    have hprefix : d.name ++ d.gap <+: w := by
      have hname' : nameLength (c :: (x ++ (d.gap ++ ':' :: behind))) = x.length + 1 := by
        rw [← ht, hname, hcx, List.length_cons]
      have h := name_append_fillers_isPrefix hname'
      rw [hgap, ← ht, hrow, ← hcx] at h
      exact h
    obtain ⟨u, hu⟩ := hprefix
    have hcolonAt : u ++ '\x7b' :: s' = ':' :: behind := by
      rw [← hu, ← List.cons_append, ← hcx, List.append_assoc, List.append_assoc] at ht
      exact List.append_cancel_left (List.append_cancel_left ht)
    cases u with
    | nil => simp at hcolonAt
    | cons a u =>
      injection hcolonAt with ha hbehind
      subst ha hbehind
      -- so the head is a declaration in front of the first text as well
      have hu' : u ≠ [] := by
        rintro rfl
        exact hcolon (by rw [← hu]; simp)
      have hvalue' : beginsValue (endsInSpace (fillers (d.gap ++ ':' :: (u ++ '\x7b' :: s))))
          (u ++ '\x7b' :: s) = true := by
        rw [fillers_colon_congr hgap, beginsValue_congr rfl _ fun hnil => absurd hnil hu']
        exact hvalue
      have hsome : declaration? (w ++ '\x7b' :: s) =
          some (.read d.name d.gap (u ++ '\x7b' :: s)) := by
        refine declaration?_eq_some_iff.mpr ⟨u ++ '\x7b' :: s, ?_, hne, ?_, ?_, hvalue', rfl⟩
        · rw [← hu]
          simp [DeclarationText.read]
        · rw [nameLength_append (endsWord_cons (by decide) _).endsName] at hname ⊢
          exact hname
        · show Text.texts (fillers (d.gap ++ _)) = d.gap
          rw [fillers_colon_congr hgap, hgap]
      rw [h] at hsome
      cases hsome

/-! ## Parts -/

theorem filler_eq_none_iff {c : Char} {rest : Text} :
    filler c rest = none ↔ isSheetSpace c = false ∧ ¬ (c = '/' ∧ rest.head? = some '/') ∧
      commentLength (c :: rest) = none := by
  unfold filler
  cases hspace : isSheetSpace c with
  | true => simp
  | false =>
    by_cases hline : c = '/' ∧ rest.head? = some '/'
    · simp [hline.1, hline.2]
    · have hline' : ¬ (c == '/' && rest.head? == some '/') = true := by simpa using hline
      cases hlength : commentLength (c :: rest) with
      | none => simp [hline, hline']
      | some length => simp [hline']

theorem filler_eq_none_of_ne {c : Char} (hspace : isSheetSpace c = false) (hc : c ≠ '/')
    (rest : Text) : filler c rest = none := by
  refine filler_eq_none_iff.mpr ⟨hspace, fun h => hc h.1, ?_⟩
  cases rest with
  | nil => simp [commentLength]
  | cons a rest => rw [commentLength_cons_cons, if_neg fun h => hc h.1]

theorem commentTail_le {t : Text} {n : Nat} (h : commentTail t = some n) : n ≤ t.length := by
  induction t generalizing n with
  | nil => simp [commentTail] at h
  | cons c t ih =>
    rw [commentTail_cons] at h
    split at h
    next hend =>
      obtain rfl := Option.some.inj h
      cases t with
      | nil => simp at hend
      | cons d t => simp
    · obtain ⟨m, hm, rfl⟩ := Option.map_eq_some_iff.mp h
      have := ih hm
      simp only [List.length_cons]
      omega

theorem filler_le {c : Char} {rest : Text} {found : Text.Found Unit Kind}
    (h : filler c rest = some found) : found.more ≤ rest.length := by
  unfold filler at h
  split at h
  · obtain rfl := Option.some.inj h
    exact length_takeWhile_le_length _ _
  split at h
  · obtain rfl := Option.some.inj h
    exact length_takeWhile_le_length _ _
  split at h
  next hlength =>
    obtain rfl := Option.some.inj h
    obtain ⟨u, m, hu, hm, rfl⟩ := exists_of_commentLength hlength
    have hle := commentTail_le hm
    have hlen := congrArg List.length hu
    simp only [List.length_cons] at hlen ⊢
    omega
  · cases h

/-- What has to stay behind a part for it to be read again. -/
def Part.Keeps (s s' : Text) : Part → Prop
  | .space _ => EndsFiller .space s'
  | .lineComment _ => EndsFiller .lineComment s'
  | .declaration d => KeepsOpen d.text s s' ∧ (d.terminated = false → ∃ f v v',
      s = f ++ '\x7d' :: v ∧ s' = f ++ '\x7d' :: v' ∧
        Text.texts (row (.value .value) (d.value ++ s)) = d.value ++ f)
  | p => KeepsOpen p.text s s'

/-- White space or a comment as a part. -/
def Part.ofFiller (k : Kind) (text : Text) : Part :=
  match k with
  | .space => .space text
  | .lineComment => .lineComment text
  | _ => .comment text

theorem part_of_filler {depth : Nat} {k : Kind} {c : Char} {x s : Text}
    (h : filler c (x ++ s) = some ⟨k, (), x.length⟩) :
    part depth c (x ++ s) = .ofFiller k (c :: x) := by
  unfold part
  rw [h]
  dsimp only
  rw [List.take_left]
  rfl

theorem part_of_filler_eq_none {depth : Nat} {c : Char} {rest : Text} (h : filler c rest = none) :
    part depth c rest =
      if c == '\x7d' then .close
      else if c == '@' then atPart (0 < depth) rest
      else match declaration? (c :: rest) with
        | some d => .declaration d
        | none => rulePart c rest := by
  unfold part
  split
  next hfound => rw [h] at hfound; cases hfound
  · rfl

theorem StringsKeep.append_fillers {l g : List Lexeme} {s s' : Text}
    (hg : ∀ p ∈ g, p.isFiller = true) (h : StringsKeep l (Text.texts g ++ s) (Text.texts g ++ s')) :
    StringsKeep (l ++ g) s s' := by
  intro l₁ x l₂ hl
  have hx : ∀ k, g ≠ k ++ (.string, x) :: l₂ := by
    rintro k rfl
    have hfiller := hg (.string, x) (by simp)
    simp [Lexeme.isFiller] at hfiller
  rcases List.append_eq_append_iff.mp hl with ⟨k, -, hk⟩ | ⟨k, hk, hbehind⟩
  · exact absurd hk (hx k)
  · cases k with
    | nil => exact absurd hbehind.symm (hx [])
    | cons p k =>
      obtain ⟨rfl, rfl⟩ := List.cons.inj hbehind
      show KeepsOpen x (Text.texts (k ++ g) ++ s) (Text.texts (k ++ g) ++ s')
      rw [Text.texts_append, List.append_assoc, List.append_assoc]
      exact h l₁ x k hk

theorem isFiller_of_mem_splitRow {l : List Lexeme} : ∀ p ∈ (splitRow l).2, p.isFiller = true := by
  intro p hp
  exact List.all_eq_true.mp (List.all_takeWhile (p := Lexeme.isFiller)) p (List.mem_reverse.mp hp)

theorem isFiller_of_mem_getLast?_splitRow {l : List Lexeme} :
    ∀ p ∈ (splitRow l).1.getLast?, p.isFiller = false := by
  intro p hp
  have hhead := List.head?_dropWhile_not Lexeme.isFiller l.reverse
  rw [splitRow, List.getLast?_reverse] at hp
  rw [hp] at hhead
  exact hhead

/-- A row is split in front of the fillers at its end. -/
theorem splitRow_append_of_isFiller {l g : List Lexeme} {p : Lexeme} (hlast : l.getLast? = some p)
    (hp : p.isFiller = false) (hg : ∀ p ∈ g, p.isFiller = true) : splitRow (l ++ g) = (l, g) := by
  obtain ⟨l, q, rfl⟩ := l.eq_nil_or_concat.resolve_left (by rintro rfl; cases hlast)
  rw [List.concat_eq_append] at hlast ⊢
  obtain rfl : q = p := by simpa using hlast
  have hall : ∀ q ∈ g.reverse, q.isFiller = true := fun q hq => hg q (List.mem_reverse.mp hq)
  rw [splitRow, List.reverse_append, List.dropWhile_append_of_pos hall,
    List.takeWhile_append_of_pos hall]
  simp [hp]

/-- The first lexeme of a row that is no filler is in front of the fillers at its end. -/
theorem exists_head?_splitRow {l : List Lexeme} {p : Lexeme} (h : l.head? = some p)
    (hp : p.isFiller = false) :
    (splitRow l).1.head? = some p := by
  rw [← splitRow_append l] at h
  cases hfirst : (splitRow l).1 with
  | nil =>
    rw [hfirst] at h
    rw [isFiller_of_mem_splitRow p (List.mem_of_mem_head? h)] at hp
    cases hp
  | cons q rest =>
    rw [hfirst] at h
    exact h

theorem DeclarationText.text_append (d : DeclarationText) (s : Text) :
    d.text ++ s =
      d.name ++ d.gap ++ ':' :: (d.value ++ (if d.terminated then [';'] else []) ++ s) := by
  simp [DeclarationText.text]

/-- The row that a declaration was read from. -/
theorem row_of_declaration? {d : DeclarationText} {s : Text}
    (h : declaration? (d.text ++ s) = some d) :
    d.value = Text.texts (if d.terminated then row (.value .value) (d.value ++ ';' :: s)
      else (splitRow (row (.value .value) (d.value ++ s))).1) := by
  obtain ⟨behind, ht, -, -, -, -, hd⟩ := declaration?_eq_some_iff.mp h
  rw [d.text_append] at ht
  obtain ⟨-, hbehind⟩ := List.cons.inj (List.append_cancel_left ht)
  have hvalue := congrArg DeclarationText.value hd
  have hterminated := congrArg DeclarationText.terminated hd
  simp only [DeclarationText.read] at hvalue hterminated
  rw [← hterminated, ← hbehind] at hvalue
  cases hend : d.terminated with
  | true =>
    rw [hend] at hvalue
    simpa using hvalue
  | false =>
    rw [hend] at hvalue
    simpa using hvalue

/-- A declaration is read again, if what ends it stays. -/
theorem declaration?_text_congr {d : DeclarationText} {s s' : Text}
    (hsound : isSoundRow 0 false (row (.value .value)
      ((d.text ++ s).drop (d.name ++ d.gap ++ [':']).length)) = true)
    (hkeeps : (Part.declaration d).Keeps s s') (h : declaration? (d.text ++ s) = some d) :
    declaration? (d.text ++ s') = some d := by
  have hrow := row_of_declaration? h
  obtain ⟨hopen, hbrace⟩ := hkeeps
  have hdrop : (d.text ++ s).drop (d.name ++ d.gap ++ [':']).length =
      d.value ++ (if d.terminated then [';'] else []) ++ s := by
    have hsplit : d.text ++ s = (d.name ++ d.gap ++ [':']) ++
        (d.value ++ (if d.terminated then [';'] else []) ++ s) := by
      simp [DeclarationText.text]
    rw [hsplit, List.drop_left]
  rw [hdrop] at hsound
  rw [d.text_append] at h ⊢
  unfold DeclarationText.text at hopen
  rw [List.append_assoc] at hopen
  replace hopen := hopen.of_append
  cases hend : d.terminated with
  | true =>
    simp only [hend, if_true, List.append_assoc, List.cons_append, List.nil_append] at *
    rw [← List.append_assoc] at h ⊢
    exact declaration?_congr (Or.inl rfl)
      (row_congr_of_isSoundRow rfl hrow.symm hsound hopen) hrow.symm h
  | false =>
    obtain ⟨f, v, v', rfl, rfl, hf⟩ := hbrace hend
    simp only [hend, Bool.false_eq_true, if_false, List.append_nil] at *
    rw [← List.append_assoc] at hrow hf hsound h ⊢
    refine declaration?_congr (Or.inr rfl) ?_ hf h
    -- the strings are in the value, in front of the fillers
    have hsplit := splitRow_append (row (.value .value) (d.value ++ f ++ '\x7d' :: v))
    have hfillers : Text.texts (splitRow (row (.value .value) (d.value ++ f ++ '\x7d' :: v))).2 =
        f := by
      have htexts := congrArg Text.texts hsplit
      rw [Text.texts_append, ← hrow, hf] at htexts
      exact List.append_cancel_left htexts
    refine row_congr rfl hf (ne_stray_of_isSoundRow hsound) ?_
    have hstrings : StringsKeep (splitRow (row (.value .value) (d.value ++ f ++ '\x7d' :: v))).1
        (f ++ '\x7d' :: v) (f ++ '\x7d' :: v') := by
      refine KeepsOpen.stringsKeep ?_
      rw [← hrow]
      exact hopen
    rw [← hsplit]
    refine StringsKeep.append_fillers isFiller_of_mem_splitRow ?_
    rw [hfillers]
    exact hstrings

theorem isSheetSpace_of_beginsWord {c : Char} (h : beginsWord c = true) :
    isSheetSpace c = false := by
  rw [beginsWord, Bool.not_eq_true', Bool.or_eq_false_iff] at h
  exact h.1

/-- A comment that is never closed is a stray lexeme. -/
theorem ne_slash_star_of_isSoundRow {p : Place} {depth : Nat} {item : Bool} {c : Char} {rest : Text}
    (hsound : isSoundRow depth item (row p (c :: rest)) = true)
    (hcomment : commentLength (c :: rest) = none) : ¬ (c = '/' ∧ rest.head? = some '*') := by
  rintro ⟨rfl, hstar⟩
  have hstray := ne_stray_of_isSoundRow hsound
  unfold row at hstray
  rw [Text.scan, lexeme_slash_star _ hstar, hcomment] at hstray
  exact hstray _ List.mem_cons_self rfl

theorem filler_eq_none_congr {c : Char} {t t' : Text} (hhead : t.head? = t'.head?)
    (hstar : ¬ (c = '/' ∧ t.head? = some '*')) (h : filler c t = none) : filler c t' = none := by
  rw [filler_eq_none_iff] at h ⊢
  rw [← hhead]
  refine ⟨h.1, h.2.1, ?_⟩
  cases t' with
  | nil => simp [commentLength]
  | cons a t' =>
    rw [commentLength_cons_cons, if_neg]
    rintro ⟨rfl, rfl⟩
    exact hstar ⟨rfl, hhead⟩

/-- A head of a rule is read again in front of another text. -/
theorem part_congr_of_rule {depth : Nat} {c : Char} {x s s' : Text} {head : RuleHead}
    (hfiller : filler c (x ++ s) = none) (hnone : declaration? (c :: (x ++ s)) = none)
    (h : rulePart c (x ++ s) = .rule head) (htext : head.text = c :: x) (hbrace : c ≠ '\x7d')
    (hat : c ≠ '@')
    (hsound : (Part.rule head).hasSoundRow (0 < depth) (c :: (x ++ s)) = true)
    (hopen : KeepsOpen head.text s s') : part depth c (x ++ s') = .rule head := by
  obtain ⟨w, r, ht, hw, hrow, rfl⟩ := exists_of_rulePart h
  have hhead := selector_append_gap_headOf (row .selector (w ++ '\x7b' :: r))
  rw [hrow] at hhead
  rw [RuleHead.text, hhead] at htext hopen
  obtain ⟨y, rfl, rfl⟩ : ∃ y, w = c :: y ∧ x = y ++ ['\x7b'] := by
    obtain ⟨a, y, rfl⟩ := List.exists_cons_of_ne_nil hw
    obtain ⟨rfl, rfl⟩ := List.cons.inj htext
    exact ⟨y, rfl, rfl⟩
  have hbehind : ∀ r, y ++ ['\x7b'] ++ r = y ++ '\x7b' :: r := by simp
  rw [hbehind] at hfiller hnone h ht hsound ⊢
  obtain rfl : s = r := by
    have := List.append_cancel_left (List.cons.inj ht).2
    injection this
  simp only [Part.hasSoundRow, hhead, Bool.and_eq_true, bne_iff_ne] at hsound
  obtain ⟨⟨hrowSound, -⟩, hcolon⟩ := hsound
  have hcongr := row_congr_of_isSoundRow rfl hrow hrowSound hopen
  have hfiller' : filler c (y ++ '\x7b' :: s') = none :=
    filler_eq_none_congr (head?_append_cons y _ s s')
      (ne_slash_star_of_isSoundRow hrowSound (filler_eq_none_iff.mp hfiller).2.2) hfiller
  have hnone' : declaration? (c :: y ++ '\x7b' :: s') = none :=
    declaration?_eq_none_congr (hcongr ▸ hrow) hcolon hnone
  rw [part_of_filler_eq_none hfiller', if_neg (by simpa using hbrace), if_neg (by simpa using hat),
    ← List.cons_append, hnone', ← hcongr]
  exact rulePart_eq rfl hw (hcongr ▸ hrow)

theorem take_eq_of_text_part {depth : Nat} {c : Char} {x s : Text} {found : Text.Found Unit Kind}
    (h : filler c (x ++ s) = some found) (htext : (part depth c (x ++ s)).text = c :: x) :
    found.more = x.length := by
  have htake : (part depth c (x ++ s)).text = c :: (x ++ s).take found.more := by
    unfold part
    rw [h]
    dsimp only
    split <;> rfl
  rw [htake] at htext
  have hlength := congrArg List.length (List.cons.inj htext).2
  rw [List.length_take, Nat.min_eq_left (filler_le h)] at hlength
  exact hlength

theorem atPart_cases {inBlock : Bool} {rest : Text}
    (h : ∀ text, atPart inBlock rest ≠ .stray text) :
    (∃ head, atPart inBlock rest = .atBlock head) ∨
      ∃ text, atPart inBlock rest = .atStatement text := by
  unfold atPart at h ⊢
  dsimp only at h ⊢
  split
  · exact Or.inl ⟨_, rfl⟩
  · exact Or.inr ⟨_, rfl⟩
  next hbrace hsemicolon =>
    split at h
    next heq => exact absurd heq hbrace
    next heq => exact absurd heq hsemicolon
    · exact absurd rfl (h _)

theorem rulePart_cases {c : Char} {rest : Text} (h : ∀ text, rulePart c rest ≠ .stray text) :
    ∃ head, rulePart c rest = .rule head := by
  cases hp : rulePart c rest with
  | rule head => exact ⟨head, rfl⟩
  | stray text => exact absurd hp (h text)
  | _ =>
    unfold rulePart at hp
    dsimp only at hp
    split at hp <;> cases hp

/-- The part at the front is a head exactly if it is nothing else. -/
theorem part_eq_rule_iff {depth : Nat} {c : Char} {rest : Text} {head : RuleHead} :
    part depth c rest = .rule head ↔ filler c rest = none ∧ c ≠ '\x7d' ∧ c ≠ '@' ∧
      declaration? (c :: rest) = none ∧ rulePart c rest = .rule head := by
  cases hfiller : filler c rest with
  | some found =>
    refine iff_of_false (fun h => ?_) (by simp)
    unfold part at h
    rw [hfiller] at h
    dsimp only at h
    split at h <;> cases h
  | none =>
    rw [part_of_filler_eq_none hfiller]
    by_cases hbrace : c = '\x7d'
    · simp [hbrace]
    by_cases hat : c = '@'
    · rw [if_neg (by simpa using hbrace), if_pos (by simpa using hat)]
      refine iff_of_false (fun h => ?_) (by simp [hat])
      rcases atPart_cases (fun text => by rw [h]; nofun) with ⟨head', h'⟩ | ⟨text, h'⟩ <;>
        rw [h] at h' <;> cases h'
    rw [if_neg (by simpa using hbrace), if_neg (by simpa using hat)]
    cases hd : declaration? (c :: rest) with
    | some d => simp
    | none => simp [hbrace, hat]

/-- What begins with no filler is neither white space nor a comment. -/
theorem part_ne_ofFiller {depth : Nat} {c : Char} {rest : Text} (h : filler c rest = none)
    (k : Kind) (text : Text) : part depth c rest ≠ .ofFiller k text := by
  have hother : ∀ p : Part, (∃ d, p = .declaration d) ∨ p = .close ∨ (∃ a, p = .atBlock a) ∨
      (∃ a, p = .atStatement a) ∨ (∃ a, p = .rule a) ∨ (∃ a, p = .stray a) →
      p ≠ .ofFiller k text := by
    rintro p (⟨a, rfl⟩ | rfl | ⟨a, rfl⟩ | ⟨a, rfl⟩ | ⟨a, rfl⟩ | ⟨a, rfl⟩) <;> cases k <;> nofun
  rw [part_of_filler_eq_none h]
  apply hother
  unfold atPart rulePart
  dsimp only
  repeat' split
  all_goals simp

/-- White space and comments are parts only where fillers begin. -/
theorem filler_of_part {depth : Nat} {c : Char} {x s : Text} {k : Kind}
    (hk : k = .space ∨ k = .comment ∨ k = .lineComment)
    (h : part depth c (x ++ s) = .ofFiller k (c :: x)) :
    filler c (x ++ s) = some ⟨k, (), x.length⟩ := by
  cases hfiller : filler c (x ++ s) with
  | none => exact absurd h (part_ne_ofFiller hfiller k _)
  | some found =>
    obtain ⟨k', ⟨⟩, more⟩ := found
    have htext : (part depth c (x ++ s)).text = c :: x := by rw [h]; cases k <;> rfl
    obtain rfl : more = x.length := take_eq_of_text_part hfiller htext
    rw [part_of_filler hfiller] at h
    have hk' := (filler_eq_some_iff.mp hfiller).1
    rcases hk with rfl | rfl | rfl <;> cases hk' <;> first | rfl | cases h

/-- The declaration at the front is read as one. -/
theorem declaration?_of_part {depth : Nat} {c : Char} {rest : Text} {d : DeclarationText}
    (h : part depth c rest = .declaration d) : declaration? (c :: rest) = some d := by
  cases hfiller : filler c rest with
  | some found =>
    unfold part at h
    rw [hfiller] at h
    dsimp only at h
    split at h <;> cases h
  | none =>
    rw [part_of_filler_eq_none hfiller] at h
    split at h
    · cases h
    split at h
    · unfold atPart at h
      dsimp only at h
      split at h <;> cases h
    split at h
    next hd => rw [hd, Part.declaration.inj h]
    next hd =>
      unfold rulePart at h
      dsimp only at h
      split at h <;> cases h

/-- A declaration begins with a letter or the like. -/
theorem beginsWord_of_declaration? {c : Char} {rest : Text} {d : DeclarationText}
    (h : declaration? (c :: rest) = some d) : beginsWord c = true ∧ c ≠ '/' := by
  obtain ⟨-, -, hne, hname, -⟩ := declaration?_eq_some_iff.mp h
  have hpos := List.length_pos_iff.mpr hne
  obtain ⟨hword, hslash, -⟩ := beginsWord_of_isNameStart
    (isNameStart_of_nameLength (c := c) (t := rest) (by omega))
  exact ⟨hword, hslash⟩

/-- A part is read again in front of another text. -/
theorem part_congr {depth : Nat} {c : Char} {x s s' : Text} {p : Part}
    (h : part depth c (x ++ s) = p) (htext : p.text = c :: x) (hstray : ∀ text, p ≠ .stray text)
    (hsound : p.hasSoundRow (0 < depth) (c :: (x ++ s)) = true) (hkeeps : p.Keeps s s') :
    part depth c (x ++ s') = p := by
  cases hfiller : filler c (x ++ s) with
  | some found =>
    obtain ⟨k, ⟨⟩, more⟩ := found
    obtain rfl : more = x.length := take_eq_of_text_part hfiller (h ▸ htext)
    rw [part_of_filler hfiller] at h
    subst h
    refine part_of_filler (filler_congr (fun _ => ?_) hfiller)
    cases (filler_eq_some_iff.mp hfiller).1 with
    | space => exact hkeeps
    | lineComment => exact hkeeps
    | comment => trivial
  | none =>
    rw [part_of_filler_eq_none hfiller] at h
    by_cases hbrace : c = '\x7d'
    · subst hbrace
      rw [part_of_filler_eq_none (filler_eq_none_of_ne (by decide) (by decide) _)]
      exact h
    rw [if_neg (by simpa using hbrace)] at h
    by_cases hat : c = '@'
    · subst hat
      rw [part_of_filler_eq_none (filler_eq_none_of_ne (by decide) (by decide) _),
        if_neg (by decide), if_pos (by decide)]
      rw [if_pos (by decide)] at h
      subst h
      have hprelude : isSoundRow 0 true (preludeRow (0 < depth) ('@' :: (x ++ s))) = true ∧
          KeepsOpen ('@' :: x) s s' := by
        rcases atPart_cases hstray with ⟨head, hp⟩ | ⟨text, hp⟩
        · rw [hp] at hsound hkeeps htext
          exact ⟨hsound, htext ▸ hkeeps⟩
        · rw [hp] at hsound hkeeps htext
          exact ⟨hsound, htext ▸ hkeeps⟩
      exact atPart_congr hstray htext hprelude.1 (hprelude.2.of_append (u := ['@']))
    rw [if_neg (by simpa using hat)] at h
    cases hd : declaration? (c :: (x ++ s)) with
    | some d =>
      rw [hd] at h
      subst h
      obtain ⟨hword, hslash⟩ := beginsWord_of_declaration? hd
      have hd' : declaration? (c :: (x ++ s')) = some d := by
        rw [← List.cons_append, ← htext] at hd ⊢
        exact declaration?_text_congr (by rw [← List.cons_append, ← htext] at hsound; exact hsound)
          hkeeps hd
      rw [part_of_filler_eq_none (filler_eq_none_of_ne (isSheetSpace_of_beginsWord hword) hslash _),
        if_neg (by simpa using hbrace), if_neg (by simpa using hat), hd']
    | none =>
      rw [hd] at h
      dsimp only at h
      subst h
      obtain ⟨head, hp⟩ := rulePart_cases hstray
      rw [hp] at htext hsound hkeeps ⊢
      exact part_congr_of_rule hfiller hd hp htext hbrace hat hsound hkeeps

end LeadingTrim.Sheet
