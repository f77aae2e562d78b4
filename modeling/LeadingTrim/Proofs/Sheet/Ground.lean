/-
# The ground of a row

Brackets in a row come and go, and what they hold is read by rules of its own. Below all of them a
row has a *ground*: the place that it has outside of brackets, or will have when they are closed,
and the place behind a comma there. A selector stays a selector on its ground, and a value a value
(`isSelectorGround_of_reads`, `isValueGround_of_reads`), whatever stands in the brackets.
-/

import LeadingTrim.Proofs.Sheet.RowLocal
import LeadingTrim.Sheet.Soundness

namespace LeadingTrim.Sheet

open Text (isSheetSpace Reads)

namespace Nesting

/-- The place outside of all brackets, and that behind a comma there. -/
def ground (n : Nesting) : Place × Place := n.outer.getLast?.getD (n.place, n.base)

theorem ground_of_nil {n : Nesting} (h : n.outer = []) : n.ground = (n.place, n.base) := by
  simp [ground, h]

/-- As many brackets are open, and the ground below them is the same. -/
structure SameBrackets (n n' : Nesting) : Prop where
  base : n'.base = n.base
  length : n'.outer.length = n.outer.length
  last : ∀ e, n.outer.getLast? = some e → (∀ f, e.1 ≠ .either f) → n'.outer.getLast? = some e

theorem SameBrackets.refl (n : Nesting) : SameBrackets n n :=
  ⟨rfl, rfl, fun _ h _ => h⟩

theorem SameBrackets.goto {n m : Nesting} (h : SameBrackets n m) (p : Place) :
    SameBrackets n (m.goto p) := ⟨h.base, h.length, h.last⟩

theorem SameBrackets.attach {n m : Nesting} (h : SameBrackets n m) (p : Place) (a : Attached) :
    SameBrackets n (m.attach p a) := ⟨h.base, h.length, h.last⟩

theorem sameBrackets_settleValue (n : Nesting) : SameBrackets n n.settleValue := by
  refine ⟨rfl, by simp [settleValue], fun e he hne => ?_⟩
  rw [settleValue, List.getLast?_map, he, Option.map_some]
  obtain ⟨p, b⟩ := e
  cases p with
  | either f => exact absurd rfl (hne f)
  | _ => rfl

theorem sameBrackets_settleQuery (n : Nesting) : SameBrackets n n.settleQuery := by
  refine ⟨rfl, by simp [settleQuery], fun e he hne => ?_⟩
  rw [settleQuery, List.getLast?_map, he, Option.map_some]
  obtain ⟨p, b⟩ := e
  cases p with
  | either f => exact absurd rfl (hne f)
  | _ => rfl

theorem sameBrackets_settle (n : Nesting) : SameBrackets n n.settle := by
  unfold settle
  split
  · exact sameBrackets_settleQuery n
  · exact sameBrackets_settleQuery n
  · exact .refl n

/-- A word opens no bracket and closes none. -/
theorem sameBrackets_behindName (n : Nesting) (name : Text) :
    SameBrackets n (n.behindName name) := by
  have hsame := SameBrackets.refl n
  have hvalue := sameBrackets_settleValue n
  have hquery := sameBrackets_settleQuery n
  unfold behindName behindQueryName
  split
  case h_14 =>
    split
    · exact hquery.goto _
    · exact hsame.attach _ _
  case h_15 =>
    split
    · exact hquery.goto _
    · exact hvalue.attach _ _
  all_goals first | exact hsame.goto _ | exact hsame.attach _ _

theorem sameBrackets_behindValue (n : Nesting) : SameBrackets n n.behindValue := by
  have hsame := SameBrackets.refl n
  have hvalue := sameBrackets_settleValue n
  unfold behindValue
  split
  all_goals first | exact hsame.goto _ | exact hvalue.goto _

theorem sameBrackets_behindMark (n : Nesting) (mark : Text) :
    SameBrackets n (n.behindMark mark) := by
  have hsame := SameBrackets.refl n
  have hvalue := sameBrackets_settleValue n
  have hquery := sameBrackets_settleQuery n
  unfold behindMark behindSelectorMark
  split
  all_goals first
    | exact hsame.goto _ | exact hsame.attach _ _ | exact hvalue.attach _ _ | exact hvalue.goto _
    | exact hquery.goto _

theorem sameBrackets_behindWord (n : Nesting) (word : Word) :
    SameBrackets n (n.behindWord word) := by
  cases word with
  | name text => exact sameBrackets_behindName n text
  | number =>
    have h := sameBrackets_behindValue n
    exact ⟨h.base, h.length, h.last⟩
  | value => exact sameBrackets_behindValue n
  | string =>
    unfold behindWord
    dsimp only
    split
    · exact (SameBrackets.refl n).goto _
    · exact sameBrackets_behindValue n
  | mark text => exact sameBrackets_behindMark n text

theorem sameBrackets_behindSpace (n : Nesting) (rest : Text) :
    SameBrackets n (n.behindSpace rest) := by
  have hsame := SameBrackets.refl n
  unfold behindSpace
  dsimp only
  split
  · exact hsame.goto _
  · split
    · exact hsame
    · exact hsame.goto _

theorem sameBrackets_behindSeparator (n : Nesting) : SameBrackets n n.behindSeparator :=
  (sameBrackets_settle n).goto _

theorem SameBrackets.outer_eq_nil {n n' : Nesting} (h : SameBrackets n n') (hn : n.outer = []) :
    n'.outer = [] := by
  have hlength := h.length
  rw [hn] at hlength
  exact List.length_eq_zero_iff.mp hlength

theorem SameBrackets.ground_eq {n n' : Nesting} (h : SameBrackets n n') (hn : n.outer ≠ [])
    (hground : ∀ f, n.ground.1 ≠ .either f) : n'.ground = n.ground := by
  have he := List.getLast?_eq_some_getLast hn
  generalize n.outer.getLast hn = e at he
  have hne : ∀ f, e.1 ≠ .either f := by
    intro f
    have := hground f
    rw [ground, he] at this
    exact this
  rw [ground, ground, h.last e he hne, he]
  rfl

end Nesting

/-! ## Lexemes -/

/-- A state behind a lexeme of each kind, which the text begins with. -/
def Nesting.LeadsTo (n n' : Nesting) (t : Text) : Kind → Prop
  | .space => ∃ r, n' = n.behindSpace r
  | .comment | .lineComment | .stray => n' = n
  | .string => n' = n.behindWord .string
  | .comma => n.outer = [] ∧ n' = n.behindSeparator
  | .separator => n.outer ≠ [] ∧ n' = n.behindSeparator
  | .opening => n' = n.enterRound ∨ n' = n.enterSquare
  | .closing => n.leave? = some n'
  | .word => n' = n.behindWord (n.word t).1

/-- What a lexeme of each kind begins with, and how many further characters it has. -/
def Nesting.Shows (n : Nesting) (c : Char) (rest : Text) (more : Nat) : Kind → Prop
  | .space => filler c rest = some ⟨.space, (), more⟩
  | .comment => filler c rest = some ⟨.comment, (), more⟩
  | .lineComment => filler c rest = some ⟨.lineComment, (), more⟩ ∧
      n.place.commentsSlashes (c :: rest) = true
  | .string => (c = '\'' ∨ c = '"') ∧ stringTail c 0 rest = some more
  | .comma => c = ',' ∧ more = 0
  | .closing => (c = ')' ∨ c = ']') ∧ more = 0
  | .word => beginsWord c = true ∧ (c = '/' → rest.head? ≠ some '*') ∧
      (c = '/' → rest.head? = some '/' → n.place.commentsSlashes (c :: rest) = false) ∧
      more = (n.word (c :: rest)).2 - 1
  | .separator | .opening | .stray => True

/-- What is read with a lexeme, and what the lexeme looks like. -/
theorem leadsTo_and_shows_of_lexeme {n n' : Nesting} {k : Kind} {c : Char} {rest : Text}
    {more : Nat} (h : lexeme n c rest = some ⟨k, n', more⟩) :
    n.LeadsTo n' (c :: rest) k ∧ n.Shows c rest more k := by
  unfold lexeme at h
  by_cases hbrace : (c == '\x7b' || c == '\x7d') = true
  · rw [if_pos hbrace] at h
    cases h
  rw [if_neg hbrace] at h
  by_cases hsemicolon : (c == ';') = true
  · rw [if_pos hsemicolon] at h
    split at h
    · cases h
    next houter =>
      cases h
      exact ⟨⟨by simpa using houter, rfl⟩, trivial⟩
  rw [if_neg hsemicolon] at h
  by_cases hspace : isSheetSpace c = true
  · rw [if_pos hspace] at h
    cases h
    exact ⟨⟨_, rfl⟩, by simp [Nesting.Shows, filler, hspace]⟩
  rw [if_neg hspace] at h
  by_cases hcomma : (c == ',') = true
  · rw [if_pos hcomma] at h
    cases houter : n.outer with
    | nil =>
      simp only [houter, List.isEmpty_nil, if_true] at h
      cases h
      exact ⟨⟨houter, rfl⟩, beq_iff_eq.mp hcomma, rfl⟩
    | cons e outer =>
      simp only [houter, List.isEmpty_cons] at h
      cases h
      exact ⟨⟨by simp [houter], rfl⟩, trivial⟩
  rw [if_neg hcomma] at h
  by_cases hround : (c == '(') = true
  · rw [if_pos hround] at h
    cases h
    exact ⟨Or.inl rfl, trivial⟩
  rw [if_neg hround] at h
  by_cases hsquare : (c == '[') = true
  · rw [if_pos hsquare] at h
    cases h
    exact ⟨Or.inr rfl, trivial⟩
  rw [if_neg hsquare] at h
  by_cases hclosing : (c == ')' || c == ']') = true
  · rw [if_pos hclosing] at h
    split at h
    · cases h
      exact ⟨rfl, trivial⟩
    next hleave =>
      cases h
      exact ⟨hleave, by simpa using hclosing, rfl⟩
  rw [if_neg hclosing] at h
  by_cases hquote : (c == '\'' || c == '"') = true
  · rw [if_pos hquote] at h
    split at h
    next htail =>
      cases h
      exact ⟨rfl, by simpa using hquote, htail⟩
    · cases h
      exact ⟨rfl, trivial⟩
  rw [if_neg hquote] at h
  by_cases hcomment : (c == '/' && rest.head? == some '*') = true
  · rw [if_pos hcomment] at h
    split at h
    next hlength =>
      cases h
      simp only [Bool.and_eq_true, beq_iff_eq] at hcomment
      exact ⟨rfl, by simp [Nesting.Shows, filler, hspace, hcomment.2, hlength]⟩
    · cases h
      exact ⟨rfl, trivial⟩
  rw [if_neg hcomment] at h
  by_cases hline :
      (c == '/' && rest.head? == some '/' && n.place.commentsSlashes (c :: rest)) = true
  · rw [if_pos hline] at h
    cases h
    obtain ⟨hmarks, hslashes⟩ := Bool.and_eq_true_iff.mp hline
    exact ⟨rfl, by simp only [filler, if_neg hspace, if_pos hmarks], hslashes⟩
  rw [if_neg hline] at h
  cases h
  refine ⟨rfl, ?_, by simpa using hcomment, by simpa using hline, rfl⟩
  simp only [Bool.not_eq_true, Bool.or_eq_false_iff, beq_eq_false_iff_ne] at *
  simp [beginsWord, *]

theorem leadsTo_of_lexeme {n n' : Nesting} {k : Kind} {c : Char} {rest : Text} {more : Nat}
    (h : lexeme n c rest = some ⟨k, n', more⟩) : n.LeadsTo n' (c :: rest) k :=
  (leadsTo_and_shows_of_lexeme h).1

/-- White space and comments are read in a row as they are between parts. -/
theorem filler_of_lexeme {n n' : Nesting} {k : Kind} {c : Char} {rest text : Text} {more : Nat}
    (h : lexeme n c rest = some ⟨k, n', more⟩) (hk : Lexeme.isFiller (k, text) = true) :
    filler c rest = some ⟨k, (), more⟩ ∧
      (k = .lineComment → n.place.commentsSlashes (c :: rest) = true) := by
  have hshows := (leadsTo_and_shows_of_lexeme h).2
  cases k with
  | space => exact ⟨hshows, nofun⟩
  | comment => exact ⟨hshows, nofun⟩
  | lineComment => exact ⟨hshows.1, fun _ => hshows.2⟩
  | _ => cases hk

theorem more_of_word {n n' : Nesting} {c : Char} {rest : Text} {more : Nat}
    (h : lexeme n c rest = some ⟨.word, n', more⟩) : more = (n.word (c :: rest)).2 - 1 :=
  (leadsTo_and_shows_of_lexeme h).2.2.2.2

namespace Nesting

theorem ground_enter (n : Nesting) (inside behind : Place) :
    (n.enter inside behind).ground = if n.outer = [] then (behind, n.base) else n.ground := by
  unfold ground enter
  dsimp only
  cases n.outer with
  | nil => rfl
  | cons e outer =>
    rw [List.getLast?_cons_cons, if_neg (by simp), List.getLast?_eq_some_getLast (by simp)]
    rfl

theorem exists_enterRound (n : Nesting) :
    ∃ m inside behind, n.enterRound = m.enter inside behind ∧ SameBrackets n m := by
  have hsame := SameBrackets.refl n
  have hvalue := sameBrackets_settleValue n
  unfold enterRound enterArguments enterGroup
  split
  all_goals split
  all_goals first | exact ⟨_, _, _, rfl, hsame⟩ | exact ⟨_, _, _, rfl, hvalue⟩

theorem exists_enterSquare (n : Nesting) :
    ∃ m inside behind, n.enterSquare = m.enter inside behind ∧ SameBrackets n m := by
  have hsame := SameBrackets.refl n
  have hvalue := sameBrackets_settleValue n
  unfold enterSquare
  split
  all_goals first | exact ⟨_, _, _, rfl, hsame⟩ | exact ⟨_, _, _, rfl, hvalue⟩

theorem SameBrackets.ground_enter {n m : Nesting} (h : SameBrackets n m) (hn : n.outer ≠ [])
    (hground : ∀ f, n.ground.1 ≠ .either f) (inside behind : Place) :
    (m.enter inside behind).ground = n.ground := by
  have hm : m.outer ≠ [] := by
    intro hm
    have hlength := h.length
    rw [hm] at hlength
    exact hn (List.length_eq_zero_iff.mp hlength.symm)
  rw [Nesting.ground_enter, if_neg hm, h.ground_eq hn hground]

theorem ground_of_leave? {n n' : Nesting} (hground : ∀ f, n.ground.1 ≠ .either f)
    (h : n.leave? = some n') : n.outer ≠ [] ∧ n'.ground = n.ground ∧ n'.attached = none ∧
      n'.outer.length + 1 = n.outer.length := by
  have hsettle := sameBrackets_settle n
  unfold leave? at h
  split at h
  · cases h
  next e₁ e₂ outer houter =>
    have hn : n.outer ≠ [] := by
      intro hn
      rw [hsettle.outer_eq_nil hn] at houter
      cases houter
    have heq := hsettle.ground_eq hn hground
    have hlength := hsettle.length
    cases h
    rw [houter] at hlength
    refine ⟨hn, ?_, rfl, by simpa using hlength⟩
    rw [← heq, ground, ground, houter]
    cases outer with
    | nil => rfl
    | cons e outer =>
      rw [List.getLast?_cons_cons, List.getLast?_eq_some_getLast (by simp)]
      rfl

end Nesting

/-- In brackets the ground stays what it is. -/
theorem Nesting.LeadsTo.ground_eq {n n' : Nesting} {k : Kind} {t : Text} (h : n.LeadsTo n' t k)
    (hn : n.outer ≠ []) (hground : ∀ f, n.ground.1 ≠ .either f) : n'.ground = n.ground := by
  cases k with
  | space =>
    obtain ⟨r, rfl⟩ := h
    exact (n.sameBrackets_behindSpace r).ground_eq hn hground
  | comment | lineComment | stray => rw [show n' = n from h]
  | string =>
    rw [show n' = n.behindWord .string from h]
    exact (n.sameBrackets_behindWord _).ground_eq hn hground
  | comma => exact absurd h.1 hn
  | separator =>
    rw [h.2]
    exact n.sameBrackets_behindSeparator.ground_eq hn hground
  | opening =>
    rcases h with rfl | rfl
    · obtain ⟨m, inside, behind, heq, hm⟩ := n.exists_enterRound
      rw [heq]
      exact hm.ground_enter hn hground inside behind
    · obtain ⟨m, inside, behind, heq, hm⟩ := n.exists_enterSquare
      rw [heq]
      exact hm.ground_enter hn hground inside behind
  | closing => exact (Nesting.ground_of_leave? hground h).2.1
  | word =>
    rw [show n' = n.behindWord _ from h]
    exact (n.sameBrackets_behindWord _).ground_eq hn hground

/-- The number of open brackets behind a lexeme. -/
def bracketsBehind (brackets : Nat) : Kind → Nat
  | .opening => brackets + 1
  | .closing => brackets - 1
  | _ => brackets

theorem Nesting.LeadsTo.length_outer {n n' : Nesting} {k : Kind} {t : Text}
    (h : n.LeadsTo n' t k) : n'.outer.length = bracketsBehind n.outer.length k := by
  cases k with
  | space =>
    obtain ⟨r, rfl⟩ := h
    exact (n.sameBrackets_behindSpace r).length
  | comment | lineComment | stray =>
    rw [show n' = n from h]
    rfl
  | string =>
    rw [show n' = n.behindWord .string from h]
    exact (n.sameBrackets_behindWord _).length
  | comma | separator =>
    rw [h.2]
    exact n.sameBrackets_behindSeparator.length
  | opening =>
    rcases h with rfl | rfl
    · obtain ⟨m, inside, behind, heq, hm⟩ := n.exists_enterRound
      rw [heq]
      exact congrArg Nat.succ hm.length
    · obtain ⟨m, inside, behind, heq, hm⟩ := n.exists_enterSquare
      rw [heq]
      exact congrArg Nat.succ hm.length
  | closing =>
    have hlength := n.sameBrackets_settle.length
    have hleave : n.leave? = some n' := h
    unfold Nesting.leave? at hleave
    split at hleave
    · cases hleave
    next houter =>
      cases hleave
      show _ = n.outer.length - 1
      rw [← hlength, houter]
      rfl
  | word =>
    rw [show n' = n.behindWord _ from h]
    exact (n.sameBrackets_behindWord _).length

/-! ## Values and selectors -/

/-- The ground of a value. -/
structure IsValueGround (g : Place × Place) : Prop where
  place : g.1 = .value .value ∨ g.1 = .behindValue .value
  base : g.2 = .value .value

/-- The ground of a selector. -/
structure IsSelectorGround (g : Place × Place) : Prop where
  place : g.1 = .selector ∨ g.1 = .pseudoClass ∨ g.1 = .pseudoName ∨ g.1 = .pseudoElement
  base : g.2 = .selector

theorem IsValueGround.ne_either {g : Place × Place} (h : IsValueGround g) (f : Follow) :
    g.1 ≠ .either f := by
  rcases h.place with hg | hg <;> simp [hg]

theorem IsSelectorGround.ne_either {g : Place × Place} (h : IsSelectorGround g) (f : Follow) :
    g.1 ≠ .either f := by
  rcases h.place with hg | hg | hg | hg <;> simp [hg]

theorem Nesting.SameBrackets.ground_eq_of_nil {n n' : Nesting} (h : SameBrackets n n')
    (hn : n.outer = []) : n'.ground = (n'.place, n.base) := by
  rw [ground_of_nil (h.outer_eq_nil hn), h.base]

theorem ground_enter_of_nil {n : Nesting} (hn : n.outer = []) (inside behind : Place) :
    (n.enter inside behind).ground = (behind, n.base) := by
  rw [Nesting.ground_enter, if_pos hn]

theorem place_behindSpace (n : Nesting) (rest : Text) :
    (n.behindSpace rest).place = n.place ∨
      (n.place = .openArgument ∨ n.place = .pseudoName) ∧
        (n.behindSpace rest).place = .selector := by
  unfold Nesting.behindSpace
  dsimp only
  split
  next hjoins =>
    simp only [Bool.and_eq_true, Bool.or_eq_true, decide_eq_true_eq] at hjoins
    exact Or.inr ⟨hjoins.1, rfl⟩
  · split
    · exact Or.inl rfl
    · exact Or.inl rfl

theorem place_behindWord_of_value {n : Nesting}
    (hplace : n.place = .value .value ∨ n.place = .behindValue .value) (w : Word) :
    (n.behindWord w).place = .value .value ∨ (n.behindWord w).place = .behindValue .value := by
  cases w with
  | name text =>
    right
    rcases hplace with hp | hp <;> simp [Nesting.behindWord, Nesting.behindName, Nesting.attach, hp]
  | number | value =>
    right
    rcases hplace with hp | hp <;> simp [Nesting.behindWord, Nesting.behindValue, Nesting.goto, hp]
  | string =>
    right
    rcases hplace with hp | hp <;> simp [Nesting.behindWord, Nesting.behindValue, Nesting.goto, hp]
  | mark text =>
    left
    show (n.behindMark text).place = _
    unfold Nesting.behindMark
    rcases hplace with hp | hp <;> rw [hp] <;> split <;>
      first | rfl | simp_all [Nesting.goto, Nesting.attach]

theorem place_behindWord_of_selector {n : Nesting} {p : Place × Place} (hp : p.1 = n.place)
    (hplace : IsSelectorGround p) {w : Word} (hw : w ≠ .mark ['=']) :
    IsSelectorGround ((n.behindWord w).place, p.2) := by
  refine ⟨?_, hplace.base⟩
  obtain ⟨hplace, -⟩ := hplace
  rw [hp] at hplace
  cases w with
  | name text =>
    rcases hplace with hp | hp | hp | hp <;>
      simp [Nesting.behindWord, Nesting.behindName, Nesting.attach, Nesting.goto, hp]
  | number | value =>
    rcases hplace with hp | hp | hp | hp <;>
      simp [Nesting.behindWord, Nesting.behindValue, Nesting.goto, hp]
  | string =>
    rcases hplace with hp | hp | hp | hp <;>
      simp [Nesting.behindWord, Nesting.behindValue, Nesting.goto, hp]
  | mark text =>
    have hmark : n.behindMark text = n.behindSelectorMark text := by
      unfold Nesting.behindMark
      rcases hplace with hp | hp | hp | hp <;> simp [hp]
    have hbehind : (n.behindSelectorMark text).place = .selector ∨
        (n.behindSelectorMark text).place = .pseudoClass ∨
        (n.behindSelectorMark text).place = .pseudoName ∨
        (n.behindSelectorMark text).place = .pseudoElement := by
      unfold Nesting.behindSelectorMark Nesting.goto
      split
      · simp
      · simp
      · exact absurd rfl hw
      · simp
    rw [← hmark] at hbehind
    exact hbehind

/-- A value stays a value. -/
theorem Nesting.LeadsTo.isValueGround {n n' : Nesting} {k : Kind} {t : Text}
    (h : n.LeadsTo n' t k) (hg : IsValueGround n.ground) : IsValueGround n'.ground := by
  by_cases hn : n.outer = []
  case neg =>
    rw [h.ground_eq hn hg.ne_either]
    exact hg
  case pos =>
    have hground := hg
    rw [ground_of_nil hn] at hg
    obtain ⟨hplace, hbase⟩ := hg
    dsimp only at hplace hbase
    have hword : ∀ w, IsValueGround (n.behindWord w).ground := by
      intro w
      rw [(n.sameBrackets_behindWord w).ground_eq_of_nil hn]
      exact ⟨place_behindWord_of_value hplace w, hbase⟩
    cases k with
    | space =>
      obtain ⟨r, rfl⟩ := h
      rw [(n.sameBrackets_behindSpace r).ground_eq_of_nil hn]
      refine ⟨?_, hbase⟩
      rcases place_behindSpace n r with hr | ⟨hr, -⟩
      · rwa [hr]
      · rcases hplace with hp | hp <;> simp [hp] at hr
    | comment | lineComment | stray =>
      rw [show n' = n from h]
      exact hground
    | string =>
      rw [show n' = n.behindWord .string from h]
      exact hword _
    | comma | separator =>
      rw [h.2, n.sameBrackets_behindSeparator.ground_eq_of_nil hn]
      exact ⟨Or.inl hbase, hbase⟩
    | opening =>
      rcases h with rfl | rfl
      · unfold enterRound enterArguments enterGroup
        rcases hplace with hp | hp <;> rw [hp] <;> split <;> rw [ground_enter_of_nil hn] <;>
          exact ⟨by simp, hbase⟩
      · unfold enterSquare
        rcases hplace with hp | hp <;> rw [hp] <;> dsimp only <;> rw [ground_enter_of_nil hn] <;>
          exact ⟨by simp, hbase⟩
    | closing => exact absurd hn (ground_of_leave? hground.ne_either h).1
    | word =>
      rw [show n' = n.behindWord _ from h]
      exact hword _

/-- A selector stays a selector, but behind an equals sign outside of brackets. -/
theorem Nesting.LeadsTo.isSelectorGround {n n' : Nesting} {k : Kind} {t : Text}
    (h : n.LeadsTo n' t k) (hg : IsSelectorGround n.ground)
    (hw : k = .word → n.outer = [] → (n.word t).1 ≠ .mark ['=']) : IsSelectorGround n'.ground := by
  by_cases hn : n.outer = []
  case neg =>
    rw [h.ground_eq hn hg.ne_either]
    exact hg
  case pos =>
    have hground := hg
    rw [ground_of_nil hn] at hg
    have hbase : n.base = .selector := hg.base
    have hplace := hg.place
    dsimp only at hplace
    have hword : ∀ w, w ≠ .mark ['='] → IsSelectorGround (n.behindWord w).ground := by
      intro w hw
      rw [(n.sameBrackets_behindWord w).ground_eq_of_nil hn]
      exact place_behindWord_of_selector rfl hg hw
    cases k with
    | space =>
      obtain ⟨r, rfl⟩ := h
      rw [(n.sameBrackets_behindSpace r).ground_eq_of_nil hn]
      refine ⟨?_, hbase⟩
      rcases place_behindSpace n r with hr | ⟨-, hr⟩
      · rwa [hr]
      · simp [hr]
    | comment | lineComment | stray =>
      rw [show n' = n from h]
      exact hground
    | string =>
      rw [show n' = n.behindWord .string from h]
      exact hword _ (by simp)
    | comma | separator =>
      rw [h.2, n.sameBrackets_behindSeparator.ground_eq_of_nil hn]
      exact ⟨Or.inl hbase, hbase⟩
    | opening =>
      rcases h with rfl | rfl
      · unfold enterRound enterArguments enterGroup
        rcases hplace with hp | hp | hp | hp <;> rw [hp] <;> split <;>
          rw [ground_enter_of_nil hn] <;> exact ⟨by simp, hbase⟩
      · unfold enterSquare
        rcases hplace with hp | hp | hp | hp <;> rw [hp] <;> dsimp only <;>
          rw [ground_enter_of_nil hn] <;> exact ⟨by simp, hbase⟩
    | closing => exact absurd hn (ground_of_leave? hground.ne_either h).1
    | word =>
      rw [show n' = n.behindWord _ from h]
      exact hword _ (hw rfl hn)

/-! ## Rows -/

/-- The number of open brackets behind a row. -/
def bracketsAfter (brackets : Nat) (l : List Lexeme) : Nat :=
  l.foldl (fun n p => bracketsBehind n p.1) brackets

theorem length_outer_of_reads {n n' : Nesting} {l : List Lexeme} {s : Text}
    (h : Reads lexeme n l n' s) : n'.outer.length = bracketsAfter n.outer.length l := by
  induction h with
  | nil => rfl
  | cons hfirst _ ih =>
    rw [ih, (leadsTo_of_lexeme hfirst).length_outer]
    rfl

theorem bracketsAfter_of_isSoundRow {depth : Nat} {item : Bool} {l : List Lexeme}
    (h : isSoundRow depth item l = true) : bracketsAfter depth l = 0 := by
  induction l generalizing depth item with
  | nil => exact beq_iff_eq.mp (Bool.and_eq_true_iff.mp h).1
  | cons p l ih =>
    obtain ⟨k, x⟩ := p
    cases k with
    | stray => cases h
    | comma | closing => exact ih (Bool.and_eq_true_iff.mp h).2
    | _ => exact ih h

/-- Fillers at the end of a row do not matter. -/
theorem isSoundRow_append_of_isFiller {depth : Nat} {item : Bool} {l g : List Lexeme}
    (hg : ∀ p ∈ g, p.isFiller = true) :
    isSoundRow depth item (l ++ g) = isSoundRow depth item l := by
  induction l generalizing depth item with
  | nil =>
    induction g with
    | nil => rfl
    | cons p g ih =>
      have hrest := ih fun q hq => hg q (List.mem_cons_of_mem _ hq)
      have hp := hg p List.mem_cons_self
      obtain ⟨k, x⟩ := p
      cases k <;> first | exact hrest | cases hp
  | cons p l ih =>
    obtain ⟨k, x⟩ := p
    cases k <;> simp [isSoundRow, ih]

theorem isValueGround_of_reads {n n' : Nesting} {l : List Lexeme} {s : Text}
    (h : Reads lexeme n l n' s) (hg : IsValueGround n.ground) : IsValueGround n'.ground := by
  induction h with
  | nil => exact hg
  | cons hfirst _ ih => exact ih ((leadsTo_of_lexeme hfirst).isValueGround hg)

/-- An equals sign outside of brackets is not in either part of a row. -/
theorem hasBareEquals_append {brackets : Nat} {l m : List Lexeme}
    (h : hasBareEquals brackets (l ++ m) = false) :
    hasBareEquals brackets l = false ∧ hasBareEquals (bracketsAfter brackets l) m = false := by
  induction l generalizing brackets with
  | nil => exact ⟨rfl, h⟩
  | cons p l ih =>
    obtain ⟨k, x⟩ := p
    cases k with
    | word =>
      obtain ⟨hfirst, hrest⟩ := Bool.or_eq_false_iff.mp h
      obtain ⟨hl, hm⟩ := ih hrest
      exact ⟨Bool.or_eq_false_iff.mpr ⟨hfirst, hl⟩, hm⟩
    | _ => exact ih h

/-- What is attached to the word before is a value, and all else is a word of the place. -/
theorem word_cases (n : Nesting) (t : Text) :
    (∃ length, n.word t = (.value, length)) ∨ n.word t = n.place.word t := by
  unfold Nesting.word
  dsimp only
  split
  · split
    · exact Or.inl ⟨_, rfl⟩
    · exact Or.inr rfl
  · split
    · exact Or.inl ⟨_, rfl⟩
    · exact Or.inr rfl
  · exact Or.inr rfl

/-- A mark as a word has the text of the mark. -/
theorem word_of_mark {n : Nesting} {c : Char} {t mark : Text}
    (h : (n.word (c :: t)).1 = .mark mark) :
    (n.word (c :: t)).2 = mark.length ∧ mark = markText (c :: t) := by
  have hname : (nameOrMark n.place (c :: t)).1 = .mark mark →
      (nameOrMark n.place (c :: t)).2 = mark.length ∧ mark = markText (c :: t) := by
    intro h
    unfold nameOrMark at h ⊢
    split at h
    · cases h
    · cases h
      exact ⟨rfl, rfl⟩
    · cases h
  have hplace : (n.place.word (c :: t)).1 = .mark mark →
      (n.place.word (c :: t)).2 = mark.length ∧ mark = markText (c :: t) := by
    intro h
    unfold Place.word at h ⊢
    dsimp only at h ⊢
    split at h
    next hif =>
      rw [if_pos hif]
      exact hname h
    next hif =>
      rw [if_neg hif]
      split at h
      · cases h
      next hif =>
        rw [if_neg hif]
        split at h
        · cases h
        next hif =>
          rw [if_neg hif]
          split at h
          · cases h
          next hif =>
            rw [if_neg hif]
            exact hname h
  rcases word_cases n (c :: t) with ⟨length, hvalue⟩ | hword
  · rw [hvalue] at h
    cases h
  · rw [hword] at h ⊢
    exact hplace h

/-- A selector without an equals sign outside of brackets stays a selector. -/
theorem isSelectorGround_of_reads {n n' : Nesting} {l : List Lexeme} {s : Text}
    (h : Reads lexeme n l n' s) (hequals : hasBareEquals n.outer.length l = false)
    (hg : IsSelectorGround n.ground) : IsSelectorGround n'.ground := by
  induction h with
  | nil => exact hg
  | @cons n n₁ n₂ k c x r l hfirst _ ih =>
    have hleads := leadsTo_of_lexeme hfirst
    obtain ⟨hequals, hrest⟩ := hasBareEquals_append (l := [(k, c :: x)]) (m := l) hequals
    refine ih ?_ (hleads.isSelectorGround hg ?_)
    · rw [hleads.length_outer]
      exact hrest
    · rintro rfl houter hmark
      obtain ⟨hlength, hmarkText⟩ := word_of_mark hmark
      have hmore := more_of_word hfirst
      rw [hlength] at hmore
      obtain rfl : x = [] := List.length_eq_zero_iff.mp hmore
      have hc : c = '=' := by
        unfold markText at hmarkText
        split at hmarkText
        · cases hmarkText
        · exact (List.cons.inj hmarkText).1.symm
      subst hc
      simp [hasBareEquals, houter] at hequals

end LeadingTrim.Sheet
