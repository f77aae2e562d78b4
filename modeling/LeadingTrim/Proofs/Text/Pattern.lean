/-
# Patterns

A pattern describes a text by words, kinds of characters, repetitions and choices, and gives names
to pieces of it. It is matched with backtracking. What it can match at the front of a text is a list
of ways, the preferred ones first: a repetition goes on as long as it can before it tries less, and
of two choices the first one goes before the second. What comes behind a pattern is tried in one way
after the other (`first?_seq`), so a repetition that only the longest way leads on from takes all
that it can (`first?_many`).
-/

import LeadingTrim.Directive.Reader

namespace LeadingTrim.Text

/-- A pattern that gives names to pieces. -/
inductive Pattern (γ : Type) where
  /-- A word. -/
  | word (t : Text)
  /-- One character of a kind. -/
  | one (kind : Char → Bool)
  /-- Any number of characters of a kind, as many as can be. -/
  | many (kind : Char → Bool)
  /-- The edge of a row of letters, digits and underscores. -/
  | edge
  /-- One pattern and another one behind it. -/
  | seq (a b : Pattern γ)
  /-- One pattern or, if it does not lead on, another. -/
  | either (a b : Pattern γ)
  /-- A pattern that gives a name to what it matches. -/
  | named (name : γ) (a : Pattern γ)

/-- A way to match a first part of a text. -/
structure Way (γ : Type) where
  /-- The pieces that have names. -/
  pieces : List (γ × Text)
  /-- The last character that is matched. -/
  last : Option Char
  /-- The text behind. -/
  rest : Text

variable {γ β : Type}

/-- The way to match nothing of a text. -/
def Way.start (t : Text) : Way γ := ⟨[], none, t⟩

/-- The ways to go on over characters of a kind, the longest first. -/
def waysAlong (kind : Char → Bool) (pieces : List (γ × Text)) : Option Char → Text → List (Way γ)
  | last, [] => [⟨pieces, last, []⟩]
  | last, c :: rest =>
    (if kind c then waysAlong kind pieces (some c) rest else []) ++ [⟨pieces, last, c :: rest⟩]

namespace Pattern

/-- A pattern or nothing. -/
def maybe (a : Pattern γ) : Pattern γ := .either a (.word [])

/-- One character of a kind or more, as many as can be. -/
def many1 (kind : Char → Bool) : Pattern γ := .seq (.one kind) (.many kind)

/-- The ways to go on with a pattern, in the order in which they are tried. -/
def ways : Pattern γ → Way γ → List (Way γ)
  | word t, w =>
    match Text.after? t w.rest with
    | none => []
    | some rest => [⟨w.pieces, t.getLast?.or w.last, rest⟩]
  | one kind, w =>
    match w.rest with
    | [] => []
    | c :: rest => if kind c then [⟨w.pieces, some c, rest⟩] else []
  | many kind, w => waysAlong kind w.pieces w.last w.rest
  | edge, w =>
    if w.last.any Directive.isWordChar = w.rest.head?.any Directive.isWordChar then [] else [w]
  | seq a b, w => (a.ways w).flatMap b.ways
  | either a b, w => a.ways w ++ b.ways w
  | named name a, w => (a.ways w).map fun w' =>
    { w' with pieces := (name, w.rest.take (w.rest.length - w'.rest.length)) :: w'.pieces }

/-- The result of the first way that leads to one. -/
def first? (a : Pattern γ) (k : Way γ → Option β) (w : Way γ) : Option β := (a.ways w).findSome? k

/-- The pieces, if nothing is left of the text. -/
def atEnd (w : Way γ) : Option (List (γ × Text)) := if w.rest = [] then some w.pieces else none

/-- The pieces of the first way to match a text as a whole. -/
def whole? (a : Pattern γ) (t : Text) : Option (List (γ × Text)) := a.first? atEnd (Way.start t)

variable {a b : Pattern γ} {k : Way γ → Option β} {w : Way γ}

/-! ## What leads on -/

theorem first?_word {t : Text} :
    (word t).first? k w =
      (Text.after? t w.rest).bind fun rest => k ⟨w.pieces, t.getLast?.or w.last, rest⟩ := by
  change List.findSome? k (match Text.after? t w.rest with
    | none => []
    | some rest => [⟨w.pieces, t.getLast?.or w.last, rest⟩]) = _
  cases Text.after? t w.rest with
  | none => rfl
  | some rest => exact List.findSome?_singleton

theorem first?_one_nil {kind : Char → Bool} {pieces : List (γ × Text)} {last : Option Char} :
    (one kind).first? k ⟨pieces, last, []⟩ = none := rfl

theorem first?_one_cons {kind : Char → Bool} {pieces : List (γ × Text)} {last : Option Char}
    {c : Char} {rest : Text} :
    (one kind).first? k ⟨pieces, last, c :: rest⟩ =
      if kind c then k ⟨pieces, some c, rest⟩ else none := by
  change List.findSome? k (if kind c then [⟨pieces, some c, rest⟩] else []) = _
  by_cases hc : kind c = true
  · simp [hc]
  · simp [hc]

theorem first?_edge :
    edge.first? k w =
      if w.last.any Directive.isWordChar = w.rest.head?.any Directive.isWordChar then none
      else k w := by
  change List.findSome? k
    (if w.last.any Directive.isWordChar = w.rest.head?.any Directive.isWordChar then []
      else [w]) = _
  split
  · rfl
  · exact List.findSome?_singleton

theorem first?_seq : (seq a b).first? k w = a.first? (b.first? k) w := by
  change List.findSome? k ((a.ways w).flatMap b.ways) = (a.ways w).findSome? (b.first? k)
  induction a.ways w with
  | nil => rfl
  | cons w' l ih =>
    rw [List.flatMap_cons, List.findSome?_append, ih, List.findSome?_cons, first?]
    cases (b.ways w').findSome? k with
    | none => rfl
    | some x => rfl

theorem first?_either : (either a b).first? k w = (a.first? k w).or (b.first? k w) := by
  exact List.findSome?_append

theorem first?_maybe : (maybe a).first? k w = (a.first? k w).or (k w) := by
  rw [maybe, first?_either, first?_word]
  rfl

theorem first?_named {name : γ} :
    (named name a).first? k w = a.first? (fun w' =>
      k { w' with
        pieces := (name, w.rest.take (w.rest.length - w'.rest.length)) :: w'.pieces }) w := by
  exact List.findSome?_map

/-! ## Repetitions -/

theorem first?_many_nil {kind : Char → Bool} {pieces : List (γ × Text)} {last : Option Char} :
    (many kind).first? k ⟨pieces, last, []⟩ = k ⟨pieces, last, []⟩ := by
  exact List.findSome?_singleton

theorem first?_many_cons {kind : Char → Bool} {pieces : List (γ × Text)} {last : Option Char}
    {c : Char} {rest : Text} :
    (many kind).first? k ⟨pieces, last, c :: rest⟩ =
      (if kind c then (many kind).first? k ⟨pieces, some c, rest⟩ else none).or
        (k ⟨pieces, last, c :: rest⟩) := by
  change List.findSome? k ((if kind c then waysAlong kind pieces (some c) rest else []) ++
    [⟨pieces, last, c :: rest⟩]) =
      (if kind c then (waysAlong kind pieces (some c) rest).findSome? k else none).or _
  rw [List.findSome?_append, List.findSome?_singleton]
  by_cases hc : kind c = true
  · simp [hc]
  · simp [hc]

/-- If nothing leads on from in front of a character of the kind, a repetition takes all of them. -/
theorem first?_many {kind : Char → Bool} {pieces : List (γ × Text)} {last : Option Char} {t : Text}
    (hk : ∀ last c rest, kind c = true → k ⟨pieces, last, c :: rest⟩ = none) :
    (many kind).first? k ⟨pieces, last, t⟩ =
      k ⟨pieces, (t.takeWhile kind).getLast?.or last, t.dropWhile kind⟩ := by
  induction t generalizing last with
  | nil => exact first?_many_nil
  | cons c t ih =>
    rw [first?_many_cons]
    cases hc : kind c with
    | false => simp [hc]
    | true =>
      rw [if_pos rfl, ih, hk last c t hc, Option.or_none, List.takeWhile_cons_of_pos hc,
        List.dropWhile_cons_of_pos hc, List.getLast?_cons]
      cases (t.takeWhile kind).getLast? with
      | none => rfl
      | some d => rfl

/-- The same of a repetition that takes one character at least, if the last character that is
matched does not matter for what leads on. -/
theorem first?_many1 (kind : Char → Bool) (f : List (γ × Text) → Text → Option β)
    (pieces : List (γ × Text)) (last : Option Char) (t : Text)
    (hf : ∀ c rest, kind c = true → f pieces (c :: rest) = none) :
    (many1 kind).first? (fun w => f w.pieces w.rest) ⟨pieces, last, t⟩ =
      if t.takeWhile kind = [] then none else f pieces (t.dropWhile kind) := by
  cases t with
  | nil => rw [many1, first?_seq, first?_one_nil, List.takeWhile_nil, if_pos rfl]
  | cons c t =>
    rw [many1, first?_seq, first?_one_cons]
    by_cases hc : kind c = true
    · rw [if_pos hc, first?_many fun _ => hf, List.takeWhile_cons_of_pos hc,
        List.dropWhile_cons_of_pos hc, if_neg (List.cons_ne_nil _ _)]
    · rw [if_neg hc, List.takeWhile_cons_of_neg hc, if_pos rfl]

end Pattern

end LeadingTrim.Text
