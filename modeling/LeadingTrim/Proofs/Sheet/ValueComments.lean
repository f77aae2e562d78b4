/-
# Comments in values

A value with comments is written as the value without them, item by item, and the run of comments
in front of it and behind each item (`commented`, `bare`). What is left of the comments is told run
by run from the characters beside the run (`stripComments_commented`): white space or an end drops
the comment next to it, and a comment between two others stays. So the value is had back when runs
of one comment have white space or an end on one side, runs of two have it on both, and no run is
longer (`stripComments_commented_eq_iff`).
-/

import LeadingTrim.Directive.Reader
import LeadingTrim.Proofs.Sheet.Enclosed
import LeadingTrim.Sheet.Rule
import Mathlib.Data.List.Infix

namespace LeadingTrim.Sheet

/-! ## Values with comments -/

/-- An item of a value: a character outside quotes or a quoted string. -/
inductive ValueItem
  | plain (c : Char)
  | quoted (q : Char) (content : Text)
  deriving DecidableEq

/-- The item's text. -/
def ValueItem.text : ValueItem → Text
  | .plain c => [c]
  | .quoted q content => q :: (content ++ [q])

/-- The character that the item begins and ends with. -/
def ValueItem.edge : ValueItem → Char
  | .plain c => c
  | .quoted q _ => q

/-- Whether a text may stand between quotes: the quote is in it behind a backslash only. -/
def isQuotedBy (q : Char) : Text → Bool
  | [] => true
  | ['\\'] => false
  | '\\' :: _ :: t => isQuotedBy q t
  | c :: t => c != q && isQuotedBy q t

/-- The item is a character that begins no string, or a string between quotes. -/
def ValueItem.IsSound : ValueItem → Prop
  | .plain c => c ≠ '"' ∧ c ≠ '\''
  | .quoted q content => (q = '"' ∨ q = '\'') ∧ isQuotedBy q content = true

instance : DecidablePred ValueItem.IsSound
  | .plain c => inferInstanceAs (Decidable (c ≠ '"' ∧ c ≠ '\''))
  | .quoted q content =>
    inferInstanceAs (Decidable ((q = '"' ∨ q = '\'') ∧ isQuotedBy q content = true))

/-- The text of comments one behind the other. -/
def runText (run : List Text) : Text := run.flatMap fun c => '/' :: '*' :: (c ++ ['*', '/'])

/-- The value without its comments. -/
def bare (items : List (ValueItem × List Text)) : Text := items.flatMap fun p => p.1.text

/-- The value with a run of comments in front and a run behind each of its items. -/
def commented (run : List Text) (items : List (ValueItem × List Text)) : Text :=
  runText run ++ items.flatMap fun p => p.1.text ++ runText p.2

/-- The text of a comment does not end the comment. -/
def IsCommentText (c : Text) : Prop := ¬ ['*', '/'] <:+: c

instance : DecidablePred IsCommentText := fun c => inferInstanceAs (Decidable (¬ ['*', '/'] <:+: c))

/-- The items are those of a value that has no comment in it, and what is put between them are
comments. -/
structure IsCommented (run : List Text) (items : List (ValueItem × List Text)) : Prop where
  item : ∀ p ∈ items, p.1.IsSound
  apart : ¬ [.plain '/', .plain '*'] <:+: items.map Prod.fst
  run : ∀ c ∈ run, IsCommentText c
  comment : ∀ p ∈ items, ∀ c ∈ p.2, IsCommentText c

instance (run : List Text) (items : List (ValueItem × List Text)) :
    Decidable (IsCommented run items) :=
  decidable_of_iff ((∀ p ∈ items, p.1.IsSound) ∧
      (¬ [.plain '/', .plain '*'] <:+: items.map Prod.fst) ∧
      (∀ c ∈ run, IsCommentText c) ∧ ∀ p ∈ items, ∀ c ∈ p.2, IsCommentText c)
    ⟨fun h => ⟨h.1, h.2.1, h.2.2.1, h.2.2.2⟩, fun h => ⟨h.item, h.apart, h.run, h.comment⟩⟩

/-- Every run of comments, with the characters beside it, is as the predicate says. -/
def EveryRun (P : Option Char → Option Char → List Text → Prop) :
    Option Char → List Text → List (ValueItem × List Text) → Prop
  | before, run, [] => P before none run
  | before, run, (x, next) :: rest =>
    P before (some x.edge) run ∧ EveryRun P (some x.edge) next rest

instance everyRunDecidable {P : Option Char → Option Char → List Text → Prop}
    [∀ before after run, Decidable (P before after run)] :
    ∀ before run items, Decidable (EveryRun P before run items)
  | before, run, [] => inferInstanceAs (Decidable (P before none run))
  | before, run, (x, next) :: rest =>
    have := everyRunDecidable (P := P) (some x.edge) next rest
    inferInstanceAs (Decidable (P before (some x.edge) run ∧ EveryRun P (some x.edge) next rest))

/-- White space or an end is beside a run of comments. -/
def Touches (before after : Option Char) (run : List Text) : Prop :=
  run ≠ [] → isOpen before = true ∨ isOpen after = true

instance (before after : Option Char) (run : List Text) : Decidable (Touches before after run) :=
  inferInstanceAs (Decidable (run ≠ [] → isOpen before = true ∨ isOpen after = true))

/-- White space or an end is beside each comment of a run. -/
def Clears (before after : Option Char) : List Text → Prop
  | [] => True
  | [_] => isOpen before = true ∨ isOpen after = true
  | [_, _] => isOpen before = true ∧ isOpen after = true
  | _ => False

instance (before after : Option Char) : ∀ run, Decidable (Clears before after run)
  | [] => inferInstanceAs (Decidable True)
  | [_] => inferInstanceAs (Decidable (isOpen before = true ∨ isOpen after = true))
  | [_, _] => inferInstanceAs (Decidable (isOpen before = true ∧ isOpen after = true))
  | _ :: _ :: _ :: _ => inferInstanceAs (Decidable False)

/-- The comments of a run that stay. -/
def leftover (before after : Option Char) : List Text → List Text
  | [] => []
  | c :: run =>
    if isOpen before || (run.isEmpty && isOpen after) then leftover (some '/') after run
    else c :: leftover (some '/') after run

/-- The value with the comments that stay. -/
def cleared : Option Char → List Text → List (ValueItem × List Text) → Text
  | before, run, [] => runText (leftover before none run)
  | before, run, (x, next) :: rest =>
    runText (leftover before (some x.edge) run) ++ (x.text ++ cleared (some x.edge) next rest)

variable {before after : Option Char} {run : List Text} {items : List (ValueItem × List Text)}
  {t : Text}

/-! ## Reading a value -/

/-- What is kept of a text from a state on. -/
def keptFrom (s : ValueState) (t : Text) : Text :=
  Text.texts ((Text.scan valuePiece s 0 t).filter Prod.fst)

theorem keptFrom_cons {s s' : ValueState} {c : Char} {x r : Text} {kept : Bool}
    (h : valuePiece s c (x ++ r) = some ⟨kept, s', x.length⟩) :
    keptFrom s (c :: (x ++ r)) = (if kept then c :: x else []) ++ keptFrom s' r := by
  rw [keptFrom, Text.scan, h]
  dsimp only
  rw [List.take_left, Text.scan_eq_scan_drop, List.drop_left]
  cases kept
  · rfl
  · rfl

theorem keptFrom_kept {s s' : ValueState} {c : Char} {r : Text}
    (h : valuePiece s c r = some ⟨true, s', 0⟩) :
    keptFrom s (c :: r) = c :: keptFrom s' r :=
  keptFrom_cons (x := []) h

/-- Where neither of the cases for a backslash applies, there is none. -/
theorem ne_backslash {c : Char} (hlast : c = '\\' → t = [] → False)
    (hescape : ∀ d rest, c = '\\' → t = d :: rest → False) : c ≠ '\\' := by
  intro hc
  cases t with
  | nil => exact hlast hc rfl
  | cons d rest => exact hescape d rest hc rfl

theorem keptFrom_quoted {q : Char} {content : Text} (h : isQuotedBy q content = true)
    (before : Option Char) (hq : q ≠ '\\') (r : Text) :
    keptFrom ⟨some q, before⟩ (content ++ q :: r) = content ++ q :: keptFrom ⟨none, some q⟩ r := by
  fun_induction isQuotedBy q content generalizing before with
  | case1 =>
    refine keptFrom_kept ?_
    simp [valuePiece, hq]
  | case2 => cases h
  | case3 c t ih =>
    have hstep : valuePiece ⟨some q, before⟩ '\\' ([c] ++ (t ++ q :: r)) =
        some ⟨true, ⟨some q, some '\\'⟩, [c].length⟩ := by simp [valuePiece]
    exact (keptFrom_cons hstep).trans (congrArg _ (ih h _))
  | case4 c t hlast hescape ih =>
    simp only [Bool.and_eq_true, bne_iff_ne] at h
    have hne := ne_backslash hlast hescape
    have hstep : valuePiece ⟨some q, before⟩ c (t ++ q :: r) =
        some ⟨true, ⟨some q, some c⟩, 0⟩ := by simp [valuePiece, h.1, hne]
    exact (keptFrom_kept hstep).trans (congrArg _ (ih h.2 _))

/-- An item is kept, unless the text behind it makes it the begin of a comment. -/
theorem keptFrom_item {x : ValueItem} (hx : x.IsSound) (before : Option Char) {r : Text}
    (hr : x = .plain '/' → r.head? ≠ some '*') :
    keptFrom ⟨none, before⟩ (x.text ++ r) = x.text ++ keptFrom ⟨none, some x.edge⟩ r := by
  cases x with
  | plain c =>
    obtain ⟨hdouble, hsingle⟩ := hx
    have hno : ¬ (c = '/' ∧ r.head? = some '*') := fun ⟨hc, hhead⟩ => hr (by rw [hc]) hhead
    have hstep : valuePiece ⟨none, before⟩ c r = some ⟨true, ⟨none, some c⟩, 0⟩ := by
      simp [valuePiece, hdouble, hsingle, hno]
    exact keptFrom_kept hstep
  | quoted q content =>
    obtain ⟨hq, hcontent⟩ := hx
    have hescape : q ≠ '\\' := by
      rcases hq with rfl | rfl <;> decide
    have hopen : keptFrom ⟨none, before⟩ (q :: (content ++ q :: r)) =
        q :: keptFrom ⟨some q, some q⟩ (content ++ q :: r) :=
      keptFrom_kept (by rcases hq with rfl | rfl <;> rfl)
    rw [keptFrom_quoted hcontent _ hescape] at hopen
    simpa [ValueItem.text, ValueItem.edge] using hopen

theorem commentTail_of_isCommentText {c : Text} (h : IsCommentText c) (r : Text) :
    commentTail (c ++ '*' :: '/' :: r) = some (c.length + 2) := by
  induction c with
  | nil => rfl
  | cons a c ih =>
    have hrest : IsCommentText c := fun hwithin => h (hwithin.trans (List.suffix_cons a c).isInfix)
    have hno : ¬ (a = '*' ∧ (c ++ '*' :: '/' :: r).head? = some '/') := by
      rintro ⟨rfl, hhead⟩
      cases c with
      | nil => simp at hhead
      | cons b c =>
        obtain rfl : b = '/' := by simpa using hhead
        exact h (List.prefix_append ['*', '/'] c).isInfix
    rw [List.cons_append, commentTail_cons, if_neg hno, ih hrest]
    rfl

/-- A comment stays unless white space or an end is beside it. -/
theorem keptFrom_comment {c : Text} (hc : IsCommentText c) (before : Option Char) (r : Text) :
    keptFrom ⟨none, before⟩ (runText [c] ++ r) =
      (if isOpen before || isOpen r.head? then [] else runText [c]) ++
        keptFrom ⟨none, some '/'⟩ r := by
  have hlength : commentLength ('/' :: '*' :: (c ++ ['*', '/'] ++ r)) = some (c.length + 4) := by
    rw [List.append_assoc]
    exact congrArg (Option.map (· + 2)) (commentTail_of_isCommentText hc r)
  have hdrop : ('*' :: (c ++ ['*', '/'] ++ r)).drop (c.length + 3) = r := by
    rw [← List.cons_append]
    exact List.drop_left' (by simp)
  have hpiece : valuePiece ⟨none, before⟩ '/' ('*' :: (c ++ ['*', '/']) ++ r) =
      some ⟨!(isOpen before || isOpen r.head?), ⟨none, some '/'⟩,
        ('*' :: (c ++ ['*', '/'])).length⟩ := by
    rw [List.cons_append, valuePiece, hlength]
    simp only [Nat.add_one_sub_one, hdrop]
    simp
  have hstep := keptFrom_cons hpiece
  rw [runText, List.flatMap_singleton]
  refine hstep.trans ?_
  cases isOpen before || isOpen r.head? <;> rfl

theorem runText_cons (c : Text) (run : List Text) :
    runText (c :: run) = runText [c] ++ runText run := by
  simp [runText]

/-- What stays of a run of comments is told by the characters beside it. -/
theorem keptFrom_run (hrun : ∀ c ∈ run, IsCommentText c) (before : Option Char) (r : Text) :
    ∃ s, keptFrom ⟨none, before⟩ (runText run ++ r) =
      runText (leftover before r.head? run) ++ keptFrom ⟨none, s⟩ r := by
  induction run generalizing before with
  | nil => exact ⟨before, rfl⟩
  | cons c run ih =>
    obtain ⟨hc, hrun⟩ := List.forall_mem_cons.mp hrun
    -- behind a comment that goes, too, the next one sees a slash
    obtain ⟨s, hs⟩ := ih hrun (some '/')
    have hhead : isOpen (runText run ++ r).head? = (run.isEmpty && isOpen r.head?) := by
      cases run <;> rfl
    refine ⟨s, ?_⟩
    rw [runText_cons, List.append_assoc, keptFrom_comment hc, hs, leftover, hhead]
    split
    · rfl
    · rw [runText_cons c (leftover _ _ _), List.append_assoc]

theorem IsCommented.tail {p : ValueItem × List Text} (h : IsCommented run (p :: items)) :
    IsCommented p.2 items where
  item := fun x hx => h.item x (List.mem_cons_of_mem _ hx)
  apart := fun hwithin => h.apart (hwithin.trans (List.suffix_cons _ _).isInfix)
  run := h.comment p List.mem_cons_self
  comment := fun x hx => h.comment x (List.mem_cons_of_mem _ hx)

theorem commented_cons (x : ValueItem) (next : List Text) :
    commented run ((x, next) :: items) = runText run ++ (x.text ++ commented next items) := by
  simp [commented]

theorem ValueItem.head?_text_append (x : ValueItem) (r : Text) :
    (x.text ++ r).head? = some x.edge := by
  cases x <;> rfl

/-- What begins no comment in the value begins none where comments are put. -/
theorem IsCommented.head?_ne {next : List Text}
    (h : IsCommented run ((.plain '/', next) :: items)) :
    (commented next items).head? ≠ some '*' := by
  cases next with
  | cons c next => simp [commented, runText]
  | nil =>
    cases items with
    | nil => simp [commented, runText]
    | cons p items =>
      have hitem := h.tail.item p List.mem_cons_self
      obtain ⟨x, next⟩ := p
      rw [commented_cons]
      change (x.text ++ commented next items).head? ≠ some '*'
      rw [x.head?_text_append]
      rintro hedge
      cases x with
      | plain c =>
        obtain rfl : c = '*' := Option.some.inj hedge
        exact h.apart ⟨[], items.map Prod.fst, rfl⟩
      | quoted q content =>
        obtain rfl : q = '*' := Option.some.inj hedge
        exact absurd hitem.1 (by decide)

theorem keptFrom_commented (h : IsCommented run items) (before : Option Char) :
    keptFrom ⟨none, before⟩ (commented run items) = cleared before run items := by
  induction items generalizing run before with
  | nil =>
    obtain ⟨s, hs⟩ := keptFrom_run h.run before []
    exact hs.trans (List.append_nil _)
  | cons p items ih =>
    obtain ⟨x, next⟩ := p
    obtain ⟨s, hs⟩ := keptFrom_run h.run before (x.text ++ commented next items)
    have hitem : keptFrom ⟨none, s⟩ (x.text ++ commented next items) =
        x.text ++ keptFrom ⟨none, some x.edge⟩ (commented next items) := by
      refine keptFrom_item (h.item _ List.mem_cons_self) s ?_
      rintro rfl
      exact h.head?_ne
    rw [commented_cons, hs, hitem, ih h.tail, x.head?_text_append]
    rfl

/-- Reading a value without its comments leaves those that have other characters on both sides. -/
theorem stripComments_commented (h : IsCommented run items) :
    stripComments (commented run items) = cleared none run items :=
  keptFrom_commented h none

/-! ## When no comment stays -/

/-- Behind a comment that is not the last of its run only the last one can go. -/
theorem leftover_slash (after : Option Char) (run : List Text) :
    leftover (some '/') after run = if isOpen after then run.dropLast else run := by
  have hslash : isOpen (some '/') = false := by decide
  induction run with
  | nil => simp [leftover]
  | cons c run ih =>
    rw [leftover, ih, hslash]
    cases run with
    | nil => cases hafter : isOpen after <;> simp
    | cons d run => cases hafter : isOpen after <;> simp

theorem leftover_eq_nil_iff : leftover before after run = [] ↔ Clears before after run := by
  match run with
  | [] => simp [leftover, Clears]
  | [c] =>
    rw [leftover, leftover_slash, Clears]
    cases isOpen before <;> simp
  | [c, d] =>
    rw [leftover, leftover_slash, Clears]
    cases isOpen before <;> simp
  | c :: d :: e :: run =>
    have hlong : Clears before after (c :: d :: e :: run) ↔ False := Iff.rfl
    rw [leftover, leftover_slash, hlong]
    cases isOpen before <;> cases isOpen after <;> simp

theorem runText_eq_nil_iff : runText run = [] ↔ run = [] := by
  cases run <;> simp [runText]

theorem length_bare_le : (bare items).length ≤ (cleared before run items).length := by
  induction items generalizing before run with
  | nil => exact Nat.zero_le _
  | cons p items ih =>
    obtain ⟨x, next⟩ := p
    rw [cleared, bare, List.flatMap_cons]
    simp only [List.length_append]
    have htail : (bare items).length ≤ (cleared (some x.edge) next items).length := ih
    rw [bare] at htail
    omega

theorem cleared_eq_bare_iff :
    cleared before run items = bare items ↔ EveryRun Clears before run items := by
  induction items generalizing before run with
  | nil => exact runText_eq_nil_iff.trans leftover_eq_nil_iff
  | cons p items ih =>
    obtain ⟨x, next⟩ := p
    rw [cleared, EveryRun, ← ih, ← leftover_eq_nil_iff]
    rw [show bare ((x, next) :: items) = x.text ++ bare items from rfl]
    constructor
    · intro h
      -- the rest is no shorter than it is without comments, so none are left of this run
      have hlength := congrArg List.length h
      have hle : (bare items).length ≤ (cleared (some x.edge) next items).length := length_bare_le
      simp only [List.length_append] at hlength
      have hnil : runText (leftover before (some x.edge) run) = [] :=
        List.eq_nil_of_length_eq_zero (by omega)
      rw [hnil, List.nil_append] at h
      exact ⟨runText_eq_nil_iff.mp hnil, List.append_cancel_left h⟩
    · rintro ⟨hleft, hrest⟩
      rw [hleft, hrest]
      rfl

/-- The items with no comments between them. -/
def withoutRuns (items : List (ValueItem × List Text)) : List (ValueItem × List Text) :=
  items.map fun p => (p.1, [])

theorem IsCommented.withoutRuns (h : IsCommented run items) :
    IsCommented [] (withoutRuns items) where
  item := List.forall_mem_map.mpr h.item
  apart := by simpa [Sheet.withoutRuns, Function.comp_def] using h.apart
  run := by simp
  comment := List.forall_mem_map.mpr fun _ _ _ hc => absurd hc List.not_mem_nil

theorem everyRun_withoutRuns : EveryRun Clears before [] (withoutRuns items) := by
  induction items generalizing before with
  | nil => exact trivial
  | cons p items ih => exact ⟨trivial, ih⟩

/-- A value without comments stays as it is. -/
theorem IsCommented.stripComments_bare (h : IsCommented run items) :
    stripComments (bare items) = bare items :=
  calc stripComments (bare items)
      = stripComments (commented [] (Sheet.withoutRuns items)) := by
        simp [commented, bare, runText, Sheet.withoutRuns, List.flatMap_map]
    _ = cleared none [] (Sheet.withoutRuns items) := stripComments_commented h.withoutRuns
    _ = bare (Sheet.withoutRuns items) := cleared_eq_bare_iff.mpr everyRun_withoutRuns
    _ = bare items := by simp [bare, Sheet.withoutRuns, List.flatMap_map]

theorem value_of_snapshotDeclaration? {source raw : Text} {n : Node} {previous : Option Node}
    {d : Declaration} (hd : snapshotDeclaration? source previous n = some d)
    (hraw : rawValue? source n = some raw) : d.value = Text.trim (stripComments raw) := by
  simp only [snapshotDeclaration?, hraw, Option.bind_eq_bind, Option.bind_some,
    Option.bind_eq_some_iff, Option.pure_def, Option.some.injEq] at hd
  obtain ⟨name, -, rfl⟩ := hd
  rfl

/-- The value is had back without its comments just when white space or an end is beside each of
them. A declaration that is written with the comments has then the value of one that is written
without them, wherever the two stand. -/
theorem stripComments_commented_eq_iff (h : IsCommented run items) :
    (stripComments (commented run items) = bare items ↔ EveryRun Clears none run items) ∧
      (EveryRun Clears none run items → ∀ {source source' : Text} {n n' : Node}
        {previous previous' : Option Node} {d d' : Declaration},
          snapshotDeclaration? source previous n = some d →
          snapshotDeclaration? source' previous' n' = some d' →
          rawValue? source n = some (commented run items) →
          rawValue? source' n' = some (bare items) → d.value = d'.value) := by
  have hiff : stripComments (commented run items) = bare items ↔
      EveryRun Clears none run items := by
    rw [stripComments_commented h, cleared_eq_bare_iff]
  refine ⟨hiff, fun hclears source source' n n' previous previous' d d' hd hd' hraw hraw' => ?_⟩
  rw [value_of_snapshotDeclaration? hd hraw, value_of_snapshotDeclaration? hd' hraw',
    hiff.mpr hclears, h.stripComments_bare]

/-- The items of a text without quotes. -/
def plainItems (t : Text) : List (ValueItem × List Text) := t.map fun c => (.plain c, [])

/-- A value with comments behind a word, between spaces, in a string and at its end. -/
def commentedItems : List (ValueItem × List Text) :=
  plainItems "outside".toList ++ [(.plain ' ', ["b".toList, "*".toList])] ++
    plainItems " both 2 ".toList ++ [(.quoted '\'' "/*\\'".toList, ["é/".toList])]

theorem stripComments_commentedItems :
    IsCommented ["a".toList] commentedItems ∧ EveryRun Clears none ["a".toList] commentedItems ∧
      commented ["a".toList] commentedItems =
        "/*a*/outside /*b*//***/ both 2 '/*\\''/*é/*/".toList ∧
      stripComments (commented ["a".toList] commentedItems) = "outside  both 2 '/*\\''".toList := by
  have hcommented : IsCommented ["a".toList] commentedItems := by decide +kernel
  have hclears : EveryRun Clears none ["a".toList] commentedItems := by decide +kernel
  have hbare : bare commentedItems = "outside  both 2 '/*\\''".toList := by decide +kernel
  exact ⟨hcommented, hclears, by decide +kernel,
    ((stripComments_commented_eq_iff hcommented).1.mpr hclears).trans hbare⟩

/-- A value with three comments between two spaces. -/
def middleItems : List (ValueItem × List Text) :=
  plainItems "outside".toList ++ [(.plain ' ', ["a".toList, "b".toList, "c".toList])] ++
    plainItems " both 2".toList

/-- White space beside a run of comments does not clear the run. The comment in the middle of three
stays, and what would be a directive is none. -/
theorem not_stripComments_commented_of_touches :
    (¬ ∀ run items, IsCommented run items → EveryRun Touches none run items →
      stripComments (commented run items) = bare items) ∧
    (Directive.read? (stripComments (bare middleItems))).isSome ∧
    Directive.read? (stripComments (commented [] middleItems)) = none := by
  refine ⟨fun h => ?_, by decide +kernel, by decide +kernel⟩
  exact absurd (h [] middleItems (by decide +kernel) (by decide +kernel)) (by decide +kernel)

end LeadingTrim.Sheet
