/-
# What is written is read again

What a directive puts into a sheet is read as what it is meant to be, wherever it is put. A margin
is a calm value (`isCalmValue_before`, `isCalmValue_after`), so that the declarations that take the
place of a directive leave their marks and nothing else (`marks_margin`, `marks_margin_ended`). The
rule for a pseudo-element leaves the marks of a rule whose selectors are those of the directive's
rule with the pseudo-element behind them (`marks_pseudoRule`).
-/

import LeadingTrim.Proofs.Directive.Grammar
import LeadingTrim.Proofs.Sheet.Marks
import LeadingTrim.Proofs.Sheet.PseudoHead
import LeadingTrim.Proofs.Sheet.SoundParts
import LeadingTrim.Proofs.Sheet.WellFormed
import LeadingTrim.Proofs.Trimmer.Result
import LeadingTrim.Proofs.Trimmer.Returns

namespace LeadingTrim

open Sheet
open Text (isBlank isSheetSpace)

/-! ## Lengths -/

/-- A character of a number stands in a calm text, and is not blank. -/
theorem isCalmChar_of_isNumberChar {c : Char} (h : isNumberChar c = true) :
    isCalmChar c = true ∧ isBlank c = false := by
  simp only [isNumberChar, Char.isAlphanum, Bool.or_eq_true, beq_iff_eq] at h
  rcases h with ((h | h) | rfl) | rfl
  · exact ⟨by simp [isCalmChar, Char.isAlphanum, h], Directive.isBlank_eq_false (.inr (.inl h))⟩
  · exact ⟨by simp [isCalmChar, Char.isAlphanum, h], Directive.isBlank_eq_false (.inl h)⟩
  · decide
  · decide

theorem isCalmChar_of_mem_lengthText (x : Float) :
    ∀ c ∈ Decimal.lengthText x, isCalmChar c = true ∧ isBlank c = false :=
  fun c hc => isCalmChar_of_isNumberChar (Decimal.isNumberChar_of_mem_lengthText x c hc)

theorem IsUnit.isCalmChar {t : Text} (h : IsUnit t) : ∀ c ∈ t, isCalmChar c = true := by
  intro c hc
  rcases h c hc with hc | rfl
  · simp [Sheet.isCalmChar, Char.isAlphanum, hc]
  · decide

namespace Offsets

theorem isCalmValue_emText (lineHeight space : Float) : IsCalmValue (emText lineHeight space) := by
  have hall : ∀ c ∈ emText lineHeight space, isCalmChar c = true ∧ isBlank c = false := by
    rw [emText, List.forall_mem_append]
    exact ⟨isCalmChar_of_mem_lengthText _, by decide⟩
  refine ⟨isCalm_of_all (fun c hc => (hall c hc).1) 0, by simp [emText],
    fun c hc => (hall c (List.mem_of_mem_head? hc)).2,
    fun c hc => (hall c (List.mem_of_getLast? hc)).2⟩

/-- A term of the shape that margins have is a calm value, whatever calm numbers it is about. -/
theorem isCalmValue_calc {space value unit : Text} (hspace : ∀ c ∈ space, isCalmChar c = true)
    (hvalue : ∀ c ∈ value, isCalmChar c = true) (hunit : ∀ c ∈ unit, isCalmChar c = true) :
    IsCalmValue ("calc(".toList ++ space ++ "em - (".toList ++ value ++ unit
      ++ " - 1em) / 2)".toList) := by
  have hcalc : IsCalm 0 "calc(".toList 1 :=
    .char rfl (.char rfl (.char rfl (.char rfl (.opening (.nil 1)))))
  have hminus : IsCalm 1 "em - (".toList 2 :=
    .char rfl (.char rfl (.char rfl (.char rfl (.char rfl (.opening (.nil 2))))))
  have hend : IsCalm 2 " - 1em) / 2)".toList 0 :=
    .char rfl (.char rfl (.char rfl (.char rfl (.char rfl (.char rfl (.closing (.char rfl
      (.slash (.char rfl (.char rfl (.closing (.nil 0))))))))))))
  refine ⟨((((hcalc.append (isCalm_of_all hspace 1)).append hminus).append
    (isCalm_of_all hvalue 2)).append (isCalm_of_all hunit 2)).append hend, by simp, ?_, ?_⟩
  · intro c hc
    obtain rfl : 'c' = c := by simpa using hc
    decide
  · intro c hc
    rw [List.getLast?_append] at hc
    obtain rfl : ')' = c := by simpa using hc
    decide

theorem isCalmValue_calcText {lineHeight : LineHeight} (hunit : IsUnit lineHeight.unit)
    (space : Float) : IsCalmValue (calcText lineHeight space) :=
  isCalmValue_calc (fun c hc => (isCalmChar_of_mem_lengthText _ c hc).1)
    (fun c hc => (isCalmChar_of_mem_lengthText _ c hc).1) hunit.isCalmChar

/-- A margin that is needed is a calm value. -/
theorem isCalmValue_ofMetrics {m : Metrics} (hunit : IsUnit m.lineHeight.unit) :
    ((ofMetrics m).before ≠ [] → IsCalmValue (ofMetrics m).before) ∧
      ((ofMetrics m).after ≠ [] → IsCalmValue (ofMetrics m).after) := by
  unfold ofMetrics
  split
  · exact ⟨fun h => absurd rfl h, fun h => absurd rfl h⟩
  · dsimp only
    split
    · exact ⟨fun _ => isCalmValue_emText _ _, fun _ => isCalmValue_emText _ _⟩
    · exact ⟨fun _ => isCalmValue_calcText hunit _, fun _ => isCalmValue_calcText hunit _⟩

end Offsets

/-! ## Selectors -/

namespace Selector

/-- The text behind the cursor with a pseudo-element behind each selector, the selectors being given
by their ranges. -/
theorem appendFrom_branchesFrom (front gap pseudo : Text) (pieces : List SelectorPiece) :
    appendFrom (front ++ (gap ++ pieces.flatMap SelectorPiece.text)) pseudo front.byteSize
        (branchesFrom (front ++ gap).byteSize pieces) =
      gap ++ pieces.flatMap (SelectorPiece.withPseudo pseudo) := by
  induction pieces generalizing front gap with
  | nil => simp [branchesFrom, appendFrom]
  | cons piece pieces ih =>
    cases piece with
    | branch text =>
      have hbehind := ih (front ++ gap ++ text) []
      rw [branchesFrom, appendFrom, ← Text.byteSize_append]
      simp only [List.flatMap_cons, SelectorPiece.text, SelectorPiece.withPseudo]
      rw [Text.slice_eq_of_append (s := front) (t := gap ++ text)
        (u := pieces.flatMap SelectorPiece.text) (by simp) rfl (by simp)]
      simpa using hbehind
    | gap text =>
      have hbehind := ih front (gap ++ text)
      rw [branchesFrom]
      simp only [List.flatMap_cons, SelectorPiece.text, SelectorPiece.withPseudo] at hbehind ⊢
      simpa [Nat.add_assoc] using hbehind

/-- The ranges of a list say where its pseudo-elements are put. -/
theorem append_branchesFrom {pieces : List SelectorPiece} (h : ∃ text, .branch text ∈ pieces)
    (pseudo : Text) :
    append (pieces.flatMap SelectorPiece.text) (branchesFrom 0 pieces) pseudo =
      pieces.flatMap (SelectorPiece.withPseudo pseudo) := by
  have hne : ∀ offset, (branchesFrom offset pieces).isEmpty = false := by
    obtain ⟨text, htext⟩ := h
    induction pieces with
    | nil => cases htext
    | cons piece pieces ih =>
      intro offset
      cases piece with
      | branch text => rfl
      | gap text' =>
        rcases List.mem_cons.mp htext with htext | htext
        · cases htext
        · exact ih htext _
  rw [append, hne, if_neg Bool.false_ne_true]
  exact appendFrom_branchesFrom [] [] pseudo pieces

end Selector

/-! ## Declarations -/

namespace Sheet

/-- A declaration at the front leaves its mark. -/
theorem marks_of_declaration? (depth : Nat) {d : DeclarationText} {s : Text}
    (h : declaration? (d.text ++ s) = some d) :
    marks depth (d.text ++ s) =
      .declaration d.name (Text.trim (stripComments d.value)) :: marks depth s := by
  obtain ⟨c, x, hx⟩ : ∃ c x, d.text = c :: x :=
    List.exists_cons_of_ne_nil fun hnil => by
      have hpos := d.byteSize_text_pos
      simp [hnil] at hpos
  rw [hx] at h ⊢
  rw [marks_of_part (p := .declaration d) (part_of_declaration? h) hx]
  rfl

/-- A declaration with a semicolon and without slashes is read in front of any text. -/
theorem declaration?_append {d : DeclarationText} (hend : d.terminated = true)
    (hslash : '/' ∉ d.text)
    (hsound : isSoundRow 0 false (row (.value .value)
      (d.text.drop (d.name ++ d.gap ++ [':']).length)) = true)
    (h : declaration? d.text = some d) (s : Text) : declaration? (d.text ++ s) = some d := by
  refine declaration?_text_congr (s := []) (by rwa [List.append_nil]) ⟨?_, ?_⟩
    (by rwa [List.append_nil])
  · intro u z hz
    exact absurd (by rw [hz]; simp) hslash
  · intro hunended
    rw [hend] at hunended
    cases hunended

/-- A declaration with a calm value leaves the mark of that value. -/
theorem marks_of_isCalmValue (depth : Nat) {name gap blanks value : Text} (ended : Bool)
    (hblanks : ∀ c ∈ blanks, isBlank c = true) (hv : IsCalmValue value) {s : Text}
    (h : declaration? (name ++ gap ++ ':' ::
        (blanks ++ value ++ ((if ended then [';'] else []) ++ s))) =
      some ⟨name, gap, blanks ++ value, ended⟩) :
    marks depth (name ++ (gap ++ [':'] ++ blanks) ++ value
        ++ ((if ended then [';'] else []) ++ s)) =
      .declaration name value :: marks depth s := by
  have hmark := marks_of_declaration? depth
    (d := ⟨name, gap, blanks ++ value, ended⟩) (s := s) (by simpa [DeclarationText.text] using h)
  rw [trim_stripComments_of_isCalmValue hblanks hv] at hmark
  simpa [DeclarationText.text] using hmark

end Sheet

/-! ## What is asked for -/

/-- What is said by a declaration of a rule. -/
def Sheet.Mark.ofContent (x : Text × Text) : Mark := .declaration x.1 x.2

/-- The marks of a rule in whose block there are only declarations. -/
def Sheet.RuleContent.marks (c : RuleContent) : List Mark :=
  .rule c.selector :: c.declarations.map .ofContent ++ [.close]

/-- What the rule for a pseudo-element says. -/
def Sheet.Rule.pseudoContent (r : Rule) (pseudo side value : Text) : RuleContent where
  selector := Selector.append r.selector r.branches pseudo
  declarations := [("display".toList, "table".toList), ("content".toList, "\"\"".toList),
    ("margin-".toList ++ side, value)]

namespace Request

/-- What the margins say that take the place of the declaration. -/
def marginContents (q : Request) : List (Text × Text) :=
  (q.before.map ("margin-top".toList, ·)).toList ++ (q.after.map ("margin-bottom".toList, ·)).toList

/-- What the rules for pseudo-elements say. -/
def pseudoContents (q : Request) : List RuleContent :=
  (q.before.map (q.rule.pseudoContent "::before".toList "bottom".toList)).toList
    ++ (q.after.map (q.rule.pseudoContent "::after".toList "top".toList)).toList

/-- The last margin that takes the place of the declaration. -/
def last? (q : Request) : Option Text := q.after.or q.before

end Request

/-! ## Margins -/

/-- A text that may stand between the name of a property and its value. -/
def IsSeparator (separator : Text) : Prop :=
  ∃ gap u blanks, separator = gap ++ [':'] ++ blanks ∧
    Text.texts (fillers (gap ++ ':' :: u)) = gap ∧ ∀ c ∈ blanks, isBlank c = true

/-- What stands between the name and the value of a declaration is a separator. -/
theorem isSeparator_of_declaration? {source t : Text} {text : DeclarationText} {last offset : Nat}
    (h : declaration? t = some text) :
    IsSeparator (text.toDeclaration source last offset).separator := by
  obtain ⟨behind, -, -, -, hgap, -, -⟩ := declaration?_eq_some_iff.mp h
  exact ⟨text.gap, behind, _, rfl, hgap, List.all_eq_true.mp List.all_takeWhile⟩

section Margins

variable (depth : Nat) {side separator value : Text}

/-- The properties of margins are names. -/
theorem nameLength_margin (hside : side ∈ ["top".toList, "bottom".toList]) :
    "margin-".toList ++ side ≠ [] ∧
      nameLength ("margin-".toList ++ side) = ("margin-".toList ++ side).length := by
  revert side
  decide

/-- A margin in front of a semicolon leaves its mark. -/
theorem marks_margin (hsep : IsSeparator separator)
    (hside : side ∈ ["top".toList, "bottom".toList]) (hv : IsCalmValue value) (s : Text) :
    marks depth ("margin-".toList ++ side ++ separator ++ value ++ ';' :: s) =
      .declaration ("margin-".toList ++ side) value :: marks depth s := by
  obtain ⟨gap, u, blanks, rfl, hgap, hblanks⟩ := hsep
  obtain ⟨hne, hname⟩ := nameLength_margin hside
  generalize "margin-".toList ++ side = name at hne hname ⊢
  exact marks_of_isCalmValue depth true hblanks hv
    (declaration?_of_isCalmValue hne hname hgap hblanks hv)

/-- A margin at the end of a block leaves its mark. -/
theorem marks_margin_ended {d : DeclarationText} {l : List Lexeme} {v : Text}
    (h : EndsBlock d l v) (hsep : IsSeparator separator)
    (hside : side ∈ ["top".toList, "bottom".toList]) (hv : IsCalmValue value)
    (hslashes : ['/', '/'] <+: Text.texts l ++ '\x7d' :: v → value.getLast? = some ')')
    (hbrace : braceFirst (Text.texts l ++ '\x7d' :: v) = true → isSpaced separator = true)
    (v' : Text) :
    marks depth ("margin-".toList ++ side ++ separator ++ value ++ (Text.texts l ++ '\x7d' :: v')) =
      .declaration ("margin-".toList ++ side) value ::
        marks depth (Text.texts l ++ '\x7d' :: v') := by
  obtain ⟨gap, u, blanks, rfl, hgap, hblanks⟩ := hsep
  obtain ⟨hne, hname⟩ := nameLength_margin hside
  generalize "margin-".toList ++ side = name at hne hname ⊢
  rw [List.append_assoc, List.singleton_append] at hbrace
  have hread := h.declaration?_of_isCalmValue hne hname hgap hblanks hv hslashes hbrace v'
  exact marks_of_isCalmValue depth false hblanks hv hread

/-- The margins that take the place of a declaration leave their marks, if each of them does in
front of what follows. -/
theorem marks_margins {source e e' : Text} {q : Request} (hneeded : q.isNeeded = true)
    (hsep : IsSeparator q.declaration.separator)
    (hleading : ∀ c ∈ q.declaration.leading source, isSheetSpace c = true)
    (hbefore : ∀ v ∈ q.before, IsCalmValue v) (hafter : ∀ v ∈ q.after, IsCalmValue v)
    (hlast : ∀ side ∈ ["top".toList, "bottom".toList], ∀ v ∈ q.last?, IsCalmValue v →
      marks depth (Correction.margin q.declaration side v
        ++ ((if q.declaration.terminated then [';'] else []) ++ e)) =
          .declaration ("margin-".toList ++ side) v :: marks depth e') :
    marks depth (q.margins source ++ e) =
      q.marginContents.map .ofContent ++ marks depth e' := by
  unfold Correction.margin at hlast
  rw [Request.margins, Request.marginContents, List.append_assoc]
  rw [Request.last?] at hlast
  unfold Correction.margin
  rw [Request.isNeeded, Bool.or_eq_true] at hneeded
  cases hb : q.before with
  | none =>
    cases ha : q.after with
    | none => simp [hb, ha] at hneeded
    | some after =>
      have hbottom := hlast "bottom".toList (by simp) after (by simp [ha]) (hafter _ ha)
      simpa [List.intercalate, Mark.ofContent] using hbottom
  | some before =>
    cases ha : q.after with
    | none =>
      have htop := hlast "top".toList (by simp) before (by simp [ha, hb]) (hbefore _ hb)
      simpa [List.intercalate, Mark.ofContent] using htop
    | some after =>
      have hbottom := hlast "bottom".toList (by simp) after (by simp [ha]) (hafter _ ha)
      -- the white space in front of the declaration stands between the two
      have hside : "top".toList ∈ ["top".toList, "bottom".toList] := by simp
      have htop := marks_margin depth hsep hside (hbefore _ hb)
        (q.declaration.leading source ++ ("margin-".toList ++ "bottom".toList
          ++ q.declaration.separator ++ after
          ++ ((if q.declaration.terminated then [';'] else []) ++ e)))
      rw [marks_space hleading, hbottom] at htop
      simpa [List.intercalate, Mark.ofContent] using htop

end Margins

/-! ## Rules for pseudo-elements -/

section Pseudo

variable (depth : Nat) {source : Text} {r : Rule}

/-- The rule has the selectors of a head that is sound where it stands, and ends every comment that
is open in it. -/
def Sheet.Rule.HasHead (r : Rule) : Prop :=
  ∃ c x s depth inBlock head, part depth c (x ++ s) = .rule head ∧ head.text = c :: x ∧
    (Part.rule head).hasSoundRow inBlock (c :: (x ++ s)) = true ∧ ClosesComments head.text s ∧
    r.selector = head.selector ∧ r.branches = branchesFrom 0 head.selectors

/-- The rules of a sound sheet have the selectors of their heads. -/
theorem Sheet.hasHead_of_mem_rules (h : isSound source = true) (hr : r ∈ rules source)
    (hclosed : ∀ front head rest, parts source = front ++ .rule head :: rest →
      r.start = Text.byteSize (front.flatMap Part.text) →
        ClosesComments head.text (rest.flatMap Part.text)) : r.HasHead := by
  obtain ⟨front, head, rest, hparts, rfl⟩ := exists_append_of_mem_rulesFrom (rules_eq source ▸ hr)
  have hends := hclosed front head rest hparts (Nat.zero_add _)
  obtain ⟨-, depth, ended, t, -, ht⟩ := exists_soundParts_of_append h hparts nofun
  cases ht with
  | @cons _ _ c x s _ _ hpart htext hrow _ _ _ hrest =>
    rw [hrest.flatMap_text] at hends
    exact ⟨c, x, s, depth, _, head, hpart, htext, hrow, hends, rfl, rfl⟩

/-- The head of a rule for a pseudo-element leaves the mark of its selectors. -/
theorem marks_pseudoHead (hr : r.HasHead) {name : Text} (hname : IsPseudoName name) (s : Text) :
    marks depth (Selector.append r.selector r.branches (pseudoElement name) ++ ' ' :: '\x7b' :: s) =
      .rule (Selector.append r.selector r.branches (pseudoElement name))
        :: marks (depth + 1) s := by
  obtain ⟨c, x, u, depth', inBlock, head, hpart, hhead, hrow, hclosed, hselector, hbranches⟩ := hr
  obtain ⟨hbranch, c', rest', head', htext, hpart', hgap, hselector'⟩ :=
    exists_part_withPseudo hpart hhead hrow hclosed hname depth s
  have happend : Selector.append r.selector r.branches (pseudoElement name) = head'.selector := by
    rw [hselector, hbranches, hselector', RuleHead.selector, Selector.append_branchesFrom hbranch]
  rw [← hselector'] at htext
  rw [happend, htext]
  have hall : head'.text ++ s = c' :: rest' := by
    rw [← htext, RuleHead.text, hgap]
    simp
  obtain ⟨x, hx⟩ : ∃ x, head'.text = c' :: x := by
    cases hhead : head'.text with
    | nil => simp [RuleHead.text] at hhead
    | cons a x => rw [hhead] at hall; exact ⟨x, by rw [(List.cons.inj hall).1]⟩
  rw [hx] at hall
  obtain rfl := (List.cons.inj hall).2
  exact marks_of_part hpart' hx

/-- A rule for a pseudo-element leaves the marks of what it says. -/
theorem marks_pseudoRule (hr : r.HasHead)
    (hindent : ∀ c ∈ r.indent, c = ' ' ∨ c = '\t') {name side value : Text}
    (hname : IsPseudoName name) (hside : side ∈ ["top".toList, "bottom".toList])
    (hv : IsCalmValue value) (s : Text) :
    marks depth (Correction.pseudoRule (Correction.lineBreak source) r (pseudoElement name) side
        value ++ s) =
      (r.pseudoContent (pseudoElement name) side value).marks ++ marks depth s := by
  have hnewline : ∀ c ∈ Correction.lineBreak source ++ r.indent, isSheetSpace c = true := by
    intro c hc
    rcases List.mem_append.mp hc with hc | hc
    · unfold Correction.lineBreak at hc
      have hall : ∀ c ∈ ['\r', '\n'], isSheetSpace c = true := by decide
      split at hc
      · exact hall c hc
      · exact hall c (List.mem_cons_of_mem _ hc)
    · rcases hindent c hc with rfl | rfl <;> decide
  have hdisplay : ∀ s, marks (depth + 1) ("display: table;".toList ++ s) =
      .declaration "display".toList "table".toList :: marks (depth + 1) s := fun s =>
    marks_of_declaration? (depth + 1) (d := ⟨"display".toList, [], " table".toList, true⟩)
      (declaration?_append rfl (by decide) (by decide) (by decide) s)
  have hcontent : ∀ s, marks (depth + 1) ("content: \"\";".toList ++ s) =
      .declaration "content".toList "\"\"".toList :: marks (depth + 1) s := fun s =>
    marks_of_declaration? (depth + 1) (d := ⟨"content".toList, [], " \"\"".toList, true⟩)
      (declaration?_append rfl (by decide) (by decide) (by decide) s)
  have hsep : IsSeparator ": ".toList := ⟨[], [], [' '], rfl, rfl, by decide⟩
  have hmargin := marks_margin (depth + 1) hsep hside hv ('\x7d' :: s)
  have hclose : marks (depth + 1) ('\x7d' :: s) = .close :: marks depth s :=
    marks_of_part (x := []) (p := .close) (part_brace (depth + 1) s) rfl
  have hhead := marks_pseudoHead depth hr hname
    ("display: table;".toList ++ ("content: \"\";".toList
      ++ ("margin-".toList ++ side ++ ": ".toList ++ value ++ ';' :: '\x7d' :: s)))
  rw [hdisplay, hcontent, hmargin, hclose, ← marks_space hnewline] at hhead
  simpa [Correction.pseudoRule, Rule.pseudoContent, RuleContent.marks, Mark.ofContent] using hhead

end Pseudo

/-! ## Requests -/

/-- What is asked for can be written: the margins are calm values, and a rule for which others are
put has a sound head. -/
structure Request.IsWritable (source : Text) (q : Request) : Prop where
  before : ∀ v ∈ q.before, IsCalmValue v
  after : ∀ v ∈ q.after, IsCalmValue v
  leading : ∀ c ∈ q.declaration.leading source, isSheetSpace c = true
  indent : ∀ c ∈ q.rule.indent, c = ' ' ∨ c = '\t'
  head : q.scope = .inside → q.rule.HasHead

/-- The rules for pseudo-elements leave the marks of what they say. -/
theorem Request.IsWritable.marks_pseudoRules {source : Text} {q : Request}
    (hq : q.IsWritable source) (hscope : q.scope = .inside) (depth : Nat) (s : Text) :
    marks depth (q.pseudoRules source ++ s) =
      q.pseudoContents.flatMap RuleContent.marks ++ marks depth s := by
  have hhead := hq.head hscope
  have hnames : IsPseudoName "before".toList ∧ IsPseudoName "after".toList :=
    ⟨⟨by decide, by decide⟩, ⟨by decide, by decide⟩⟩
  have hbefore : ∀ v ∈ q.before, ∀ s, marks depth (Correction.pseudoRule
      (Correction.lineBreak source) q.rule "::before".toList "bottom".toList v ++ s) =
        (q.rule.pseudoContent "::before".toList "bottom".toList v).marks ++ marks depth s :=
    fun v hv => marks_pseudoRule depth hhead hq.indent hnames.1 (by simp) (hq.before v hv)
  have hafter : ∀ v ∈ q.after, ∀ s, marks depth (Correction.pseudoRule
      (Correction.lineBreak source) q.rule "::after".toList "top".toList v ++ s) =
        (q.rule.pseudoContent "::after".toList "top".toList v).marks ++ marks depth s :=
    fun v hv => marks_pseudoRule depth hhead hq.indent hnames.2 (by simp) (hq.after v hv)
  rw [pseudoRules, pseudoContents]
  cases hb : q.before <;> cases ha : q.after <;>
    simp only [Option.map_none, Option.map_some, Option.toList_none, Option.toList_some,
      List.nil_append, List.append_nil, List.cons_append, List.flatten_nil, List.flatten_cons,
      List.flatMap_nil, List.flatMap_cons, List.append_assoc]
  next after => exact hafter after ha s
  next before => exact hbefore before hb s
  next before after => rw [hbefore before hb, hafter after ha]

namespace Trimmer

/-- In a sound sheet what is asked for can be written. -/
theorem isWritable_of_mem_requests {t : Trimmer} {source : Text} {q : Request}
    (hsound : Sheet.isSound source = true) (hq : q ∈ t.requests (Sheet.rules source))
    (hclosed : q.scope = .inside → ∀ front head rest, parts source = front ++ .rule head :: rest →
      q.rule.start = Text.byteSize (front.flatMap Part.text) →
        ClosesComments head.text (rest.flatMap Part.text)) : q.IsWritable source := by
  obtain ⟨⟨r, d⟩, hx, hq⟩ := List.mem_filterMap.mp hq
  obtain ⟨directive, hread, rfl⟩ := Option.map_eq_some_iff.mp hq
  obtain ⟨hr, hd, -⟩ := mem_directives.mp hx
  have hunit : IsUnit (t.metrics r directive).lineHeight.unit :=
    LineHeight.isUnit_resolve (Directive.isRead_of_read? hread) _ _
  obtain ⟨hbefore, hafter⟩ := Offsets.isCalmValue_ofMetrics hunit
  have hvalue : ∀ {asked : Bool} {v : Text}, (v ≠ [] → IsCalmValue v) →
      ∀ w ∈ if asked && !v.isEmpty then some v else none, IsCalmValue w := by
    intro asked v hv w hw
    split at hw
    next hneeded =>
      obtain rfl : v = w := by simpa using hw
      exact hv fun hnil => by simp [hnil] at hneeded
    · cases hw
  exact ⟨hvalue hbefore, hvalue hafter,
    ((Sheet.isWellFormed_of_mem_rules hsound hr).declaration d hd).1.leading,
    fun c hc => Sheet.eq_space_or_eq_tab_of_mem_indent hr hc,
    fun hscope => Sheet.hasHead_of_mem_rules hsound hr (hclosed hscope)⟩

end Trimmer

end LeadingTrim
