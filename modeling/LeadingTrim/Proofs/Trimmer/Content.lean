/-
# What a trimmed sheet says

A trimmed sheet says what the sheet said. Read again, it has the rules that it had, in the same
order and with the same selectors, and between them the rules that were asked for; and each rule has
the declarations that it had, in the same order and with the same values, but for the directives,
which are gone or have their margins in their place (`interleaves_code`).

That the sheet is read again part by part is known of its marks (`marks_trimmed`). Along the parts
the rules of the sheet and the marks of the trimmed sheet say the same, first of the block of one
rule (`ownContent_trimmedMarks`) and then of all rules (`interleaves_trimmedMarks`).
-/

import LeadingTrim.Proofs.Trimmer.Reread

namespace LeadingTrim

open Sheet

/-- The last list consists of the other two, each in its order. -/
inductive Interleaves {α : Type} : List α → List α → List α → Prop
  | nil : Interleaves [] [] []
  | left {a : α} {l l' all : List α} (h : Interleaves l l' all) : Interleaves (a :: l) l' (a :: all)
  | right {a : α} {l l' all : List α} (h : Interleaves l l' all) :
    Interleaves l (a :: l') (a :: all)

theorem Interleaves.append_right {α : Type} {l l' all : List α} (front : List α)
    (h : Interleaves l l' all) : Interleaves l (front ++ l') (front ++ all) := by
  induction front with
  | nil => exact h
  | cons a front ih => exact ih.right

/-! ## What marks say -/

namespace Sheet

variable {depth : Nat} {blocks : List Bool} {rest : List Mark}

theorem ownContent_map_ofContent (l : List (Text × Text)) :
    ownContent depth (l.map .ofContent ++ rest) =
      (if depth = 0 then l else []) ++ ownContent depth rest := by
  induction l with
  | nil => simp
  | cons x l ih =>
    rw [List.map_cons, List.cons_append, Mark.ofContent, ownContent, ih]
    split <;> rfl

/-- The rules in a block are not its own. -/
theorem ownContent_flatMap_marks (cs : List RuleContent) :
    ownContent depth (cs.flatMap RuleContent.marks ++ rest) = ownContent depth rest := by
  induction cs with
  | nil => rfl
  | cons c cs ih =>
    rw [List.flatMap_cons, List.append_assoc, RuleContent.marks, List.cons_append, List.cons_append,
      List.append_assoc, ownContent, ownContent_map_ofContent, if_neg (Nat.succ_ne_zero depth)]
    exact ih

theorem contents_map_ofContent (l : List (Text × Text)) :
    contents blocks (l.map .ofContent ++ rest) = contents blocks rest := by
  induction l with
  | nil => rfl
  | cons x l ih => exact ih

/-- What is said of rules by their marks, in front of others. -/
theorem contents_flatMap_marks (cs : List RuleContent) :
    contents blocks (cs.flatMap RuleContent.marks ++ rest) =
      (if blocks.head? = some true then [] else cs) ++ contents blocks rest := by
  induction cs with
  | nil => simp
  | cons c cs ih =>
    have hinner : contents (false :: blocks) (c.declarations.map .ofContent ++ .close ::
        (cs.flatMap RuleContent.marks ++ rest)) =
          contents blocks (cs.flatMap RuleContent.marks ++ rest) :=
      contents_map_ofContent _
    have hown : ownContent 0 (c.declarations.map .ofContent ++ .close ::
        (cs.flatMap RuleContent.marks ++ rest)) = c.declarations := by
      rw [ownContent_map_ofContent, if_pos rfl]
      exact List.append_nil _
    rw [List.flatMap_cons, List.append_assoc, RuleContent.marks, List.cons_append, List.cons_append,
      List.append_assoc, contents]
    dsimp only [List.cons_append, List.nil_append]
    rw [hinner, hown, ih]
    split <;> rfl

end Sheet

namespace Trimmer

/-! ## What is expected -/

/-- What becomes of what a declaration of a rule says. -/
def trimmedContents (t : Trimmer) (r : Rule) (d : Declaration) : List (Text × Text) :=
  if d.property = t.property then
    match t.request? (r, d) with
    | some q => if q.isReplaced then q.marginContents else []
    | none => []
  else [d.content]

/-- What a rule is to say in the trimmed sheet. -/
def trimmedContent (t : Trimmer) (r : Rule) : RuleContent where
  selector := r.selector
  declarations := r.declarations.flatMap (t.trimmedContents r)

theorem property_of_mem_requests {t : Trimmer} {source : Text} {q : Request}
    (hq : q ∈ t.requests (Sheet.rules source)) : q.declaration.property = t.property := by
  obtain ⟨⟨r, d⟩, hx, hq⟩ := List.mem_filterMap.mp hq
  obtain ⟨directive, -, rfl⟩ := Option.map_eq_some_iff.mp hq
  exact (mem_directives.mp hx).2.2

section Expected

variable {t : Trimmer} {source : Text} {r : Rule} {d : Declaration} {q : Request}
  (hread : ∀ x ∈ t.directives (rules source), (Directive.read? x.2.value).isSome)
include hread

/-- Each directive has its request. -/
theorem exists_request (hr : r ∈ rules source) (hd : d ∈ r.declarations)
    (hproperty : d.property = t.property) :
    ∃ q ∈ t.requests (Sheet.rules source), t.request? (r, d) = some q ∧ q.declaration = d := by
  have hx : (r, d) ∈ t.directives (rules source) := mem_directives.mpr ⟨hr, hd, hproperty⟩
  obtain ⟨q, hq⟩ := Option.isSome_iff_exists.mp
    ((request?_isSome t (r, d)).trans (hread (r, d) hx))
  refine ⟨q, List.mem_filterMap.mpr ⟨_, hx, hq⟩, hq, ?_⟩
  obtain ⟨directive, -, rfl⟩ := Option.map_eq_some_iff.mp hq
  rfl

/-- A declaration for which there is no request says what it said. -/
theorem trimmedContents_of_none (hr : r ∈ rules source) (hd : d ∈ r.declarations)
    (hnone : ∀ q ∈ t.requests (Sheet.rules source), q.declaration.start ≠ d.start) :
    t.trimmedContents r d = [d.content] := by
  rw [trimmedContents, if_neg]
  intro hproperty
  obtain ⟨q, hq, -, rfl⟩ := exists_request hread hr hd hproperty
  exact hnone q hq rfl

/-- Where there is a request, its margins are said instead. -/
theorem trimmedContents_of_mem (hr : r ∈ rules source) (hd : d ∈ r.declarations)
    (hproperty : d.property = t.property) (hq : q ∈ t.requests (Sheet.rules source))
    (hstart : q.declaration.start = d.start) :
    t.trimmedContents r d = if q.isReplaced then q.marginContents else [] := by
  obtain ⟨q', hq', hrequest, hdeclaration⟩ := exists_request hread hr hd hproperty
  obtain rfl : q' = q :=
    (areApart_requests t source).eq hq' hq (by rw [hdeclaration, hstart])
  rw [trimmedContents, if_pos hproperty, hrequest]

/-! ## Blocks -/

/-- The declarations of a block say what is expected of them, from some part on. -/
theorem ownContent_trimmedMarks {depth last offset : Nat} {all : List Part} (hr : r ∈ rules source)
    (hsub : ∀ d ∈ declarationsFrom source depth last offset all, d ∈ r.declarations)
    (hstands : ∀ q ∈ t.requests (Sheet.rules source), q.Stands source offset all)
    (hne : ∀ p ∈ all, p.text ≠ []) :
    ownContent depth (Request.trimmedMarks (t.requests (Sheet.rules source)) offset all) =
      (declarationsFrom source depth last offset all).flatMap (t.trimmedContents r) := by
  induction all generalizing depth last offset with
  | nil =>
    rw [Request.trimmedMarks, ← List.append_nil (List.flatMap _ _), ownContent_flatMap_marks]
    rfl
  | cons p rest ih =>
    obtain ⟨hp, hne'⟩ := List.forall_mem_cons.mp hne
    have hstands' : ∀ q ∈ t.requests (Sheet.rules source),
        q.Stands source (offset + p.text.byteSize) rest :=
      fun q hq => (hstands q hq).tail
    have hfate := Request.fate (areApart_requests t source) hstands hp
    rw [Request.trimmedMarks, ownContent_flatMap_marks, ownContent_map_ofContent]
    cases hfate with
    | kept homits hremoves hnone =>
      rw [Request.marginsContents_eq_nil fun q hq _ => hnone q hq, ite_self, homits]
      cases p with
      | declaration d =>
        rw [declarationsFrom] at hsub ⊢
        rw [if_neg Bool.false_ne_true, Part.mark?, Option.toList_some, List.cons_append, ownContent]
        split at hsub
        next hdepth =>
          have hd := List.forall_mem_cons.mp hsub
          rw [if_pos hdepth, if_pos hdepth, List.flatMap_cons,
            trimmedContents_of_none hread hr hd.1 fun q hq => hnone q hq]
          exact congrArg (List.cons _) (ih hd.2 hstands' hne')
        next hdepth =>
          rw [if_neg hdepth, if_neg hdepth]
          exact ih hsub hstands' hne'
      | close =>
        cases depth with
        | zero => rfl
        | succ depth => exact ih hsub hstands' hne'
      | _ => exact ih hsub hstands' hne'
    | gap homits hremoves hnone =>
      rw [Request.marginsContents_eq_nil fun q hq _ => hnone q hq, ite_self, homits]
      exact ih hsub hstands' hne'
    | @directive q text last' homits hq hq' hremoves hunique =>
      have hstart : q.declaration.start = offset := by rw [hq']; rfl
      have hproperty : text.name = t.property := by
        rw [← property_of_mem_requests hq, hq']
        rfl
      rw [Request.marginsContents_eq (areApart_requests t source) hq hstart, homits, if_pos rfl,
        List.nil_append]
      rw [declarationsFrom] at hsub ⊢
      split at hsub
      next hdepth =>
        have hd := List.forall_mem_cons.mp hsub
        rw [if_pos hdepth, if_pos hdepth, List.flatMap_cons,
          trimmedContents_of_mem hread hr hd.1 hproperty hq hstart]
        exact congrArg _ (ih hd.2 hstands' hne')
      next hdepth =>
        rw [if_neg hdepth, if_neg hdepth, List.nil_append]
        exact ih hsub hstands' hne'

/-! ## Rules -/

/-- What is said by a rule that is asked for. -/
def IsGenerated (t : Trimmer) (source : Text) (c : RuleContent) : Prop :=
  ∃ q ∈ t.requests (Sheet.rules source), q.scope = .inside ∧ c ∈ q.pseudoContents

omit hread in
theorem isGenerated_of_mem_rulesContents {c : RuleContent} {offset : Nat}
    (hc : c ∈ Request.rulesContents (t.requests (Sheet.rules source)) offset) :
    t.IsGenerated source c := by
  obtain ⟨q, hq, hc⟩ := List.mem_flatMap.mp hc
  split at hc
  next hput => exact ⟨q, List.mem_reverse.mp hq, hput.1, hc⟩
  · cases hc

omit hread in
/-- The rules that are put at an offset are in front of what is said from there on. -/
theorem interleaves_rulesContents {blocks : List Bool} {offset : Nat} {l : List RuleContent}
    {rest : List Mark} (h : ∃ generated, (∀ c ∈ generated, t.IsGenerated source c) ∧
      Interleaves l generated (contents blocks rest)) :
    ∃ generated, (∀ c ∈ generated, t.IsGenerated source c) ∧
      Interleaves l generated (contents blocks
        ((Request.rulesContents (t.requests (Sheet.rules source)) offset).flatMap RuleContent.marks
          ++ rest)) := by
  obtain ⟨generated, hgenerated, h⟩ := h
  rw [contents_flatMap_marks]
  refine ⟨_, fun c hc => ?_, h.append_right _⟩
  rcases List.mem_append.mp hc with hc | hc
  · split at hc
    · cases hc
    · exact isGenerated_of_mem_rulesContents hc
  · exact hgenerated c hc

/-- The rules say what is expected of them, from some part on. -/
theorem interleaves_trimmedMarks {blocks : List Bool} {offset : Nat} {all : List Part}
    (hsub : ∀ r ∈ rulesFrom source blocks offset all, r ∈ rules source)
    (hstands : ∀ q ∈ t.requests (Sheet.rules source), q.Stands source offset all)
    (hne : ∀ p ∈ all, p.text ≠ []) :
    ∃ generated, (∀ c ∈ generated, t.IsGenerated source c) ∧
      Interleaves ((rulesFrom source blocks offset all).map t.trimmedContent) generated
        (contents blocks (Request.trimmedMarks (t.requests (Sheet.rules source)) offset all)) := by
  induction all generalizing blocks offset with
  | nil =>
    rw [Request.trimmedMarks, ← List.append_nil (List.flatMap _ _)]
    exact interleaves_rulesContents ⟨[], List.forall_mem_nil _, .nil⟩
  | cons p rest ih =>
    obtain ⟨hp, hne'⟩ := List.forall_mem_cons.mp hne
    have hstands' : ∀ q ∈ t.requests (Sheet.rules source),
        q.Stands source (offset + p.text.byteSize) rest :=
      fun q hq => (hstands q hq).tail
    have hfate := Request.fate (areApart_requests t source) hstands hp
    rw [Request.trimmedMarks]
    refine interleaves_rulesContents ?_
    rw [contents_map_ofContent]
    cases hfate with
    | kept homits hremoves hnone =>
      rw [homits, if_neg Bool.false_ne_true]
      cases p with
      | rule head =>
        rw [rulesFrom] at hsub ⊢
        rw [Part.mark?, Option.toList_some, List.cons_append, contents]
        dsimp only [List.nil_append] at hsub ⊢
        split at hsub
        next hblocks =>
          rw [if_pos hblocks, if_pos hblocks]
          exact ih hsub hstands' hne'
        next hblocks =>
          obtain ⟨hr, hsub⟩ := List.forall_mem_cons.mp hsub
          obtain ⟨generated, hgenerated, h⟩ := ih hsub hstands' hne'
          rw [if_neg hblocks, if_neg hblocks, List.map_cons]
          have hcontent := congrArg (RuleContent.mk head.selector)
            (ownContent_trimmedMarks hread hr (fun d hd => hd) hstands' hne')
          rw [show t.trimmedContent (head.toRule source offset rest) = _ from hcontent.symm]
          exact ⟨generated, hgenerated, h.left⟩
      | _ => exact ih hsub hstands' hne'
    | gap homits hremoves hnone =>
      rw [homits]
      exact ih hsub hstands' hne'
    | directive homits hq hq' hremoves hunique =>
      rw [homits]
      exact ih hsub hstands' hne'

end Expected

/-! ## Runs -/

variable {t : Trimmer} {source code : Text} {edits : List Edit}

/-- A run that is fine gives the trimmed sheet, and all its directives can be read. -/
theorem code_eq_trimmed (h : t.run source = .ok (code, edits)) :
    code = t.trimmed source (Sheet.rules source) ∧
      ∀ x ∈ t.directives (rules source), (Directive.read? x.2.value).isSome := by
  have houtcome := t.runOn_outcome (fits_rules source)
  have hnone : t.firstMalformed? (rules source) = none := by
    by_contra hbad
    obtain ⟨d, hd⟩ := Option.ne_none_iff_exists'.mp hbad
    rw [hd] at houtcome
    cases houtcome.symm.trans h
  have hread : ∀ d ∈ (rules source).flatMap Rule.declarations, d.property = t.property →
      (Directive.read? d.value).isSome := by
    intro d hd hproperty
    have hgood := List.find?_eq_none.mp hnone d hd
    simpa [hproperty, Option.isSome_iff_ne_none] using hgood
  obtain ⟨edits', hrun⟩ := t.runOn_eq_trimmed (fits_rules source) hread
  rw [run, hrun] at h
  refine ⟨(Prod.mk.inj (Except.ok.inj h)).1.symm, fun x hx => ?_⟩
  obtain ⟨hr, hd, hproperty⟩ := mem_directives.mp hx
  exact hread x.2 (List.mem_flatMap_of_mem hr hd) hproperty

theorem interleaves_trimmed (hsound : isSound source = true)
    (hkeeps : Request.KeepsParts source (t.requests (Sheet.rules source)))
    (hread : ∀ x ∈ t.directives (rules source), (Directive.read? x.2.value).isSome) :
    ∃ generated, (∀ c ∈ generated, t.IsGenerated source c) ∧
      Interleaves ((rules source).map t.trimmedContent) generated
        ((rules (t.trimmed source (Sheet.rules source))).map Rule.content) := by
  have hne : ∀ p ∈ parts source, p.text ≠ [] := by
    intro p hp
    rcases exists_of_mem_parts hp with rfl | ⟨depth, c, rest, rfl⟩
    · exact List.cons_ne_nil _ _
    · exact text_part_ne_nil depth c rest
  have hmarks := interleaves_trimmedMarks hread (fun r hr => rules_eq source ▸ hr)
    (fun q hq => stands_of_mem_requests hsound hq) hne
  rw [← rules_eq] at hmarks
  rwa [map_content_rules, marks_trimmed hsound hkeeps]

/-- A sound sheet is trimmed to one in which, between the rules that are asked for, each of its
rules is again, with its declarations, and with margins or nothing in place of the directives. -/
theorem interleaves_code (hsound : isSound source = true)
    (hkeeps : Request.KeepsParts source (t.requests (Sheet.rules source)))
    (h : t.run source = .ok (code, edits)) :
    ∃ generated, (∀ c ∈ generated, t.IsGenerated source c) ∧
      Interleaves ((rules source).map t.trimmedContent) generated
        ((rules code).map Rule.content) := by
  obtain ⟨rfl, hread⟩ := code_eq_trimmed h
  exact interleaves_trimmed hsound hkeeps hread

/-- Comments of both kinds, a rule nested between declarations, directives of both scopes,
declarations at the end of a block without a semicolon, and a string that looks like the beginning
of a comment. -/
def layersSheet : Text :=
  "a//\x7b\n\x7b//c\n x:1;text-remove-gap:both 2;\x7d\np,b:is(c)\x7b y:2;e\x7bz:3;".toList
    ++ " text-remove-gap:outside both 2/**/\x7d//d\n/**/ text-remove-gap:after 3px\x7d".toList
    ++ "a\x7bw:'/*'\x7d".toList

theorem exists_run_layersSheet :
    isSound layersSheet = true ∧
      Request.KeepsParts layersSheet ((ofConfig .default).requests (Sheet.rules layersSheet)) ∧
      ∃ edits, (ofConfig .default).run layersSheet =
        .ok ((ofConfig .default).trimmed layersSheet (Sheet.rules layersSheet), edits) :=
  ⟨by decide +kernel, by decide +kernel,
    runOn_eq_trimmed (ofConfig .default) (fits_rules layersSheet) (by decide +kernel)⟩

theorem interleaves_code_layersSheet :
    isSound layersSheet = true ∧
      ((ofConfig .default).requests (Sheet.rules layersSheet)).length = 3 ∧
      Request.KeepsParts layersSheet ((ofConfig .default).requests (Sheet.rules layersSheet)) ∧
      ∃ code edits, (ofConfig .default).run layersSheet = .ok (code, edits) ∧
        ∃ generated, (∀ c ∈ generated, (ofConfig .default).IsGenerated layersSheet c) ∧
          Interleaves ((rules layersSheet).map (ofConfig .default).trimmedContent) generated
            ((rules code).map Rule.content) := by
  obtain ⟨hsound, hkeeps, edits, hrun⟩ := exists_run_layersSheet
  exact ⟨hsound, by decide +kernel, hkeeps, _, edits, hrun, interleaves_code hsound hkeeps hrun⟩

end Trimmer

end LeadingTrim
