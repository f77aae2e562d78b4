/-
# The trimmed sheet, part by part

The changes of a trimmed sheet fall in with its parts. A directive is a part, and the white space in
front of it are parts (`Declaration.IsAhead`); a rule ends behind a closing brace. So the trimmed
sheet is made part by part: in front of each there is what is put there, and the part is left out
or kept as a whole (`revise_part`). A part that is left out is white space, or it is a directive
(`exists_of_omits`).
-/

import LeadingTrim.Proofs.Sheet.SoundParts
import LeadingTrim.Proofs.Sheet.WellFormed
import LeadingTrim.Proofs.Trimmer.Result

namespace LeadingTrim

open Sheet

/-! ## Declarations among the parts -/

/-- The declaration is one of the parts at the offset. The white space in front of it may begin
before them. -/
inductive Sheet.Declaration.IsAhead (source : Text) (d : Declaration) : Nat → List Part → Prop
  | here {last offset : Nat} {text : DeclarationText} {rest : List Part} (hle : last ≤ offset)
    (hd : d = text.toDeclaration source last offset) :
    IsAhead source d offset (.declaration text :: rest)
  | space {offset : Nat} {text : Text} {rest : List Part} (hle : d.leadingStart ≤ offset)
    (h : IsAhead source d (offset + text.byteSize) rest) :
    IsAhead source d offset (.space text :: rest)
  | later {offset : Nat} {p : Part} {rest : List Part}
    (hle : offset + p.text.byteSize ≤ d.leadingStart)
    (h : IsAhead source d (offset + p.text.byteSize) rest) : IsAhead source d offset (p :: rest)

namespace Sheet

variable {source : Text} {d : Declaration} {last offset n : Nat} {p : Part} {all rest : List Part}

/-- A declaration of the sheet is one of its parts. -/
theorem isAhead_of_mem_allDeclarations (hle : last ≤ offset)
    (hd : d ∈ allDeclarations source last offset all) :
    (d.leadingStart = last ∨ offset ≤ d.leadingStart) ∧ d.IsAhead source offset all := by
  induction all generalizing last offset with
  | nil => cases hd
  | cons p all ih =>
    rcases mem_allDeclarations_cons.mp hd with ⟨text, rfl, rfl⟩ | hd
    · exact ⟨.inl rfl, .here hle rfl⟩
    have hbehind : last ≤ offset + p.text.byteSize := by omega
    obtain ⟨hstart, hahead⟩ := ih (p.lastBehind_le hbehind) hd
    cases p with
    | space text =>
      rcases hstart with hstart | hstart
      · exact ⟨.inl hstart, .space (hstart ▸ hle) hahead⟩
      · exact ⟨.inr (Nat.le_trans (Nat.le_add_right _ _) hstart), .later hstart hahead⟩
    | _ =>
      have hlater := hstart.elim (fun h => Nat.le_of_eq h.symm) id
      exact ⟨.inr (Nat.le_trans (Nat.le_add_right _ _) hlater), .later hlater hahead⟩

namespace Declaration.IsAhead

theorem le_start (h : d.IsAhead source offset all) : offset ≤ d.start ∧ offset < d.stop := by
  induction h with
  | here _ hd =>
    subst hd
    exact ⟨Nat.le_refl _, Nat.lt_add_of_pos_right (DeclarationText.byteSize_text_pos _)⟩
  | space _ _ ih | later _ _ ih => omega

/-- Behind a part, the declaration is behind the place, or still one of the parts. -/
theorem tail (h : d.IsAhead source offset (p :: rest)) :
    d.stop ≤ offset + p.text.byteSize ∨ d.IsAhead source (offset + p.text.byteSize) rest := by
  cases h with
  | here _ hd => exact .inl (Nat.le_of_eq (by rw [hd]; rfl))
  | space _ h => exact .inr h
  | later _ h => exact .inr h

/-- The declaration is the first part, or behind it; and then the part is white space in front of
it, or behind that white space, too. -/
theorem cases (h : d.IsAhead source offset (p :: rest)) :
    (∃ text last, p = .declaration text ∧ d = text.toDeclaration source last offset) ∧
        d.leadingStart ≤ offset ∧ d.start = offset ∧ d.stop = offset + p.text.byteSize ∨
      ((∃ text, p = .space text) ∧ d.leadingStart ≤ offset ∨
        offset + p.text.byteSize ≤ d.leadingStart) ∧ offset + p.text.byteSize ≤ d.start := by
  cases h with
  | @here last _ text _ hle hd =>
    refine .inl ⟨⟨text, last, rfl, hd⟩, ?_⟩
    subst hd
    exact ⟨hle, rfl, rfl⟩
  | space hle hd => exact .inr ⟨.inl ⟨⟨_, rfl⟩, hle⟩, hd.le_start.1⟩
  | later hle hd => exact .inr ⟨.inr hle, hd.le_start.1⟩

/-- Behind white space and comments in front of the end of a block there is no directive to which
they belong. -/
theorem le_leadingStart {l : List Lexeme}
    (h : d.IsAhead source offset (l.map (fun p => .ofFiller p.1 p.2) ++ .close :: rest)) :
    offset + (Text.texts l ++ ['}']).byteSize ≤ d.leadingStart := by
  induction l generalizing offset with
  | nil =>
    cases h with
    | later hle _ => exact hle
  | cons p l ih =>
    obtain ⟨k, x⟩ := p
    have hrest : d.IsAhead source (offset + x.byteSize)
        (l.map (fun p => .ofFiller p.1 p.2) ++ .close :: rest) := by
      cases k <;> cases h <;> assumption
    have hle := ih hrest
    rw [Text.texts_cons, List.append_assoc, Text.byteSize_append]
    dsimp only
    omega

end Declaration.IsAhead

/-! ## Ends of rules among the parts -/

/-- The end of a rule is not inside a part, and behind a part only if that is a closing brace. -/
theorem IsBehindClose.cases (h : IsBehindClose offset (p :: rest) n) :
    p = .close ∧ n = offset + p.text.byteSize ∨
      IsBehindClose (offset + p.text.byteSize) rest n := by
  obtain ⟨front, behind, hall, rfl⟩ := h
  cases front with
  | nil =>
    obtain ⟨rfl, rfl⟩ := List.cons.inj hall
    exact .inl ⟨rfl, rfl⟩
  | cons q front =>
    obtain ⟨rfl, rfl⟩ := List.cons.inj hall
    refine .inr ⟨front, behind, rfl, ?_⟩
    rw [List.flatMap_cons, List.append_assoc, Text.byteSize_append p.text, Nat.add_assoc]

theorem IsBehindClose.lt (h : IsBehindClose offset all n) : offset < n := by
  obtain ⟨front, behind, -, rfl⟩ := h
  have hpos : 0 < Text.byteSize (front.flatMap Part.text ++ ['}']) :=
    Text.byteSize_pos (by simp)
  omega

/-- Behind white space and comments a rule ends behind the closing brace at the earliest. -/
theorem IsBehindClose.le {l : List Lexeme}
    (h : IsBehindClose offset (l.map (fun p => .ofFiller p.1 p.2) ++ .close :: rest) n) :
    offset + (Text.texts l ++ ['}']).byteSize ≤ n := by
  induction l generalizing offset with
  | nil =>
    rcases h.cases with ⟨-, rfl⟩ | h
    · exact Nat.le_refl _
    · exact Nat.le_of_lt h.lt
  | cons p l ih =>
    obtain ⟨k, x⟩ := p
    have hrest : IsBehindClose (offset + x.byteSize)
        (l.map (fun p => .ofFiller p.1 p.2) ++ .close :: rest) n := by
      rcases h.cases with ⟨h, -⟩ | h
      · cases k <;> cases h
      · cases k <;> exact h
    have hle := ih hrest
    rw [Text.texts_cons, List.append_assoc, Text.byteSize_append]
    dsimp only
    omega

end Sheet

/-! ## Requests among the parts -/

namespace Request

/-- The directive is behind the place or one of the parts, and so is the end of its rule. -/
structure Stands (source : Text) (offset : Nat) (all : List Part) (q : Request) : Prop where
  fits : q.declaration.Fits source
  declaration : q.declaration.stop ≤ offset ∨ q.declaration.IsAhead source offset all
  rule : q.rule.stop ≤ offset ∨ IsBehindClose offset all q.rule.stop

variable {source : Text} {offset n : Nat} {p : Part} {rest : List Part} {q : Request}
  {qs : List Request}

theorem Stands.tail (h : q.Stands source offset (p :: rest)) :
    q.Stands source (offset + p.text.byteSize) rest where
  fits := h.fits
  declaration := by
    rcases h.declaration with hd | hd
    · exact .inl (by omega)
    · exact hd.tail
  rule := by
    rcases h.rule with hr | hr
    · exact .inl (by omega)
    · exact hr.cases.elim (fun hclose => .inl (Nat.le_of_eq hclose.2)) .inr

/-- Behind a part a rule ends only if the part is a closing brace. -/
theorem Stands.eq_close (h : q.Stands source offset (p :: rest)) (hp : p.text ≠ [])
    (hn : q.rule.stop = offset + p.text.byteSize) : p = .close := by
  have hpos := Text.byteSize_pos hp
  rcases h.rule with hr | hr
  · omega
  · rcases hr.cases with ⟨hclose, -⟩ | hr
    · exact hclose
    · have := hr.lt
      omega

/-- Nothing begins and no rule ends inside a part. -/
theorem Stands.ne (h : q.Stands source offset (p :: rest)) (hlt : offset < n)
    (hn : n < offset + p.text.byteSize) : q.rule.stop ≠ n ∧ q.declaration.start ≠ n := by
  constructor
  · rcases h.rule with hr | hr
    · omega
    · rcases hr.cases with ⟨-, hr⟩ | hr
      · omega
      · have := hr.lt
        omega
  · have hstart := h.fits.start_lt_stop
    rcases h.declaration with hd | hd
    · omega
    · rcases hd.cases with ⟨-, -, hd, -⟩ | ⟨-, hd⟩ <;> omega

/-- A part gives way as a whole. -/
theorem Stands.gap_iff (h : q.Stands source offset (p :: rest)) (hle : offset ≤ n)
    (hlt : n < offset + p.text.byteSize) :
    (q.gapStart ≤ n ∧ n < q.declaration.stop) ↔
      (q.gapStart ≤ offset ∧ offset < q.declaration.stop) := by
  have hstart := h.fits.start_lt_stop
  unfold gapStart
  rcases h.declaration with hd | hd
  · omega
  · rcases hd.cases with ⟨-, hgap, hd, hstop⟩ | ⟨⟨-, hgap⟩ | hgap, hd⟩ <;> split <;> omega

/-! ## What gives way -/

/-- Whether the character at an offset is left out and nothing takes its place. -/
def removes (requests : List Request) (offset : Nat) : Bool :=
  requests.any fun q =>
    !q.isReplaced && (q.declaration.leadingStart ≤ offset && offset < q.declaration.stop)

/-- What becomes of a part: it is kept, or it is white space in front of a directive that is left
out, or it is a directive. -/
inductive Fate (source : Text) (qs : List Request) (offset : Nat) : Part → Prop
  | kept {p : Part} (homits : omits qs offset = false) (hremoves : removes qs offset = false)
    (hnone : ∀ q ∈ qs, q.declaration.start ≠ offset) : Fate source qs offset p
  | gap {text : Text} (homits : omits qs offset = true) (hremoves : removes qs offset = true)
    (hnone : ∀ q ∈ qs, q.declaration.start ≠ offset) : Fate source qs offset (.space text)
  | directive {q : Request} {text : DeclarationText} {last : Nat} (homits : omits qs offset = true)
    (hq : q ∈ qs) (hd : q.declaration = text.toDeclaration source last offset)
    (hremoves : removes qs offset = !q.isReplaced)
    (hunique : ∀ q' ∈ qs, q'.declaration.start = offset → q' = q) :
    Fate source qs offset (.declaration text)

theorem omits_eq_true_iff :
    omits qs offset = true ↔
      ∃ q ∈ qs, q.gapStart ≤ offset ∧ offset < q.declaration.stop := by
  simp [omits]

theorem removes_eq_true_iff :
    removes qs offset = true ↔ ∃ q ∈ qs, q.isReplaced = false ∧
      q.declaration.leadingStart ≤ offset ∧ offset < q.declaration.stop := by
  simp [removes]

theorem omits_of_removes (h : removes qs offset = true) : omits qs offset = true := by
  obtain ⟨q, hq, hremoved, hgap⟩ := removes_eq_true_iff.mp h
  refine omits_eq_true_iff.mpr ⟨q, hq, ?_⟩
  rwa [gapStart, hremoved, if_neg Bool.false_ne_true]

/-- No two requests are about one declaration. -/
def AreApart (qs : List Request) : Prop :=
  qs.Pairwise fun q q' => q.declaration.start ≠ q'.declaration.start

theorem AreApart.eq (h : AreApart qs) {q' : Request} (hq : q ∈ qs) (hq' : q' ∈ qs)
    (hstart : q.declaration.start = q'.declaration.start) : q = q' := by
  have : Std.Symm fun q q' : Request => q.declaration.start ≠ q'.declaration.start :=
    ⟨fun _ _ => Ne.symm⟩
  by_contra hne
  exact h.forall hq hq' hne hstart

/-- No directive begins where nothing is left out. -/
theorem start_ne_of_omits_eq_false (homits : omits qs offset = false)
    (hfits : ∀ q ∈ qs, q.declaration.Fits source) : ∀ q ∈ qs, q.declaration.start ≠ offset := by
  intro q hq hstart
  have hle := (hfits q hq).leadingStart_le_start
  have hlt := (hfits q hq).start_lt_stop
  have hgap : q.gapStart ≤ offset := by
    unfold gapStart
    split <;> omega
  rw [omits_eq_true_iff.mpr ⟨q, hq, hgap, by omega⟩] at homits
  cases homits

/-- No directive begins with white space. -/
theorem start_ne_of_space {text : Text} (htext : text ≠ [])
    (hqs : ∀ q ∈ qs, q.Stands source offset (.space text :: rest)) :
    ∀ q ∈ qs, q.declaration.start ≠ offset := by
  intro q hq hstart
  have hpos : 0 < (Part.space text).text.byteSize := Text.byteSize_pos htext
  have hlt := (hqs q hq).fits.start_lt_stop
  rcases (hqs q hq).declaration with hd | hd
  · omega
  · rcases hd.cases with ⟨⟨_, _, hp, -⟩, -⟩ | ⟨-, hd⟩
    · cases hp
    · omega

/-- Whether anything takes the place of a directive is told by its own request. -/
theorem removes_of_start {text : DeclarationText} (hapart : AreApart qs)
    (hqs : ∀ q ∈ qs, q.Stands source offset (.declaration text :: rest)) (hq : q ∈ qs)
    (hstart : q.declaration.start = offset) : removes qs offset = !q.isReplaced := by
  have hpos : 0 < (Part.declaration text).text.byteSize := DeclarationText.byteSize_text_pos _
  have hle := (hqs q hq).fits.leadingStart_le_start
  have hlt := (hqs q hq).fits.start_lt_stop
  cases hreplaced : q.isReplaced with
  | false => exact removes_eq_true_iff.mpr ⟨q, hq, hreplaced, by omega, by omega⟩
  | true =>
    by_contra hremoves
    obtain ⟨q', hq', hremoved, hgap, hlt'⟩ := removes_eq_true_iff.mp (by simpa using hremoves)
    rcases (hqs q' hq').declaration with hd | hd
    · omega
    rcases hd.cases with ⟨-, -, hstart', -⟩ | ⟨⟨⟨_, hp⟩, -⟩ | hgap', -⟩
    · rw [hapart.eq hq' hq (hstart'.trans hstart.symm), hreplaced] at hremoved
      cases hremoved
    · cases hp
    · omega

/-- A part has one of these fates. -/
theorem fate (hapart : AreApart qs) (hqs : ∀ q ∈ qs, q.Stands source offset (p :: rest))
    (hp : p.text ≠ []) : Fate source qs offset p := by
  cases homits : omits qs offset with
  | false =>
    refine .kept homits ?_ (start_ne_of_omits_eq_false homits fun q hq => (hqs q hq).fits)
    by_contra hremoves
    rw [omits_of_removes (by simpa using hremoves)] at homits
    cases homits
  | true =>
    obtain ⟨q, hq, hle, hlt⟩ := omits_eq_true_iff.mp homits
    rcases (hqs q hq).declaration with hd | hd
    · omega
    rcases hd.cases with ⟨⟨text, last, rfl, hd'⟩, -, hstart, -⟩ | ⟨hgap, hd'⟩
    · exact .directive homits hq hd' (removes_of_start hapart hqs hq hstart) fun q' hq' h =>
        hapart.eq hq' hq (h.trans hstart.symm)
    · -- in front of a directive white space gives way, and only if nothing takes its place
      have hpos := Text.byteSize_pos hp
      unfold gapStart at hle
      split at hle
      · omega
      next hremoved =>
        rcases hgap with ⟨⟨text, rfl⟩, -⟩ | hgap
        · have hremoves :=
            removes_eq_true_iff.mpr ⟨q, hq, by simpa using hremoved, hle, hlt⟩
          exact .gap homits hremoves (start_ne_of_space hp hqs)
        · omega

/-! ## Parts -/

/-- The rules that are put at an offset. -/
def putRules (source : Text) (requests : List Request) (offset : Nat) : Text :=
  requests.reverse.flatMap fun q =>
    if q.scope = .inside ∧ q.rule.stop = offset then q.pseudoRules source else []

/-- The margins that are put at an offset. -/
def putMargins (source : Text) (requests : List Request) (offset : Nat) : Text :=
  requests.flatMap fun q =>
    if q.isReplaced ∧ q.declaration.start = offset then q.margins source else []

theorem putRules_eq_nil (h : ∀ q ∈ qs, q.scope = .inside → q.rule.stop ≠ offset) :
    putRules source qs offset = [] := by
  refine List.flatMap_eq_nil_iff.mpr fun q hq => if_neg fun hput => ?_
  exact h q (List.mem_reverse.mp hq) hput.1 hput.2

theorem putMargins_eq_nil (h : ∀ q ∈ qs, q.isReplaced = true → q.declaration.start ≠ offset) :
    putMargins source qs offset = [] :=
  List.flatMap_eq_nil_iff.mpr fun q hq => if_neg fun hput => h q hq hput.1 hput.2

/-- The trimmed sheet from a part on: what is put there, the part if it is kept, and the rest. -/
theorem revise_part (hqs : ∀ q ∈ qs, q.Stands source offset (p :: rest)) (hp : p.text ≠ [])
    (t : Text) :
    (p.text ++ t).revise (put source qs) (omits qs) offset =
      putRules source qs offset ++ (putMargins source qs offset ++
        ((if omits qs offset then [] else p.text)
          ++ t.revise (put source qs) (omits qs) (offset + p.text.byteSize))) := by
  rw [Text.revise_piece (fun n hlt hn => ?_) (fun n hle hn => ?_) hp]
  · exact List.append_assoc _ _ _
  · have hne := fun q hq => (hqs q hq).ne hlt hn
    exact List.append_eq_nil_iff.mpr ⟨putRules_eq_nil fun q hq _ => (hne q hq).1,
      putMargins_eq_nil fun q hq _ => (hne q hq).2⟩
  · rw [Bool.eq_iff_iff, omits_eq_true_iff, omits_eq_true_iff]
    exact exists_congr fun q => and_congr_right fun hq => (hqs q hq).gap_iff hle hn

/-- The end of a block is kept, with the white space and the comments in front of it. -/
theorem exists_revise_eq {l : List Lexeme} {behind : List Part}
    (hqs : ∀ q ∈ qs, q.Stands source offset
      (l.map (fun p => .ofFiller p.1 p.2) ++ .close :: behind))
    (hstop : ∀ q ∈ qs, q.scope = .inside → q.rule.stop ≠ offset) (v : Text) :
    ∃ v', (Text.texts l ++ '\x7d' :: v).revise (put source qs) (omits qs) offset =
      Text.texts l ++ '\x7d' :: v' := by
  have hends : ∀ q ∈ qs, q.declaration.stop ≤ offset ∨
      offset + (Text.texts l ++ ['}']).byteSize ≤ q.declaration.leadingStart := fun q hq =>
    (hqs q hq).declaration.imp id fun hd => hd.le_leadingStart
  refine ⟨v.revise (put source qs) (omits qs) (offset + (Text.texts l ++ ['}']).byteSize), ?_⟩
  rw [List.append_cons, Text.revise_append_of_kept (fun n hle hlt => ?_) fun n hle hlt => ?_]
  · exact List.append_assoc _ _ _
  · refine List.append_eq_nil_iff.mpr ⟨putRules_eq_nil fun q hq hscope hn => ?_,
      putMargins_eq_nil fun q hq _ hn => ?_⟩
    · rcases (hqs q hq).rule with hr | hr
      · exact hstop q hq hscope (by omega)
      · have := hr.le
        omega
    · have hle := (hqs q hq).fits.leadingStart_le_start
      have hlt := (hqs q hq).fits.start_lt_stop
      have := hends q hq
      omega
  · by_contra homits
    obtain ⟨q, hq, hgap, hn⟩ := omits_eq_true_iff.mp (by simpa using homits)
    have hle := (hqs q hq).fits.leadingStart_le_start
    have := hends q hq
    have hgap' : q.declaration.leadingStart ≤ n := by
      unfold gapStart at hgap
      split at hgap <;> omega
    omega

end Request

namespace Trimmer

variable {t : Trimmer} {source : Text}

/-- In a sound sheet, directives and the ends of their rules are found among the parts. -/
theorem stands_of_mem_requests (hsound : isSound source = true) {q : Request}
    (hq : q ∈ t.requests (Sheet.rules source)) : q.Stands source 0 (parts source) := by
  have hfits := fits_of_mem_requests (Sheet.fits_rules source) hq
  obtain ⟨⟨r, d⟩, hx, hq⟩ := List.mem_filterMap.mp hq
  obtain ⟨directive, -, rfl⟩ := Option.map_eq_some_iff.mp hq
  obtain ⟨hr, hd, -⟩ := mem_directives.mp hx
  have hmem := (declarations_rules_subperm source).subset (List.mem_flatMap_of_mem hr hd)
  exact ⟨hfits, .inr (isAhead_of_mem_allDeclarations (Nat.le_refl 0) hmem).2,
    .inr (isBehindClose_of_mem_rulesFrom (isSoundFrom_of_isSound hsound) (rules_eq source ▸ hr))⟩

/-- No two requests of a sheet are about one declaration. -/
theorem areApart_requests (t : Trimmer) (source : Text) :
    Request.AreApart (t.requests (Sheet.rules source)) := by
  have hfits : ∀ x ∈ t.directives (rules source), x.2.Fits source := fun x hx =>
    (fits_rules source).declaration _ (mem_directives.mp hx).1 _ (mem_directives.mp hx).2.1
  have hdeclaration : ∀ {x q}, t.request? x = some q → q.declaration = x.2 := by
    intro x q hq
    obtain ⟨directive, -, rfl⟩ := Option.map_eq_some_iff.mp hq
    rfl
  refine List.pairwise_filterMap.mpr
    ((pairwise_apart_directives t (fits_rules source)).imp_of_mem fun {x y} hx hy hxy => ?_)
  rintro q hq q' hq' hstart
  rw [hdeclaration hq, hdeclaration hq'] at hstart
  have hle := (hfits x hx).leadingStart_le_start
  have hlt := (hfits x hx).start_lt_stop
  have hle' := (hfits y hy).leadingStart_le_start
  have hlt' := (hfits y hy).start_lt_stop
  unfold Declaration.Apart at hxy
  omega

end Trimmer

end LeadingTrim
