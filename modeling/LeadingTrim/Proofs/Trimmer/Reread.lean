/-
# The trimmed sheet is read again

A trimmed sheet is read as what it is meant to be: its marks are those of the parts that are kept,
with the marks of what is put between them (`marks_trimmed`). Each part that is kept is read again
in front of what is left of the sheet.

That takes three things of the sheet (`Request.KeepsParts`). A comment to the end of a line must not
lose its line break together with a directive behind it. Where a text looks like the beginning of a
comment that nothing ends, as a string can, nothing may end it in the trimmed sheet either, for such
a text is read differently then. And where margins are put at the end of a block, without a
semicolon, nothing behind them may be read as a part of them.
-/

import LeadingTrim.Proofs.Trimmer.PartByPart
import LeadingTrim.Proofs.Trimmer.Written

namespace LeadingTrim

open Sheet
open Text (isSheetSpace)

/-! ## Comments to the end of the line -/

namespace Sheet.Part

/-- Whether a comment to the end of the line is open behind a part, if one is open in front of it or
not. -/
def lineOpenBehind (opened : Bool) : Part → Bool
  | .space text => opened && !text.contains '\n'
  | .comment _ => opened
  | .lineComment _ => true
  | _ => false

/-- Whether nothing is lost of a part if it stands in a comment to the end of the line. -/
def fitsInLine (opened : Bool) : Part → Bool
  | .space _ | .lineComment _ => true
  | .comment text => !(opened && text.contains '\n')
  | _ => !opened

end Sheet.Part

/-- Whether comments to the end of the line are ended by what is kept behind them. The first
argument says whether such a comment is open. -/
def Request.linesKept (requests : List Request) : Bool → Nat → List Part → Bool
  | _, _, [] => true
  | opened, offset, p :: rest =>
    let behind := offset + p.text.byteSize
    if removes requests offset then linesKept requests opened behind rest
    else p.fitsInLine opened && linesKept requests (p.lineOpenBehind opened) behind rest

/-- What is said of each part, with its offset and the parts behind it. -/
def Sheet.ForallParts (P : Nat → Part → List Part → Prop) : Nat → List Part → Prop
  | _, [] => True
  | offset, p :: rest => P offset p rest ∧ ForallParts P (offset + p.text.byteSize) rest

instance Sheet.decidableForallParts {P : Nat → Part → List Part → Prop}
    [∀ offset p rest, Decidable (P offset p rest)] :
    (offset : Nat) → (all : List Part) → Decidable (ForallParts P offset all)
  | _, [] => isTrue trivial
  | offset, p :: rest =>
    have := decidableForallParts (P := P) (offset + p.text.byteSize) rest
    inferInstanceAs (Decidable (_ ∧ _))

theorem Sheet.ForallParts.of_append {P : Nat → Part → List Part → Prop} {offset : Nat} {p : Part}
    {front rest : List Part} (h : ForallParts P offset (front ++ p :: rest)) :
    P (offset + Text.byteSize (front.flatMap Part.text)) p rest := by
  induction front generalizing offset with
  | nil => exact h.1
  | cons q front ih =>
    have hrest := ih h.2
    rwa [List.flatMap_cons, Text.byteSize_append, ← Nat.add_assoc]

/-- The text, or what is left of it behind an open comment to the end of the line. -/
def lineRest (opened : Bool) (t : Text) : Text := if opened then t.dropWhile (· != '\n') else t

section LineRest

variable {depth : Nat} {x s s' : Text} {c : Char} {p : Part} {opened : Bool}

theorem lineRest_append (hx : '\n' ∉ x) (s : Text) : lineRest true (x ++ s) = lineRest true s :=
  List.dropWhile_append_of_pos fun a ha => by
    rw [bne_iff_ne]
    rintro rfl
    exact hx ha

/-- White space leaves no marks, but a line break in it ends a comment. -/
theorem marks_lineRest_space (hx : ∀ a ∈ x, isSheetSpace a = true) (opened : Bool) (s : Text) :
    marks depth (lineRest opened (x ++ s)) =
      marks depth (lineRest (opened && !x.contains '\n') s) := by
  cases opened with
  | false => exact marks_space hx s
  | true =>
    by_cases hbreak : '\n' ∈ x
    · obtain ⟨y, z, rfl, hy⟩ := List.eq_append_cons_of_mem hbreak
      have hline : lineRest true (y ++ '\n' :: z ++ s) = '\n' :: z ++ s := by
        rw [List.append_assoc, lineRest_append hy]
        rfl
      rw [hline, marks_space fun a ha => hx a (List.mem_append_right _ ha)]
      simp [lineRest]
    · rw [lineRest_append hbreak]
      simp [hbreak]

/-- A part that is kept leaves its mark, if nothing of it is lost in a comment. -/
theorem marks_lineRest_kept (hpart : part depth c (x ++ s) = p) (htext : p.text = c :: x)
    (hrow : p.hasSoundRow (0 < depth) (c :: (x ++ s)) = true) (hstray : ∀ text, p ≠ .stray text)
    (hopen : KeepsOpen p.text s s') (hfits : p.fitsInLine opened = true)
    (hends : ∀ d, p = .declaration d → d.terminated = false → ∃ l v v',
      s = Text.texts l ++ '\x7d' :: v ∧ EndsBlock d l v ∧ s' = Text.texts l ++ '\x7d' :: v') :
    marks depth (lineRest opened (p.text ++ s')) =
      p.mark?.toList ++ marks (p.depthBehind depth) (lineRest (p.lineOpenBehind opened) s') := by
  have hagain (hkeeps : p.Keeps s s') (hopened : opened = false)
      (hbehind : p.lineOpenBehind opened = false) :
      marks depth (lineRest opened (p.text ++ s')) =
        p.mark?.toList ++ marks (p.depthBehind depth) (lineRest (p.lineOpenBehind opened) s') := by
    rw [hbehind, hopened, htext]
    exact marks_of_part (part_congr hpart htext hstray hrow hkeeps) htext
  cases p with
  | space text =>
    exact marks_lineRest_space (isSheetSpace_of_part hpart) opened s'
  | comment text =>
    obtain rfl : text = c :: x := htext
    cases (filler_eq_some_iff.mp (filler_of_part (k := .comment) (by simp) hpart)).1 with
    | @comment u htail =>
      cases opened with
      | false => exact marks_comment htail s'
      | true =>
        exact congrArg (marks depth) (lineRest_append (x := '/' :: '*' :: u)
          (by simpa [Part.fitsInLine] using hfits) s')
  | lineComment text =>
    obtain rfl : text = c :: x := htext
    cases (filler_eq_some_iff.mp (filler_of_part (k := .lineComment) (by simp) hpart)).1 with
    | lineComment hhead hx =>
      have hbreak : '\n' ∉ x := fun hmem => by simpa using hx _ hmem
      cases opened with
      | false => exact marks_lineComment hhead hbreak s'
      | true =>
        exact congrArg (marks depth) (lineRest_append (x := '/' :: x) (by simpa using hbreak) s')
  | declaration d =>
    refine hagain ?_ (by simpa [Part.fitsInLine] using hfits) rfl
    refine ⟨hopen, fun hend => ?_⟩
    obtain ⟨l, v, v', rfl, hl, rfl⟩ := hends d rfl hend
    exact (hl.keeps hopen).2 hend
  | stray text => exact absurd rfl (hstray text)
  | atStatement | rule | atBlock | close =>
    exact hagain hopen (by simpa [Part.fitsInLine] using hfits) rfl

end LineRest

/-! ## The marks of what is put -/

namespace Request

/-- The comments that are open in a part, and that nothing ends, are not ended in the trimmed sheet
either, if the part is kept. If it is a head that is written again, for pseudo-elements, every
comment that is open in it is ended. -/
def KeepsComments (source : Text) (requests : List Request) (offset : Nat) (p : Part)
    (rest : List Part) : Prop :=
  let s : Text := rest.flatMap Part.text
  (omits requests offset = false → KeepsOpen p.text s
    (s.revise (put source requests) (omits requests) (offset + p.text.byteSize))) ∧
  ∀ q ∈ requests, q.scope = .inside → q.rule.start = offset → ClosesComments p.text s

/-- What is put in place of a directive without a semicolon is read in front of what stands behind
the directive. If that is a comment to the end of the line, the last margin has to end with a
bracket, for a unit would go on into it. If a brace is opened in it, white space has to stand on
both sides of the colon, for what begins there could be a selector otherwise. -/
structure KeepsEnd (q : Request) (behind : Text) : Prop where
  slashes : ['/', '/'] <+: behind → ∀ v ∈ q.last?, v.getLast? = some ')'
  brace : braceFirst behind = true → isSpaced q.declaration.separator = true

/-- What has to be so in a sheet for its parts to be read again: the comments to the end of a line
are ended by what is kept, no other comment is ended that was not, and behind the end of a margin
without a semicolon nothing is read as a part of it. -/
structure KeepsParts (source : Text) (requests : List Request) : Prop where
  lines : linesKept requests false 0 (parts source) = true
  comments : ForallParts (KeepsComments source requests) 0 (parts source)
  ends : ∀ q ∈ requests, q.isReplaced = true → q.declaration.terminated = false →
    q.KeepsEnd (source.dropBytes q.declaration.stop)

instance (source : Text) (requests : List Request) (offset : Nat) (p : Part) (rest : List Part) :
    Decidable (KeepsComments source requests offset p rest) :=
  inferInstanceAs (Decidable (_ ∧ _))

instance (q : Request) (behind : Text) : Decidable (q.KeepsEnd behind) :=
  decidable_of_iff ((['/', '/'] <+: behind → ∀ v ∈ q.last?, v.getLast? = some ')') ∧
      (braceFirst behind = true → isSpaced q.declaration.separator = true))
    ⟨fun ⟨h₁, h₂⟩ => ⟨h₁, h₂⟩, fun ⟨h₁, h₂⟩ => ⟨h₁, h₂⟩⟩

instance (source : Text) (requests : List Request) : Decidable (KeepsParts source requests) :=
  decidable_of_iff (linesKept requests false 0 (parts source) = true ∧
      ForallParts (KeepsComments source requests) 0 (parts source) ∧
      ∀ q ∈ requests, q.isReplaced = true → q.declaration.terminated = false →
        q.KeepsEnd (source.dropBytes q.declaration.stop))
    ⟨fun ⟨h₁, h₂, h₃⟩ => ⟨h₁, h₂, h₃⟩, fun ⟨h₁, h₂, h₃⟩ => ⟨h₁, h₂, h₃⟩⟩

/-- What the rules say that are put at an offset. -/
def rulesContents (requests : List Request) (offset : Nat) : List RuleContent :=
  requests.reverse.flatMap fun q =>
    if q.scope = .inside ∧ q.rule.stop = offset then q.pseudoContents else []

/-- What the margins say that are put at an offset. -/
def marginsContents (requests : List Request) (offset : Nat) : List (Text × Text) :=
  requests.flatMap fun q =>
    if q.isReplaced ∧ q.declaration.start = offset then q.marginContents else []

/-- The marks of the parts that are kept, with those of what is put between them. -/
def trimmedMarks (requests : List Request) : Nat → List Part → List Mark
  | offset, [] => (rulesContents requests offset).flatMap RuleContent.marks
  | offset, p :: rest =>
    (rulesContents requests offset).flatMap RuleContent.marks ++
      ((marginsContents requests offset).map .ofContent ++
        ((if omits requests offset then [] else p.mark?.toList)
          ++ trimmedMarks requests (offset + p.text.byteSize) rest))

section Marks

variable {source : Text} {qs : List Request} {depth offset : Nat} {opened : Bool} {q : Request}

/-- The rules that are put at an offset leave the marks of what they say. -/
theorem marks_putRules (hwritable : ∀ q ∈ qs, q.IsWritable source) (depth offset : Nat)
    (s : Text) :
    marks depth (putRules source qs offset ++ s) =
      (rulesContents qs offset).flatMap RuleContent.marks ++ marks depth s := by
  have hall : ∀ l : List Request, (∀ q ∈ l, q.IsWritable source) →
      marks depth ((l.flatMap fun q =>
          if q.scope = .inside ∧ q.rule.stop = offset then q.pseudoRules source else []) ++ s) =
        (l.flatMap fun q => if q.scope = .inside ∧ q.rule.stop = offset
          then q.pseudoContents else []).flatMap RuleContent.marks ++ marks depth s := by
    intro l hl
    induction l with
    | nil => rfl
    | cons q l ih =>
      rw [List.flatMap_cons, List.flatMap_cons, List.flatMap_append, List.append_assoc,
        List.append_assoc, ← ih fun q hq => hl q (List.mem_cons_of_mem _ hq)]
      split
      next hput => exact (hl q List.mem_cons_self).marks_pseudoRules hput.1 depth _
      · rfl
  exact hall _ fun q hq => hwritable q (List.mem_reverse.mp hq)

theorem rulesContents_eq_nil (h : ∀ q ∈ qs, q.scope = .inside → q.rule.stop ≠ offset) :
    rulesContents qs offset = [] := by
  refine List.flatMap_eq_nil_iff.mpr fun q hq => if_neg fun hput => ?_
  exact h q (List.mem_reverse.mp hq) hput.1 hput.2

theorem marginsContents_eq_nil
    (h : ∀ q ∈ qs, q.isReplaced = true → q.declaration.start ≠ offset) :
    marginsContents qs offset = [] :=
  List.flatMap_eq_nil_iff.mpr fun q hq => if_neg fun hput => h q hq hput.1 hput.2

/-- No rule is put where a comment is open. -/
theorem marks_lineRest_putRules (hwritable : ∀ q ∈ qs, q.IsWritable source)
    (hstop : ∀ q ∈ qs, q.scope = .inside → q.rule.stop = offset → opened = false) (s : Text) :
    marks depth (lineRest opened (putRules source qs offset ++ s)) =
      (rulesContents qs offset).flatMap RuleContent.marks ++ marks depth (lineRest opened s) := by
  cases opened with
  | false => exact marks_putRules hwritable depth offset s
  | true =>
    have hnone : ∀ q ∈ qs, q.scope = .inside → q.rule.stop ≠ offset := fun q hq hscope hn => by
      cases hstop q hq hscope hn
    rw [putRules_eq_nil hnone, rulesContents_eq_nil hnone]
    rfl

/-- At the start of a directive only its own request puts margins. -/
theorem flatMap_margins_eq {α : Type} (f : Request → List α) (hapart : AreApart qs) (hq : q ∈ qs)
    (hstart : q.declaration.start = offset) :
    (qs.flatMap fun q' => if q'.isReplaced ∧ q'.declaration.start = offset then f q' else []) =
      if q.isReplaced then f q else [] := by
  obtain ⟨front, behind, rfl⟩ := List.append_of_mem hq
  have hnone : ∀ q' ∈ front ++ behind, q'.declaration.start ≠ offset := by
    have hrest := (List.pairwise_middle (fun h => Ne.symm h)).mp hapart
    rw [List.pairwise_cons] at hrest
    exact fun q' hq' h => hrest.1 q' hq' (hstart.trans h.symm)
  have hnil : ∀ l : List Request, (∀ q' ∈ l, q' ∈ front ++ behind) → (l.flatMap fun q' =>
      if q'.isReplaced ∧ q'.declaration.start = offset then f q' else []) = [] := fun l hl =>
    List.flatMap_eq_nil_iff.mpr fun q' hq' => if_neg fun h => hnone q' (hl q' hq') h.2
  rw [List.flatMap_append, List.flatMap_cons, hnil front fun _ => List.mem_append_left _,
    hnil behind fun _ => List.mem_append_right _]
  simp [hstart]

theorem putMargins_eq (hapart : AreApart qs) (hq : q ∈ qs) (hstart : q.declaration.start = offset) :
    putMargins source qs offset = if q.isReplaced then q.margins source else [] :=
  flatMap_margins_eq _ hapart hq hstart

theorem marginsContents_eq (hapart : AreApart qs) (hq : q ∈ qs)
    (hstart : q.declaration.start = offset) :
    marginsContents qs offset = if q.isReplaced then q.marginContents else [] :=
  flatMap_margins_eq _ hapart hq hstart

/-! ## The marks of what is left -/

/-- What is put into a sheet leaves the end of a block behind a declaration without a semicolon. -/
theorem exists_revise_endsBlock {c : Char} {x s : Text} {d : DeclarationText} {rest : List Part}
    (hpart : part depth c (x ++ s) = .declaration d) (htext : d.text = c :: x)
    (hrow : (Part.declaration d).hasSoundRow (0 < depth) (c :: (x ++ s)) = true)
    (hend : d.terminated = false) (hrest : SoundParts depth true s rest)
    (hqs : ∀ q ∈ qs, q.Stands source offset rest)
    (hstop : ∀ q ∈ qs, q.scope = .inside → q.rule.stop ≠ offset) :
    ∃ l v v', s = Text.texts l ++ '\x7d' :: v ∧ EndsBlock d l v ∧
      s.revise (put source qs) (omits qs) offset = Text.texts l ++ '\x7d' :: v' := by
  obtain ⟨l, v, behind, rfl, hl, rfl⟩ :=
    SoundParts.exists_endsBlock hpart htext hrow hend hrest
  obtain ⟨v', hv'⟩ := exists_revise_eq hqs hstop v
  exact ⟨l, v, v', rfl, hl, hv'⟩

/-- The margins that take the place of a directive leave the marks of what they say. -/
theorem marks_replaced (depth : Nat) {text : DeclarationText} {last : Nat} {before s s' t : Text}
    (hq : q.IsWritable source) (hreplaced : q.isReplaced = true)
    (hd : q.declaration = text.toDeclaration source last offset)
    (hreads : declaration? t = some text) (hsource : source = before ++ text.text ++ s)
    (hoffset : before.byteSize = offset)
    (hends : q.declaration.terminated = false →
      q.KeepsEnd (source.dropBytes q.declaration.stop))
    (hblock : text.terminated = false → ∃ l v v',
      s = Text.texts l ++ '\x7d' :: v ∧ EndsBlock text l v ∧ s' = Text.texts l ++ '\x7d' :: v') :
    marks depth (q.margins source ++ s') = q.marginContents.map .ofContent ++ marks depth s' := by
  have hsep : IsSeparator q.declaration.separator := by
    rw [hd]
    exact isSeparator_of_declaration? hreads
  have hterminated : q.declaration.terminated = text.terminated := by rw [hd]; rfl
  have hdrop : source.dropBytes q.declaration.stop = s := by
    have hstop : q.declaration.stop = (before ++ text.text).byteSize := by
      rw [Text.byteSize_append, hoffset, hd]
      rfl
    rw [hstop, hsource]
    exact Text.dropBytes_byteSize_append _ _
  have hneeded : q.isNeeded = true := by
    rw [isReplaced, Bool.and_eq_true] at hreplaced
    exact hreplaced.2
  refine marks_margins depth hneeded hsep hq.leading hq.before hq.after
    fun side hside v hlast hv => ?_
  unfold Correction.margin
  rw [hterminated]
  cases hend : text.terminated with
  | true => exact marks_margin depth hsep hside hv s'
  | false =>
    obtain ⟨l, v', w, hs, hl, rfl⟩ := hblock hend
    rw [hdrop, hs] at hends
    have hkeeps := hends (hterminated.trans hend)
    exact marks_margin_ended depth hl hsep hside hv (fun h => hkeeps.slashes h v hlast) hkeeps.brace
      w

/-- The marks of what is left of a sound sheet from some part on. -/
theorem marks_revise (opened : Bool) {t : Text} (before : Text) {ended : Bool} {all : List Part}
    (hall : SoundParts depth ended t all) (hsource : source = before ++ t)
    (hoffset : before.byteSize = offset) (hqs : ∀ q ∈ qs, q.Stands source offset all)
    (hwritable : ∀ q ∈ qs, q.IsWritable source) (hapart : AreApart qs)
    (hstop : ∀ q ∈ qs, q.scope = .inside → q.rule.stop = offset → opened = false)
    (hcomments : ForallParts (KeepsComments source qs) offset all)
    (hends : ∀ q ∈ qs, q.isReplaced = true → q.declaration.terminated = false →
      q.KeepsEnd (source.dropBytes q.declaration.stop))
    (hlines : linesKept qs opened offset all = true) :
    marks depth (lineRest opened (t.revise (put source qs) (omits qs) offset)) =
      trimmedMarks qs offset all := by
  induction hall generalizing offset before opened with
  | nil =>
    have hnone : ∀ q ∈ qs, q.declaration.start ≠ offset := fun q hq hstart => by
      rcases (hqs q hq).declaration with hd | hd
      · have := (hqs q hq).fits.start_lt_stop
        omega
      · cases hd
    have hput : Text.revise (put source qs) (omits qs) offset [] =
        putRules source qs offset ++ [] :=
      congrArg _ (putMargins_eq_nil fun q hq _ => hnone q hq)
    rw [hput, marks_lineRest_putRules hwritable hstop]
    cases opened <;> simp [lineRest, marks_nil, trimmedMarks]
  | @cons depth ended c x s p rest hpart htext hrow hstray hclose hended hrest ih =>
    have hne : p.text ≠ [] := by simp [htext]
    have hbehind : source = (before ++ p.text) ++ s := by rw [hsource, htext]; simp
    have hsize : (before ++ p.text).byteSize = offset + p.text.byteSize := by
      rw [Text.byteSize_append, hoffset]
    have hqs' : ∀ q ∈ qs, q.Stands source (offset + p.text.byteSize) rest := fun q hq =>
      (hqs q hq).tail
    have hstop' : p ≠ .close → ∀ q ∈ qs, q.scope = .inside →
        q.rule.stop ≠ offset + p.text.byteSize := fun hp q hq _ hn =>
      hp ((hqs q hq).eq_close hne hn)
    rw [linesKept] at hlines
    rw [show c :: (x ++ s) = p.text ++ s by rw [htext]; rfl, revise_part hqs hne,
      marks_lineRest_putRules hwritable hstop, trimmedMarks, List.append_cancel_left_eq]
    -- a declaration without a semicolon is the last thing in its block, and stays so
    have hblock : ∀ d, p = .declaration d → d.terminated = false → ∃ l v v',
        s = Text.texts l ++ '\x7d' :: v ∧ EndsBlock d l v ∧
          s.revise (put source qs) (omits qs) (offset + p.text.byteSize) =
            Text.texts l ++ '\x7d' :: v' := by
      rintro d rfl hend
      have hended : (Part.declaration d).endedBehind ended = true := by
        simp [Part.endedBehind, hend]
      rw [hended] at hrest
      exact exists_revise_endsBlock hpart htext hrow hend hrest hqs' (hstop' (by simp))
    have hfate := fate hapart hqs hne
    cases hfate with
    | kept homits hremoves hnone =>
      rw [hremoves, if_neg Bool.false_ne_true, Bool.and_eq_true] at hlines
      rw [putMargins_eq_nil fun q hq _ => hnone q hq,
        marginsContents_eq_nil fun q hq _ => hnone q hq, homits, if_neg Bool.false_ne_true,
        if_neg Bool.false_ne_true, List.nil_append, List.map_nil, List.nil_append]
      have hopen := hcomments.1.1 homits
      rw [hrest.flatMap_text] at hopen
      rw [marks_lineRest_kept hpart htext hrow hstray hopen hlines.1 hblock,
        List.append_cancel_left_eq]
      refine ih _ _ hbehind hsize hqs' (fun q hq hscope hn => ?_) hcomments.2 hlines.2
      obtain rfl := (hqs q hq).eq_close hne hn
      rfl
    | gap homits hremoves hnone =>
      rw [hremoves, if_pos rfl] at hlines
      rw [putMargins_eq_nil fun q hq _ => hnone q hq,
        marginsContents_eq_nil fun q hq _ => hnone q hq, homits]
      exact ih _ _ hbehind hsize hqs'
        (fun q hq hscope hn => absurd hn (hstop' (by simp) q hq hscope)) hcomments.2 hlines
    | @directive q text last homits hq hd hremoves hunique =>
      have hstart : q.declaration.start = offset := by rw [hd]; rfl
      rw [putMargins_eq hapart hq hstart, marginsContents_eq hapart hq hstart, homits]
      cases hreplaced : q.isReplaced with
      | false =>
        rw [hremoves, hreplaced, Bool.not_false, if_pos rfl] at hlines
        exact ih _ _ hbehind hsize hqs'
          (fun q hq hscope hn => absurd hn (hstop' (by simp) q hq hscope)) hcomments.2 hlines
      | true =>
        rw [hremoves, hreplaced, Bool.not_true, if_neg Bool.false_ne_true,
          Bool.and_eq_true] at hlines
        obtain rfl : opened = false := by simpa [Part.fitsInLine] using hlines.1
        have hmargins := marks_replaced depth (hwritable q hq) hreplaced hd
          (declaration?_of_part hpart) hbehind hoffset (hends q hq hreplaced) (hblock text rfl)
        exact hmargins.trans (congrArg _ (ih _ _ hbehind hsize hqs' (fun _ _ _ _ => rfl) hcomments.2
          hlines.2))

end Marks

end Request

/-! ## Trimmed sheets -/

/-- A text without a byte order mark begins with its first part. -/
theorem Sheet.parts_of_head? {t : Text} (h : t.head? ≠ some byteOrderMark) :
    parts t = partsOf t := by
  cases t with
  | nil => rfl
  | cons c t =>
    rw [parts, if_neg]
    simpa using h

namespace Trimmer

variable {t : Trimmer} {source : Text}

/-- In a sound sheet nothing changes at its start. -/
theorem put_zero (hsound : isSound source = true) :
    (∀ q ∈ t.requests (Sheet.rules source), q.rule.stop ≠ 0 ∧ q.declaration.start ≠ 0) ∧
      Request.put source (t.requests (Sheet.rules source)) 0 = [] ∧
      Request.omits (t.requests (Sheet.rules source)) 0 = false := by
  have hpos : ∀ q ∈ t.requests (Sheet.rules source), 0 < q.declaration.leadingStart ∧
      q.declaration.leadingStart ≤ q.declaration.start ∧ 0 < q.rule.stop := by
    intro q hq
    have hle := (fits_of_mem_requests (Sheet.fits_rules source) hq).leadingStart_le_start
    have hlt := (fits_of_mem_requests (Sheet.fits_rules source) hq).start_lt_stop
    obtain ⟨⟨r, d⟩, hx, hq⟩ := List.mem_filterMap.mp hq
    obtain ⟨directive, -, rfl⟩ := Option.map_eq_some_iff.mp hq
    obtain ⟨hr, hd, -⟩ := mem_directives.mp hx
    obtain ⟨-, hleading, hstop⟩ := (isWellFormed_of_mem_rules hsound hr).declaration d hd
    dsimp only at hle hlt ⊢
    omega
  have hne : ∀ q ∈ t.requests (Sheet.rules source),
      q.rule.stop ≠ 0 ∧ q.declaration.start ≠ 0 := by
    intro q hq
    have hbehind := hpos q hq
    omega
  refine ⟨hne, List.append_eq_nil_iff.mpr ⟨Request.putRules_eq_nil fun q hq _ => (hne q hq).1,
    Request.putMargins_eq_nil fun q hq _ => (hne q hq).2⟩, ?_⟩
  by_contra homits
  obtain ⟨q, hq, hgap, -⟩ := Request.omits_eq_true_iff.mp (by simpa using homits)
  have := hpos q hq
  unfold Request.gapStart at hgap
  split at hgap <;> omega

/-- A trimmed sheet is read as the parts that are kept, and what is put between them. -/
theorem marks_trimmed (hsound : isSound source = true)
    (hkeeps : Request.KeepsParts source (t.requests (Sheet.rules source))) :
    (parts (t.trimmed source (Sheet.rules source))).filterMap Part.mark? =
      Request.trimmedMarks (t.requests (Sheet.rules source)) 0 (parts source) := by
  obtain ⟨hne, hput, homits⟩ := put_zero (t := t) hsound
  have hwritable : ∀ q ∈ t.requests (Sheet.rules source), q.IsWritable source := by
    intro q hq
    refine isWritable_of_mem_requests hsound hq fun hscope front head rest hparts hstart => ?_
    have hcomments := hkeeps.comments
    rw [hparts] at hcomments
    exact hcomments.of_append.2 q hq hscope (hstart.trans (Nat.zero_add _).symm)
  have hstands := fun q hq => stands_of_mem_requests (t := t) (q := q) hsound hq
  have hapart := areApart_requests t source
  have hlines := hkeeps.lines
  have hcomments := hkeeps.comments
  have htrimmed : ∀ {c s}, source = c :: s → t.trimmed source (Sheet.rules source) =
      c :: Text.revise (Request.put source (t.requests (Sheet.rules source)))
        (Request.omits (t.requests (Sheet.rules source))) c.utf8Size s := by
    intro c s hs
    conv => lhs; rw [trimmed]
    rw [show Text.revise _ _ 0 source = _ from congrArg _ hs, Text.revise, hput, homits,
      Nat.zero_add]
    rfl
  obtain ⟨mark, s, all, hsource, hall, ⟨rfl, hhead, hparts⟩ | ⟨rfl, hparts⟩⟩ :=
    exists_soundParts hsound
  · rw [List.nil_append] at hsource
    subst hsource
    have hhead' : (t.trimmed source (Sheet.rules source)).head? ≠ some byteOrderMark := by
      cases source with
      | nil => rw [trimmed, Text.revise, hput]; exact (Option.some_ne_none _).symm
      | cons c s => rw [htrimmed rfl]; exact hhead
    rw [parts_of_head? hhead', hparts]
    rw [hparts] at hstands hlines hcomments
    exact Request.marks_revise false [] hall rfl rfl hstands hwritable hapart
      (fun _ _ _ _ => rfl) hcomments hkeeps.ends hlines
  · have hcode := htrimmed hsource
    have hremoves : Request.removes (t.requests (Sheet.rules source)) 0 = false := by
      by_contra h
      rw [Request.omits_of_removes (by simpa using h)] at homits
      cases homits
    rw [hparts] at hstands hlines hcomments
    rw [Request.linesKept, hremoves, if_neg Bool.false_ne_true, Bool.and_eq_true] at hlines
    have hcontents := Request.marks_revise false [byteOrderMark] hall hsource rfl
      (fun q hq => (hstands q hq).tail) hwritable hapart (fun _ _ _ _ => rfl) hcomments.2
      hkeeps.ends hlines.2
    rw [hcode, hparts, parts, if_pos (beq_self_eq_true _), Request.trimmedMarks,
      Request.rulesContents_eq_nil fun q hq _ => (hne q hq).1,
      Request.marginsContents_eq_nil fun q hq _ => (hne q hq).2, homits]
    exact hcontents

end Trimmer

end LeadingTrim
