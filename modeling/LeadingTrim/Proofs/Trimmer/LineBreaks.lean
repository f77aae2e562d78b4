/-
# Line breaks are kept

In a sheet whose lines end with a carriage return and a line feed the two are to stay together. A
text has them paired (`Text.FeedsPaired`) if it is put together from such texts, and so is a piece
of it that begins at a seam. The edits of a directive put pieces of the sheet, selectors with
pseudo-elements, lengths and line breaks like the first one of the sheet; all of these are paired if
the pieces begin at seams. So a sound sheet is trimmed to a paired one (`feedsPaired_code`), unless
a line break is cut at one of its directives (`Unbroken`).

The condition is needed: a comment to the end of the line holds the carriage return of its line
break, and where one stands in front of a directive, the white space between the two begins with a
bare line feed.
-/

import LeadingTrim.Proofs.Directive.Parse
import LeadingTrim.Proofs.Sheet.Closed
import LeadingTrim.Proofs.Text.Seam
import LeadingTrim.Proofs.Trimmer.Result
import LeadingTrim.Proofs.Trimmer.Returns

namespace LeadingTrim

open Sheet (Declaration Rule)

/-! ## Line feeds behind carriage returns -/

namespace Text

/-- Line feeds stand behind carriage returns only. -/
def FeedsPaired (t : Text) : Prop := ∀ u v, t = u ++ '\n' :: v → u.getLast? = some '\r'

variable {s t u v : Text}

theorem feedsPaired_iff :
    FeedsPaired t ↔ ∀ k < t.length, t[k]? = some '\n' → (t.take k).getLast? = some '\r' := by
  constructor
  · intro h k hk hfeed
    rw [List.getElem?_eq_getElem hk, Option.some.injEq] at hfeed
    refine h (t.take k) (t.drop (k + 1)) ?_
    rw [← hfeed, ← List.drop_eq_getElem_cons hk, List.take_append_drop]
  · rintro h u v rfl
    have hlast := h u.length (by simp) (by simp)
    rwa [List.take_left] at hlast

instance (t : Text) : Decidable (FeedsPaired t) := decidable_of_iff _ feedsPaired_iff.symm

theorem feedsPaired_of_not_mem (h : '\n' ∉ t) : FeedsPaired t := by
  rintro u v rfl
  exact absurd (List.mem_append_right _ List.mem_cons_self) h

theorem FeedsPaired.append (hs : FeedsPaired s) (ht : FeedsPaired t) : FeedsPaired (s ++ t) := by
  intro u v happend
  rcases List.append_eq_append_iff.mp happend with ⟨b, rfl, hb⟩ | ⟨a, rfl, ha⟩
  · -- the line feed stands in the second part
    rw [List.getLast?_append, ht b v hb, Option.some_or]
  · cases a with
    | nil => exact absurd (ht [] v ha.symm) (by simp)
    | cons c a =>
      obtain ⟨rfl, -⟩ := List.cons.inj ha
      exact hs u a rfl

theorem FeedsPaired.left (h : FeedsPaired (s ++ t)) : FeedsPaired s := by
  rintro u v rfl
  exact h u (v ++ t) (by simp)

/-- A line feed does not follow what does not end with a carriage return. -/
theorem FeedsPaired.head?_ne (h : FeedsPaired (s ++ t)) (hs : EndsClear s) :
    t.head? ≠ some '\n' := by
  intro hfeed
  obtain ⟨v, rfl⟩ := List.head?_eq_some_iff.mp hfeed
  exact hs (h s v rfl)

theorem FeedsPaired.right (h : FeedsPaired (s ++ t)) (ht : t.head? ≠ some '\n') :
    FeedsPaired t := by
  rintro u v rfl
  have hlast := h (s ++ u) v (by simp)
  cases u with
  | nil => exact absurd rfl ht
  | cons c u =>
    rw [List.getLast?_append] at hlast
    cases hu : (c :: u).getLast? with
    | none => simp at hu
    | some d => rwa [hu, Option.some_or] at hlast

theorem FeedsPaired.right_of_endsClear (h : FeedsPaired (s ++ t)) (hs : EndsClear s) :
    FeedsPaired t := h.right (h.head?_ne hs)

/-- What stands behind a seam begins in no line break. -/
theorem FeedsPaired.dropBytes (h : FeedsPaired t) {n : Nat} (hn : IsSeam t n) :
    FeedsPaired (t.dropBytes n) := by
  obtain ⟨u, v, rfl, rfl, hseam⟩ := hn
  rw [dropBytes_byteSize_append]
  refine h.right fun hfeed => hseam ⟨?_, hfeed⟩
  obtain ⟨w, rfl⟩ := List.head?_eq_some_iff.mp hfeed
  exact h u w rfl

theorem FeedsPaired.slice (h : FeedsPaired t) {n : Nat} (hn : IsSeam t n) (m : Nat) :
    FeedsPaired (t.slice n m) := by
  have hbehind := h.dropBytes hn
  rw [← takeBytes_append_dropBytes (m - n) (t.dropBytes n)] at hbehind
  exact hbehind.left

/-- An offset behind a character that is no carriage return is a seam. -/
theorem isSeam_of_concat {c : Char} (ht : t = u ++ [c] ++ v) (hc : c ≠ '\r') :
    IsSeam t (u ++ [c]).byteSize :=
  ⟨u ++ [c], v, ht, rfl, fun hbreak => endsClear_concat hc hbreak.1⟩

theorem isSeam_zero (t : Text) : IsSeam t 0 := ⟨[], t, rfl, rfl, by simp⟩

theorem FeedsPaired.joinWith {separator : Text} (hseparator : FeedsPaired separator)
    {texts : List Text} (h : ∀ t ∈ texts, FeedsPaired t) :
    FeedsPaired (joinWith separator texts) := by
  induction texts with
  | nil => exact feedsPaired_of_not_mem List.not_mem_nil
  | cons t texts ih =>
    obtain ⟨ht, htexts⟩ := List.forall_mem_cons.mp h
    cases texts with
    | nil => exact ht
    | cons u texts => exact (ht.append hseparator).append (ih htexts)

/-- A text is not split in its line breaks. -/
theorem Splitter.feedsPaired_of_pieces {p : Splitter}
    (hp : ∀ c, p.separates c = true → c ≠ '\r') {d : Depth} {front piece behind : Text}
    {more : List (Text × Text)} (h : FeedsPaired (front ++ t))
    (hpieces : p.pieces d t = (piece, behind) :: more) :
    FeedsPaired (front ++ piece) ∧ ∀ x ∈ more, FeedsPaired x.1 := by
  induction t generalizing d front piece behind more with
  | nil =>
    obtain ⟨hfirst, rfl⟩ := List.cons.inj hpieces
    obtain ⟨rfl, -⟩ := Prod.mk.inj hfirst
    exact ⟨h, by simp⟩
  | cons c t ih =>
    have hfront : FeedsPaired (front ++ [c] ++ t) := by simpa using h
    rw [pieces] at hpieces
    split at hpieces
    next hends =>
      obtain ⟨hfirst, rfl⟩ := List.cons.inj hpieces
      obtain ⟨rfl, -⟩ := Prod.mk.inj hfirst
      obtain ⟨piece', behind', more', hpieces', -⟩ := p.head_pieces d t
      obtain ⟨hnext, hmore⟩ := ih hfront hpieces'
      have hc : c ≠ '\r' := hp c (by simp_all [ends])
      rw [hpieces']
      refine ⟨by simpa using hfront.left.left, List.forall_mem_cons.mpr ⟨?_, hmore⟩⟩
      exact hnext.right_of_endsClear (endsClear_concat hc)
    · obtain ⟨piece', behind', more', hpieces', -⟩ := p.head_pieces (p.next d c) t
      obtain ⟨hnext, hmore⟩ := ih hfront hpieces'
      rw [hpieces'] at hpieces
      obtain ⟨hfirst, rfl⟩ := List.cons.inj hpieces
      obtain ⟨rfl, -⟩ := Prod.mk.inj hfirst
      exact ⟨by simpa using hnext, hmore⟩

end Text

open Text (EndsClear FeedsPaired IsSeam feedsPaired_of_not_mem)

/-! ## Selectors -/

namespace Selector

variable {list pseudo : Text}

theorem feedsPaired_withPseudo (hpseudo : '\n' ∉ pseudo) {selector : Text}
    (h : FeedsPaired selector) : FeedsPaired (withPseudo pseudo selector) := by
  obtain ⟨tail, htail, -⟩ := Text.exists_trimEnd_append selector
  have hdrop : (selector.trimEnd ++ tail).drop selector.trimEnd.length = tail := List.drop_left
  have hclear : EndsClear selector.trimEnd := fun hlast =>
    absurd (Directive.endsInk_trimEnd selector '\r' hlast) (by decide)
  rw [← htail] at hdrop
  rw [htail] at h
  rw [withPseudo, hdrop]
  exact (h.left.append (feedsPaired_of_not_mem hpseudo)).append (h.right_of_endsClear hclear)

theorem feedsPaired_appendAtCommas (hpseudo : '\n' ∉ pseudo) (h : FeedsPaired list) :
    FeedsPaired (appendAtCommas list pseudo) := by
  refine .joinWith (feedsPaired_of_not_mem (by decide)) fun t ht => ?_
  obtain ⟨piece, hpiece, rfl⟩ := List.mem_map.mp ht
  obtain ⟨first, behind, more, hsplit, -⟩ := commas.head_pieces .outside list
  obtain ⟨hfirst, hmore⟩ := Text.Splitter.feedsPaired_of_pieces
    (fun c hc => by rintro rfl; exact absurd hc (by decide)) (show FeedsPaired ([] ++ list) from h)
    hsplit
  rw [Text.Splitter.split, hsplit] at hpiece
  rcases List.mem_cons.mp hpiece with rfl | hpiece
  · exact feedsPaired_withPseudo hpseudo hfirst
  · exact feedsPaired_withPseudo hpseudo (hmore piece hpiece)

theorem feedsPaired_appendFrom (hpseudo : '\n' ∉ pseudo) (h : FeedsPaired list) {cursor : Nat}
    (hcursor : IsSeam list cursor) {branches : List (Nat × Nat)}
    (hbranches : ∀ b ∈ branches, IsSeam list b.2) :
    FeedsPaired (appendFrom list pseudo cursor branches) := by
  induction branches generalizing cursor with
  | nil => exact h.dropBytes hcursor
  | cons b branches ih =>
    obtain ⟨hb, hbranches⟩ := List.forall_mem_cons.mp hbranches
    exact ((h.slice hcursor b.2).append (feedsPaired_of_not_mem hpseudo)).append (ih hb hbranches)

/-- Pseudo-elements are put into no line break if no selector ends in one. -/
theorem feedsPaired_append (hpseudo : '\n' ∉ pseudo) (h : FeedsPaired list)
    {branches : List (Nat × Nat)} (hbranches : ∀ b ∈ branches, IsSeam list b.2) :
    FeedsPaired (append list branches pseudo) := by
  unfold append
  split
  · exact feedsPaired_appendAtCommas hpseudo h
  · exact feedsPaired_appendFrom hpseudo h (Text.isSeam_zero list) hbranches

end Selector

/-! ## Pieces of the sheet -/

namespace Sheet

variable {source : Text} {r : Rule} {d : Declaration}

/-- A part that is not white space begins in no line break. -/
theorem feedsPaired_text (hsource : FeedsPaired source) {p : Part} (hp : p ∈ parts source)
    (hspace : ∀ text, p ≠ .space text) : FeedsPaired p.text := by
  obtain ⟨before, after, happend⟩ := exists_append_of_mem_parts hp
  obtain ⟨c, rest, htext, hc⟩ := exists_cons_of_mem_parts hp hspace
  rw [happend] at hsource
  refine hsource.left.right ?_
  rw [htext, List.head?_cons]
  rintro ⟨⟩
  exact absurd hc (by decide)

theorem feedsPaired_selector (hsource : FeedsPaired source) (hr : r ∈ rules source) :
    FeedsPaired r.selector := by
  obtain ⟨head, offset, rest, hhead, rfl⟩ := exists_of_mem_rulesFrom (rules_eq source ▸ hr)
  have htext : FeedsPaired (head.selector ++ head.gap ++ ['{']) :=
    feedsPaired_text hsource hhead nofun
  exact htext.left.left

/-- The separator of a declaration stands behind the name. -/
theorem feedsPaired_separator (hsource : FeedsPaired source) (hr : r ∈ rules source)
    (hd : d ∈ r.declarations) (hname : EndsClear d.property) : FeedsPaired d.separator := by
  obtain ⟨before, t, leadingStart, after, -, ht, rfl⟩ := exists_of_mem_declarations hr hd
  have htext := feedsPaired_text hsource ht nofun
  have happend : (Part.declaration t).text = t.name ++ (t.gap ++ [':'] ++ t.value.takeWhile
      Text.isBlank ++ (t.value.dropWhile Text.isBlank ++ if t.terminated then [';'] else [])) := by
    simp only [Part.text, DeclarationText.text, List.append_assoc]
    rw [← List.append_assoc (t.value.takeWhile _), List.takeWhile_append_dropWhile]
  rw [happend] at htext
  exact (htext.right_of_endsClear hname).left

end Sheet

/-! ## What is written for a directive -/

/-- No line break is cut where a directive of a rule is replaced. The part in front of it, its name
and its value do not end with a carriage return that a line feed follows, and no selector of the
rule does. The part in front may do so where it is a comment to the end of the line, the others
where an escape ends in front of the line feed. -/
structure Unbroken (source : Text) (r : Rule) (d : Declaration) : Prop where
  leadingStart : IsSeam source d.leadingStart
  property : EndsClear d.property
  stop : d.terminated = false → IsSeam source d.stop
  branches : ∀ b ∈ r.branches, IsSeam r.selector b.2

instance (source : Text) (r : Rule) (d : Declaration) : Decidable (Unbroken source r d) :=
  have : Decidable (EndsClear d.property) := inferInstanceAs (Decidable (_ ≠ _))
  decidable_of_iff (IsSeam source d.leadingStart ∧ EndsClear d.property ∧
      (d.terminated = false → IsSeam source d.stop) ∧ ∀ b ∈ r.branches, IsSeam r.selector b.2)
    ⟨fun ⟨h₁, h₂, h₃, h₄⟩ => ⟨h₁, h₂, h₃, h₄⟩, fun ⟨h₁, h₂, h₃, h₄⟩ => ⟨h₁, h₂, h₃, h₄⟩⟩

/-- In a sheet with line breaks new ones are like the first one. -/
theorem Correction.lineBreak_of_feedsPaired {source : Text} (hsource : FeedsPaired source)
    (hfeed : '\n' ∈ source) : Correction.lineBreak source = ['\r', '\n'] := by
  have hbehind : (source.dropWhile (· != '\n')).head? = some '\n' := by
    have hne : source.dropWhile (· != '\n') ≠ [] := by
      rw [ne_eq, List.dropWhile_eq_nil_iff]
      exact fun hall => absurd (hall '\n' hfeed) (by decide)
    obtain ⟨c, rest, hcons⟩ := List.exists_cons_of_ne_nil hne
    have hhead := List.head?_dropWhile_not (· != '\n') source
    rw [hcons] at hhead ⊢
    simpa using hhead
  obtain ⟨v, hv⟩ := List.head?_eq_some_iff.mp hbehind
  have hfirst := hsource (source.takeWhile (· != '\n')) v
    (by rw [← hv, List.takeWhile_append_dropWhile])
  have hcontains : source.contains '\n' = true := by simpa using hfeed
  unfold Correction.lineBreak
  rw [hcontains, hfirst]
  rfl

theorem Text.isAdditive_feedsPaired : Text.IsAdditive FeedsPaired where
  plain _ _ hfeed := feedsPaired_of_not_mem hfeed
  append := FeedsPaired.append

/-- What is written for a directive is put together from texts with their line breaks whole. -/
theorem Unbroken.isMadeOf {source : Text} {r : Rule} {d : Declaration} (h : Unbroken source r d)
    (hsource : FeedsPaired source) (hfeed : '\n' ∈ source) (hr : r ∈ Sheet.rules source)
    (hd : d ∈ r.declarations) : Correction.IsMadeOf FeedsPaired source r d where
  newline := by
    rw [Correction.lineBreak_of_feedsPaired hsource hfeed]
    decide
  indent := by
    have hplain : ∀ c ∈ r.indent, c = ' ' ∨ c = '\t' := fun c hc =>
      Sheet.eq_space_or_eq_tab_of_mem_indent hr hc
    exact Text.isAdditive_feedsPaired.plain _ (fun hmem => absurd (hplain _ hmem) (by decide))
      fun hmem => absurd (hplain _ hmem) (by decide)
  selector _ _ hpseudo :=
    Selector.feedsPaired_append hpseudo (Sheet.feedsPaired_selector hsource hr) h.branches
  separator := Sheet.feedsPaired_separator hsource hr hd h.property
  leading := hsource.slice h.leadingStart _

/-! ## Where edits end -/

section Ends

variable {source : Text} {r : Rule} (hr : r ∈ Sheet.rules source) {d : Declaration}

include hr

/-- A declaration with a semicolon ends in no line break. -/
theorem Unbroken.isSeam_stop (h : Unbroken source r d) (hd : d ∈ r.declarations) :
    IsSeam source d.stop := by
  cases hterminated : d.terminated with
  | false => exact h.stop hterminated
  | true =>
    obtain ⟨before, t, leadingStart, after, hsource, -, rfl⟩ :=
      Sheet.exists_of_mem_declarations hr hd
    have htext : t.text = t.name ++ t.gap ++ [':'] ++ t.value ++ [';'] := by
      rw [Sheet.DeclarationText.text, if_pos (show t.terminated = true from hterminated)]
    rw [htext, ← List.append_assoc before] at hsource
    have hseam := Text.isSeam_of_concat hsource (by decide)
    rw [List.append_assoc, ← htext, Text.byteSize_append] at hseam
    exact hseam

/-- In a sound sheet, edits of directives end in no line break. -/
theorem Unbroken.isSeam_of_mem_edits (hsound : Sheet.isSound source = true)
    (h : Unbroken source r d) (hd : d ∈ r.declarations) {scope : Scope} {p : Placement}
    {o : Offsets} {e : Edit} (he : e ∈ Correction.edits source r d scope p o) :
    IsSeam source e.stop := by
  rcases Correction.mem_edits he with rfl | ⟨text, rfl⟩ | ⟨text, rfl⟩
  · exact h.isSeam_stop hr hd
  · exact h.isSeam_stop hr hd
  · obtain ⟨before, after, hsource, hstop⟩ := Sheet.exists_stop_of_mem_rules hsound hr
    have hseam := Text.isSeam_of_concat (v := after) (by simpa using hsource)
      (show '}' ≠ '\r' by decide)
    exact hstop ▸ hseam

end Ends

/-! ## Runs -/

/-- Edits that end in no line break and put pairs only leave pairs. -/
theorem Edit.feedsPaired_applyFrom {source : Text} (hsource : FeedsPaired source)
    {edits : List Edit} (hedits : ∀ e ∈ edits, IsSeam source e.stop ∧ FeedsPaired e.text)
    {cursor : Nat} (hcursor : IsSeam source cursor) :
    FeedsPaired (applyFrom source cursor edits) := by
  induction edits generalizing cursor with
  | nil => exact hsource.dropBytes hcursor
  | cons e edits ih =>
    obtain ⟨⟨hstop, htext⟩, hrest⟩ := List.forall_mem_cons.mp hedits
    have hnext : IsSeam source (max cursor e.stop) := by
      rcases Nat.le_total cursor e.stop with hle | hle
      · rwa [Nat.max_eq_right hle]
      · rwa [Nat.max_eq_left hle]
    exact ((hsource.slice hcursor e.start).append htext).append (ih hrest hnext)

namespace Trimmer

variable {t : Trimmer} {source code : Text} {edits : List Edit}

/-- A sound sheet in which all line feeds stand behind carriage returns is trimmed to a sheet in
which they do, unless a line break is cut at one of its directives. -/
theorem feedsPaired_code (hsound : Sheet.isSound source = true) (hsource : FeedsPaired source)
    (hfeed : '\n' ∈ source)
    (hunbroken : ∀ x ∈ t.directives (Sheet.rules source), Unbroken source x.1 x.2)
    (h : t.run source = .ok (code, edits)) : FeedsPaired code := by
  obtain ⟨hcode, -, hmade⟩ := spec_of_run t source h
  rw [hcode]
  refine Edit.feedsPaired_applyFrom hsource (fun e he => ?_) (Text.isSeam_zero source)
  obtain ⟨x, hx, hmem⟩ := hmade e he
  obtain ⟨hr, hd, -⟩ := mem_directives.mp hx
  obtain ⟨scope, p, o, hedit⟩ := exists_of_mem_editsOf hmem
  exact ⟨(hunbroken x hx).isSeam_of_mem_edits hr hsound hd hedit,
    of_mem_editsOf Text.isAdditive_feedsPaired
      ((hunbroken x hx).isMadeOf hsource hfeed hr hd) hmem⟩

/-- A rule with a comment to the end of a line, though not in front of a directive, and directives
of both scopes. -/
def pairedSheet : Text :=
  "a,\r\nb\x7b\r\n // c\r\n color:red;\r\n text-remove-gap:both 2;\r\n".toList
    ++ " text-remove-gap:outside both 2\r\n\x7d".toList

/-- `pairedSheet` without the gap, with margins that have the white space in front of their
directive between them and rules behind line breaks of their own. -/
def pairedResult : Text :=
  "a,\r\nb\x7b\r\n // c\r\n color:red;\r\n margin-top:-0.5em;\r\n".toList
    ++ " margin-bottom:-0.5em\r\n\x7d".toList
    ++ "\r\na::before,\r\nb::before ".toList
    ++ "\x7bdisplay: table;content: \"\";margin-bottom: -0.5em;\x7d".toList
    ++ "\r\na::after,\r\nb::after \x7bdisplay: table;content: \"\";margin-top: -0.5em;\x7d".toList

theorem feedsPaired_code_pairedSheet :
    Sheet.isSound pairedSheet = true ∧ FeedsPaired pairedSheet ∧ '\n' ∈ pairedSheet ∧
    (∀ x ∈ (ofConfig .default).directives (Sheet.rules pairedSheet),
      Unbroken pairedSheet x.1 x.2) ∧
    ∃ edits, (ofConfig .default).run pairedSheet = .ok (pairedResult, edits) ∧
      FeedsPaired pairedResult := by
  have hsound : Sheet.isSound pairedSheet = true := by decide +kernel
  have hpaired : FeedsPaired pairedSheet := by decide +kernel
  have hfeed : '\n' ∈ pairedSheet := by decide +kernel
  have hunbroken : ∀ x ∈ (ofConfig .default).directives (Sheet.rules pairedSheet),
      Unbroken pairedSheet x.1 x.2 := by decide +kernel
  have htrim : (ofConfig .default).trim pairedSheet = .ok pairedResult :=
    eq_ok_of_toOption_eq_some (by decide +kernel)
  obtain ⟨⟨code, edits⟩, hrun, rfl⟩ := exists_of_map_eq_ok htrim
  exact ⟨hsound, hpaired, hfeed, hunbroken, edits, hrun,
    feedsPaired_code hsound hpaired hfeed hunbroken hrun⟩

/-- The comment holds the carriage return, and the white space behind it, which is written between
two margins, begins with the line feed. -/
example :
    let sheet := "p\x7b//c\r\n text-remove-gap:outside both\x7d".toList
    FeedsPaired sheet ∧ ((ofConfig .default).directives (Sheet.rules sheet)).map
      (fun x => x.2.leading sheet) = ["\n ".toList] := by decide +kernel

end Trimmer

end LeadingTrim
