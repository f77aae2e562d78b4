/-
# The selectors of a list

A comma separates selectors where it stands outside of strings, escapes and brackets (`Outside`),
and the selector in front of it ends before the blanks there (`Branches`). The splitter stands
outside behind just those texts (`outside_iff`), so its pieces are the selectors with their blanks
(`Branches.eq_rangesFrom`), and a list has branches in one way only. Whatever ranges are given, what
is made is the list with the pseudo-element put in at the end of each and nothing else changed
(`AreRanges.append_eq_revise`). By the commas the same is made for the branches
(`Branches.joinWith_eq_revise`).
-/

import LeadingTrim.Proofs.Text.Boundary
import LeadingTrim.Proofs.Text.TopLevel
import LeadingTrim.Selector
import Mathlib.Logic.ExistsUnique

namespace LeadingTrim.Selector

open Text (Depth isBlank isQuote revise)

/-! ## Outside of strings, escapes and brackets -/

/-- What stands in a string behind its opening quote, up to a place where no backslash waits for a
character. -/
inductive StringContent (q : Char) : Text → Prop
  | nil : StringContent q []
  | plain {t : Text} {c : Char} (h : StringContent q t) (hquote : c ≠ q) (hescape : c ≠ '\\') :
    StringContent q (t ++ [c])
  | escaped {t : Text} (h : StringContent q t) (c : Char) : StringContent q (t ++ ['\\', c])

/-- The text ends outside of strings and behind no lone backslash, with so many brackets open. A
closing bracket that nothing has opened counts for nothing. -/
inductive Outside : Text → Nat → Prop
  | nil : Outside [] 0
  | escaped {t : Text} {n : Nat} (h : Outside t n) (c : Char) : Outside (t ++ ['\\', c]) n
  | quoted {t content : Text} {n : Nat} {q : Char} (h : Outside t n) (hq : q = '"' ∨ q = '\'')
    (hcontent : StringContent q content) : Outside (t ++ q :: (content ++ [q])) n
  | opens {t : Text} {n : Nat} {c : Char} (h : Outside t n) (hc : c = '(' ∨ c = '[') :
    Outside (t ++ [c]) (n + 1)
  | closes {t : Text} {n : Nat} {c : Char} (h : Outside t n) (hc : c = ')' ∨ c = ']') :
    Outside (t ++ [c]) (n - 1)
  | plain {t : Text} {n : Nat} {c : Char} (h : Outside t n)
    (hc : c ∉ ['\\', '"', '\'', '(', '[', ')', ']']) : Outside (t ++ [c]) n

/-- Where the splitter stands behind a text. -/
def depthBehind (t : Text) : Depth := t.foldl commas.next Depth.outside

variable {s t front rest : Text} {n : Nat} {q c : Char}

theorem depthBehind_append (s t : Text) :
    depthBehind (s ++ t) = t.foldl commas.next (depthBehind s) :=
  List.foldl_append

theorem isQuote_iff : isQuote q = true ↔ q = '"' ∨ q = '\'' := by
  simp [isQuote]

theorem StringContent.foldl_next (h : StringContent q t) :
    t.foldl commas.next ⟨n, some q, false⟩ = ⟨n, some q, false⟩ := by
  induction h with
  | nil => rfl
  | plain h hquote hescape ih =>
    rw [List.foldl_append, ih]
    simp [Text.Splitter.next, hquote, hescape]
  | escaped h c ih =>
    rw [List.foldl_append, ih]
    simp [Text.Splitter.next]

theorem Outside.depthBehind_eq (h : Outside t n) : depthBehind t = ⟨n, none, false⟩ := by
  induction h with
  | nil => rfl
  | escaped h c ih =>
    rw [depthBehind_append, ih]
    simp [Text.Splitter.next]
  | @quoted t content n q h hq hcontent ih =>
    have hslash : q ≠ '\\' := by
      rintro rfl
      exact absurd hq (by decide)
    have hopen : commas.next ⟨n, none, false⟩ q = ⟨n, some q, false⟩ := by
      simp [Text.Splitter.next, hslash, isQuote_iff.mpr hq]
    rw [depthBehind_append, ih, List.foldl_cons, hopen, List.foldl_append,
      hcontent.foldl_next]
    simp [Text.Splitter.next, hslash]
  | opens h hc ih =>
    rw [depthBehind_append, ih]
    rcases hc with rfl | rfl <;> simp [Text.Splitter.next, commas, isQuote]
  | closes h hc ih =>
    rw [depthBehind_append, ih]
    rcases hc with rfl | rfl <;> simp [Text.Splitter.next, commas, isQuote]
  | plain h hc ih =>
    rw [depthBehind_append, ih]
    simp only [List.mem_cons, List.not_mem_nil, or_false, not_or] at hc
    simp [Text.Splitter.next, commas, isQuote, hc]

/-- What a text ends in when the splitter stands at the given place behind it. -/
inductive Stands : Text → Depth → Prop
  | outside {t : Text} {n : Nat} (h : Outside t n) : Stands t ⟨n, none, false⟩
  | escape {t : Text} {n : Nat} (h : Outside t n) : Stands (t ++ ['\\']) ⟨n, none, true⟩
  | inside {t content : Text} {n : Nat} {q : Char} (h : Outside t n) (hq : q = '"' ∨ q = '\'')
    (hcontent : StringContent q content) : Stands (t ++ q :: content) ⟨n, some q, false⟩
  | insideEscape {t content : Text} {n : Nat} {q : Char} (h : Outside t n)
    (hq : q = '"' ∨ q = '\'') (hcontent : StringContent q content) :
    Stands (t ++ q :: (content ++ ['\\'])) ⟨n, some q, true⟩

/-- Outside of strings a character opens or closes something, or it means nothing. -/
theorem Outside.stands_next (h : Outside t n) (c : Char) :
    Stands (t ++ [c]) (commas.next ⟨n, none, false⟩ c) := by
  -- in the order in which the splitter asks: a backslash, a quote, a bracket, anything else
  by_cases hescape : c = '\\'
  · subst hescape
    exact .escape h
  by_cases hquote : c = '"' ∨ c = '\''
  · have hnext : commas.next ⟨n, none, false⟩ c = ⟨n, some c, false⟩ := by
      simp [Text.Splitter.next, hescape, isQuote_iff.mpr hquote]
    rw [hnext]
    exact .inside h hquote .nil
  have hnone : isQuote c = false := Bool.eq_false_iff.mpr (mt isQuote_iff.mp hquote)
  by_cases hopen : c = '(' ∨ c = '['
  · have hnext : commas.next ⟨n, none, false⟩ c = ⟨n + 1, none, false⟩ := by
      simp [Text.Splitter.next, commas, hescape, hnone, hopen]
    rw [hnext]
    exact .outside (h.opens hopen)
  by_cases hclose : c = ')' ∨ c = ']'
  · have hnext : commas.next ⟨n, none, false⟩ c = ⟨n - 1, none, false⟩ := by
      simp [Text.Splitter.next, commas, hescape, hnone, hopen, hclose]
    rw [hnext]
    exact .outside (h.closes hclose)
  · have hnext : commas.next ⟨n, none, false⟩ c = ⟨n, none, false⟩ := by
      simp [Text.Splitter.next, commas, hescape, hnone, hopen, hclose]
    rw [hnext]
    refine .outside (h.plain ?_)
    simp only [List.mem_cons, List.not_mem_nil, or_false, not_or] at hquote hopen hclose ⊢
    exact ⟨hescape, hquote.1, hquote.2, hopen.1, hopen.2, hclose⟩

theorem Stands.next {d : Depth} (h : Stands t d) (c : Char) :
    Stands (t ++ [c]) (commas.next d c) := by
  cases h with
  | outside h => exact h.stands_next c
  | @escape t n h =>
    have hstands := Stands.outside (h.escaped c)
    simpa [Text.Splitter.next] using hstands
  | @inside t content n q h hq hcontent =>
    rw [List.append_assoc, List.cons_append]
    by_cases hescape : c = '\\'
    · subst hescape
      exact .insideEscape h hq hcontent
    by_cases hquote : c = q
    · subst hquote
      have hnext : commas.next ⟨n, some c, false⟩ c = ⟨n, none, false⟩ := by
        simp [Text.Splitter.next, hescape]
      rw [hnext]
      exact .outside (h.quoted hq hcontent)
    · have hnext : commas.next ⟨n, some q, false⟩ c = ⟨n, some q, false⟩ := by
        simp [Text.Splitter.next, hescape, hquote]
      rw [hnext]
      exact .inside h hq (hcontent.plain hquote hescape)
  | @insideEscape t content n q h hq hcontent =>
    have hstands := Stands.inside h hq (hcontent.escaped c)
    simpa [Text.Splitter.next] using hstands

theorem Stands.foldl_next {d : Depth} (h : Stands s d) (t : Text) :
    Stands (s ++ t) (t.foldl commas.next d) := by
  induction t generalizing s d with
  | nil => rwa [List.append_nil]
  | cons c t ih =>
    rw [List.append_cons, List.foldl_cons]
    exact ih (h.next c)

/-- The splitter stands outside behind just the texts that end outside. -/
theorem outside_iff : Outside t n ↔ depthBehind t = ⟨n, none, false⟩ := by
  refine ⟨Outside.depthBehind_eq, fun h => ?_⟩
  have hstands : Stands t (depthBehind t) := (Stands.outside .nil).foldl_next t
  rw [h] at hstands
  cases hstands with
  | outside h => exact h

/-! ## Separators -/

/-- No comma of a text separates selectors. The text stands behind another one. -/
def IsUnseparated (front t : Text) : Prop :=
  ∀ before after, t = before ++ ',' :: after → ¬ Outside (front ++ before) 0

theorem ends_iff {d : Depth} : commas.ends d c = true ↔ d = Depth.outside ∧ c = ',' := by
  simp only [Text.Splitter.ends, commas, Bool.and_eq_true, decide_eq_true_eq, beq_iff_eq]
  constructor
  · exact fun h => h.1
  · rintro ⟨rfl, rfl⟩
    exact ⟨⟨rfl, rfl⟩, by decide⟩

theorem isUnseparated_iff :
    IsUnseparated front t ↔ commas.pieces (depthBehind front) t = [(t, [])] := by
  have hends : ∀ before c, commas.ends (before.foldl commas.next (depthBehind front)) c = false ↔
      ¬ (Outside (front ++ before) 0 ∧ c = ',') := by
    intro before c
    rw [← Bool.not_eq_true, ends_iff, outside_iff, depthBehind_append]
    rfl
  simp only [Text.Splitter.pieces_eq_singleton_iff, hends, not_and]
  constructor
  · rintro h before c after hsplit houtside rfl
    exact h before after hsplit houtside
  · exact fun h before after hsplit houtside => h before ',' after hsplit houtside rfl

/-! ## Branches -/

/-- The ranges of the selectors of a text that stands behind another one: pieces between the commas
that separate, each without the blanks behind it. -/
inductive Branches : (front t : Text) → List (Nat × Nat) → Prop
  | last {front body gap : Text} (hpiece : IsUnseparated front (body ++ gap))
    (hbody : ∀ c ∈ body.getLast?, isBlank c = false) (hgap : ∀ c ∈ gap, isBlank c = true) :
    Branches front (body ++ gap) [(front.byteSize, (front ++ body).byteSize)]
  | cons {front body gap rest : Text} {branches : List (Nat × Nat)}
    (hpiece : IsUnseparated front (body ++ gap)) (hcomma : Outside (front ++ (body ++ gap)) 0)
    (hbody : ∀ c ∈ body.getLast?, isBlank c = false) (hgap : ∀ c ∈ gap, isBlank c = true)
    (hrest : Branches (front ++ (body ++ gap) ++ [',']) rest branches) :
    Branches front (body ++ gap ++ ',' :: rest)
      ((front.byteSize, (front ++ body).byteSize) :: branches)

/-- The ranges of pieces that stand behind an offset, with a comma between each two. -/
def rangesFrom : Nat → List Text → List (Nat × Nat)
  | _, [] => []
  | start, piece :: pieces =>
    (start, start + piece.trimEnd.byteSize) :: rangesFrom (start + piece.byteSize + 1) pieces

variable {branches : List (Nat × Nat)} {body gap pseudo list : Text}

theorem depthBehind_comma (h : Outside t 0) : depthBehind (t ++ [',']) = Depth.outside := by
  rw [depthBehind_append, outside_iff.mp h]
  decide

/-- In front of a separating comma is the first piece. -/
theorem pieces_append_comma (ht : IsUnseparated front t) (hcomma : Outside (front ++ t) 0)
    (rest : Text) :
    commas.pieces (depthBehind front) (t ++ ',' :: rest) =
      (t, ',' :: rest) :: commas.pieces (depthBehind (front ++ t ++ [','])) rest := by
  have hdepth := outside_iff.mp hcomma
  rw [depthBehind_append] at hdepth
  have hpieces := Text.Splitter.pieces_append_separator (isUnseparated_iff.mp ht)
    (ends_iff.mpr ⟨hdepth, rfl⟩) rest
  rw [hpieces, hdepth, depthBehind_comma hcomma]
  rfl

/-- The branches are the pieces of the splitter, without the blanks behind each. -/
theorem Branches.eq_rangesFrom (h : Branches front t branches) :
    branches =
      rangesFrom front.byteSize ((commas.pieces (depthBehind front) t).map Prod.fst) := by
  induction h with
  | last hpiece hbody hgap =>
    rw [isUnseparated_iff.mp hpiece]
    simp [rangesFrom, Text.trimEnd_append_blanks hbody hgap]
  | cons hpiece hcomma hbody hgap hrest ih =>
    have hsize : ','.utf8Size = 1 := rfl
    rw [pieces_append_comma hpiece hcomma, ih]
    simp [rangesFrom, Text.trimEnd_append_blanks hbody hgap, hsize, Nat.add_assoc]

theorem exists_branches (front t : Text) : ∃ branches, Branches front t branches := by
  induction hlength : t.length using Nat.strongRecOn generalizing front t with
  | ind length ih =>
    -- by the length of the text: behind the first comma that separates a shorter one is left
    rcases Text.Splitter.exists_first_separator commas (depthBehind front) t with
      hwhole | ⟨s, c, rest, rfl, hs, hc⟩
    · obtain ⟨gap, ht, hgap⟩ := Text.exists_trimEnd_append t
      have hpiece := isUnseparated_iff.mpr hwhole
      rw [ht] at hpiece ⊢
      exact ⟨_, .last hpiece (fun _ hc => Text.isBlank_of_mem_getLast?_trimEnd hc)
        (List.all_eq_true.mp hgap)⟩
    · obtain ⟨hdepth, rfl⟩ := ends_iff.mp hc
      have hcomma : Outside (front ++ s) 0 := by
        rw [outside_iff, depthBehind_append, hdepth]
        rfl
      obtain ⟨branches, hrest⟩ := ih rest.length (by simp [← hlength]; omega)
        (front ++ s ++ [',']) rest rfl
      obtain ⟨gap, ht, hgap⟩ := Text.exists_trimEnd_append s
      have hpiece := isUnseparated_iff.mpr hs
      rw [ht] at hpiece hcomma hrest ⊢
      exact ⟨_, .cons hpiece hcomma (fun _ hc => Text.isBlank_of_mem_getLast?_trimEnd hc)
        (List.all_eq_true.mp hgap) hrest⟩

/-! ## Ranges of a list -/

/-- Ranges in a list, in order and apart, between characters. -/
structure AreRanges (list : Text) (branches : List (Nat × Nat)) : Prop where
  le : ∀ b ∈ branches, b.1 ≤ b.2
  isBoundary : ∀ b ∈ branches, list.IsBoundary b.1 ∧ list.IsBoundary b.2
  apart : branches.Pairwise fun b b' => b.2 ≤ b'.1

theorem Branches.exists_cons (h : Branches front t branches) :
    ∃ stop more, branches = (front.byteSize, stop) :: more ∧ front.byteSize ≤ stop := by
  cases h with
  | last => exact ⟨_, _, rfl, by simp⟩
  | cons => exact ⟨_, _, rfl, by simp⟩

theorem Branches.le_fst (h : Branches front t branches) :
    ∀ b ∈ branches, front.byteSize ≤ b.1 := by
  induction h with
  | last => simp
  | cons hpiece hcomma hbody hgap hrest ih =>
    refine List.forall_mem_cons.mpr ⟨Nat.le_refl _, fun b hb => ?_⟩
    have hle := ih b hb
    simp only [Text.byteSize_append] at hle
    omega

theorem isBoundary_middle (s t u : Text) :
    (s ++ (t ++ u)).IsBoundary s.byteSize ∧ (s ++ (t ++ u)).IsBoundary (s ++ t).byteSize :=
  ⟨⟨s, t ++ u, rfl, rfl⟩, ⟨s ++ t, u, (List.append_assoc ..).symm, rfl⟩⟩

theorem Branches.areRanges (h : Branches front t branches) : AreRanges (front ++ t) branches := by
  induction h with
  | @last front body gap =>
    refine ⟨by simp, ?_, List.pairwise_singleton _ _⟩
    simpa using isBoundary_middle front body gap
  | @cons front body gap rest branches hpiece hcomma hbody hgap hrest ih =>
    have hlist : front ++ (body ++ gap) ++ [','] ++ rest =
        front ++ (body ++ gap ++ ',' :: rest) := by simp
    rw [hlist] at ih
    refine ⟨List.forall_mem_cons.mpr ⟨by simp, ih.le⟩,
      List.forall_mem_cons.mpr ⟨?_, ih.isBoundary⟩,
      List.pairwise_cons.mpr ⟨fun b hb => ?_, ih.apart⟩⟩
    · rw [List.append_assoc]
      exact isBoundary_middle front body _
    · have hle := hrest.le_fst b hb
      simp only [Text.byteSize_append] at hle ⊢
      omega

/-! ## Putting pseudo-elements in -/

/-- The copies of the pseudo-element at an offset: one for each range that ends there. -/
def pseudoAt (pseudo : Text) (branches : List (Nat × Nat)) (offset : Nat) : Text :=
  (branches.filter fun b => b.2 = offset).flatMap fun _ => pseudo

theorem pseudoAt_eq_nil (hne : ∀ b ∈ branches, b.2 ≠ n) : pseudoAt pseudo branches n = [] := by
  rw [pseudoAt, List.filter_eq_nil_iff.mpr (by simpa using hne)]
  rfl

/-- Text in front of the ends of all ranges is kept. -/
theorem revise_append_pseudoAt (hle : ∀ b ∈ branches, n + s.byteSize ≤ b.2) (t : Text) :
    revise (pseudoAt pseudo branches) (fun _ => false) n (s ++ t) =
      s ++ revise (pseudoAt pseudo branches) (fun _ => false) (n + s.byteSize) t := by
  refine Text.revise_append_of_kept (fun k _ hk => ?_) fun _ _ _ => rfl
  exact pseudoAt_eq_nil fun b hb => by have := hle b hb; omega

theorem revise_pseudoAt_nil (n : Nat) (t : Text) :
    revise (pseudoAt pseudo []) (fun _ => false) n t = t := by
  have hnone : ∀ b ∈ ([] : List (Nat × Nat)), n + t.byteSize ≤ b.2 := by simp
  have hkept : revise (pseudoAt pseudo []) (fun _ => false) n (t ++ []) = t ++ [] :=
    revise_append_pseudoAt hnone []
  rwa [List.append_nil] at hkept

/-- The pseudo-element of the first range stands behind the text up to its end. -/
theorem revise_pseudoAt_cons {b : Nat × Nat} (hb : n + s.byteSize = b.2)
    (hbehind : ∀ b' ∈ branches, b.2 ≤ b'.2) (t : Text) :
    revise (pseudoAt pseudo (b :: branches)) (fun _ => false) n (s ++ t) =
      s ++ (pseudo ++ revise (pseudoAt pseudo branches) (fun _ => false) b.2 t) := by
  have hle : ∀ b' ∈ b :: branches, n + s.byteSize ≤ b'.2 :=
    List.forall_mem_cons.mpr ⟨Nat.le_of_eq hb, fun b' hb' => hb ▸ hbehind b' hb'⟩
  rw [revise_append_pseudoAt hle, hb, List.append_cancel_left_eq]
  refine Text.revise_eq_append (by simp [pseudoAt]) fun k hk => ?_
  rw [pseudoAt, List.filter_cons_of_neg (by simpa using Nat.ne_of_lt hk)]
  rfl

/-- Text is copied up to the end of each range, and what is put in is a pseudo-element there. -/
theorem appendFrom_eq_revise (hboundary : ∀ b ∈ branches, (s ++ t).IsBoundary b.2)
    (hle : ∀ b ∈ branches, s.byteSize ≤ b.2) (hsorted : branches.Pairwise fun b b' => b.2 ≤ b'.2) :
    appendFrom (s ++ t) pseudo s.byteSize branches =
      revise (pseudoAt pseudo branches) (fun _ => false) s.byteSize t := by
  induction branches generalizing s t with
  | nil => rw [appendFrom, Text.dropBytes_byteSize_append, revise_pseudoAt_nil]
  | cons b branches ih =>
    obtain ⟨hb, hboundary⟩ := List.forall_mem_cons.mp hboundary
    obtain ⟨hstop, hle⟩ := List.forall_mem_cons.mp hle
    obtain ⟨hbehind, hsorted⟩ := List.pairwise_cons.mp hsorted
    -- the text up to the end of the range is copied and becomes a part of what is in front
    obtain ⟨u, v, rfl, hu⟩ := hb.of_append hstop
    have hsize : s.byteSize + u.byteSize = b.2 := by omega
    have hend : (s ++ u).byteSize = b.2 := by rw [Text.byteSize_append, hsize]
    have hassoc : s ++ (u ++ v) = s ++ u ++ v := (List.append_assoc ..).symm
    have hslice : (s ++ (u ++ v)).slice s.byteSize b.2 = u :=
      Text.slice_eq_of_append hassoc rfl hsize
    have hrest := ih (s := s ++ u) (t := v) (hassoc ▸ hboundary) (hend ▸ hbehind) hsorted
    rw [hend] at hrest
    rw [appendFrom, hslice, revise_pseudoAt_cons hsize hbehind, ← hrest, hassoc, List.append_assoc]

theorem AreRanges.append_eq_revise (h : AreRanges list branches) (hne : branches ≠ []) :
    append list branches pseudo = revise (pseudoAt pseudo branches) (fun _ => false) 0 list := by
  have hsorted : branches.Pairwise fun b b' => b.2 ≤ b'.2 :=
    h.apart.imp_of_mem fun _ hb' hle => Nat.le_trans hle (h.le _ hb')
  have hrevise : appendFrom ([] ++ list) pseudo (Text.byteSize []) branches =
      revise (pseudoAt pseudo branches) (fun _ => false) (Text.byteSize []) list :=
    appendFrom_eq_revise (fun b hb => (h.isBoundary b hb).2) (fun b _ => Nat.zero_le b.2) hsorted
  rw [append, if_neg (by simpa using hne)]
  exact hrevise

/-! ## Given branches and commas -/

theorem withPseudo_append (hbody : ∀ c ∈ body.getLast?, isBlank c = false)
    (hgap : ∀ c ∈ gap, isBlank c = true) :
    withPseudo pseudo (body ++ gap) = body ++ pseudo ++ gap := by
  rw [withPseudo, Text.trimEnd_append_blanks hbody hgap, List.drop_left]

/-- Between separating commas each piece gets its pseudo-element in front of its blanks. -/
theorem Branches.joinWith_eq_revise (h : Branches front t branches) (pseudo : Text) :
    Text.joinWith [','] ((commas.pieces (depthBehind front) t).map fun piece =>
        withPseudo pseudo piece.1) =
      revise (pseudoAt pseudo branches) (fun _ => false) front.byteSize t := by
  induction h with
  | @last front body gap hpiece hbody hgap =>
    rw [isUnseparated_iff.mp hpiece, revise_pseudoAt_cons (by simp) (by simp), revise_pseudoAt_nil]
    simp [Text.joinWith, withPseudo_append hbody hgap]
  | @cons front body gap rest branches hpiece hcomma hbody hgap hrest ih =>
    have hsplit : body ++ gap ++ ',' :: rest = body ++ ((gap ++ [',']) ++ rest) := by simp
    have hfront : (front ++ body).byteSize + (gap ++ [',']).byteSize =
        (front ++ (body ++ gap) ++ [',']).byteSize := by
      simp only [Text.byteSize_append]
      omega
    have hle : ∀ b ∈ branches, (front ++ (body ++ gap) ++ [',']).byteSize ≤ b.2 := fun b hb =>
      Nat.le_trans (hrest.le_fst b hb) (hrest.areRanges.le b hb)
    have hbehind : ∀ b ∈ branches, (front ++ body).byteSize ≤ b.2 := fun b hb => by
      have := hle b hb
      omega
    -- what stands up to the first range's end, then its blanks and the comma, then the rest
    obtain ⟨piece, behind, more, hpieces, -⟩ :=
      commas.head_pieces (depthBehind (front ++ (body ++ gap) ++ [','])) rest
    rw [pieces_append_comma hpiece hcomma, hsplit, revise_pseudoAt_cons (by simp) hbehind,
      revise_append_pseudoAt (hfront ▸ hle), hfront, ← ih, hpieces, List.map_cons, List.map_cons,
      Text.joinWith_cons_cons, withPseudo_append hbody hgap]
    simp

/-- The commas of a list tell its branches, and with these the same text is made as by the commas.
With any ranges of a list that text is the list with a copy of the pseudo-element put in at the end
of each range, and nothing else is changed. -/
theorem append_branches (list pseudo : Text) :
    (∃! branches, Branches [] list branches) ∧
    (∀ branches, Branches [] list branches → branches ≠ [] ∧ AreRanges list branches ∧
      appendAtCommas list pseudo = append list branches pseudo) ∧
    ∀ branches, branches ≠ [] → AreRanges list branches →
      append list branches pseudo =
        revise (pseudoAt pseudo branches) (fun _ => false) 0 list := by
  refine ⟨?_, fun branches h => ?_, fun branches hne h => h.append_eq_revise hne⟩
  · obtain ⟨branches, h⟩ := exists_branches [] list
    exact ⟨branches, h, fun _ h' => h'.eq_rangesFrom.trans h.eq_rangesFrom.symm⟩
  · obtain ⟨stop, more, rfl, -⟩ := h.exists_cons
    have hne := List.cons_ne_nil (Text.byteSize [], stop) more
    have hranges : AreRanges list _ := h.areRanges
    rw [hranges.append_eq_revise hne]
    exact ⟨hne, hranges, h.joinWith_eq_revise pseudo⟩

/-- Commas in a string in brackets and behind a backslash, a blank selector, and a bracket that
nothing opens. -/
def variedList : Text := "a[title=\"x,y\"] , é\\, ,,)".toList

theorem append_branches_variedList :
    Branches [] variedList [(0, 14), (16, 21), (23, 23), (24, 25)] ∧
      AreRanges variedList [(1, 7), (7, 7), (17, 19)] ∧
      appendAtCommas variedList "::after".toList =
        "a[title=\"x,y\"]::after , é\\,::after ,::after,)::after".toList ∧
      revise (pseudoAt "::after".toList [(1, 7), (7, 7), (17, 19)]) (fun _ => false) 0 variedList =
        "a[title::after::after=\"x,y\"] , é::after\\, ,,)".toList := by
  obtain ⟨⟨branches, h, -⟩, hcommas, hranges⟩ := append_branches variedList "::after".toList
  have hpieces : rangesFrom (Text.byteSize []) ((commas.pieces (depthBehind []) variedList).map
      Prod.fst) = [(0, 14), (16, 21), (23, 23), (24, 25)] := by decide
  rw [h.eq_rangesFrom, hpieces] at h
  have hgiven : AreRanges variedList [(1, 7), (7, 7), (17, 19)] := by
    refine ⟨by decide, ?_, by decide⟩
    simp only [List.forall_mem_cons, List.not_mem_nil, false_implies, implies_true, and_true]
    exact ⟨⟨⟨['a'], variedList.drop 1, rfl, rfl⟩, ⟨variedList.take 7, variedList.drop 7, rfl, rfl⟩⟩,
      ⟨⟨variedList.take 7, variedList.drop 7, rfl, rfl⟩,
        ⟨variedList.take 7, variedList.drop 7, rfl, rfl⟩⟩,
      ⟨variedList.take 17, variedList.drop 17, rfl, rfl⟩,
      ⟨variedList.take 18, variedList.drop 18, rfl, rfl⟩⟩
  refine ⟨h, hgiven, ?_, ?_⟩
  · rw [(hcommas _ h).2.2]
    decide
  · rw [← hranges _ (by decide) hgiven]
    decide

end LeadingTrim.Selector
