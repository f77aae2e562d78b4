/-
# New maps are exact

A new map has points only where lines begin and at the edges of replacements. It tells the origin of
every character all the same (`lastUpTo_create`): the last point at or in front of a character is on
its line and in its run, and in a run of the old text columns go on as they do there.

Characters that end lines are left out, because the column does not go on behind the end of a line.
-/

import LeadingTrim.Proofs.Edit.Trace
import LeadingTrim.Proofs.SourceMap.ReadBack
import LeadingTrim.Trimmer

namespace LeadingTrim.SourceMap

open Edit (Traced Provenance trace textOf textOf_trace)
open Text (LineIndex)

/-- An edit that is made by `delete` or by `synthesize`. -/
inductive IsBuilt : Edit → Prop
  | delete (start stop : Nat) : IsBuilt (.delete start stop)
  | synthesize (start stop : Nat) (text : Text) (origin : Nat) :
    IsBuilt (.synthesize start stop text origin)

theorem IsBuilt.isUniform {e : Edit} (h : IsBuilt e) : e.IsUniform := by
  cases h with
  | delete start stop => rfl
  | synthesize start stop text origin =>
    unfold Edit.IsUniform Edit.synthesize
    cases text.byteSize with
    | zero => rfl
    | succ n => simp [List.replicate_succ]

/-! ## Anchors -/

variable {input file : Text} {edits : List Edit}

/-- Where a new map has points: where lines begin, and at the edges of replacements. -/
def anchors (input : Text) (edits : List Edit) : List Nat :=
  Text.lineStarts (Edit.applyAll input edits) ++ Edit.edgesFrom 0 0 edits

theorem exists_of_mem_anchors (h : Edit.InOrder input edits) {n : Nat}
    (hn : n ∈ anchors input edits) :
    ∃ l m, trace input edits = l ++ m ∧ (textOf l).byteSize = n := by
  rcases List.mem_append.mp hn with hn | hn
  · obtain ⟨u, v, huv, rfl⟩ := Text.exists_of_mem_lineStarts hn
    rw [← textOf_trace] at huv
    obtain ⟨l, m, htrace, rfl, rfl⟩ := List.map_eq_append_iff.mp huv
    exact ⟨l, m, htrace, rfl⟩
  · obtain ⟨l, m, htrace, hl⟩ := h.cuts.exists_of_mem_edgesFrom
      (fun e he => (h.sound e he).length_origins) Text.byteSize_nil hn
    exact ⟨l, m, htrace, by omega⟩

/-- Of the numbers up to a bound one is the last, if there are any. -/
theorem exists_last_le {numbers : List Nat} {n bound : Nat} (hn : n ∈ numbers) (hle : n ≤ bound) :
    ∃ n ∈ numbers, n ≤ bound ∧ ∀ k ∈ numbers, k ≤ bound → k ≤ n := by
  have hmem : n ∈ numbers.filter (· ≤ bound) := List.mem_filter.mpr ⟨hn, by simpa using hle⟩
  obtain ⟨last, hmax⟩ := Option.isSome_iff_exists.mp (List.isSome_max?_of_mem hmem)
  obtain ⟨hlast, hall⟩ := List.max?_eq_some_iff.mp hmax
  obtain ⟨hmem, hle⟩ := List.mem_filter.mp hlast
  exact ⟨last, hmem, by simpa using hle,
    fun k hk hkle => hall k (List.mem_filter.mpr ⟨hk, by simpa using hkle⟩)⟩

/-- In front of each character there is a last anchor. What is between them is one run, on one line.
-/
theorem exists_anchor (h : Edit.InOrder input edits) {l m : List Traced} {x : Traced}
    (htrace : trace input edits = l ++ x :: m) :
    ∃ l₁ mid, l = l₁ ++ mid ∧ (textOf l₁).byteSize ∈ anchors input edits ∧
      (∀ n ∈ anchors input edits, n ≤ (textOf l).byteSize → n ≤ (textOf l₁).byteSize) ∧
      Edit.IsRun input edits (mid ++ [x]) ∧ '\n' ∉ textOf mid := by
  have hlength : ∀ e ∈ edits, e.origins.length = e.text.byteSize := fun e he =>
    (h.sound e he).length_origins
  -- the run of the character and its line begin at anchors
  obtain ⟨l₀, run, rfl, hrun, hedge⟩ := h.cuts.exists_run hlength Text.byteSize_nil 0 htrace
  have htext : Edit.applyAll input edits = textOf (l₀ ++ run) ++ textOf (x :: m) := by
    rw [← textOf_trace, htrace, textOf, List.map_append]
  have hrunAnchor : (textOf l₀).byteSize ∈ anchors input edits := by
    rcases hedge with ⟨rfl, -⟩ | hedge
    · exact List.mem_append_left _ List.mem_cons_self
    · exact List.mem_append_right _ (by simpa using hedge)
  obtain ⟨before, line, hsplit, hbefore, hline⟩ := Text.exists_endsLine_append (textOf (l₀ ++ run))
  have hlineAnchor : before.byteSize ∈ anchors input edits := by
    refine List.mem_append_left _ ?_
    rw [htext, hsplit, List.append_assoc]
    exact hbefore.byteSize_mem_lineStarts _
  -- the last anchor is not in front of either
  obtain ⟨n, hn, hle, hlast⟩ := exists_last_le hrunAnchor
    (show (textOf l₀).byteSize ≤ (textOf (l₀ ++ run)).byteSize by simp)
  obtain ⟨l₁, m₁, htrace₁, rfl⟩ := exists_of_mem_anchors h hn
  obtain ⟨mid, hmid⟩ := Text.exists_append_of_byteSize_le Prod.fst (htrace₁.symm.trans htrace) hle
  have hrunLe : (textOf l₀).byteSize ≤ (textOf l₁).byteSize :=
    hlast _ hrunAnchor (by simp)
  have hlineLe : before.byteSize ≤ (textOf l₁).byteSize :=
    hlast _ hlineAnchor (by rw [hsplit]; simp)
  refine ⟨l₁, mid, hmid, hn, hlast, ?_, ?_⟩
  · obtain ⟨r, rfl⟩ := Text.exists_append_of_byteSize_le Prod.fst
      (show l₀ ++ run = l₁ ++ mid from hmid) hrunLe
    rw [List.append_assoc, List.append_cancel_left_eq] at hmid
    rw [hmid, List.append_assoc] at hrun
    exact hrun.of_append.2
  · have htexts : before ++ line = textOf l₁ ++ textOf mid := by
      rw [← hsplit, hmid, textOf, List.map_append]
    obtain ⟨u, hu⟩ := Text.exists_append_of_byteSize_le id htexts (by simpa using hlineLe)
    rw [hu, List.append_assoc, List.append_cancel_left_eq] at htexts
    intro hmem
    exact hline (htexts ▸ List.mem_append_right _ hmem)

/-! ## Points -/

/-- The place of a byte of the old text, in the file of the given name. -/
def placeIn (input file : Text) (byte : Nat) : Origin :=
  ⟨((LineIndex.of input).point byte).1, ((LineIndex.of input).point byte).2, some file, none⟩

/-- The point of a new map in front of a character. -/
def pointBefore (input file : Text) (edits : List Edit) (l : List Traced) (x : Traced) : Point :=
  let place := (LineIndex.of (Edit.applyAll input edits)).point (textOf l).byteSize
  ⟨place.1, place.2, x.2.origin?.map (placeIn input file), false⟩

theorem pointAt?_of_trace (h : Edit.InOrder input edits) (huniform : ∀ e ∈ edits, e.IsUniform)
    {l m : List Traced} (htrace : trace input edits = l ++ m) :
    pointAt? (Edit.Layout.mk input.byteSize (Edit.applyAll input edits).byteSize edits).origins
        (.of (Edit.applyAll input edits)) (fun byte => some (placeIn input file byte))
        (textOf l).byteSize =
      m.head?.map (pointBefore input file edits l) := by
  rw [pointAt?, h.getElem?_origins huniform htrace]
  cases m with
  | nil => rfl
  | cons x m =>
    cases hx : x.2.origin? with
    | none => simp [pointBefore, hx]
    | some n => simp [pointBefore, hx]

theorem mem_create_iff (h : Edit.InOrder input edits) (huniform : ∀ e ∈ edits, e.IsUniform)
    {q : Point} :
    q ∈ create input (Edit.applyAll input edits) file edits ↔
      ∃ l x m, trace input edits = l ++ x :: m ∧ (textOf l).byteSize ∈ anchors input edits ∧
        q = pointBefore input file edits l x := by
  have hcreate : create input (Edit.applyAll input edits) file edits =
      (anchors input edits).filterMap (pointAt?
        (Edit.Layout.mk input.byteSize (Edit.applyAll input edits).byteSize edits).origins
        (.of (Edit.applyAll input edits)) fun byte => some (placeIn input file byte)) := rfl
  rw [hcreate, List.mem_filterMap]
  constructor
  · rintro ⟨n, hn, hpoint⟩
    obtain ⟨l, m, htrace, rfl⟩ := exists_of_mem_anchors h hn
    rw [pointAt?_of_trace h huniform htrace] at hpoint
    cases m with
    | nil => simp at hpoint
    | cons x m => exact ⟨l, x, m, htrace, hn, by simpa using hpoint.symm⟩
  · rintro ⟨l, x, m, htrace, hn, rfl⟩
    exact ⟨_, hn, by rw [pointAt?_of_trace h huniform htrace]; rfl⟩

/-- The last point in front of a character is that of the last anchor. -/
theorem lastUpTo_create_eq (file : Text) (h : Edit.InOrder input edits)
    (huniform : ∀ e ∈ edits, e.IsUniform) {l₁ mid m m' : List Traced} {x y : Traced}
    (htrace : trace input edits = l₁ ++ mid ++ x :: m) (hy : mid ++ x :: m = y :: m')
    (hanchor : (textOf l₁).byteSize ∈ anchors input edits)
    (hlast : ∀ n ∈ anchors input edits, n ≤ (textOf (l₁ ++ mid)).byteSize →
      n ≤ (textOf l₁).byteSize)
    (hline : '\n' ∉ textOf mid) (hx : x.1 ≠ '\n' ∧ x.1 ≠ '\r') :
    let place := (LineIndex.of (Edit.applyAll input edits)).point (textOf (l₁ ++ mid)).byteSize
    lastUpTo (normalize (create input (Edit.applyAll input edits) file edits)) place.1 place.2 =
      some (pointBefore input file edits l₁ y) := by
  intro place
  have hcut : trace input edits = l₁ ++ y :: m' := by rw [htrace, List.append_assoc, hy]
  have htext : Edit.applyAll input edits = textOf l₁ ++ textOf mid ++ x.1 :: textOf m := by
    rw [← textOf_trace, htrace]
    simp [textOf]
  have hmid : textOf (l₁ ++ mid) = textOf l₁ ++ textOf mid := List.map_append
  refine lastUpTo_normalize ((mem_create_iff h huniform).mpr ⟨l₁, y, m', hcut, hanchor, rfl⟩) ?_ ?_
  · rw [Point.upTo_iff]
    by_cases hempty : mid = []
    · subst hempty
      exact Or.inr ⟨by simp [pointBefore, place], by simp [pointBefore, place]⟩
    · have hlt := Text.place_lt_of_before (textOf l₁) (textOf mid) [] (textOf m)
        (by simpa [textOf] using hempty) List.not_mem_nil hx
      rw [List.append_nil, ← htext, ← hmid] at hlt
      unfold Text.PlaceLt at hlt
      simp only [pointBefore, place]
      omega
  · intro q hq hupTo
    obtain ⟨l₂, z, m₂, htrace₂, hn₂, rfl⟩ := (mem_create_iff h huniform).mp hq
    by_cases hle : (textOf l₂).byteSize ≤ (textOf (l₁ ++ mid)).byteSize
    · -- an anchor in front of the last one
      obtain ⟨k, rfl⟩ := Text.exists_append_of_byteSize_le Prod.fst (htrace₂.symm.trans hcut)
        (hlast _ hn₂ hle)
      by_cases hempty : k = []
      · subst hempty
        rw [htrace₂, List.append_nil, List.append_cancel_left_eq] at hcut
        obtain ⟨rfl, -⟩ := List.cons.inj hcut
        exact Or.inl (by rw [List.append_nil])
      · right
        have hk : textOf (l₂ ++ k) = textOf l₂ ++ textOf k := List.map_append
        have hlt := Text.place_lt_of_before (textOf l₂) (textOf k) (textOf mid) (textOf m)
          (by simpa [textOf] using hempty) hline hx
        rw [← hk, ← htext] at hlt
        exact hlt
    · -- an anchor behind the character
      exfalso
      obtain ⟨k, rfl⟩ := Text.exists_append_of_byteSize_le Prod.fst
        (htrace.symm.trans htrace₂) (Nat.le_of_not_le hle)
      rw [htrace₂, List.append_assoc _ k, List.append_cancel_left_eq] at htrace
      cases k with
      | nil => simp at hle
      | cons w k =>
        obtain ⟨rfl, -⟩ := List.cons.inj htrace
        have hlt := Text.place_lt_of_behind (textOf (l₁ ++ mid)) (textOf k)
          (textOf (z :: m₂)) hx
        have htext₂ : Edit.applyAll input edits =
            textOf (l₁ ++ mid) ++ w.1 :: textOf k ++ textOf (z :: m₂) := by
          rw [← textOf_trace, htrace₂]
          simp [textOf]
        have hk : textOf (l₁ ++ mid ++ w :: k) = textOf (l₁ ++ mid) ++ w.1 :: textOf k := by
          simp [textOf]
        rw [← htext₂, ← hk] at hlt
        rw [Point.upTo_iff] at hupTo
        unfold Text.PlaceLt at hlt
        simp only [pointBefore, place] at hupTo
        omega

/-! ## Origins -/

/-- A run that is put there has one origin. -/
theorem origin_of_put (hbuilt : ∀ e ∈ edits, IsBuilt e) {e : Edit} (he : e ∈ edits)
    (htext : e.text ≠ []) :
    ∃ start stop text n, e = .synthesize start stop text n ∧
      (Provenance.put e).origin? = some n := by
  cases hbuilt e he with
  | delete start stop => exact absurd rfl htext
  | synthesize start stop text n =>
    refine ⟨start, stop, text, n, rfl, ?_⟩
    obtain ⟨k, hk⟩ := Nat.exists_eq_succ_of_ne_zero (Nat.ne_of_gt (Text.byteSize_pos htext))
    have hk' : text.byteSize = k + 1 := hk
    simp [Provenance.origin?, Edit.synthesize, hk', List.replicate_succ]

/-- In a run that is kept the columns of the old text go on along the line. -/
theorem point_of_kept {before mid after : Text} {c : Char}
    (hinput : input = before ++ mid ++ c :: after) (hline : '\n' ∉ mid) (hc : c ≠ '\n' ∧ c ≠ '\r') :
    (LineIndex.of input).point (before ++ mid).byteSize =
      (((LineIndex.of input).point before.byteSize).1,
        ((LineIndex.of input).point before.byteSize).2 + Text.columns mid) := by
  have h := Text.point_append_of_line before mid [] after (by simpa using hline) hc
  rwa [List.append_nil, ← hinput] at h

/-- The first character of a run tells the origin of another one on the same line. -/
theorem exists_origin_of_isRun (hbuilt : ∀ e ∈ edits, IsBuilt e)
    {mid m : List Traced} {x y : Traced} (hy : mid ++ [x] = y :: m)
    (hrun : Edit.IsRun input edits (mid ++ [x])) (hline : '\n' ∉ textOf mid)
    (hx : x.1 ≠ '\n' ∧ x.1 ≠ '\r') :
    ∃ n, y.2.origin? = some n ∧
      match x.2 with
      | .put e => ∃ start stop text, e ∈ edits ∧ e = .synthesize start stop text n
      | .kept k => (∃ before after, input = before ++ x.1 :: after ∧ before.byteSize = k) ∧
          (LineIndex.of input).point k = (((LineIndex.of input).point n).1,
            ((LineIndex.of input).point n).2 + Text.columns (textOf mid)) := by
  generalize hrun' : mid ++ [x] = run at hrun
  cases hrun with
  | @put e he before t after htext =>
    have hput := fun z (hz : z ∈ mid ++ [x]) => Edit.snd_of_mem_putBy (hrun' ▸ hz)
    have hne : e.text ≠ [] := by
      intro hnil
      have ht : t = [] := by simp_all
      rw [ht] at hrun'
      simp [Edit.putBy] at hrun'
    obtain ⟨start, stop, text, n, hsynthesize, horigin⟩ := origin_of_put hbuilt he hne
    rw [← hput y (hy ▸ List.mem_cons_self)] at horigin
    refine ⟨n, horigin, ?_⟩
    rw [hput x (by simp)]
    exact ⟨start, stop, text, he, hsynthesize⟩
  | kept before t after hinput =>
    obtain ⟨ht, -, hlast⟩ := Edit.keptFrom_eq_append hrun'.symm
    have hykept := Edit.snd_of_keptFrom_eq_cons (hrun'.symm.trans hy)
    have hxkept := Edit.snd_of_keptFrom_eq_cons hlast.symm
    have hinput' : input = before ++ textOf mid ++ x.1 :: after := by
      rw [hinput, ht]
      simp [textOf]
    refine ⟨before.byteSize, by rw [hykept]; rfl, ?_⟩
    rw [hxkept, ← Text.byteSize_append]
    exact ⟨⟨before ++ textOf mid, after, hinput', rfl⟩, point_of_kept hinput' hline hx⟩

/-- A new map is exact: the last point at or in front of a character that does not end its line is
on that line. If an edit puts the character there, the point names the place of the edit's origin.
If it is kept, the point names a place on the line of the character in the old text, as many columns
in front of it there as the point is here. The points are those that are read in the text of the
map, if lines and columns are words. -/
theorem lastUpTo_create (file : Text) (hbuilt : ∀ e ∈ edits, IsBuilt e)
    (hvalid : Edit.validate input.byteSize edits = .ok ())
    (hboundary : ∀ e ∈ edits, input.IsBoundary e.start ∧ input.IsBoundary e.stop)
    {u v : Text} {c : Char} (houtput : Edit.applyAll input edits = u ++ c :: v)
    (hc : c ≠ '\n' ∧ c ≠ '\r') :
    let output := Edit.applyAll input edits
    let points := normalize (create input output file edits)
    let place := (LineIndex.of output).point u.byteSize
    (input.FitsWords → output.FitsWords →
      read (Trimmer.newMap input output file edits) = .ok points) ∧
    ∃ p o source,
      lastUpTo points place.1 place.2 = some p ∧
      p.line = place.1 ∧ p.origin = some o ∧ o.source = some file ∧ o.name = none ∧
      (trace input edits)[u.length]? = some (c, source) ∧
      match source with
      | .put e => ∃ start stop text n, e ∈ edits ∧ e = .synthesize start stop text n ∧
          (o.line, o.column) = (LineIndex.of input).point n
      | .kept n =>
          (∃ before after, input = before ++ c :: after ∧ before.byteSize = n) ∧
          o.line = ((LineIndex.of input).point n).1 ∧
          (place.2 : Int) - p.column = ((LineIndex.of input).point n).2 - o.column := by
  have horder := Edit.inOrder_of_validate hvalid hboundary
  have huniform : ∀ e ∈ edits, e.IsUniform := fun e he => (hbuilt e he).isUniform
  have hmap : textOf (trace input edits) = u ++ c :: v := (textOf_trace input edits).trans houtput
  obtain ⟨l, m, htrace, rfl, hm⟩ := List.map_eq_append_iff.mp hmap
  obtain ⟨x, m, rfl, rfl, rfl⟩ := List.map_eq_cons_iff.mp hm
  -- the last anchor, with the first character behind it
  obtain ⟨l₁, mid, rfl, hanchor, hlast, hrun, hline⟩ := exists_anchor horder htrace
  obtain ⟨y, m', hy⟩ := List.exists_cons_of_ne_nil (show mid ++ [x] ≠ [] by simp)
  have hy' : mid ++ x :: m = y :: (m' ++ m) := by
    rw [← List.cons_append, ← hy, List.append_assoc]
    rfl
  obtain ⟨n, hn, hx⟩ := exists_origin_of_isRun hbuilt hy hrun hline hc
  have hpoint := lastUpTo_create_eq file horder huniform htrace hy' hanchor hlast hline hc
  have htext : Edit.applyAll input edits = textOf l₁ ++ textOf mid ++ x.1 :: textOf m := by
    rw [houtput]
    simp [textOf]
  have hplace := point_of_kept htext hline hc
  rw [← List.map_append] at hplace
  have hget : (trace input edits)[(textOf (l₁ ++ mid)).length]? = some (x.1, x.2) := by
    rw [htrace, List.length_map, List.getElem?_append_right (Nat.le_refl _), Nat.sub_self]
    rfl
  intro output points place
  refine ⟨read_write_create, _, placeIn input file n, x.2, hpoint, ?_, by simp [pointBefore, hn],
    rfl, rfl, hget, ?_⟩
  · simp only [place, output, hplace, pointBefore]
  · cases hsource : x.2 with
    | put e =>
      obtain ⟨start, stop, text, he, hsynthesize⟩ := by simpa only [hsource] using hx
      exact ⟨start, stop, text, n, he, hsynthesize, rfl⟩
    | kept k =>
      obtain ⟨hinput, hcolumns⟩ := by simpa only [hsource] using hx
      refine ⟨hinput, by rw [hcolumns]; rfl, ?_⟩
      simp only [place, output, hplace, hcolumns, pointBefore, placeIn]
      omega

/-- A text with a character beyond U+FFFF behind a line break. -/
def sampleInput : Text := "ab\r\n🙂cd".toList

/-- A removal in the first line and an insertion of a line in front of the second. -/
def sampleEdits : List Edit := [.delete 1 2, .synthesize 4 4 "é\n".toList 1]

theorem lastUpTo_create_sample :
    Edit.validate sampleInput.byteSize sampleEdits = .ok () ∧
    Edit.applyAll sampleInput sampleEdits = "a\r\né\n🙂".toList ++ 'c' :: "d".toList ∧
    read (Trimmer.newMap sampleInput (Edit.applyAll sampleInput sampleEdits) "a.css".toList
      sampleEdits) = .ok (normalize (create sampleInput (Edit.applyAll sampleInput sampleEdits)
        "a.css".toList sampleEdits)) ∧
    ∃ p o source,
      lastUpTo (normalize (create sampleInput (Edit.applyAll sampleInput sampleEdits)
        "a.css".toList sampleEdits)) 2 2 = some p ∧
      p.line = 2 ∧ p.origin = some o ∧
      (trace sampleInput sampleEdits)["a\r\né\n🙂".toList.length]? = some ('c', source) := by
  have hbuilt : ∀ e ∈ sampleEdits, IsBuilt e := by
    simp only [sampleEdits, List.forall_mem_cons, List.not_mem_nil, false_implies, implies_true,
      and_true]
    exact ⟨.delete 1 2, .synthesize 4 4 _ 1⟩
  have hvalid : Edit.validate sampleInput.byteSize sampleEdits = .ok () := rfl
  have hboundary : ∀ e ∈ sampleEdits,
      sampleInput.IsBoundary e.start ∧ sampleInput.IsBoundary e.stop := by
    simp only [sampleEdits, List.forall_mem_cons, List.not_mem_nil, false_implies, implies_true,
      and_true]
    exact ⟨⟨⟨"a".toList, "b\r\n🙂cd".toList, rfl, rfl⟩, ⟨"ab".toList, "\r\n🙂cd".toList, rfl, rfl⟩⟩,
      ⟨"ab\r\n".toList, "🙂cd".toList, rfl, rfl⟩, ⟨"ab\r\n".toList, "🙂cd".toList, rfl, rfl⟩⟩
  have houtput : Edit.applyAll sampleInput sampleEdits =
      "a\r\né\n🙂".toList ++ 'c' :: "d".toList := by decide +kernel
  have hplace : (LineIndex.of (Edit.applyAll sampleInput sampleEdits)).point
      (Text.byteSize "a\r\né\n🙂".toList) = (2, 2) := by decide +kernel
  obtain ⟨hread, p, o, source, hlast, hline, ho, -, -, hget, -⟩ :=
    lastUpTo_create "a.css".toList hbuilt hvalid hboundary houtput (by decide)
  rw [hplace] at hlast hline
  have hinputFits : sampleInput.FitsWords := Text.fitsWords_of_byteSize_lt (by decide +kernel)
  have houtputFits : (Edit.applyAll sampleInput sampleEdits).FitsWords :=
    Text.fitsWords_of_byteSize_lt (by decide +kernel)
  exact ⟨hvalid, houtput, hread hinputFits houtputFits, p, o, source, hlast, hline, ho, hget⟩

end LeadingTrim.SourceMap
