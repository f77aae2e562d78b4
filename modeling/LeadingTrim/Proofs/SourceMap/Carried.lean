/-
# Carried maps are exact

A map that is carried over an edit tells of each character of the edited text what the map before
told of the character's origin (`originAt_carry`), and is a map of the edited text (`mapOf_carry`).
The points of the carried map are points of the map before that moved along with their text, and new
ones at the edges of replacements and where lines begin inside of them. Each tells the origin of the
character behind it (`mem_carry_iff`). Of the points in front of a character the last is in its run,
unless the run is kept from the start of the text and has no point so far. Then all points of the
map before that are in front of the character have moved along, so that none is missed.
-/

import LeadingTrim.Proofs.Edit.Target
import LeadingTrim.Proofs.SourceMap.Exact

namespace LeadingTrim.SourceMap

open Edit (Traced Provenance trace textOf textOf_trace KeptAt SeamAt KeepBreaks)
open Text (LineIndex)

/-- The points are a map of a text: they are in order, stand between characters, and map no ranges.
-/
structure MapOf (t : Text) (points : List Point) : Prop where
  ordered : points.Pairwise Point.Before
  isPlace : ∀ p ∈ points, ∃ n, t.IsBoundary n ∧ (LineIndex.of t).point n = (p.line, p.column)
  isRange : ∀ p ∈ points, p.isRange = false

variable {input : Text} {edits : List Edit} {earlier : List Point}

/-- What a map tells of the byte at an offset. -/
def originOfByte (input : Text) (earlier : List Point) (byte : Nat) : Option Origin :=
  originAt earlier ((LineIndex.of input).point byte).1 ((LineIndex.of input).point byte).2

/-- The offsets of the edited text at which a carried map has points. -/
def stops (input : Text) (earlier : List Point) (edits : List Edit) : List Nat :=
  let layout : Edit.Layout := ⟨input.byteSize, (Edit.applyAll input edits).byteSize, edits⟩
  earlier.filterMap (fun p => ((LineIndex.of input).offset? p.line p.column).bind layout.target?)
    ++ (layout.edges ++ layout.innerLineStarts)

/-- The point of a carried map in front of a character. -/
def carriedBefore (input : Text) (earlier : List Point) (edits : List Edit) (l : List Traced)
    (x : Traced) : Point :=
  let place := (LineIndex.of (Edit.applyAll input edits)).point (textOf l).byteSize
  ⟨place.1, place.2, x.2.origin?.bind (originOfByte input earlier), false⟩

/-- The boundary at which a point of a map stands. -/
theorem MapOf.exists_offset? (h : MapOf input earlier) (hpaired : input.ReturnsPaired) {p : Point}
    (hp : p ∈ earlier) :
    ∃ u v, input = u ++ v ∧ u.EndsClear ∧
      (LineIndex.of input).point u.byteSize = (p.line, p.column) ∧
      (LineIndex.of input).offset? p.line p.column = some u.byteSize := by
  obtain ⟨n, hn, hplace⟩ := h.isPlace p hp
  obtain ⟨u, v, hinput, hclear, hpoint, hoffset⟩ := Text.exists_offset?_point hn hpaired
  rw [hplace] at hpoint hoffset
  exact ⟨u, v, hinput, hclear, hpoint, hoffset⟩

/-- Points put in order are a map of a text on which they stand. -/
theorem mapOf_normalize {t : Text} {points : List Point}
    (h : ∀ q ∈ points, (∃ n, t.IsBoundary n ∧ (LineIndex.of t).point n = (q.line, q.column)) ∧
      q.isRange = false) : MapOf t (normalize points) :=
  ⟨pairwise_before_normalize points, fun q hq => (h q (mem_of_mem_normalize hq)).1,
    fun q hq => (h q (mem_of_mem_normalize hq)).2⟩

theorem MapOf.originOfByte_eq (h : MapOf input earlier) {p : Point} (hp : p ∈ earlier) {n : Nat}
    (hn : (LineIndex.of input).point n = (p.line, p.column)) :
    originOfByte input earlier n = p.origin := by
  rw [originOfByte, hn, originAt_of_mem h.ordered h.isRange hp]

/-! ## The points of a carried map -/

section Points

variable (h : Edit.InOrder input edits) (huniform : ∀ e ∈ edits, e.IsUniform)
  (hbreaks : KeepBreaks input edits) (hmap : MapOf input earlier)

include h hbreaks hmap

/-- Carried points stand at seams of the edited text. -/
theorem seamAt_of_mem_stops {n : Nat} (hn : n ∈ stops input earlier edits) :
    SeamAt (trace input edits) n := by
  rcases List.mem_append.mp hn with hn | hn
  · obtain ⟨p, hp, htarget⟩ := List.mem_filterMap.mp hn
    obtain ⟨u, v, hinput, hclear, -, hoffset⟩ := hmap.exists_offset? hbreaks.old hp
    rw [hoffset, Option.bind_some, h.target?_eq_some_iff ⟨u, v, hinput, rfl⟩] at htarget
    exact h.seamAt_of_keptAt hbreaks hinput hclear htarget
  · exact h.seamAt hbreaks _ _ (List.mem_append.mp hn)

/-- A point of the map before moves along with its text, and tells the same origin there. -/
theorem moved?_eq_some_iff {p q : Point} (hp : p ∈ earlier) :
    moved? ⟨input.byteSize, (Edit.applyAll input edits).byteSize, edits⟩ (.of input)
        (.of (Edit.applyAll input edits)) p = some q ↔
      ∃ l x m, trace input edits = l ++ x :: m ∧
        (((LineIndex.of input).offset? p.line p.column).bind (Edit.Layout.mk input.byteSize
          (Edit.applyAll input edits).byteSize edits).target?) = some (textOf l).byteSize ∧
        q = carriedBefore input earlier edits l x := by
  obtain ⟨u, v, hinput, -, hpoint, hoffset⟩ := hmap.exists_offset? hbreaks.old hp
  have htarget := fun n => h.target?_eq_some_iff (n := n) ⟨u, v, hinput, rfl⟩
  have horigin := hmap.originOfByte_eq hp hpoint
  rw [moved?, hoffset, Option.bind_some, Option.map_eq_some_iff]
  constructor
  · rintro ⟨n, hn, rfl⟩
    obtain ⟨l, c, m, htrace, rfl⟩ := (htarget n).mp hn
    refine ⟨l, _, m, htrace, hn, ?_⟩
    simp [carriedBefore, Provenance.origin?, horigin]
  · rintro ⟨l, x, m, htrace, hn, rfl⟩
    refine ⟨_, hn, ?_⟩
    -- only one character begins there, the one that is kept
    obtain ⟨l', c, m', htrace', hsize⟩ := (htarget _).mp hn
    obtain rfl := Text.eq_of_byteSize_eq Prod.fst (htrace'.symm.trans htrace) hsize
    obtain ⟨rfl, -⟩ := List.cons.inj (List.append_cancel_left (htrace'.symm.trans htrace))
    simp [carriedBefore, Provenance.origin?, horigin]

omit hbreaks hmap in
include huniform in
theorem pointAt?_eq_some_iff {n : Nat} {q : Point} (hn : SeamAt (trace input edits) n) :
    pointAt? (Edit.Layout.mk input.byteSize (Edit.applyAll input edits).byteSize edits).origins
        (.of (Edit.applyAll input edits)) (originOfByte input earlier) n = some q ↔
      ∃ l x m, trace input edits = l ++ x :: m ∧ (textOf l).byteSize = n ∧
        q = carriedBefore input earlier edits l x := by
  obtain ⟨l, m, htrace, rfl, -⟩ := hn
  rw [pointAt?, h.getElem?_origins huniform htrace]
  cases m with
  | nil =>
    refine ⟨fun hnone => absurd hnone (by simp), ?_⟩
    rintro ⟨l', x, m', htrace', hsize, -⟩
    have heq := Text.eq_of_byteSize_eq Prod.fst (htrace'.symm.trans htrace) hsize
    rw [htrace, heq] at htrace'
    simp at htrace'
  | cons x m =>
    rw [List.head?_cons, Option.map_some, Option.map_some, Option.some.injEq]
    constructor
    · rintro rfl
      exact ⟨l, x, m, htrace, rfl, rfl⟩
    · rintro ⟨l', x', m', htrace', hsize, rfl⟩
      obtain rfl := Text.eq_of_byteSize_eq Prod.fst (htrace'.symm.trans htrace) hsize
      obtain ⟨rfl, -⟩ := List.cons.inj (List.append_cancel_left (htrace'.symm.trans htrace))
      rfl

include huniform

/-- The points of a carried map tell the origins of the characters behind them. -/
theorem mem_carry_iff {q : Point} :
    q ∈ carry input (Edit.applyAll input edits) earlier edits ↔
      ∃ l x m, trace input edits = l ++ x :: m ∧
        (textOf l).byteSize ∈ stops input earlier edits ∧
        q = carriedBefore input earlier edits l x := by
  have hcarry : carry input (Edit.applyAll input edits) earlier edits =
      earlier.filterMap (moved? ⟨input.byteSize, (Edit.applyAll input edits).byteSize, edits⟩
        (.of input) (.of (Edit.applyAll input edits))) ++
      ((Edit.Layout.mk input.byteSize (Edit.applyAll input edits).byteSize edits).edges ++
        (Edit.Layout.mk input.byteSize (Edit.applyAll input edits).byteSize
          edits).innerLineStarts).filterMap (pointAt? (Edit.Layout.mk input.byteSize
            (Edit.applyAll input edits).byteSize edits).origins (.of (Edit.applyAll input edits))
            (originOfByte input earlier)) := rfl
  rw [hcarry, List.mem_append, List.mem_filterMap, List.mem_filterMap]
  constructor
  · rintro (⟨p, hp, hq⟩ | ⟨n, hn, hq⟩)
    · obtain ⟨l, x, m, htrace, htarget, rfl⟩ := (moved?_eq_some_iff h hbreaks hmap hp).mp hq
      exact ⟨l, x, m, htrace, List.mem_append_left _ (List.mem_filterMap.mpr ⟨p, hp, htarget⟩), rfl⟩
    · have hseam := h.seamAt hbreaks _ _ (List.mem_append.mp hn)
      obtain ⟨l, x, m, htrace, rfl, rfl⟩ := (pointAt?_eq_some_iff h huniform hseam).mp hq
      exact ⟨l, x, m, htrace, List.mem_append_right _ hn, rfl⟩
  · rintro ⟨l, x, m, htrace, hn, rfl⟩
    rcases List.mem_append.mp hn with hn | hn
    · obtain ⟨p, hp, htarget⟩ := List.mem_filterMap.mp hn
      have hmoved := (moved?_eq_some_iff h hbreaks hmap hp).mpr ⟨l, x, m, htrace, htarget, rfl⟩
      exact Or.inl ⟨p, hp, hmoved⟩
    · have hseam := h.seamAt hbreaks _ _ (List.mem_append.mp hn)
      exact Or.inr ⟨_, hn, (pointAt?_eq_some_iff h huniform hseam).mpr ⟨l, x, m, htrace, rfl, rfl⟩⟩

/-- A carried map is a map of the edited text. -/
theorem mapOf_carry : MapOf (Edit.applyAll input edits)
    (normalize (carry input (Edit.applyAll input edits) earlier edits)) := by
  refine mapOf_normalize fun q hq => ?_
  obtain ⟨l, x, m, htrace, -, rfl⟩ := (mem_carry_iff h huniform hbreaks hmap).mp hq
  exact ⟨⟨_, ⟨_, _, Edit.applyAll_of_trace htrace, rfl⟩, rfl⟩, rfl⟩

end Points

/-! ## The last point in front of a character -/

theorem Point.upTo_iff_not_placeLt {p : Point} {place : Nat × Nat} :
    p.upTo place.1 place.2 = true ↔ ¬ Text.PlaceLt place (p.line, p.column) := by
  rw [Point.upTo_iff]
  unfold Text.PlaceLt
  omega

/-- A point of the map before that is at the place of a kept character or in front of it is in front
of a stretch that is kept up to the character, or moves along with it. -/
theorem exists_stop_of_upTo (h : Edit.InOrder input edits) (hbreaks : KeepBreaks input edits)
    (hmap : MapOf input earlier) {l mid m : List Traced} {before after : Text} {c : Char}
    (htrace : trace input edits =
      l ++ Edit.keptFrom before.byteSize (textOf mid ++ [c]) ++ m)
    (hinput : input = before ++ textOf mid ++ c :: after) (hc : c ≠ '\n' ∧ c ≠ '\r') {p : Point}
    (hp : p ∈ earlier)
    (hupTo : p.upTo ((LineIndex.of input).point (before ++ textOf mid).byteSize).1
      ((LineIndex.of input).point (before ++ textOf mid).byteSize).2 = true) :
    ∃ u v, input = u ++ v ∧ (LineIndex.of input).point u.byteSize = (p.line, p.column) ∧
      (before.byteSize ≤ u.byteSize → ∃ k, u.byteSize = before.byteSize + k ∧
        k ≤ (textOf mid).byteSize ∧ (textOf l).byteSize + k ∈ stops input earlier edits) := by
  obtain ⟨u, v, hu, -, hpoint, hoffset⟩ := hmap.exists_offset? hbreaks.old hp
  rw [Point.upTo_iff_not_placeLt, ← hpoint, Text.place_lt_iff hinput hu hc] at hupTo
  rw [Text.byteSize_append, Nat.not_lt] at hupTo
  refine ⟨u, v, hu, hpoint, fun hle => ⟨u.byteSize - before.byteSize, by omega, by omega, ?_⟩⟩
  have hpos := c.utf8Size_pos
  have hchar := Edit.exists_char_at before (textOf mid ++ [c]) after
    ⟨u, v, by rw [← hu, hinput]; simp, rfl⟩ hle (by simp; omega)
  refine List.mem_append_left _ (List.mem_filterMap.mpr ⟨p, hp, ?_⟩)
  rw [hoffset, Option.bind_some, h.target?_eq_some_iff ⟨u, v, hu, rfl⟩, htrace,
    Edit.keptAt_append, Edit.keptAt_append]
  exact Or.inl (Or.inr ⟨_, Edit.keptAt_keptFrom.mpr ⟨by omega, hchar⟩, rfl⟩)

/-- What a map tells of a kept character it tells of all of its line that are kept with it from the
last carried point on. -/
theorem originOfByte_eq_of_kept (h : Edit.InOrder input edits) (hbreaks : KeepBreaks input edits)
    (hmap : MapOf input earlier) {l mid m : List Traced} {before after : Text} {c : Char}
    (htrace : trace input edits =
      l ++ Edit.keptFrom before.byteSize (textOf mid ++ [c]) ++ m)
    (hinput : input = before ++ textOf mid ++ c :: after) (hc : c ≠ '\n' ∧ c ≠ '\r')
    (hlast : ∀ n ∈ stops input earlier edits, n ≤ (textOf l).byteSize + (textOf mid).byteSize →
      n ≤ (textOf l).byteSize) :
    originOfByte input earlier (before ++ textOf mid).byteSize =
      originOfByte input earlier before.byteSize := by
  rw [originOfByte, originOfByte, originAt_eq hmap.ordered hmap.isRange,
    originAt_eq hmap.ordered hmap.isRange, lastUpTo, lastUpTo]
  congr 2
  refine List.filter_congr fun p hp => Bool.eq_iff_iff.mpr ⟨fun hupTo => ?_, fun hupTo => ?_⟩
  · -- behind the start of the stretch a point would move along, to behind the last carried one
    obtain ⟨u, v, hu, hpoint, hstop⟩ := exists_stop_of_upTo h hbreaks hmap htrace hinput hc hp hupTo
    have hle : u.byteSize ≤ before.byteSize := by
      refine Nat.le_of_not_lt fun hlt => ?_
      obtain ⟨k, hk, hle, hmem⟩ := hstop (Nat.le_of_lt hlt)
      have := hlast _ hmem (by omega)
      omega
    obtain ⟨k, rfl⟩ := Text.exists_append_of_byteSize_le id
      (hu.symm.trans (hinput.trans (List.append_assoc ..))) (by simpa using hle)
    have hplace := Text.not_place_lt u k (textOf mid ++ c :: after)
    rw [Point.upTo_iff_not_placeLt, ← hpoint]
    rwa [← List.append_assoc, ← hinput] at hplace
  · have hplace := Text.not_place_lt before (textOf mid) (c :: after)
    rw [← hinput] at hplace
    rw [Point.upTo_iff_not_placeLt] at hupTo ⊢
    unfold Text.PlaceLt at *
    omega

/-- If no point is carried to a stretch that is kept from the start on, the map before has none up
to there. -/
theorem originOfByte_eq_none (h : Edit.InOrder input edits) (hbreaks : KeepBreaks input edits)
    (hmap : MapOf input earlier) {mid m : List Traced} {after : Text} {c : Char}
    (htrace : trace input edits = Edit.keptFrom 0 (textOf mid ++ [c]) ++ m)
    (hinput : input = textOf mid ++ c :: after) (hc : c ≠ '\n' ∧ c ≠ '\r')
    (hnone : ∀ n ∈ stops input earlier edits, (textOf mid).byteSize < n) :
    originOfByte input earlier (textOf mid).byteSize = none := by
  have hlast : earlier.filter (·.upTo ((LineIndex.of input).point (textOf mid).byteSize).1
      ((LineIndex.of input).point (textOf mid).byteSize).2) = [] := by
    refine List.filter_eq_nil_iff.mpr fun p hp hupTo => ?_
    have htrace' : trace input edits =
        [] ++ Edit.keptFrom (Text.byteSize []) (textOf mid ++ [c]) ++ m := htrace
    have hinput' : input = [] ++ textOf mid ++ c :: after := hinput
    obtain ⟨u, v, -, -, hstop⟩ := exists_stop_of_upTo h hbreaks hmap htrace' hinput' hc hp hupTo
    obtain ⟨k, -, hle, hmem⟩ := hstop (Nat.zero_le _)
    have hlt := hnone _ hmem
    have hempty : (textOf []).byteSize = 0 := Text.byteSize_nil
    omega
  rw [originOfByte, originAt_eq hmap.ordered hmap.isRange, lastUpTo, hlast]
  rfl

/-- Within a run, from the last carried point on, the map before tells one origin of all characters
up to one that does not end its line. -/
theorem bind_originOfByte_eq_of_isRun (h : Edit.InOrder input edits)
    (hbreaks : KeepBreaks input edits) (hmap : MapOf input earlier) {l mid m m' : List Traced}
    {x y : Traced} (htrace : trace input edits = l ++ (mid ++ [x]) ++ m)
    (hy : mid ++ [x] = y :: m') (hrun : Edit.IsRun input edits (mid ++ [x]))
    (hx : x.1 ≠ '\n' ∧ x.1 ≠ '\r')
    (hlast : ∀ n ∈ stops input earlier edits, n ≤ (textOf l).byteSize + (textOf mid).byteSize →
      n ≤ (textOf l).byteSize) :
    y.2.origin?.bind (originOfByte input earlier) =
      x.2.origin?.bind (originOfByte input earlier) := by
  generalize hwhole : mid ++ [x] = run at hrun
  cases hrun with
  | @put e he before t after htext =>
    have hput := fun z (hz : z ∈ mid ++ [x]) => Edit.snd_of_mem_putBy (hwhole ▸ hz)
    rw [hput y (hy ▸ List.mem_cons_self), hput x (by simp)]
  | kept before t after hinput =>
    obtain ⟨rfl, -, hlastKept⟩ := Edit.keptFrom_eq_append hwhole.symm
    rw [Edit.snd_of_keptFrom_eq_cons (hwhole.symm.trans hy),
      Edit.snd_of_keptFrom_eq_cons hlastKept.symm, ← Text.byteSize_append]
    have htrace' : trace input edits =
        l ++ Edit.keptFrom before.byteSize (textOf mid ++ [x.1]) ++ m := by
      rw [htrace, hwhole]
      rfl
    have hinput' : input = before ++ textOf mid ++ x.1 :: after := by
      rw [hinput]
      simp
    exact (originOfByte_eq_of_kept h hbreaks hmap htrace' hinput' hx hlast).symm

/-- A run that is kept from the start on is the start of the text. -/
theorem exists_input_of_isRun {run : List Traced} {x : Traced}
    (hrun : Edit.IsRun input edits (run ++ [x]))
    (hkept : run ++ [x] = Edit.keptFrom 0 (textOf (run ++ [x]))) :
    ∃ after, input = textOf run ++ x.1 :: after := by
  obtain ⟨-, -, hlast⟩ := Edit.keptFrom_eq_append hkept.symm
  have hx := Edit.snd_of_keptFrom_eq_cons hlast.symm
  generalize hwhole : run ++ [x] = whole at hrun
  cases hrun with
  | put he before t after htext =>
    have hput := Edit.snd_of_mem_putBy (hwhole ▸ List.mem_append_right run List.mem_cons_self)
    exact absurd (hx.symm.trans hput) (by simp)
  | kept before t after hinput =>
    obtain ⟨rfl, -, hlast'⟩ := Edit.keptFrom_eq_append hwhole.symm
    have hx' := Edit.snd_of_keptFrom_eq_cons hlast'.symm
    have hzero := Provenance.kept.inj (hx'.symm.trans hx)
    have hbefore : before = [] := by
      refine Classical.byContradiction fun hne => ?_
      have := Text.byteSize_pos hne
      omega
    subst hbefore
    exact ⟨after, by simpa using hinput⟩

section Last

variable (h : Edit.InOrder input edits) (huniform : ∀ e ∈ edits, e.IsUniform)
  (hbreaks : KeepBreaks input edits) (hmap : MapOf input earlier)
  {l m : List Traced} {x : Traced} (htrace : trace input edits = l ++ x :: m)
  (hx : x.1 ≠ '\n' ∧ x.1 ≠ '\r')

include htrace hx in
/-- The carried points up to the place of a character are those at the offsets up to it. -/
theorem upTo_carriedBefore_iff {l' m' : List Traced} {y : Traced}
    (htrace' : trace input edits = l' ++ y :: m') :
    let place := (LineIndex.of (Edit.applyAll input edits)).point (textOf l).byteSize
    (carriedBefore input earlier edits l' y).upTo place.1 place.2 = true ↔
      (textOf l').byteSize ≤ (textOf l).byteSize := by
  intro place
  rw [Point.upTo_iff_not_placeLt]
  exact (not_congr (Text.place_lt_iff (Edit.applyAll_of_trace htrace)
    (Edit.applyAll_of_trace htrace') hx)).trans Nat.not_lt

include h huniform hbreaks hmap htrace hx

/-- The last point up to the place of a character is that at the last offset up to it. -/
theorem lastUpTo_carry_eq_some {l₁ m₁ : List Traced} {y : Traced}
    (htrace₁ : trace input edits = l₁ ++ y :: m₁)
    (hstop : (textOf l₁).byteSize ∈ stops input earlier edits)
    (hle : (textOf l₁).byteSize ≤ (textOf l).byteSize)
    (hlast : ∀ n ∈ stops input earlier edits, n ≤ (textOf l).byteSize → n ≤ (textOf l₁).byteSize) :
    let place := (LineIndex.of (Edit.applyAll input edits)).point (textOf l).byteSize
    lastUpTo (normalize (carry input (Edit.applyAll input edits) earlier edits)) place.1 place.2 =
      some (carriedBefore input earlier edits l₁ y) := by
  intro place
  have hmem := fun q => mem_carry_iff (q := q) h huniform hbreaks hmap
  refine lastUpTo_normalize ((hmem _).mpr ⟨l₁, y, m₁, htrace₁, hstop, rfl⟩)
    ((upTo_carriedBefore_iff htrace hx htrace₁).mpr hle) fun q hq hupTo => ?_
  obtain ⟨l₂, z, m₂, htrace₂, hstop₂, rfl⟩ := (hmem q).mp hq
  have hle₂ := hlast _ hstop₂ ((upTo_carriedBefore_iff htrace hx htrace₂).mp hupTo)
  obtain ⟨k, rfl⟩ := Text.exists_append_of_byteSize_le Prod.fst (htrace₂.symm.trans htrace₁) hle₂
  by_cases hempty : k = []
  · subst hempty
    rw [htrace₁, List.append_nil, List.append_cancel_left_eq] at htrace₂
    obtain ⟨rfl, -⟩ := List.cons.inj htrace₂
    exact Or.inl (by rw [List.append_nil])
  · -- the place of a point is not behind a carriage return
    right
    obtain ⟨l₃, m₃, htrace₃, hsize, hclear⟩ := seamAt_of_mem_stops h hbreaks hmap hstop
    obtain rfl := Text.eq_of_byteSize_eq Prod.fst (htrace₃.symm.trans htrace₁) hsize
    rw [textOf, List.map_append] at hclear
    have hlt := Text.place_lt_of_endsClear (textOf l₂) (textOf k) (textOf (y :: m₁))
      (by simpa using hempty) hclear
    have htext := Edit.applyAll_of_trace htrace₁
    rw [textOf, List.map_append] at htext
    rw [← htext] at hlt
    simpa [Point.Before, Text.PlaceLt, carriedBefore] using hlt

/-- There is none if there is no point at an offset up to the character. -/
theorem lastUpTo_carry_eq_none
    (hnone : ∀ n ∈ stops input earlier edits, (textOf l).byteSize < n) :
    let place := (LineIndex.of (Edit.applyAll input edits)).point (textOf l).byteSize
    lastUpTo (normalize (carry input (Edit.applyAll input edits) earlier edits)) place.1 place.2 =
      none := by
  intro place
  rw [lastUpTo, List.getLast?_eq_none_iff, List.filter_eq_nil_iff]
  intro q hq hupTo
  obtain ⟨l', y, m', htrace', hstop, rfl⟩ :=
    (mem_carry_iff h huniform hbreaks hmap).mp (mem_of_mem_normalize hq)
  have hle := (upTo_carriedBefore_iff htrace hx htrace').mp hupTo
  have := hnone _ hstop
  omega

/-- A carried map tells of each character what the map before tells of its origin. -/
theorem originAt_carry :
    let place := (LineIndex.of (Edit.applyAll input edits)).point (textOf l).byteSize
    originAt (normalize (carry input (Edit.applyAll input edits) earlier edits)) place.1 place.2 =
      x.2.origin?.bind (originOfByte input earlier) := by
  intro place
  have hcarried := mapOf_carry h huniform hbreaks hmap
  rw [originAt_eq hcarried.ordered hcarried.isRange]
  -- the run of the character begins at a carried point, or it is kept from the start on
  obtain ⟨l₀, run, rfl, hrun, hedge⟩ := h.cuts.exists_run
    (fun e he => (h.sound e he).length_origins) Text.byteSize_nil 0 htrace
  replace hedge : l₀ = [] ∧ run ++ [x] = Edit.keptFrom 0 (textOf (run ++ [x])) ∨
      (textOf l₀).byteSize ∈ stops input earlier edits := by
    refine hedge.imp_right fun hedge => ?_
    rw [Nat.zero_add] at hedge
    exact List.mem_append_right _ (List.mem_append_left _ hedge)
  by_cases hstops : ∃ n ∈ stops input earlier edits, n ≤ (textOf (l₀ ++ run)).byteSize
  · obtain ⟨n, hn, hle⟩ := hstops
    obtain ⟨n, hn, hle, hlast⟩ := exists_last_le hn hle
    obtain ⟨l₁, m₁, htrace₁, rfl, -⟩ := seamAt_of_mem_stops h hbreaks hmap hn
    obtain ⟨mid, hmid⟩ := Text.exists_append_of_byteSize_le Prod.fst (htrace₁.symm.trans htrace) hle
    -- the last point is in the run of the character
    have hrunLe : (textOf l₀).byteSize ≤ (textOf l₁).byteSize := by
      rcases hedge with ⟨rfl, -⟩ | hedge
      · exact Nat.zero_le _
      · exact hlast _ hedge (by simp)
    obtain ⟨r, rfl⟩ := Text.exists_append_of_byteSize_le Prod.fst hmid hrunLe
    rw [List.append_assoc, List.append_cancel_left_eq] at hmid
    subst hmid
    rw [List.append_assoc] at hrun
    obtain ⟨y, m', hy⟩ := List.exists_cons_of_ne_nil (show mid ++ [x] ≠ [] by simp)
    have hcut : trace input edits = l₀ ++ r ++ y :: (m' ++ m) := by
      rw [htrace, ← List.cons_append, ← hy]
      simp
    rw [lastUpTo_carry_eq_some h huniform hbreaks hmap htrace hx hcut hn hle hlast,
      Option.bind_some]
    have hwhole : trace input edits = l₀ ++ r ++ (mid ++ [x]) ++ m := by
      rw [htrace]
      simp
    refine bind_originOfByte_eq_of_isRun h hbreaks hmap hwhole hy hrun.of_append.2 hx ?_
    exact fun n hn hle => hlast n hn (by simpa [Nat.add_assoc] using hle)
  · -- there is no carried point so far
    have hnone : ∀ n ∈ stops input earlier edits, (textOf (l₀ ++ run)).byteSize < n := fun n hn =>
      Nat.lt_of_not_le fun hle => hstops ⟨n, hn, hle⟩
    obtain ⟨rfl, hkept⟩ := hedge.resolve_right fun hedge => hstops ⟨_, hedge, by simp⟩
    rw [lastUpTo_carry_eq_none h huniform hbreaks hmap htrace hx hnone]
    obtain ⟨after, hinput⟩ := exists_input_of_isRun hrun hkept
    have htrace' : trace input edits = Edit.keptFrom 0 (textOf run ++ [x.1]) ++ m := by
      rw [htrace, List.nil_append, List.append_cons, hkept]
      simp
    rw [List.nil_append] at hinput hnone
    have hnoOrigin := originOfByte_eq_none h hbreaks hmap htrace' hinput hx hnone
    obtain ⟨-, -, hlast⟩ := Edit.keptFrom_eq_append hkept.symm
    rw [Edit.snd_of_keptFrom_eq_cons hlast.symm, Provenance.origin?, Option.bind_some, Nat.zero_add,
      hnoOrigin]
    rfl

end Last

end LeadingTrim.SourceMap
