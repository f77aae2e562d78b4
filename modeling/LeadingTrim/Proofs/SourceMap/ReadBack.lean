/-
# Source maps that are written are read again

A written map is read as the points that were written, in order (`read_write`): the members of the
object that is written are those that are read (`members?_membersOf`), and so are the points in the
member that has them.

That takes little of the points (`Point.IsWritable`): what is mapped has to have a source, no point
may map a range, and the line of an origin may not be the greatest word, which stands for none. The
points of a new map are like that, and so are those that are carried over from a map that was read.
So both kinds of maps are read just as they were made, if lines and columns are words
(`read_write_create`, `read_write_carryInWords`).
-/

import LeadingTrim.Proofs.Json.Written
import LeadingTrim.Proofs.SourceMap.Read
import LeadingTrim.Proofs.SourceMap.Segments
import LeadingTrim.Proofs.SourceMap.Words
import Mathlib.Data.List.Nodup
import Mathlib.Data.List.Perm.Subperm

namespace LeadingTrim

/-! ## Members of an object -/

namespace Json

/-- An array of strings. -/
def ofTexts (ts : List Text) : Json := .array (ts.map .string)

theorem areSound_iff {room : Nat} {items : List Json} :
    areSound room items = true ↔ ∀ v ∈ items, v.isSound room = true := by
  induction items with
  | nil => simp [areSound]
  | cons v items ih => simp [areSound, ih]

/-- An array is sound if its items are, each being no array or object. -/
theorem isSound_array {room : Nat} {items : List Json} (h : ∀ v ∈ items, v.isSound room = true) :
    (Json.array items).isSound (room + 1) = true := areSound_iff.mpr h

theorem isSound_ofTexts (room : Nat) (ts : List Text) :
    (ofTexts ts).isSound (room + 1) = true := by
  refine isSound_array fun v hv => ?_
  obtain ⟨t, -, rfl⟩ := List.mem_map.mp hv
  rfl

variable {members : List (Text × Json)}

theorem countP_le_one (h : (members.map Prod.fst).Nodup) (name : Text) :
    members.countP (·.1 == name) ≤ 1 := by
  have hcount := List.nodup_iff_count_le_one.mp h name
  rwa [List.count, List.countP_map] at hcount

theorem lookup_eq_none {name : Text} (h : name ∉ members.map Prod.fst) :
    lookup members name = none := by
  have hnone : members.reverse.find? (·.1 == name) = none := by
    rw [List.find?_eq_none]
    intro m hm hname
    exact h (List.mem_map.mpr ⟨m, List.mem_reverse.mp hm, beq_iff_eq.mp hname⟩)
  rw [lookup, hnone]
  rfl

theorem optional_none {α : Type} (read : Json → Option α) : optional read none = some none := rfl

theorem optional_some {α : Type} (read : Json → Option α) (v : Json) :
    optional read (some v) = (read v).map some := rfl

/-- The digit that is written is read as a number. -/
theorem isWritten_three : IsWritten ['3'] (.number ⟨false, ['3'], [], none⟩) := by
  intro stack expected r hexpected hr
  have htoken : token '3' r = some ⟨.value (.number ⟨false, ['3'], [], none⟩), (), 0⟩ := by
    cases r with
    | nil => rfl
    | cons c r =>
      have hc := hr c rfl
      simp only [List.mem_cons, List.not_mem_nil, or_false] at hc
      rcases hc with rfl | rfl | rfl <;> rfl
  have h := run_cons (s := ⟨stack, expected⟩) (x := []) htoken
  rwa [State.step, State.value_of_isValue hexpected] at h

theorem forall₂_isWritten_quote (ts : List Text) :
    List.Forall₂ IsWritten (ts.map quote) (ts.map .string) := by
  induction ts with
  | nil => exact .nil
  | cons t ts ih => exact .cons (isWritten_quote t) ih

/-- A list of quoted texts is read as an array of strings. -/
theorem isWritten_ofTexts (ts : List Text) : IsWritten (list (ts.map quote)) (ofTexts ts) :=
  isWritten_list (forall₂_isWritten_quote ts)

end Json

namespace SourceMap

open Json (IsWritten ofTexts)
open Text (LineIndex)

theorem texts?_ofTexts (ts : List Text) : texts? (ofTexts ts) = some (ts.map some) := by
  have hall : ts.mapM (fun t => (pure (some t) : Option (Option Text))) = pure (ts.map some) :=
    List.mapM_pure
  show (ts.map Json.string).mapM _ = _
  rw [List.mapM_map]
  exact hall

theorem map_nameText_string (ts : List Text) : (ts.map Json.string).map nameText = ts := by
  rw [List.map_map]
  exact List.map_id ts

/-! ## What is written -/

/-- The version that is written. -/
def version : Json := .number ⟨false, ['3'], [], none⟩

theorem isSound_version (room : Nat) : version.isSound room = true := by
  have hfloat : (Json.Number.toFloat? ⟨false, ['3'], [], none⟩).isSome = true := by decide +kernel
  rw [version, Json.isSound, hfloat]

theorem word?_version : word? version = some 3 := by decide +kernel

/-- The text of a source, as it is written if it is given. -/
def sourceContent (file text source : Text) : Json := if source = file then .string text else .null

/-- The texts of the sources, of which one may be given. -/
def sourcesContent (contents : Option (Text × Text)) (sources : List Text) : List (Text × Json) :=
  match contents with
  | none => []
  | some (file, text) =>
    [("sourcesContent".toList, .array (sources.map (sourceContent file text)))]

/-- The members of a map that is written. -/
def membersOf (contents : Option (Text × Text)) (sources names : List Text) (mappings : Text) :
    List (Text × Json) :=
  [("version".toList, version), ("sources".toList, ofTexts sources)] ++
    sourcesContent contents sources ++
    [("names".toList, ofTexts names), ("mappings".toList, .string mappings)]

/-- The texts of sources are read as they are written. -/
theorem isWritten_sourceContent (file text : Text) (sources : List Text) :
    IsWritten (Json.list (sources.map fun s => if s = file then Json.quote text else "null".toList))
      (.array (sources.map (sourceContent file text))) := by
  refine Json.isWritten_list ?_
  induction sources with
  | nil => exact .nil
  | cons s sources ih =>
    refine .cons ?_ ih
    unfold sourceContent
    dsimp only
    split
    · exact Json.isWritten_quote text
    · exact Json.isWritten_null

theorem forall₂_isMember_sourcesContent (contents : Option (Text × Text)) (sources : List Text) :
    List.Forall₂ Json.IsMember (match contents with
      | none => []
      | some (file, text) => [("sourcesContent".toList, Json.list (sources.map fun s =>
          if s = file then Json.quote text else "null".toList))])
      (sourcesContent contents sources) := by
  match contents with
  | none => exact .nil
  | some (file, text) => exact .cons ⟨rfl, isWritten_sourceContent file text sources⟩ .nil

section Members

variable (contents : Option (Text × Text)) (sources names : List Text) (mappings : Text)

theorem texts?_sourceContent (file text : Text) :
    ∃ ts, texts? (.array (sources.map (sourceContent file text))) = some ts := by
  have hall : sources.mapM (fun source =>
      (pure (if source = file then some text else none) : Option (Option Text))) =
        pure (sources.map fun source => if source = file then some text else none) :=
    List.mapM_pure
  refine ⟨_, Eq.trans ?_ hall⟩
  show (sources.map (sourceContent file text)).mapM _ = _
  rw [List.mapM_map]
  congr 1
  funext source
  by_cases hfile : source = file
  · simp only [Function.comp_apply, sourceContent, if_pos hfile]
    rfl
  · simp only [Function.comp_apply, sourceContent, if_neg hfile]
    rfl

theorem isSound_of_mem_membersOf {room : Nat} {m : Text × Json}
    (hm : m ∈ membersOf contents sources names mappings) : m.2.isSound (room + 1) = true := by
  simp only [membersOf, List.mem_append, List.mem_cons, List.not_mem_nil, or_false] at hm
  rcases hm with ((rfl | rfl) | hm) | rfl | rfl
  · exact isSound_version _
  · exact Json.isSound_ofTexts room sources
  · match contents with
    | none => cases hm
    | some (file, text) =>
      obtain rfl := List.mem_singleton.mp hm
      refine Json.isSound_array fun v hv => ?_
      obtain ⟨source, -, rfl⟩ := List.mem_map.mp hv
      unfold sourceContent
      split <;> rfl
  · exact Json.isSound_ofTexts room names
  · rfl

/-- No name is repeated. -/
theorem nodup_membersOf : ((membersOf contents sources names mappings).map Prod.fst).Nodup := by
  match contents with
  | none =>
    show (["version", "sources", "names", "mappings"].map String.toList).Nodup
    decide
  | some _ =>
    show (["version", "sources", "sourcesContent", "names", "mappings"].map String.toList).Nodup
    decide

theorem lookup_membersOf :
    Json.lookup (membersOf contents sources names mappings) "version".toList = some version ∧
    Json.lookup (membersOf contents sources names mappings) "sources".toList =
      some (ofTexts sources) ∧
    Json.lookup (membersOf contents sources names mappings) "names".toList = some (ofTexts names) ∧
    Json.lookup (membersOf contents sources names mappings) "mappings".toList =
      some (.string mappings) := by
  match contents with
  | none => exact ⟨rfl, rfl, rfl, rfl⟩
  | some _ => exact ⟨rfl, rfl, rfl, rfl⟩

theorem exists_optional_sourcesContent : ∃ ts, Json.optional texts?
    (Json.lookup (membersOf contents sources names mappings) "sourcesContent".toList) =
      some ts := by
  match contents with
  | none => exact ⟨_, rfl⟩
  | some (file, text) =>
    obtain ⟨ts, hts⟩ := texts?_sourceContent sources file text
    refine ⟨some ts, ?_⟩
    show (texts? (.array (sources.map (sourceContent file text)))).map some = _
    rw [hts, Option.map_some]

/-- What is not written is absent. -/
theorem lookup_membersOf_eq_none {name : Text}
    (h : name ∉ ["version", "sources", "sourcesContent", "names", "mappings"].map String.toList) :
    Json.lookup (membersOf contents sources names mappings) name = none := by
  refine Json.lookup_eq_none fun hname => h ?_
  match contents with
  | none =>
    have hall : ∀ n ∈ ["version", "sources", "names", "mappings"].map String.toList,
        n ∈ ["version", "sources", "sourcesContent", "names", "mappings"].map String.toList := by
      decide
    exact hall name hname
  | some _ => exact hname

/-- The members of a map that is written are read. -/
theorem members?_membersOf (room : Nat) :
    members? (room + 1) (.object (membersOf contents sources names mappings)) =
      some ⟨sources, names, [], mappings, [], none, false⟩ := by
  have hcount : (knownMembers.all fun name =>
      decide ((membersOf contents sources names mappings).countP (·.1 == name) ≤ 1)) = true :=
    List.all_eq_true.mpr fun name _ =>
      decide_eq_true (Json.countP_le_one (nodup_membersOf contents sources names mappings) name)
  have hsound : ((membersOf contents sources names mappings).all fun m =>
      sparseMembers.contains m.1 || m.2.isSound (room + 1)) = true :=
    List.all_eq_true.mpr fun m hm =>
      Bool.or_eq_true_iff.mpr (.inr (isSound_of_mem_membersOf contents sources names mappings hm))
  obtain ⟨hversion, hsources, hnames, hmappings⟩ := lookup_membersOf contents sources names mappings
  obtain ⟨ts, hts⟩ := exists_optional_sourcesContent contents sources names mappings
  have habsent : ∀ name ∈ ["sourceRoot", "rangeMappings", "ignoreList", "x_facebook_offsets",
      "x_metro_module_paths", "debugId", "debug_id", "sections", "x_facebook_sources"],
      Json.lookup (membersOf contents sources names mappings) name.toList = none := by
    intro name hname
    refine lookup_membersOf_eq_none contents sources names mappings ?_
    revert name
    decide
  simp only [List.forall_mem_cons] at habsent
  obtain ⟨hroot, hranges, hignored, hoffsets, hpaths, hid, hid', hsections, hscopes, -⟩ := habsent
  unfold members?
  simp only [Json.members?, hcount, hsound, guard, Json.optional_none, Json.optional_some, hversion,
    hsources, hnames, hmappings, hroot, hranges, hignored, hoffsets, hpaths, hid, hid', hsections,
    hscopes, hts, word?_version, texts?_ofTexts, Option.bind_eq_bind, Option.bind_some,
    Option.pure_def, ↓reduceIte, Option.map_some]
  show some (Members.mk ((sources.map some).map (·.getD [])) ((names.map .string).map nameText) []
    mappings [] none false) = _
  have hsome : (sources.map some).map (·.getD []) = sources := by
    rw [List.map_map]
    exact List.map_id sources
  rw [hsome, map_nameText_string]

/-- The members that are written make the points that are in them. -/
theorem contents?_membersOf (maps : Nat) :
    contents? (maps + 1) (.object (membersOf contents sources names mappings)) =
      some ((points sources names mappings []).map Contents.points) := by
  have hroom : 3 * (maps + 1) = 3 * maps + 2 + 1 := rfl
  have hrooted : sources.map (rooted []) = sources := List.map_id sources
  rw [contents?, hroom, members?_membersOf, Option.bind_some]
  dsimp only
  rw [Members.contents]
  dsimp only
  rw [hrooted]
  cases points sources names mappings [] <;> rfl

end Members

/-! ## Maps -/

/-- The object that is written is read as its members. -/
theorem isWritten_write (contents : Option (Text × Text)) (points : List Point) :
    let ps := normalize (points.map Point.inWords)
    let sources := distinct ((contents.map Prod.fst).toList ++ sourcesOf ps)
    let names := distinct (namesOf ps)
    IsWritten (write contents points)
      (.object (membersOf contents sources names (segments sources names true .start ps))) := by
  intro ps sources names
  have hhead : List.Forall₂ Json.IsMember
      [("version".toList, ['3']), ("sources".toList, Json.list (sources.map Json.quote))]
      [("version".toList, version), ("sources".toList, ofTexts sources)] :=
    .cons ⟨rfl, Json.isWritten_three⟩ (.cons ⟨rfl, Json.isWritten_ofTexts sources⟩ .nil)
  have htail : List.Forall₂ Json.IsMember
      [("names".toList, Json.list (names.map Json.quote)),
        ("mappings".toList, Json.quote (segments sources names true .start ps))]
      [("names".toList, ofTexts names),
        ("mappings".toList, .string (segments sources names true .start ps))] :=
    .cons ⟨rfl, Json.isWritten_ofTexts names⟩ (.cons ⟨rfl, Json.isWritten_quote _⟩ .nil)
  have hcontents := forall₂_isMember_sourcesContent contents sources
  exact Json.isWritten_record (List.rel_append (List.rel_append hhead hcontents) htail)

/-- No line that is not part of the map is in front of it. -/
theorem withoutGuard_write (contents : Option (Text × Text)) (points : List Point) :
    withoutGuard (write contents points) = .ok (write contents points) := rfl

theorem mem_distinct {t : Text} {ts : List Text} : t ∈ distinct ts ↔ t ∈ ts := by
  induction ts with
  | nil => rfl
  | cons s ts ih =>
    rw [distinct, List.mem_cons, List.mem_cons, List.mem_filter, ih, bne_iff_ne]
    by_cases h : t = s
    · simp [h]
    · simp [h]

/-- A point can be written. -/
structure Point.IsWritable (p : Point) : Prop where
  isRange : p.isRange = false
  origin : ∀ o ∈ p.origin, o.IsWritable

theorem wordOf_lt (n : Nat) : wordOf n < wordBound := Nat.mod_lt n (Nat.two_pow_pos 32)

theorem Point.IsWritable.inWords_origin {p : Point} (h : p.IsWritable) :
    p.inWords.origin = p.origin := by
  rw [Point.inWords]
  cases ho : p.origin with
  | none => rfl
  | some o =>
    obtain ⟨hline, hcolumn, -⟩ := h.origin o ho
    rw [Option.map_some, wordOf_of_lt (Nat.lt_of_succ_lt hline), wordOf_of_lt hcolumn]

/-- What can be written can be told with the sources and the names that are listed. -/
theorem isTold_of_mem_normalize {points : List Point} (hpoints : ∀ p ∈ points, p.IsWritable)
    (listed : List Text) {p : Point} (hp : p ∈ normalize (points.map Point.inWords)) :
    p.IsTold (distinct (listed ++ sourcesOf (normalize (points.map Point.inWords))))
      (distinct (namesOf (normalize (points.map Point.inWords)))) := by
  obtain ⟨q, hq, rfl⟩ := List.mem_map.mp (mem_of_mem_normalize hp)
  have hwritable := hpoints q hq
  refine ⟨wordOf_lt _, hwritable.isRange, fun o ho => ?_⟩
  rw [hwritable.inWords_origin] at ho
  obtain ⟨hline, hcolumn, hsource⟩ := hwritable.origin o ho
  obtain ⟨source, hsome⟩ := Option.isSome_iff_exists.mp hsource
  refine ⟨hline, hcolumn, ⟨source, ?_, hsome⟩, fun name hname => ?_⟩
  · refine mem_distinct.mpr (List.mem_append_right _ (List.mem_filterMap.mpr ⟨_, hp, ?_⟩))
    rw [hwritable.inWords_origin, ho, Option.bind_some]
    exact hsome
  · refine mem_distinct.mpr (List.mem_filterMap.mpr ⟨_, hp, ?_⟩)
    rw [hwritable.inWords_origin, ho, Option.bind_some]
    exact hname

/-- A map that is written is read as its points, in order. -/
theorem read_write (contents : Option (Text × Text)) {points : List Point}
    (hpoints : ∀ p ∈ points, p.IsWritable)
    (hsources : (distinct ((contents.map Prod.fst).toList ++
      sourcesOf (normalize (points.map Point.inWords)))).length ≤ wordBound)
    (hnames : (distinct (namesOf (normalize (points.map Point.inWords)))).length ≤ wordBound) :
    read (write contents points) = .ok (normalize (points.map Point.inWords)) := by
  have hread := points_segments hsources hnames
    (fun p hp => isTold_of_mem_normalize hpoints _ hp) (pairwise_before_normalize _)
  have hlimit : mapLimit = 41 + 1 := rfl
  have hcontents : (Json.parse? (write contents points)).bind (contents? mapLimit) =
      some (.ok (.points (normalize (points.map Point.inWords)))) := by
    rw [(isWritten_write contents points).parse?_eq, Option.bind_some, hlimit,
      contents?_membersOf, hread]
    rfl
  simp only [read, withoutGuard_write, hcontents, bind, Except.bind]
  rfl

theorem length_normalize_le (points : List Point) : (normalize points).length ≤ points.length := by
  have hnodup : (normalize points).Nodup := by
    refine (pairwise_before_normalize points).imp fun {p q} hpq => ?_
    rintro rfl
    unfold Point.Before at hpq
    omega
  exact (List.subperm_of_subset hnodup fun _ hp => mem_of_mem_normalize hp).length_le

/-- Points that can be written and that stand in a text whose places are words are all words. -/
theorem map_inWords_eq {points : List Point} (hpoints : ∀ p ∈ points, p.IsWritable) {t : Text}
    (ht : t.FitsWords)
    (hplaces : ∀ p ∈ points, ∃ n, (LineIndex.of t).point n = (p.line, p.column)) :
    points.map Point.inWords = points := by
  conv => rhs; rw [← List.map_id points]
  refine List.map_congr_left fun p hp => ?_
  obtain ⟨hline, hcolumn⟩ := ht.place_lt (hplaces p hp)
  show Point.mk (wordOf p.line) (wordOf p.column) p.inWords.origin p.isRange = p
  rw [(hpoints p hp).inWords_origin, wordOf_of_lt (Nat.lt_of_succ_lt hline), wordOf_of_lt hcolumn]

/-! ## New maps -/

section Create

variable {input output file : Text} {edits : List Edit}

/-- The points of a new map tell places in the file, without names. -/
theorem exists_of_mem_create {p : Point} (hp : p ∈ create input output file edits) :
    (∃ n, (LineIndex.of output).point n = (p.line, p.column)) ∧ p.isRange = false ∧
      ∀ o ∈ p.origin, (∃ n, (LineIndex.of input).point n = (o.line, o.column)) ∧
        o.source = some file ∧ o.name = none := by
  obtain ⟨n, -, hpoint⟩ := List.mem_filterMap.mp hp
  obtain ⟨byte, -, rfl⟩ := Option.map_eq_some_iff.mp hpoint
  refine ⟨⟨n, rfl⟩, rfl, fun o ho => ?_⟩
  obtain ⟨k, -, horigin⟩ := Option.bind_eq_some_iff.mp ho
  obtain rfl := Option.some.inj horigin
  exact ⟨⟨k, rfl⟩, rfl, rfl⟩

theorem isWritable_of_mem_create (hinput : input.FitsWords) {p : Point}
    (hp : p ∈ create input output file edits) : p.IsWritable := by
  obtain ⟨-, hrange, horigin⟩ := exists_of_mem_create hp
  refine ⟨hrange, fun o ho => ?_⟩
  obtain ⟨hplace, hsource, -⟩ := horigin o ho
  obtain ⟨hline, hcolumn⟩ := hinput.place_lt hplace
  exact ⟨hline, hcolumn, by rw [hsource]; rfl⟩

theorem distinct_of_forall_eq {t : Text} {ts : List Text} (h : ∀ s ∈ ts, s = t) :
    distinct (t :: ts) = [t] := by
  have hnone : (distinct ts).filter (· != t) = [] := by
    refine List.filter_eq_nil_iff.mpr fun s hs => ?_
    rw [h s (mem_distinct.mp hs), bne_self_eq_false]
    exact Bool.false_ne_true
  rw [distinct, hnone]

/-- A new map is read just as it was made. -/
theorem read_write_create (hinput : input.FitsWords) (houtput : output.FitsWords) :
    read (write (some (file, input)) (create input output file edits)) =
      .ok (normalize (create input output file edits)) := by
  have hpoints : ∀ p ∈ create input output file edits, p.IsWritable := fun p hp =>
    isWritable_of_mem_create hinput hp
  have hwords := map_inWords_eq hpoints houtput fun p hp => (exists_of_mem_create hp).1
  have horigin : ∀ p ∈ normalize (create input output file edits), ∀ o ∈ p.origin,
      o.source = some file ∧ o.name = none := fun p hp o ho =>
    ((exists_of_mem_create (mem_of_mem_normalize hp)).2.2 o ho).2
  have hsources : ∀ s ∈ sourcesOf (normalize (create input output file edits)), s = file := by
    intro s hs
    obtain ⟨p, hp, hsource⟩ := List.mem_filterMap.mp hs
    obtain ⟨o, ho, hsource⟩ := Option.bind_eq_some_iff.mp hsource
    exact Option.some.inj (hsource.symm.trans (horigin p hp o ho).1)
  have hnames : namesOf (normalize (create input output file edits)) = [] := by
    refine List.filterMap_eq_nil_iff.mpr fun p hp => ?_
    refine Option.bind_eq_none_iff.mpr fun o ho => (horigin p hp o ho).2
  have hread := read_write (some (file, input)) hpoints
  rw [hwords] at hread
  refine hread ?_ ?_
  · show (distinct (file :: sourcesOf _)).length ≤ wordBound
    rw [distinct_of_forall_eq hsources]
    exact Nat.one_le_two_pow
  · rw [hnames]
    exact Nat.zero_le _

end Create

/-! ## Maps that are carried -/

section Carry

variable {input output : Text} {earlier : List Point} {edits : List Edit}

/-- An origin that is told comes from a point. -/
theorem exists_of_originAt_eq_some {points : List Point} {line column : Nat} {o : Origin}
    (hpoints : ∀ p ∈ points, ∀ o ∈ p.origin, o.IsWritable)
    (h : originAt points line column = some o) :
    o.IsWritable ∧ ∃ p ∈ points, ∃ o' ∈ p.origin, o'.source = o.source ∧ o'.name = o.name := by
  obtain ⟨p, hlookup, horigin⟩ := Option.bind_eq_some_iff.mp h
  have hp : p ∈ points := by
    unfold lookup at hlookup
    split at hlookup
    next q hfind =>
      obtain rfl := Option.some.inj hlookup
      exact List.mem_of_find?_eq_some hfind
    · exact (List.takeWhile_sublist _).subset (List.mem_of_getLast? hlookup)
  obtain ⟨o', ho', hshift⟩ := Option.map_eq_some_iff.mp horigin
  obtain ⟨hline, hcolumn, hsource⟩ := hpoints p hp o' ho'
  split at hshift
  · obtain rfl := hshift
    have hpos : 0 < wordBound := Nat.two_pow_pos 32
    refine ⟨⟨hline, ?_, hsource⟩, p, hp, o', ho', rfl, rfl⟩
    dsimp only
    omega
  · obtain rfl := hshift
    exact ⟨⟨hline, hcolumn, hsource⟩, p, hp, o', ho', rfl, rfl⟩

/-- The points of a carried map tell origins that the map before tells. -/
theorem exists_of_mem_carryInWords (hearlier : ∀ p ∈ earlier, ∀ o ∈ p.origin, o.IsWritable)
    {q : Point} (hq : q ∈ carryInWords input output earlier edits) :
    (∃ n, (LineIndex.of output).point n = (q.line, q.column)) ∧ q.isRange = false ∧
      ∀ o ∈ q.origin, o.IsWritable ∧
        ∃ p ∈ earlier, ∃ o' ∈ p.origin, o'.source = o.source ∧ o'.name = o.name := by
  rcases List.mem_append.mp hq with hq | hq
  · obtain ⟨p, hp, hmoved⟩ := List.mem_filterMap.mp hq
    obtain ⟨n, -, rfl⟩ := Option.map_eq_some_iff.mp hmoved
    exact ⟨⟨n, rfl⟩, rfl, fun o ho => ⟨hearlier p hp o ho, p, hp, o, ho, rfl, rfl⟩⟩
  · obtain ⟨n, -, hpoint⟩ := List.mem_filterMap.mp hq
    obtain ⟨byte, -, rfl⟩ := Option.map_eq_some_iff.mp hpoint
    refine ⟨⟨n, rfl⟩, rfl, fun o ho => ?_⟩
    obtain ⟨k, -, horigin⟩ := Option.bind_eq_some_iff.mp ho
    exact exists_of_originAt_eq_some hearlier horigin

theorem nodup_distinct (ts : List Text) : (distinct ts).Nodup := by
  induction ts with
  | nil => exact .nil
  | cons t ts ih =>
    refine List.nodup_cons.mpr ⟨fun ht => ?_, ih.filter _⟩
    simp at ht

theorem length_distinct_le {ts ts' : List Text} (h : ts ⊆ ts') :
    (distinct ts).length ≤ ts'.length :=
  (List.subperm_of_subset (nodup_distinct ts) fun _ ht => h (mem_distinct.mp ht)).length_le

/-- What points tell of their origins others tell as well, if the origins are alike in that. -/
theorem filterMap_origin_subset {points points' : List Point} {f : Origin → Option Text}
    (h : ∀ p ∈ points, ∀ o ∈ p.origin, ∃ q ∈ points', ∃ o' ∈ q.origin, f o' = f o) :
    points.filterMap (fun p => p.origin.bind f) ⊆ points'.filterMap fun p => p.origin.bind f := by
  intro s hs
  obtain ⟨p, hp, hs⟩ := List.mem_filterMap.mp hs
  obtain ⟨o, ho, hs⟩ := Option.bind_eq_some_iff.mp hs
  obtain ⟨q, hq, o', ho', hsame⟩ := h p hp o ho
  refine List.mem_filterMap.mpr ⟨q, hq, ?_⟩
  rw [ho', Option.bind_some, hsame, hs]

/-- A map that is carried over is read just as it was made, if it comes from a map that was read and
that has no more points than there are words. -/
theorem read_write_carryInWords {map : Text} (hread : read map = .ok earlier)
    (hlength : earlier.length ≤ wordBound) (houtput : output.FitsWords) :
    read (write none (carryInWords input output earlier edits)) =
      .ok (normalize (carryInWords input output earlier edits)) := by
  have hearlier := isWritable_of_read hread
  have hpoints : ∀ p ∈ carryInWords input output earlier edits, p.IsWritable := fun p hp =>
    have ⟨_, hrange, horigin⟩ := exists_of_mem_carryInWords hearlier hp
    ⟨hrange, fun o ho => (horigin o ho).1⟩
  have hwords := map_inWords_eq hpoints houtput fun p hp =>
    (exists_of_mem_carryInWords hearlier hp).1
  -- no sources and names are listed but those of the map before
  have hsources : sourcesOf (normalize (carryInWords input output earlier edits)) ⊆
      sourcesOf earlier := by
    refine filterMap_origin_subset fun q hq o ho => ?_
    obtain ⟨-, -, horigin⟩ := exists_of_mem_carryInWords hearlier (mem_of_mem_normalize hq)
    obtain ⟨-, p, hp, o', ho', hsame, -⟩ := horigin o ho
    exact ⟨p, hp, o', ho', hsame⟩
  have hnames : namesOf (normalize (carryInWords input output earlier edits)) ⊆
      namesOf earlier := by
    refine filterMap_origin_subset fun q hq o ho => ?_
    obtain ⟨-, -, horigin⟩ := exists_of_mem_carryInWords hearlier (mem_of_mem_normalize hq)
    obtain ⟨-, p, hp, o', ho', -, hsame⟩ := horigin o ho
    exact ⟨p, hp, o', ho', hsame⟩
  have hback := read_write none hpoints
  rw [hwords] at hback
  refine hback ?_ ?_
  · exact Nat.le_trans (length_distinct_le hsources)
      (Nat.le_trans (List.length_filterMap_le _ _) hlength)
  · exact Nat.le_trans (length_distinct_le hnames)
      (Nat.le_trans (List.length_filterMap_le _ _) hlength)

end Carry

end SourceMap

end LeadingTrim
