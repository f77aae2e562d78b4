/-
# Chains of runs

Trimmers can be applied one behind the other: the first makes a new map, and each later one carries
the map of the one in front of it over. However long such a chain is, its map leads from each
character back to the line of the first sheet from which the character comes
(`originAt_of_chain`). A new map tells the line of each character and a column in front of it
(`originAt_create`), and a carried map tells what the map before told (`originAt_carry`). What makes
this go on is that each text of the chain is again without carriage returns, and each map a map of
its text (`Sound`). The maps have to be read as they have been written, and they are where lines and
columns are words (`Chain.read_map`).
-/

import LeadingTrim.Proofs.SourceMap.Words
import LeadingTrim.Proofs.Trimmer.CarriedMap
import LeadingTrim.Proofs.Trimmer.Returns

namespace LeadingTrim

open Edit (Traced Provenance trace textOf textOf_trace)
open Sheet (Declaration Rule)
open SourceMap (IsBuilt MapOf Origin Point)
open Text (LineIndex)

/-! ## New maps -/

namespace SourceMap

variable {input : Text} {edits : List Edit}

/-- A new map is a map of the edited text. -/
theorem mapOf_create (file : Text) (h : Edit.InOrder input edits)
    (huniform : ∀ e ∈ edits, e.IsUniform) : MapOf (Edit.applyAll input edits)
      (normalize (create input (Edit.applyAll input edits) file edits)) := by
  refine mapOf_normalize fun q hq => ?_
  obtain ⟨l, x, m, htrace, -, rfl⟩ := (mem_create_iff h huniform).mp hq
  exact ⟨⟨_, ⟨_, _, Edit.applyAll_of_trace htrace, rfl⟩, rfl⟩, rfl⟩

/-- The origin is on the line of a byte, and not behind it. -/
structure IsNear (input file : Text) (byte : Nat) (o : Origin) : Prop where
  source : o.source = some file
  line : o.line = ((LineIndex.of input).point byte).1
  column_le : o.column ≤ ((LineIndex.of input).point byte).2

/-- The first character of a run comes from the line of a later one on the same line. -/
theorem isNear_of_isRun (file : Text) (hbuilt : ∀ e ∈ edits, IsBuilt e) {mid m : List Traced}
    {x y : Traced} (hy : mid ++ [x] = y :: m) (hrun : Edit.IsRun input edits (mid ++ [x]))
    (hline : '\n' ∉ textOf mid) (hx : x.1 ≠ '\n' ∧ x.1 ≠ '\r') {byte : Nat}
    (hbyte : x.2.origin? = some byte) :
    ∃ n, y.2.origin? = some n ∧ IsNear input file byte (placeIn input file n) := by
  obtain ⟨n, hn, hplace⟩ := exists_origin_of_isRun hbuilt hy hrun hline hx
  refine ⟨n, hn, ?_⟩
  cases hsource : x.2 with
  | put e =>
    obtain ⟨start, stop, text, -, rfl⟩ := by simpa only [hsource] using hplace
    rw [hsource, Provenance.origin?, Edit.synthesize, List.head?_replicate] at hbyte
    split at hbyte
    · cases hbyte
    · obtain rfl := Option.some.inj hbyte
      exact ⟨rfl, rfl, Nat.le_refl _⟩
  | kept k =>
    obtain ⟨-, hcolumns⟩ := by simpa only [hsource] using hplace
    rw [hsource] at hbyte
    obtain rfl := Option.some.inj hbyte
    exact ⟨rfl, by rw [hcolumns]; rfl, by rw [hcolumns]; exact Nat.le_add_right _ _⟩

/-- A new map tells of each character a place on the line of its origin, and not behind that. -/
theorem originAt_create (file : Text) (h : Edit.InOrder input edits)
    (hbuilt : ∀ e ∈ edits, IsBuilt e) {l m : List Traced} {x : Traced}
    (htrace : trace input edits = l ++ x :: m) (hx : x.1 ≠ '\n' ∧ x.1 ≠ '\r') {byte : Nat}
    (hbyte : x.2.origin? = some byte) :
    ∃ o, originOfByte (Edit.applyAll input edits)
        (normalize (create input (Edit.applyAll input edits) file edits)) (textOf l).byteSize =
      some o ∧ IsNear input file byte o := by
  have huniform : ∀ e ∈ edits, e.IsUniform := fun e he => (hbuilt e he).isUniform
  have hmap := mapOf_create file h huniform
  obtain ⟨l₁, mid, rfl, hanchor, hlast, hrun, hline⟩ := exists_anchor h htrace
  obtain ⟨y, m', hy⟩ := List.exists_cons_of_ne_nil (show mid ++ [x] ≠ [] by simp)
  have hy' : mid ++ x :: m = y :: (m' ++ m) := by
    rw [← List.cons_append, ← hy, List.append_assoc]
    rfl
  obtain ⟨n, hn, hnear⟩ := isNear_of_isRun file hbuilt hy hrun hline hx hbyte
  have hpoint := lastUpTo_create_eq file h huniform htrace hy' hanchor hlast hline hx
  refine ⟨placeIn input file n, ?_, hnear⟩
  rw [originOfByte, originAt_eq hmap.ordered hmap.isRange, hpoint, Option.bind_some, pointBefore,
    hn]
  rfl

end SourceMap

/-! ## Stages -/

namespace Trimmer

/-- A run with a map. -/
structure Stage where
  /-- The trimmer. -/
  trimmer : Trimmer
  /-- The text before. -/
  source : Text
  /-- The rules of the text before. -/
  rules : List Rule
  /-- The edits. -/
  edits : List Edit
  /-- The points of the map. -/
  points : List Point
  /-- What is written. -/
  output : Output

/-- The character at an offset of what a stage writes comes from a byte of the text before: from
where it stood, if it is kept, and from the start of the directive for which it is put there
otherwise. -/
def Stage.ComesFrom (s : Stage) (n byte : Nat) : Prop :=
  ∃ l x m, trace s.source s.edits = l ++ x :: m ∧ (textOf l).byteSize = n ∧
    match x.2 with
    | .kept k => byte = k
    | .put e => ∃ r d, (r, d) ∈ s.trimmer.directives s.rules ∧
        e ∈ s.trimmer.editsOf s.source (r, d) ∧ byte = d.start

/-- The character at an offset comes from a byte of the first text, through stages of which the last
is given first. -/
def ComesFromFirst : List Stage → Nat → Nat → Prop
  | [], n, byte => n = byte
  | s :: stages, n, byte => ∃ k, s.ComesFrom n k ∧ ComesFromFirst stages k byte

/-- The stage of a run that makes a new map. -/
def Stage.first (t : Trimmer) (sheet : Text) (rules : List Rule) (file : Text) (edits : List Edit)
    (out : Output) : Stage :=
  ⟨t, sheet, rules, edits, SourceMap.create sheet out.code file edits, out⟩

/-- The stage of a run that carries the points of the map before over. -/
def Stage.next (t : Trimmer) (source : Text) (rules : List Rule) (earlier : List Point)
    (edits : List Edit) (out : Output) : Stage :=
  ⟨t, source, rules, edits, SourceMap.carry source out.code earlier edits, out⟩

/-- The stages of a chain of runs that starts with a style sheet of the given name, the last first.
Each run but the first is on what the one in front of it has written. The rules of a text are what a
reader gives. -/
inductive Chain (reader : Text → List Rule) (sheet file : Text) : List Stage → Prop
  | first {t : Trimmer} {edits : List Edit} {out : Output}
    (hrun : t.runOn sheet (reader sheet) = .ok (out.code, edits))
    (hmap : newMap sheet out.code file edits = out.map) :
    Chain reader sheet file [.first t sheet (reader sheet) file edits out]
  | next {before : Stage} {stages : List Stage} {t : Trimmer} {edits : List Edit}
    {earlier : List Point} {out : Output} (h : Chain reader sheet file (before :: stages))
    (hrun : t.runOn before.output.code (reader before.output.code) = .ok (out.code, edits))
    (hread : SourceMap.read before.output.map = .ok earlier)
    (hmap : carriedMap before.output.code out.code before.output.map edits = .ok out.map) :
    Chain reader sheet file
      (.next t before.output.code (reader before.output.code) earlier edits out ::
        before :: stages)

section Chain

variable {reader : Text → List Rule} {sheet file : Text}

/-- The maps of a chain are read as they have been written, if lines and columns are words and no
map has more points than there are words. -/
theorem Chain.read_map {stages : List Stage} (h : Chain reader sheet file stages)
    (hfits : ∀ s ∈ stages, s.source.FitsWords ∧ s.output.code.FitsWords ∧
      s.points.length ≤ SourceMap.wordBound) :
    ∀ s ∈ stages, SourceMap.read s.output.map = .ok (SourceMap.normalize s.points) := by
  induction h with
  | @first t edits out hrun hmap =>
    obtain ⟨hsource, hcode, -⟩ := hfits _ List.mem_cons_self
    refine List.forall_mem_cons.mpr ⟨?_, fun s hs => absurd hs List.not_mem_nil⟩
    show SourceMap.read out.map = _
    rw [← hmap]
    exact SourceMap.read_write_create hsource hcode
  | @next before stages t edits earlier out h hrun hread hmap ih =>
    obtain ⟨hnext, hfits⟩ := List.forall_mem_cons.mp hfits
    have hsource : before.output.code.FitsWords := hnext.1
    have hcode : out.code.FitsWords := hnext.2.1
    obtain ⟨-, -, hlength⟩ := hfits before List.mem_cons_self
    have hbefore := ih hfits
    have hearlier : earlier = SourceMap.normalize before.points :=
      Except.ok.inj (hread.symm.trans (hbefore before List.mem_cons_self))
    refine List.forall_mem_cons.mpr ⟨?_, hbefore⟩
    have hshort : earlier.length ≤ SourceMap.wordBound := by
      rw [hearlier]
      exact Nat.le_trans (SourceMap.length_normalize_le before.points) hlength
    have hwritten : out.map = SourceMap.write none
        (SourceMap.carryInWords before.output.code out.code earlier edits) := by
      rw [carriedMap, hread] at hmap
      exact (Except.ok.inj hmap).symm
    show SourceMap.read out.map =
      .ok (SourceMap.normalize (SourceMap.carry before.output.code out.code earlier edits))
    rw [hwritten, SourceMap.read_write_carryInWords hread hshort hcode,
      SourceMap.carryInWords_eq_carry hsource]

/-- Runs that are all fine go a chain on. -/
theorem Chain.exists_append {s : Stage} {stages : List Stage}
    (h : Chain Sheet.rules sheet file (s :: stages)) {later : List Trimmer} {out : Output}
    (hlater : later.foldlM (fun out t => t.trimCarryingMap out.code out.map) s.output = .ok out) :
    ∃ last behind, Chain Sheet.rules sheet file (last :: behind) ∧ last.output = out ∧
      (last :: behind).map Stage.trimmer = later.reverse ++ (s :: stages).map Stage.trimmer := by
  induction later generalizing s stages with
  | nil =>
    obtain rfl := Except.ok.inj hlater
    exact ⟨s, stages, h, rfl, rfl⟩
  | cons t later ih =>
    rw [List.foldlM_cons] at hlater
    obtain ⟨next, hnext, hlater⟩ := exists_of_bind_eq_ok hlater
    obtain ⟨⟨code, edits⟩, hrun, hmap⟩ := exists_of_bind_eq_ok hnext
    obtain ⟨map, hcarried, hout⟩ := exists_of_bind_eq_ok hmap
    obtain rfl := Except.ok.inj hout
    cases hread : SourceMap.read s.output.map with
    | error fault =>
      rw [carriedMap, hread] at hcarried
      cases hcarried
    | ok earlier =>
      have hnext : Chain Sheet.rules sheet file (.next t s.output.code
          (Sheet.rules s.output.code) earlier edits ⟨code, map⟩ :: s :: stages) :=
        .next h hrun hread hcarried
      obtain ⟨last, behind, hchain, hlast, htrimmers⟩ := ih hnext hlater
      refine ⟨last, behind, hchain, hlast, ?_⟩
      rw [htrimmers]
      simp [Stage.next]

/-- Runs that are all fine make a chain. -/
theorem exists_chain {t : Trimmer} {later : List Trimmer} {out : Output}
    (h : (t.trimWithMap sheet file >>= fun first =>
      later.foldlM (fun out t => t.trimCarryingMap out.code out.map) first) = .ok out) :
    ∃ last behind, Chain Sheet.rules sheet file (last :: behind) ∧ last.output = out ∧
      (last :: behind).map Stage.trimmer = (t :: later).reverse := by
  obtain ⟨first, hfirst, hlater⟩ := exists_of_bind_eq_ok h
  obtain ⟨⟨code, edits⟩, hrun, hout⟩ := exists_of_map_eq_ok hfirst
  obtain rfl := hout
  have hchain : Chain Sheet.rules sheet file [.first t sheet (Sheet.rules sheet) file edits
      ⟨code, newMap sheet code file edits⟩] := .first hrun rfl
  obtain ⟨last, behind, hchain, hlast, htrimmers⟩ := hchain.exists_append hlater
  exact ⟨last, behind, hchain, hlast, by simpa [Stage.first] using htrimmers⟩

end Chain

/-! ## Where the characters of a stage come from -/

section Stage

variable {t : Trimmer} {source : Text} {x : Rule × Declaration} {e : Edit}

theorem isBuilt_of_mem_editsOf (he : e ∈ t.editsOf source x) : IsBuilt e := by
  obtain ⟨scope, p, o, he⟩ := exists_of_mem_editsOf he
  rcases Correction.mem_edits he with rfl | ⟨text, rfl⟩ | ⟨text, rfl⟩
  · exact .delete _ _
  · exact .synthesize _ _ _ _
  · exact .synthesize _ _ _ _

/-- What a directive puts somewhere comes from the start of its declaration. -/
theorem origin?_of_mem_editsOf (he : e ∈ t.editsOf source x) (htext : e.text ≠ []) :
    (Provenance.put e).origin? = some x.2.start := by
  obtain ⟨scope, p, o, he⟩ := exists_of_mem_editsOf he
  have hput : ∀ start stop text, text ≠ [] →
      (Provenance.put (.synthesize start stop text x.2.start)).origin? = some x.2.start := by
    intro start stop text hne
    have hpos := Text.byteSize_pos hne
    rw [Provenance.origin?, Edit.synthesize, List.head?_replicate, if_neg (by omega)]
    rfl
  rcases Correction.mem_edits he with rfl | ⟨text, rfl⟩ | ⟨text, rfl⟩
  · exact absurd rfl htext
  · exact hput _ _ _ htext
  · exact hput _ _ _ htext

variable {s : Stage} {code : Text} (hrules : Sheet.AreRead s.source s.rules)
  (hrun : s.trimmer.runOn s.source s.rules = .ok (code, s.edits))
  {l m : List Traced} {y : Traced} (htrace : trace s.source s.edits = l ++ y :: m)

include hrules hrun htrace

/-- A character comes from the origin that its edit names, or from where it stood. -/
theorem comesFrom_iff {byte : Nat} :
    s.ComesFrom (textOf l).byteSize byte ↔ y.2.origin? = some byte := by
  obtain ⟨-, horder, hedits⟩ := spec_of_runOn _ hrules.toFits hrun
  constructor
  · rintro ⟨l', y', m', htrace', hsize, hy⟩
    have hspec := horder.spec_of_trace htrace'
    obtain rfl := Text.eq_of_byteSize_eq Prod.fst (htrace'.symm.trans htrace) hsize
    obtain ⟨rfl, -⟩ := List.cons.inj (List.append_cancel_left (htrace'.symm.trans htrace))
    cases hsource : y'.2 with
    | kept k =>
      obtain rfl := by simpa only [hsource] using hy
      rfl
    | put e =>
      obtain ⟨-, hmem⟩ := by simpa only [hsource] using hspec
      obtain ⟨r, d, -, he, rfl⟩ := by simpa only [hsource] using hy
      exact origin?_of_mem_editsOf he (List.ne_nil_of_mem hmem)
  · intro horigin
    refine ⟨l, y, m, htrace, rfl, ?_⟩
    have hspec := horder.spec_of_trace htrace
    cases hsource : y.2 with
    | kept k =>
      rw [hsource] at horigin
      exact (Option.some.inj horigin).symm
    | put e =>
      obtain ⟨he, hmem⟩ := by simpa only [hsource] using hspec
      obtain ⟨⟨r, d⟩, hx, hof⟩ := hedits e he
      rw [hsource, origin?_of_mem_editsOf hof (List.ne_nil_of_mem hmem)] at horigin
      exact ⟨r, d, hx, hof, (Option.some.inj horigin).symm⟩

/-- Each character that is no line feed comes from such a character of the text before. -/
theorem exists_origin? (hy : y.1 ≠ '\n') :
    ∃ (before : Text) (c : Char) (after : Text), s.source = before ++ c :: after ∧ c ≠ '\n' ∧
      y.2.origin? = some before.byteSize := by
  obtain ⟨-, horder, hedits⟩ := spec_of_runOn _ hrules.toFits hrun
  have hspec := horder.spec_of_trace htrace
  cases hsource : y.2 with
  | kept k =>
    obtain ⟨before, after, hbefore, rfl⟩ := by simpa only [hsource] using hspec
    exact ⟨before, y.1, after, hbefore, hy, rfl⟩
  | put e =>
    obtain ⟨he, hmem⟩ := by simpa only [hsource] using hspec
    obtain ⟨⟨r, d⟩, hx, hof⟩ := hedits e he
    obtain ⟨hr, hd, -⟩ := mem_directives.mp hx
    obtain ⟨before, c, after, hbefore, hstart, hc⟩ := hrules.begins r hr d hd
    refine ⟨before, c, after, hbefore, fun hline => ?_, ?_⟩
    · rw [hline] at hc
      exact absurd hc (by decide)
    · rw [origin?_of_mem_editsOf hof (List.ne_nil_of_mem hmem), hstart]

end Stage

/-! ## Chains -/

variable {sheet file : Text}

/-- The map of a stage is one of the text that the stage writes, a text without carriage returns,
and tells of its characters the lines from which they come through all stages. -/
structure Sound (sheet file : Text) (s : Stage) (stages : List Stage) : Prop where
  returns : '\r' ∉ s.output.code
  isMap : MapOf s.output.code (SourceMap.normalize s.points)
  tells : ∀ (u : Text) (c : Char) (v : Text), s.output.code = u ++ c :: v → c ≠ '\n' →
    (∃ byte, ComesFromFirst (s :: stages) u.byteSize byte) ∧
    ∀ byte, ComesFromFirst (s :: stages) u.byteSize byte →
      ∃ o, SourceMap.originOfByte s.output.code (SourceMap.normalize s.points) u.byteSize =
        some o ∧ SourceMap.IsNear sheet file byte o

/-- The characters of what a stage writes, in its trace. -/
theorem exists_trace {s : Stage} (hrules : Sheet.AreRead s.source s.rules)
    (hrun : s.trimmer.runOn s.source s.rules = .ok (s.output.code, s.edits)) {u v : Text} {c : Char}
    (hcode : s.output.code = u ++ c :: v) :
    ∃ l y m, trace s.source s.edits = l ++ y :: m ∧ textOf l = u ∧ y.1 = c := by
  have htext := textOf_trace s.source s.edits
  rw [← (spec_of_runOn _ hrules.toFits hrun).1, hcode] at htext
  obtain ⟨l, m, htrace, rfl, hm⟩ := List.map_eq_append_iff.mp htext
  obtain ⟨y, m, rfl, rfl, -⟩ := List.map_eq_cons_iff.mp hm
  exact ⟨l, y, m, htrace, rfl, rfl⟩

/-- A stage tells of each character of what it writes the line from which it comes, if it does so of
the byte of the text before from which the character comes. -/
theorem tells_of_run {s : Stage} {stages : List Stage} (hrules : Sheet.AreRead s.source s.rules)
    (hrun : s.trimmer.runOn s.source s.rules = .ok (s.output.code, s.edits))
    (hreturns : '\r' ∉ s.output.code)
    (h : ∀ l y m, trace s.source s.edits = l ++ y :: m → y.1 ≠ '\n' ∧ y.1 ≠ '\r' →
      ∀ (before : Text) (c : Char) (after : Text), s.source = before ++ c :: after → c ≠ '\n' →
      y.2.origin? = some before.byteSize →
        (∃ byte, ComesFromFirst stages before.byteSize byte) ∧
        ∀ byte, ComesFromFirst stages before.byteSize byte →
          ∃ o, SourceMap.originOfByte s.output.code (SourceMap.normalize s.points)
            (textOf l).byteSize = some o ∧ SourceMap.IsNear sheet file byte o) :
    ∀ (u : Text) (c : Char) (v : Text), s.output.code = u ++ c :: v → c ≠ '\n' →
      (∃ byte, ComesFromFirst (s :: stages) u.byteSize byte) ∧
      ∀ byte, ComesFromFirst (s :: stages) u.byteSize byte →
        ∃ o, SourceMap.originOfByte s.output.code (SourceMap.normalize s.points) u.byteSize =
          some o ∧ SourceMap.IsNear sheet file byte o := by
  intro u c v hcode hc
  obtain ⟨l, y, m, htrace, rfl, rfl⟩ := exists_trace hrules hrun hcode
  have hy : y.1 ≠ '\n' ∧ y.1 ≠ '\r' := by
    refine ⟨hc, fun hreturn => hreturns ?_⟩
    rw [hcode, hreturn]
    exact List.mem_append_right _ List.mem_cons_self
  obtain ⟨before, d, after, hsource, hd, horigin⟩ := exists_origin? hrules hrun htrace hc
  obtain ⟨⟨byte, hbyte⟩, htells⟩ := h l y m htrace hy before d after hsource hd horigin
  refine ⟨⟨byte, _, (comesFrom_iff hrules hrun htrace).mpr horigin, hbyte⟩, ?_⟩
  rintro byte ⟨k, hk, hbyte⟩
  have hk := horigin.symm.trans ((comesFrom_iff hrules hrun htrace).mp hk)
  obtain rfl := Option.some.inj hk
  exact htells byte hbyte

variable {reader : Text → List Rule} (hreader : ∀ source, Sheet.AreRead source (reader source))

include hreader

/-- The first stage is sound. -/
theorem sound_first {t : Trimmer} {edits : List Edit} {out : Output} (hsheet : '\r' ∉ sheet)
    (hrun : t.runOn sheet (reader sheet) = .ok (out.code, edits)) :
    Sound sheet file (.first t sheet (reader sheet) file edits out) [] := by
  obtain ⟨code, map⟩ := out
  have hrules := hreader sheet
  have hrun' : t.runOn sheet (reader sheet) = .ok (code, edits) := hrun
  obtain ⟨rfl, horder, hedits⟩ := spec_of_runOn _ hrules.toFits hrun'
  have hbuilt : ∀ e ∈ edits, IsBuilt e := fun e he =>
    have ⟨_, _, hof⟩ := hedits e he
    isBuilt_of_mem_editsOf hof
  have hreturns := return_not_mem_code hsheet hrules hrun
  have hmap := SourceMap.mapOf_create file horder fun e he => (hbuilt e he).isUniform
  refine ⟨hreturns, hmap, tells_of_run hrules hrun hreturns ?_⟩
  intro l y m htrace hy before c after hsource hc horigin
  refine ⟨⟨_, rfl⟩, ?_⟩
  rintro _ rfl
  exact SourceMap.originAt_create file horder hbuilt htrace hy horigin

/-- A stage behind a sound one is sound. -/
theorem Sound.next {before : Stage} {stages : List Stage} {t : Trimmer} {edits : List Edit}
    {out : Output} (h : Sound sheet file before stages)
    (hrun : t.runOn before.output.code (reader before.output.code) = .ok (out.code, edits)) :
    Sound sheet file (.next t before.output.code (reader before.output.code)
      (SourceMap.normalize before.points) edits out) (before :: stages) := by
  obtain ⟨code, map⟩ := out
  have hrules := hreader before.output.code
  have hrun' : t.runOn before.output.code (reader before.output.code) = .ok (code, edits) := hrun
  obtain ⟨rfl, horder, hedits⟩ := spec_of_runOn _ hrules.toFits hrun'
  have huniform : ∀ e ∈ edits, e.IsUniform := fun e he =>
    have ⟨_, _, hof⟩ := hedits e he
    (isBuilt_of_mem_editsOf hof).isUniform
  have hbreaks := horder.keepBreaks h.returns (return_not_mem_text h.returns hrules hrun)
  have hreturns := return_not_mem_code h.returns hrules hrun
  have hmap := SourceMap.mapOf_carry horder huniform hbreaks h.isMap
  refine ⟨hreturns, hmap, tells_of_run hrules hrun hreturns ?_⟩
  intro l y m htrace hy front c behind hsource hc horigin
  -- the carried map tells what the map before tells of the byte
  have hcarry := SourceMap.originAt_carry horder huniform hbreaks h.isMap htrace hy
  rw [horigin, Option.bind_some] at hcarry
  obtain ⟨hexists, htells⟩ := h.tells front c behind hsource hc
  refine ⟨hexists, fun byte hbyte => ?_⟩
  obtain ⟨o, ho, hnear⟩ := htells byte hbyte
  exact ⟨o, hcarry.trans ho, hnear⟩

/-- All stages of a chain are sound, if their maps are read as they are written. -/
theorem sound_of_chain (hsheet : '\r' ∉ sheet) {s : Stage} {stages : List Stage}
    (h : Chain reader sheet file (s :: stages))
    (hback : ∀ a ∈ s :: stages,
      SourceMap.read a.output.map = .ok (SourceMap.normalize a.points)) :
    Sound sheet file s stages := by
  induction stages generalizing s with
  | nil =>
    cases h with
    | first hrun => exact sound_first hreader hsheet hrun
  | cons before stages ih =>
    cases h with
    | next h hrun hread =>
      have hbefore := fun a ha => hback a (List.mem_cons_of_mem _ ha)
      rw [hbefore before List.mem_cons_self] at hread
      obtain rfl := Except.ok.inj hread
      exact (ih h hbefore).next hreader hrun

/-- The map of a chain leads back to the first sheet, whatever rules the reader gives, if they are
read off the texts. -/
theorem originAt_of_read (hsheet : '\r' ∉ sheet) {s : Stage} {stages : List Stage}
    (hchain : Chain reader sheet file (s :: stages))
    (hback : ∀ a ∈ s :: stages,
      SourceMap.read a.output.map = .ok (SourceMap.normalize a.points))
    {u v : Text} {c : Char} (hcode : s.output.code = u ++ c :: v) (hc : c ≠ '\n') :
    let place := (LineIndex.of s.output.code).point u.byteSize
    (∃ byte, ComesFromFirst (s :: stages) u.byteSize byte) ∧
    ∀ byte, ComesFromFirst (s :: stages) u.byteSize byte →
      ∃ points o, SourceMap.read s.output.map = .ok points ∧
        SourceMap.originAt points place.1 place.2 = some o ∧ o.source = some file ∧
        o.line = ((LineIndex.of sheet).point byte).1 ∧
        o.column ≤ ((LineIndex.of sheet).point byte).2 := by
  intro place
  obtain ⟨hexists, htells⟩ := (sound_of_chain hreader hsheet hchain hback).tells u c v hcode hc
  refine ⟨hexists, fun byte hbyte => ?_⟩
  obtain ⟨o, ho, hnear⟩ := htells byte hbyte
  exact ⟨_, o, hback s List.mem_cons_self, ho, hnear.source, hnear.line, hnear.column_le⟩

omit hreader

/-- However long a chain of runs is, its map leads from each character that does not end a line back
to the line in the first sheet from which the character comes, and to a column there that is not
behind it. The sheet has no carriage returns, and each map is read with the points with which it has
been written. -/
theorem originAt_of_chain (hsheet : '\r' ∉ sheet) {s : Stage} {stages : List Stage}
    (hchain : Chain Sheet.rules sheet file (s :: stages))
    (hback : ∀ a ∈ s :: stages,
      SourceMap.read a.output.map = .ok (SourceMap.normalize a.points))
    {u v : Text} {c : Char} (hcode : s.output.code = u ++ c :: v) (hc : c ≠ '\n') :
    let place := (LineIndex.of s.output.code).point u.byteSize
    (∃ byte, ComesFromFirst (s :: stages) u.byteSize byte) ∧
    ∀ byte, ComesFromFirst (s :: stages) u.byteSize byte →
      ∃ points o, SourceMap.read s.output.map = .ok points ∧
        SourceMap.originAt points place.1 place.2 = some o ∧ o.source = some file ∧
        o.line = ((LineIndex.of sheet).point byte).1 ∧
        o.column ≤ ((LineIndex.of sheet).point byte).2 :=
  originAt_of_read Sheet.areRead_rules hsheet hchain hback hcode hc

/-- A sheet with a directive and, in its second line, one with the prefix of a vendor. -/
def sampleSheet : Text :=
  "a\x7btext-remove-gap:before 2\x7d\nb\x7b-x-text-remove-gap:outside after 2\x7d".toList

/-- The rule that the first directive of `sampleSheet` asks for. -/
def sampleRule : Text :=
  "\na::before \x7bdisplay: table;content: \"\";margin-bottom: -0.5em;\x7d".toList

/-- The first run on `sampleSheet`, without a vendor. -/
def sampleFirst : Stage :=
  let edits : List Edit := [.delete 2 26, .synthesize 27 27 sampleRule 2]
  let code := Edit.applyAll sampleSheet edits
  .first (ofConfig .default) sampleSheet (Sheet.rules sampleSheet) "a.css".toList edits
    ⟨code, newMap sampleSheet code "a.css".toList edits⟩

/-- The second run, for the vendor. -/
def sampleSecond : Stage :=
  let edits : List Edit := [.synthesize 68 102 "margin-bottom:-0.5em".toList 68]
  let source := sampleFirst.output.code
  let code := Edit.applyAll source edits
  let earlier := SourceMap.normalize sampleFirst.points
  .next (ofConfig { Config.default with vendor := some ['x'] }) source (Sheet.rules source) earlier
    edits ⟨code, SourceMap.write none (SourceMap.carry source code earlier edits)⟩

theorem run_sampleFirst : sampleFirst.trimmer.run sampleSheet =
    .ok (sampleFirst.output.code, sampleFirst.edits) :=
  eq_ok_of_toOption_eq_some (by decide +kernel)

/-- The lines and columns of the texts are words, and there are few points. -/
theorem fitsWords_sample : ∀ s ∈ [sampleSecond, sampleFirst],
    s.source.FitsWords ∧ s.output.code.FitsWords ∧ s.points.length ≤ SourceMap.wordBound := by
  have hsheet : sampleSheet.FitsWords := Text.fitsWords_of_byteSize_lt (by decide +kernel)
  have hfirst : sampleFirst.output.code.FitsWords :=
    Text.fitsWords_of_byteSize_lt (by decide +kernel)
  have hsecond : sampleSecond.output.code.FitsWords :=
    Text.fitsWords_of_byteSize_lt (by decide +kernel)
  simp only [List.forall_mem_cons, List.not_mem_nil, false_implies, implies_true, and_true]
  exact ⟨⟨hfirst, hsecond, by decide +kernel⟩, hsheet, hfirst, by decide +kernel⟩

theorem read_sampleFirst : SourceMap.read sampleFirst.output.map =
    .ok (SourceMap.normalize sampleFirst.points) := by
  obtain ⟨hsheet, hcode, -⟩ := fitsWords_sample sampleFirst (by simp)
  exact SourceMap.read_write_create hsheet hcode

theorem run_sampleSecond : sampleSecond.trimmer.run sampleFirst.output.code =
    .ok (sampleSecond.output.code, sampleSecond.edits) :=
  eq_ok_of_toOption_eq_some (by decide +kernel)

theorem chain_sampleSecond :
    Chain Sheet.rules sampleSheet "a.css".toList [sampleSecond, sampleFirst] := by
  refine .next (.first run_sampleFirst rfl) run_sampleSecond read_sampleFirst ?_
  have hfits : sampleFirst.output.code.FitsWords := (fitsWords_sample sampleFirst (by simp)).2.1
  rw [carriedMap, read_sampleFirst]
  dsimp only
  rw [SourceMap.carryInWords_eq_carry hfits]

theorem originAt_of_chain_sample :
    '\r' ∉ sampleSheet ∧
    Chain Sheet.rules sampleSheet "a.css".toList [sampleSecond, sampleFirst] ∧
    (∀ a ∈ [sampleSecond, sampleFirst],
      SourceMap.read a.output.map = .ok (SourceMap.normalize a.points)) ∧
    sampleSecond.output.code =
      ("a\x7b\x7d".toList ++ sampleRule ++ "\nb\x7b".toList) ++
        'm' :: "argin-bottom:-0.5em\x7d".toList ∧
    ∃ byte points o, ComesFromFirst [sampleSecond, sampleFirst] 68 byte ∧
      SourceMap.read sampleSecond.output.map = .ok points ∧
      SourceMap.originAt points 2 2 = some o ∧ o.source = some "a.css".toList ∧
      o.line = ((LineIndex.of sampleSheet).point byte).1 ∧
      o.column ≤ ((LineIndex.of sampleSheet).point byte).2 := by
  have hsheet : '\r' ∉ sampleSheet := by decide
  have hback : ∀ a ∈ [sampleSecond, sampleFirst],
      SourceMap.read a.output.map = .ok (SourceMap.normalize a.points) :=
    chain_sampleSecond.read_map fitsWords_sample
  have hcode : sampleSecond.output.code = ("a\x7b\x7d".toList ++ sampleRule ++ "\nb\x7b".toList)
      ++ 'm' :: "argin-bottom:-0.5em\x7d".toList := by decide +kernel
  have hplace : (LineIndex.of sampleSecond.output.code).point
      (Text.byteSize ("a\x7b\x7d".toList ++ sampleRule ++ "\nb\x7b".toList)) = (2, 2) := by
    decide +kernel
  obtain ⟨⟨byte, hbyte⟩, htells⟩ :=
    originAt_of_chain hsheet chain_sampleSecond hback hcode (by decide)
  obtain ⟨points, o, hread, ho, hnear⟩ := htells byte hbyte
  rw [hplace] at ho
  exact ⟨hsheet, chain_sampleSecond, hback, hcode, byte, points, o, hbyte, hread, ho, hnear⟩

end Trimmer

end LeadingTrim
