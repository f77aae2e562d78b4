/-
# The trimmed sheet

What a trimmed sheet is, said without edits: the sheet is walked through once, each directive leaves
out its declaration, and margins or rules for pseudo-elements are put where it or its rule says
(`trimmed`). The main result is that a run gives just that (`run_eq_trimmed`), for any nesting of
rules and any number of directives in each.

The difficulty is in what stands at one offset. Behind a rule there may be insertions of several
directives, and another declaration may begin there. Sorted, the insertions come first, those of
later directives ahead (`filter_stableSort`).
-/

import Mathlib.Data.List.Pairwise
import LeadingTrim.Proofs.Trimmer.Failure

namespace LeadingTrim

open Sheet (Declaration Rule)

/-! ## Requests -/

/-- What a directive asks for, at its place. -/
structure Request where
  /-- The rule of the directive. -/
  rule : Rule
  /-- The declaration that is the directive. -/
  declaration : Declaration
  /-- Where the space is taken away. -/
  scope : Scope
  /-- The margin for the upper edge, if one is asked for and needed. -/
  before : Option Text
  /-- The margin for the lower edge, if one is asked for and needed. -/
  after : Option Text

namespace Request

/-- Whether any margin is needed. -/
def isNeeded (q : Request) : Bool := q.before.isSome || q.after.isSome

/-- Whether margins take the place of the declaration, which is left out without them. -/
def isReplaced (q : Request) : Bool := q.scope == .outside && q.isNeeded

/-- The margins that take the place of the declaration. -/
def margins (source : Text) (q : Request) : Text :=
  let d := q.declaration
  let top := q.before.map (Correction.margin d "top".toList)
  let bottom := q.after.map (Correction.margin d "bottom".toList)
  (';' :: d.leading source).intercalate (top.toList ++ bottom.toList)
    ++ if d.terminated then [';'] else []

/-- The rules for pseudo-elements, that before the content ahead of that behind it. -/
def pseudoRules (source : Text) (q : Request) : Text :=
  let rule := Correction.pseudoRule (Correction.lineBreak source) q.rule
  let before := q.before.map (rule "::before".toList "bottom".toList)
  let after := q.after.map (rule "::after".toList "top".toList)
  (before.toList ++ after.toList).flatten

/-- Where the part of the sheet begins that gives way: at the declaration if something takes its
place, else with the white space before it. -/
def gapStart (q : Request) : Nat :=
  if q.isReplaced then q.declaration.start else q.declaration.leadingStart

/-- What is put at an offset: the rules of all requests whose rule ends there, of later requests
first, and then the margins for a declaration that begins there. -/
def put (source : Text) (requests : List Request) (offset : Nat) : Text :=
  (requests.reverse.flatMap fun q =>
      if q.scope = .inside ∧ q.rule.stop = offset then q.pseudoRules source else [])
    ++ requests.flatMap fun q =>
      if q.isReplaced ∧ q.declaration.start = offset then q.margins source else []

/-- Whether the character at an offset gives way. -/
def omits (requests : List Request) (offset : Nat) : Bool :=
  requests.any fun q => q.gapStart ≤ offset && offset < q.declaration.stop

end Request

namespace Trimmer

/-- What a directive asks for, if it can be read. -/
def request? (t : Trimmer) (x : Rule × Declaration) : Option Request :=
  (Directive.read? x.2.value).map fun directive =>
    let o := Offsets.ofMetrics (t.metrics x.1 directive)
    { rule := x.1
      declaration := x.2
      scope := directive.scope
      before := if directive.placement.hasBefore && !o.before.isEmpty then some o.before else none
      after := if directive.placement.hasAfter && !o.after.isEmpty then some o.after else none }

/-- What the directives of the rules ask for, in order. -/
def requests (t : Trimmer) (rules : List Rule) : List Request :=
  (t.directives rules).filterMap t.request?

/-- The sheet with all changes that the directives of its rules ask for, and no other. -/
def trimmed (t : Trimmer) (source : Text) (rules : List Rule) : Text :=
  source.revise (Request.put source (t.requests rules)) (Request.omits (t.requests rules)) 0

end Trimmer

/-! ## The edits of a request -/

namespace Request

/-- The edits that do what is asked for. -/
def edits (source : Text) (q : Request) : List Edit :=
  let d := q.declaration
  if q.isReplaced then [.synthesize d.start d.stop (q.margins source) d.start]
  else Correction.remove d ::
    if q.isNeeded then [.synthesize q.rule.stop q.rule.stop (q.pseudoRules source) d.start] else []

theorem pseudoRules_eq_nil (source : Text) {q : Request} (h : q.isNeeded = false) :
    q.pseudoRules source = [] := by
  simp only [isNeeded, Bool.or_eq_false_iff, Option.isSome_eq_false_iff, Option.isNone_iff_eq_none]
    at h
  simp [pseudoRules, h]

/-- What the insertions at an offset put there. -/
theorem flatMap_text_insertions (source : Text) (q : Request)
    (hd : q.declaration.Fits source) (offset : Nat) :
    ((q.edits source).filter fun e =>
        e.start = offset ∧ e.stop = offset).reverse.flatMap Edit.text =
      if q.scope = .inside ∧ q.rule.stop = offset then q.pseudoRules source else [] := by
  have hle := hd.leadingStart_le_start
  have hlt := hd.start_lt_stop
  unfold edits
  split
  next hreplaced =>
    have hscope : q.scope = .outside := by simp_all [isReplaced]
    have hne : ¬ (q.declaration.start = offset ∧ q.declaration.stop = offset) := by omega
    simp [Edit.synthesize, hscope, hne]
  next hreplaced =>
    have hne : ¬ (q.declaration.leadingStart = offset ∧ q.declaration.stop = offset) := by omega
    cases hneeded : q.isNeeded with
    | false => simp [Correction.remove, Edit.delete, hne, q.pseudoRules_eq_nil source hneeded]
    | true =>
      have hscope : q.scope = .inside := by
        cases h : q.scope with
        | inside => rfl
        | outside => simp [isReplaced, h, hneeded] at hreplaced
      by_cases hstop : q.rule.stop = offset
      · simp [Correction.remove, Edit.delete, Edit.synthesize, hne, hscope, hstop]
      · simp [Correction.remove, Edit.delete, Edit.synthesize, hne, hscope, hstop]

/-- What the other edits that begin at an offset put there. -/
theorem flatMap_text_replacements (source : Text) (q : Request)
    (hd : q.declaration.Fits source) (offset : Nat) :
    ((q.edits source).filter fun e => e.start = offset ∧ e.stop ≠ offset).flatMap Edit.text =
      if q.isReplaced ∧ q.declaration.start = offset then q.margins source else [] := by
  have hlt := hd.start_lt_stop
  unfold edits
  cases hreplaced : q.isReplaced with
  | true =>
    by_cases hstart : q.declaration.start = offset
    · have hne : q.declaration.stop ≠ offset := by omega
      simp [Edit.synthesize, hstart, hne]
    · simp [Edit.synthesize, hstart]
  | false =>
    -- the removal puts nothing, and an insertion is none of these
    have hinsertion : ¬ (q.rule.stop = offset ∧ q.rule.stop ≠ offset) := by omega
    cases q.isNeeded with
    | true =>
      by_cases h : q.declaration.leadingStart = offset ∧ q.declaration.stop ≠ offset
      · simp [Correction.remove, Edit.delete, Edit.synthesize, h]
      · simp [Correction.remove, Edit.delete, Edit.synthesize, h]
    | false =>
      by_cases h : q.declaration.leadingStart = offset ∧ q.declaration.stop ≠ offset
      · simp [Correction.remove, Edit.delete, h]
      · simp [Correction.remove, Edit.delete, h]

/-- The edits cover what gives way. -/
theorem covers_edits (source : Text) (q : Request) (offset : Nat) :
    Edit.covers (q.edits source) offset =
      (decide (q.gapStart ≤ offset) && decide (offset < q.declaration.stop)) := by
  have hinsertion : ¬ (q.rule.stop ≤ offset ∧ offset < q.rule.stop) := by omega
  unfold edits gapStart
  cases q.isReplaced with
  | true => simp [Edit.covers, Edit.synthesize]
  | false =>
    cases q.isNeeded with
    | true => simp [Edit.covers, Correction.remove, Edit.delete, Edit.synthesize, hinsertion]
    | false => simp [Edit.covers, Correction.remove, Edit.delete]

end Request

/-! ## Edits at one offset, sorted -/

namespace Trimmer

/-- Numbered edits that are apart, of which those with one number insert once at most. -/
structure IsGrouped (l : List Numbered) : Prop where
  start_le_stop : ∀ a ∈ l, a.1.start ≤ a.1.stop
  apart : l.Pairwise fun a b => Edit.Apart a.1 b.1
  insertion : l.Pairwise fun a b => a.1.start = a.1.stop → b.1.start = b.1.stop → a.2 < b.2

/-- Two edits that may stand in either order are one. -/
theorem IsGrouped.eq_of_leEdits {l : List Numbered} (h : IsGrouped l) {a b : Numbered}
    (ha : a ∈ l) (hb : b ∈ l) (hab : leEdits a b = true) (hba : leEdits b a = true) : a = b := by
  rw [leEdits_iff] at hab hba
  have hsame : a.1.start = b.1.start ∧ a.1.stop = b.1.stop ∧ a.2 = b.2 := by omega
  let differ (a b : Numbered) : Prop :=
    Edit.Apart a.1 b.1 ∧ (a.1.start = a.1.stop → b.1.start = b.1.stop → a.2 ≠ b.2)
  have hsymm : Std.Symm differ :=
    ⟨fun _ _ h => ⟨h.1.symm, fun hb ha => (h.2 ha hb).symm⟩⟩
  have hpairs : l.Pairwise differ :=
    (h.apart.and h.insertion).imp fun h => ⟨h.1, fun ha hb => Nat.ne_of_lt (h.2 ha hb)⟩
  by_contra hne
  obtain ⟨hapart, hnumber⟩ := hpairs.forall ha hb hne
  have hle := h.start_le_stop a ha
  have hinsertion : ¬ (a.1.start = a.1.stop) := fun heq =>
    hnumber heq (by omega) hsame.2.2
  unfold Edit.Apart at hapart
  omega

/-- Among the sorted edits those at one offset are the insertions, the last one first, and then the
edit that changes something there. -/
theorem IsGrouped.filter_stableSort {l : List Numbered} (h : IsGrouped l) (offset : Nat) :
    (stableSort leEdits l).filter (fun a => a.1.start = offset) =
      (l.filter fun a => a.1.start = offset ∧ a.1.stop = offset).reverse
        ++ l.filter fun a => a.1.start = offset ∧ a.1.stop ≠ offset := by
  have hperm : ((stableSort leEdits l).filter fun a => a.1.start = offset).Perm
      ((l.filter fun a => a.1.start = offset ∧ a.1.stop = offset).reverse
        ++ l.filter fun a => a.1.start = offset ∧ a.1.stop ≠ offset) := by
    have hsplit := List.filter_append_perm (fun a : Numbered => decide (a.1.stop = offset))
      (l.filter fun a => a.1.start = offset)
    simp only [List.filter_filter] at hsplit
    refine ((stableSort_perm l).filter _).trans (hsplit.symm.trans ?_)
    have hinsertion : (l.filter fun a => a.1.stop = offset && a.1.start = offset) =
        l.filter fun a => a.1.start = offset ∧ a.1.stop = offset :=
      List.filter_congr fun a _ => by simp [Bool.and_comm]
    have hreplacement : (l.filter fun a => !decide (a.1.stop = offset) && a.1.start = offset) =
        l.filter fun a => a.1.start = offset ∧ a.1.stop ≠ offset :=
      List.filter_congr fun a _ => by simp [Bool.and_comm]
    rw [hinsertion, hreplacement]
    exact (List.reverse_perm _).symm.append (.refl _)
  have hmem : ∀ a ∈ (stableSort leEdits l).filter fun a => a.1.start = offset, a ∈ l := fun a ha =>
    (stableSort_perm l).mem_iff.mp (List.mem_filter.mp ha).1
  refine List.Perm.eq_of_pairwise (fun a b ha hb => h.eq_of_leEdits (hmem a ha)
    (hmem b (hperm.mem_iff.mpr hb))) ((stableSort_pairwise leEdits_trans leEdits_total l).filter _)
    ?_ hperm
  refine List.pairwise_append.mpr ⟨?_, ?_, ?_⟩
  · -- an insertion of a later group is in front
    refine List.pairwise_reverse.mpr ((h.insertion.filter _).imp_of_mem fun {a b} ha hb hab => ?_)
    simp only [List.mem_filter, decide_eq_true_eq] at ha hb
    have := hab (by omega) (by omega)
    exact leEdits_iff.mpr (by omega)
  · -- of two edits that begin at one offset and change something one covers the other
    refine (h.apart.filter _).imp_of_mem fun {a b} ha hb hab => ?_
    simp only [List.mem_filter, decide_eq_true_eq] at ha hb
    have hale := h.start_le_stop a ha.1
    have hble := h.start_le_stop b hb.1
    unfold Edit.Apart at hab
    omega
  · intro a ha b hb
    simp only [List.mem_reverse, List.mem_filter, decide_eq_true_eq] at ha hb
    have hble := h.start_le_stop b hb.1
    exact leEdits_iff.mpr (by omega)

/-- Numbered group by group, edits are grouped. -/
theorem isGrouped_numbered {groups : List (List Edit)}
    (hle : ∀ e ∈ groups.flatten, e.start ≤ e.stop) (hapart : groups.flatten.Pairwise Edit.Apart)
    (hinsertion : ∀ group ∈ groups,
      group.Pairwise fun a b => ¬ (a.start = a.stop ∧ b.start = b.stop)) :
    IsGrouped (numbered groups) := by
  rw [← map_fst_numbered] at hle hapart
  refine ⟨fun a ha => hle _ (List.mem_map_of_mem ha), List.pairwise_map.mp hapart, ?_⟩
  rw [numbered, List.pairwise_flatMap]
  constructor
  · intro group hgroup
    have hmem : group.1 ∈ groups := List.fst_mem_of_mem_zipIdx hgroup
    exact List.pairwise_map.mpr ((hinsertion _ hmem).imp fun h ha hb => absurd ⟨ha, hb⟩ h)
  · have hnumbers : groups.zipIdx.Pairwise fun x y => x.2 < y.2 := by
      rw [← List.pairwise_map (f := Prod.snd) (R := (· < ·)), List.zipIdx_map_snd]
      exact List.pairwise_lt_range'
    refine hnumbers.imp fun {x y} h a ha b hb _ _ => ?_
    obtain ⟨_, -, rfl⟩ := List.mem_map.mp ha
    obtain ⟨_, -, rfl⟩ := List.mem_map.mp hb
    exact h

/-- What sorted edits put at an offset. -/
theorem putAt_sortEdits {groups : List (List Edit)} (h : IsGrouped (numbered groups))
    (offset : Nat) :
    Edit.putAt (sortEdits groups) offset =
      (groups.flatten.filter fun e => e.start = offset ∧ e.stop = offset).reverse.flatMap Edit.text
        ++ (groups.flatten.filter fun e =>
          e.start = offset ∧ e.stop ≠ offset).flatMap Edit.text := by
  have hfilter := congrArg (List.map Prod.fst) (h.filter_stableSort offset)
  rw [List.map_append, List.map_reverse] at hfilter
  have hfst : ∀ p : Edit → Bool, ∀ l : List Numbered,
      (l.filter fun a => p a.1).map Prod.fst = (l.map Prod.fst).filter p := fun p l =>
    (List.filter_map ..).symm
  rw [hfst (fun e => decide (e.start = offset)),
    hfst (fun e => decide (e.start = offset ∧ e.stop = offset)),
    hfst (fun e => decide (e.start = offset ∧ e.stop ≠ offset)), map_fst_numbered] at hfilter
  have hsorted : (stableSort leEdits (numbered groups)).map Prod.fst = sortEdits groups := rfl
  rw [hsorted] at hfilter
  rw [Edit.putAt, hfilter, List.flatMap_append]

theorem covers_sortEdits (groups : List (List Edit)) (offset : Nat) :
    Edit.covers (sortEdits groups) offset = groups.any fun group => Edit.covers group offset := by
  unfold Edit.covers
  rw [(sortEdits_perm groups).any_eq, List.any_flatten]

/-! ## The trimmed sheet -/

/-- The edits of a directive are those of what it asks for. -/
theorem editsOf_eq_edits {t : Trimmer} {x : Rule × Declaration} {q : Request}
    (h : t.request? x = some q) (source : Text) : t.editsOf source x = q.edits source := by
  obtain ⟨directive, hread, rfl⟩ := Option.map_eq_some_iff.mp h
  simp only [editsOf, hread]
  obtain ⟨before, after⟩ := Offsets.ofMetrics (t.metrics x.1 directive)
  unfold Correction.edits Offsets.placement? Request.edits Request.isReplaced Request.isNeeded
  -- whether there is an edit, and which, depends on what is asked for and what is needed
  cases hbefore : before.isEmpty <;> cases hafter : after.isEmpty <;>
    cases directive.scope <;> cases directive.placement <;>
    simp_all [Placement.hasBefore, Placement.hasAfter, Placement.ofEdges?,
      Request.margins, Request.pseudoRules, Correction.marginText, Correction.pseudoRules,
      List.intercalate]

theorem request?_isSome (t : Trimmer) (x : Rule × Declaration) :
    (t.request? x).isSome = (Directive.read? x.2.value).isSome := by
  simp [request?]

/-- If all directives can be read, their edits are those of the requests. -/
theorem map_editsOf_eq (t : Trimmer) (source : Text) {ds : List (Rule × Declaration)}
    (h : ∀ x ∈ ds, (Directive.read? x.2.value).isSome) :
    ds.map (t.editsOf source) = (ds.filterMap t.request?).map (Request.edits source) := by
  induction ds with
  | nil => rfl
  | cons x ds ih =>
    obtain ⟨q, hq⟩ := Option.isSome_iff_exists.mp
      ((t.request?_isSome x).trans (h x List.mem_cons_self))
    rw [List.map_cons, List.filterMap_cons_some hq, List.map_cons, editsOf_eq_edits hq,
      ih fun y hy => h y (List.mem_cons_of_mem _ hy)]

/-- The declaration of a request is a piece of the sheet. -/
theorem fits_of_mem_requests {t : Trimmer} {source : Text} {rules : List Rule} {q : Request}
    (hfits : Sheet.Fits source rules) (h : q ∈ t.requests rules) : q.declaration.Fits source := by
  obtain ⟨x, hx, hq⟩ := List.mem_filterMap.mp h
  obtain ⟨directive, -, rfl⟩ := Option.map_eq_some_iff.mp hq
  obtain ⟨hr, hd, -⟩ := mem_directives.mp hx
  exact hfits.declaration _ hr _ hd

/-- The edits of a request insert once at most. -/
theorem pairwise_not_insertion {source : Text} {q : Request} (hd : q.declaration.Fits source) :
    (q.edits source).Pairwise fun a b => ¬ (a.start = a.stop ∧ b.start = b.stop) := by
  have hle := hd.leadingStart_le_start
  have hlt := hd.start_lt_stop
  have hremove : (Correction.remove q.declaration).start ≠ (Correction.remove q.declaration).stop :=
    Nat.ne_of_lt (show q.declaration.leadingStart < q.declaration.stop by omega)
  unfold Request.edits
  split
  · exact List.pairwise_singleton _ _
  · split
    · exact List.pairwise_pair.mpr fun h => hremove h.1
    · exact List.pairwise_singleton _ _

/-- A run with rules that fit together, in which all directives can be read, gives the trimmed
sheet.
-/
theorem runOn_eq_trimmed (t : Trimmer) {source : Text} {rules : List Rule}
    (hfits : Sheet.Fits source rules)
    (h : ∀ d ∈ rules.flatMap Rule.declarations, d.property = t.property →
      (Directive.read? d.value).isSome) :
    ∃ edits, t.runOn source rules = .ok (t.trimmed source rules, edits) := by
  have hnone : t.firstMalformed? rules = none := by
    rw [firstMalformed?, List.find?_eq_none]
    intro d hd
    simpa [Option.isSome_iff_ne_none] using h d hd
  have hread : ∀ x ∈ t.directives rules, (Directive.read? x.2.value).isSome := by
    rintro ⟨r, d⟩ hx
    obtain ⟨hr, hd, hproperty⟩ := mem_directives.mp hx
    exact h d (List.mem_flatMap_of_mem hr hd) hproperty
  have horder := inOrder_sortEdits t hfits
  have hapart := pairwise_apart_flatMap_editsOf t hfits
  have hgroups : (t.directives rules).map (t.editsOf source) =
      (t.requests rules).map (Request.edits source) := map_editsOf_eq t source hread
  rw [hgroups] at horder
  rw [List.flatMap_def, hgroups] at hapart
  have hdeclaration : ∀ q ∈ t.requests rules, q.declaration.Fits source := fun q =>
    fits_of_mem_requests hfits
  have hgrouped : IsGrouped (numbered ((t.requests rules).map (Request.edits source))) := by
    refine isGrouped_numbered (fun e he => ?_) hapart ?_
    · exact (horder.sound e ((sortEdits_perm _).mem_iff.mpr he)).start_le_stop
    · intro group hgroup
      obtain ⟨q, hq, rfl⟩ := List.mem_map.mp hgroup
      exact pairwise_not_insertion (hdeclaration q hq)
  have hput : ∀ n, Edit.putAt (sortEdits ((t.requests rules).map (Request.edits source))) n =
      Request.put source (t.requests rules) n := by
    intro n
    rw [putAt_sortEdits hgrouped, ← List.flatMap_def, List.filter_flatMap, List.filter_flatMap,
      List.reverse_flatMap, List.flatMap_assoc, List.flatMap_assoc, Request.put]
    congr 1
    · exact List.flatMap_congr fun q hq =>
        q.flatMap_text_insertions source (hdeclaration q (List.mem_reverse.mp hq)) n
    · exact List.flatMap_congr fun q hq => q.flatMap_text_replacements source (hdeclaration q hq) n
  have homits : ∀ n, Edit.covers (sortEdits ((t.requests rules).map (Request.edits source))) n =
      Request.omits (t.requests rules) n := by
    intro n
    simp only [covers_sortEdits, List.any_map, Function.comp_def, Request.covers_edits,
      Request.omits]
  refine ⟨sortEdits ((t.requests rules).map (Request.edits source)), ?_⟩
  rw [runOn, t.edits_eq_of_fits hfits, hnone, hgroups]
  show Except.ok (Edit.applyAll source _, _) = _
  rw [horder.applyAll_eq_revise, trimmed,
    Text.revise_congr (fun n _ => hput n) (fun n _ => homits n)]

/-- A run in which all directives can be read gives the trimmed sheet. -/
theorem run_eq_trimmed (t : Trimmer) (source : Text)
    (h : ∀ d ∈ (Sheet.rules source).flatMap Rule.declarations, d.property = t.property →
      (Directive.read? d.value).isSome) :
    ∃ edits, t.run source = .ok (t.trimmed source (Sheet.rules source), edits) :=
  t.runOn_eq_trimmed (Sheet.fits_rules source) h

/-- A rule in a rule, with two directives in the inner one, and in the outer one a directive
directly behind that and another one that is replaced. -/
def nestedSheet : Text :=
  "p\x7ba\x7btext-remove-gap:both 2;text-remove-gap:after 3\x7d text-remove-gap:before 2;".toList
    ++ "text-remove-gap:outside both 2\x7d".toList

/-- `nestedSheet` without the gaps. -/
def nestedResult : Text :=
  "p\x7ba\x7b\x7d\na::after \x7bdisplay: table;content: \"\";margin-top: -1em;\x7d".toList
    ++ "\na::before \x7bdisplay: table;content: \"\";margin-bottom: -0.5em;\x7d".toList
    ++ "\na::after \x7bdisplay: table;content: \"\";margin-top: -0.5em;\x7d".toList
    ++ "margin-top:-0.5em;margin-bottom:-0.5em\x7d".toList
    ++ "\np::before \x7bdisplay: table;content: \"\";margin-bottom: -0.5em;\x7d".toList

theorem run_nestedSheet :
    (∀ d ∈ (Sheet.rules nestedSheet).flatMap Rule.declarations,
      d.property = (ofConfig .default).property → (Directive.read? d.value).isSome) ∧
    ∃ edits, (ofConfig .default).run nestedSheet = .ok (nestedResult, edits) := by
  have hread : ∀ d ∈ (Sheet.rules nestedSheet).flatMap Rule.declarations,
      d.property = (ofConfig .default).property → (Directive.read? d.value).isSome := by
    decide +kernel
  have htrim : (ofConfig .default).trim nestedSheet = .ok nestedResult :=
    eq_ok_of_toOption_eq_some (by decide +kernel)
  obtain ⟨edits, hrun⟩ := run_eq_trimmed (ofConfig .default) nestedSheet hread
  have hresult :
      (ofConfig .default).trimmed nestedSheet (Sheet.rules nestedSheet) = nestedResult := by
    rw [trim, hrun] at htrim
    exact Except.ok.inj htrim
  exact ⟨hread, edits, hresult ▸ hrun⟩

end Trimmer

end LeadingTrim
