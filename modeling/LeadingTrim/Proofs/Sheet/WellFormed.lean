/-
# The rules of a tree are well formed

Whatever tree a parser gives of a sheet, the walk along it comes to a well-formed rule at each rule
set (`isWellFormed_collectRules`). A record is first compared with its own node: the value of a
declaration is counted from its end, and lies behind the colon all the same (`le_valueStop`,
`slice_trimStart`); the sibling in front of a declaration is in the block with nothing but white
space behind it (`Node.IsBlock.exists_of_mem`). Of two rule sets the walk comes first to the one
that begins first, and the other one is behind it or in its block, between two declarations
(`pairwise_preorderAll`).
-/

import LeadingTrim.Proofs.Sheet.Extent
import LeadingTrim.Proofs.Sheet.SoundTree
import Mathlib.Data.List.Forall2
import Mathlib.Data.List.DropRight

namespace LeadingTrim.Sheet

open Text (EndsLine IsBoundary isSheetSpace)

/-! ## Well-formed rules -/

/-- What is said of a declaration is found in the sheet: white space in front of it, its name and
its separator where it begins, its semicolon where it ends, between the two a value that begins with
no blank, and its position counted along the lines. -/
structure Declaration.IsWellFormed (source : Text) (d : Declaration) : Prop
    extends d.Fits source where
  leading : ∀ c ∈ d.leading source, isSheetSpace c = true
  isPrefix : d.property ++ d.separator <+: source.dropBytes d.start
  isSuffix : d.terminated = true → [';'] <:+ source.slice d.start d.stop
  value : ∃ value : Text, value.trimStart = value ∧ source.slice d.start d.stop =
    d.property ++ (d.separator ++ (value ++ if d.terminated then [';'] else []))
  position : ∃ before line after, source = before ++ (line ++ after) ∧ EndsLine before ∧
    '\n' ∉ line ∧ (before ++ line).byteSize = d.start ∧
    d.position = ⟨1 + (before ++ line).count '\n', 1 + line.length⟩

/-- What is said of a rule is found in the sheet: its selector list where it begins, with the
selectors one behind the other in it, and its declarations one behind the other in front of its
closing brace. -/
structure Rule.IsWellFormed (source : Text) (r : Rule) : Prop where
  isPrefix : r.selector <+: source.dropBytes r.start
  lt_stop : r.start + r.selector.byteSize < r.stop
  branch : ∀ b ∈ r.branches, b.1 < b.2 ∧ b.2 ≤ r.selector.byteSize
  branches : r.branches.Pairwise fun a b => a.2 ≤ b.1
  declaration : ∀ d ∈ r.declarations,
    d.IsWellFormed source ∧ r.start + r.selector.byteSize < d.leadingStart ∧ d.stop < r.stop
  declarations : r.declarations.Pairwise fun d e => d.stop ≤ e.leadingStart

/-- The declarations directly in the block of a rule set. -/
def Node.declarations (n : Node) : List Node :=
  (n.children.filter (·.kind = .block)).flatMap fun b => b.children.filter (·.kind = .declaration)

/-- The selectors of a rule set. -/
def Node.branches (n : Node) : List Node :=
  (n.children.filter (·.kind = .selectors)).flatMap fun list =>
    list.children.filter fun c => c.kind.isNamed && c.kind ≠ .comment

/-- The rule is that of the rule set. It has the selectors of the list and the declarations directly
in the block. -/
structure Rule.IsOf (n : Node) (r : Rule) : Prop where
  start : r.start = n.start.byte
  stop : r.stop = n.stop.byte
  branches : List.Forall₂
    (fun c b => r.start + b.1 = c.start.byte ∧ r.start + b.2 = c.stop.byte) n.branches r.branches
  declarations : List.Forall₂
    (fun c d => d.start = c.start.byte ∧ d.stop = c.stop.byte) n.declarations r.declarations

/-- A rule stands inside the block of another. -/
def Rule.IsInside (r s : Rule) : Prop := s.start < r.start ∧ r.stop < s.stop

/-- The rules are those of a sheet in which they begin one behind the other, are disjoint or nested,
and end apart. -/
structure IsWellFormed (source : Text) (rules : List Rule) : Prop where
  rule : ∀ r ∈ rules, r.IsWellFormed source
  start_lt_start : rules.Pairwise fun r s => r.start < s.start
  nested : rules.Pairwise fun r s => r.stop ≤ s.start ∨ s.IsInside r
  stop_ne_stop : rules.Pairwise fun r s => r.stop ≠ s.stop
  spares : ∀ r ∈ rules, ∀ s ∈ rules, s.IsInside r → ∀ d ∈ r.declarations,
    d.stop ≤ s.start ∨ s.stop ≤ d.leadingStart

variable {source : Text} {s : Spot} {n m b c prev : Node} {nodes : List Node} {p : Option Node}

/-! ## Positions -/

/-- The position of a node is counted along the lines. -/
theorem positionOf_of_isIn (h : n.start.IsIn source) :
    ∃ before line after, source = before ++ (line ++ after) ∧ EndsLine before ∧ '\n' ∉ line ∧
      (before ++ line).byteSize = n.start.byte ∧
      positionOf source n = ⟨1 + (before ++ line).count '\n', 1 + line.length⟩ := by
  obtain ⟨before, line, after, hsource, hbefore, hline, hstart⟩ := h
  have hsize : (before ++ line).byteSize - line.byteSize = before.byteSize := by
    rw [Text.byteSize_append, Nat.add_sub_cancel]
  have hslice : source.slice before.byteSize (before ++ line).byteSize = line :=
    Text.slice_eq_of_append (hsource.trans (List.append_assoc _ _ _).symm) rfl
      (Text.byteSize_append _ _).symm
  refine ⟨before, line, after, hsource, hbefore, hline, by rw [hstart], ?_⟩
  simp only [positionOf, hstart, hsize, hslice, Nat.add_comm 1]

/-! ## Siblings -/

theorem exists_of_mem_zip {o : Option Node} (h : (p, c) ∈ (o :: nodes.map some).zip nodes) :
    ∃ front back, nodes = front ++ c :: back ∧ p = front.getLast?.or o := by
  induction nodes generalizing o with
  | nil => cases h
  | cons n nodes ih =>
    rw [List.map_cons, List.zip_cons_cons] at h
    rcases List.mem_cons.mp h with h | h
    · cases h
      exact ⟨[], nodes, rfl, rfl⟩
    · obtain ⟨front, back, rfl, rfl⟩ := ih h
      refine ⟨n :: front, back, rfl, ?_⟩
      cases hfront : front.getLast? <;> simp [List.getLast?_cons, hfront]

theorem exists_of_mem_siblings (h : (p, c) ∈ n.siblings) :
    ∃ front back, n.children = front ++ c :: back ∧ p = front.getLast? := by
  obtain ⟨front, back, hchildren, rfl⟩ := exists_of_mem_zip h
  exact ⟨front, back, hchildren, Option.or_none⟩

/-- Each node stands behind those in front of the sibling before it. -/
theorem pairwise_zip {o : Option Node} (h : IsForest source nodes) :
    ((o :: nodes.map some).zip nodes).Pairwise fun x y =>
      ∃ q, y.1 = some q ∧ x.2.stop.byte ≤ q.stop.byte := by
  induction nodes generalizing o with
  | nil => exact .nil
  | cons n nodes ih =>
    rw [List.map_cons, List.zip_cons_cons]
    refine List.pairwise_cons.mpr ⟨?_, ih h.tail⟩
    rintro ⟨p, c⟩ hc
    obtain ⟨front, back, hnodes, rfl⟩ := exists_of_mem_zip hc
    cases hfront : front.getLast? with
    | none => exact ⟨n, rfl, Nat.le_refl _⟩
    | some q =>
      have hq : q ∈ nodes := by
        rw [hnodes]
        exact List.mem_append_left _ (List.mem_of_getLast? hfront)
      have hbehind := (List.pairwise_cons.mp h.pairwise).1 q hq
      exact ⟨q, rfl, Nat.le_trans hbehind (Nat.le_of_lt (h.tail.mem hq).start_lt_stop)⟩

/-! ## Declarations -/

/-- A declaration of a block stands between two of its nodes, with nothing but white space behind
the first one. -/
theorem Node.IsBlock.exists_of_mem {opening closing : Node} {inner : List Node}
    (h : b.IsBlock source opening inner closing) (hc : (p, c) ∈ declarationNodes b) :
    c.kind = .declaration ∧ ∃ front prev back,
      b.children = front ++ prev :: c :: (back ++ [closing]) ∧ p = some prev := by
  obtain ⟨hmem, hkind⟩ := List.mem_filter.mp hc
  have hdeclaration : c.kind = .declaration := by simpa using (Bool.and_eq_true_iff.mp hkind).2
  obtain ⟨front, back, hchildren, rfl⟩ := exists_of_mem_siblings hmem
  refine ⟨hdeclaration, ?_⟩
  have hopening : front ≠ [] := by
    rintro rfl
    rw [h.children, List.nil_append, List.cons.injEq] at hchildren
    rw [← hchildren.1, h.kind_opening] at hdeclaration
    cases hdeclaration
  have hlast : (c :: back).getLast? = some closing := by
    have hlast := congrArg List.getLast? (h.children.symm.trans hchildren)
    rw [← List.cons_append, List.getLast?_concat, List.getLast?_append] at hlast
    rw [hlast]
    rfl
  obtain ⟨front, prev, rfl⟩ := (List.eq_nil_or_concat' front).resolve_left hopening
  rcases List.eq_nil_or_concat' back with rfl | ⟨back, last, rfl⟩
  · rw [List.getLast?_singleton, Option.some.injEq] at hlast
    rw [hlast, h.kind_closing] at hdeclaration
    cases hdeclaration
  · rw [← List.cons_append, List.getLast?_concat, Option.some.injEq] at hlast
    refine ⟨front, prev, back, ?_, List.getLast?_concat⟩
    rw [hchildren, hlast, List.append_assoc]
    rfl

theorem semicolon?_eq_some (h : semicolon? n = some c) :
    n.children.getLast? = some c ∧ c.kind = .mark [';'] := by
  obtain ⟨hlast, hkind⟩ := Option.filter_eq_some_iff.mp h
  exact ⟨hlast, of_decide_eq_true hkind⟩

/-- The value of a declaration ends behind its colon. -/
theorem le_valueStop (hn : n.Conforms source) (hc : c ∈ n.children) (hcolon : c.kind = .mark [':'])
    (hchildren : ∀ c ∈ n.children, c.Conforms source) :
    c.stop.byte ≤ valueStop n ∧ source.IsBoundary (valueStop n) := by
  unfold valueStop
  cases hsemicolon : semicolon? n with
  | none => exact ⟨(hn.child c hc).2, hn.stop.isBoundary⟩
  | some last =>
    obtain ⟨hlast, hkind⟩ := semicolon?_eq_some hsemicolon
    obtain ⟨front, hfront⟩ := List.getLast?_eq_some_iff.mp hlast
    have hpairwise := hn.children
    rw [hfront] at hc hpairwise hchildren
    refine ⟨?_, (hchildren last (by simp)).start.isBoundary⟩
    rcases List.mem_append.mp hc with hc | hc
    · exact (List.pairwise_append.mp hpairwise).2.2 c hc last List.mem_cons_self
    · rw [List.mem_singleton.mp hc, hkind] at hcolon
      cases hcolon

/-- What is left of the value behind its blanks stands where it is counted to stand. -/
theorem slice_trimStart {raw : Text} {start stop : Nat} (hstart : source.IsBoundary start)
    (hstop : source.IsBoundary stop) (hle : start ≤ stop) (hraw : source.slice start stop = raw) :
    start ≤ stop - raw.trimStart.byteSize ∧ source.IsBoundary (stop - raw.trimStart.byteSize) ∧
      source.slice (stop - raw.trimStart.byteSize) stop = raw.trimStart := by
  obtain ⟨before, after, hsource, rfl, hsize⟩ := Text.exists_append_slice hstart hstop hle
  rw [hraw] at hsource hsize
  have hsplit := Text.takeWhile_append_trimStart raw
  have hstop : stop - raw.trimStart.byteSize =
      Text.byteSize (before ++ raw.takeWhile Text.isBlank) := by
    rw [← hsize, Text.byteSize_append, ← congrArg Text.byteSize hsplit, Text.byteSize_append]
    omega
  have happend : source = before ++ raw.takeWhile Text.isBlank ++ (raw.trimStart ++ after) := by
    rw [hsource, List.append_assoc, ← List.append_assoc _ raw.trimStart, hsplit]
  refine ⟨?_, ?_, Text.slice_eq_of_append (happend.trans (List.append_assoc _ _ _).symm)
    hstop.symm ?_⟩
  · rw [hstop, Text.byteSize_append]
    exact Nat.le_add_right _ _
  · rw [hstop, happend]
    exact Text.isBoundary_byteSize_append _ _
  · have := congrArg Text.byteSize hsplit
    rw [Text.byteSize_append] at this
    omega

/-- The semicolon is what stands behind the value. -/
theorem slice_valueStop {name : Node} {rest : List Node} (h : n.IsDeclaration name rest)
    (hchildren : ∀ c ∈ n.children, c.Conforms source) :
    source.slice (valueStop n) n.stop.byte = if (semicolon? n).isSome then [';'] else [] := by
  unfold valueStop
  cases hsemicolon : semicolon? n with
  | none => simp [Text.slice]
  | some last =>
    obtain ⟨hlast, hkind⟩ := semicolon?_eq_some hsemicolon
    have hmark := (hchildren last (List.mem_of_getLast? hlast)).mark _ hkind
    rw [← h.semicolon last hlast hkind]
    exact hmark.2

theorem valueStop_le (hn : n.Conforms source) (hchildren : ∀ c ∈ n.children, c.Conforms source) :
    valueStop n ≤ n.stop.byte := by
  unfold valueStop
  cases hsemicolon : semicolon? n with
  | none => exact Nat.le_refl _
  | some last =>
    have hmem := List.mem_of_getLast? (semicolon?_eq_some hsemicolon).1
    exact Nat.le_trans (Nat.le_of_lt (hchildren last hmem).start_lt_stop) (hn.child last hmem).2

/-- Of each declaration there is a record, and what it says is found in the sheet. -/
theorem exists_snapshotDeclaration? (hn : n.Conforms source) (hkind : n.kind = .declaration)
    (hchildren : ∀ c ∈ n.children, c.Conforms source) (prev : Node) :
    ∃ d, snapshotDeclaration? source (some prev) n = some d ∧
      d.start = n.start.byte ∧ d.stop = n.stop.byte ∧ d.leadingStart = prev.stop.byte ∧
      d.position = positionOf source n ∧ ∃ value, value.trimStart = value ∧
        source.slice d.start d.stop = d.property ++ (d.separator ++
          (value ++ if d.terminated then [';'] else [])) := by
  obtain ⟨name, rest, h⟩ := hn.declaration hkind
  have hname : n.children.find? (·.kind = .propertyName) = some name := by
    rw [h.children, List.find?_cons_of_pos (by simp [h.kind_name])]
  obtain ⟨colon, hcolon⟩ : ∃ colon, n.children.find? (·.kind = .mark [':']) = some colon := by
    obtain ⟨c, hc, hkind⟩ := h.colon
    rw [← Option.isSome_iff_exists, List.find?_isSome, h.children]
    exact ⟨c, List.mem_cons_of_mem _ hc, by simpa using hkind⟩
  have hcolonKind : colon.kind = .mark [':'] := by simpa using List.find?_some hcolon
  have hcolonMem := List.mem_of_find?_eq_some hcolon
  have hbehind : name.stop.byte ≤ colon.stop.byte := by
    have hpairwise := hn.children
    have hlt := (hchildren colon hcolonMem).start_lt_stop
    rw [h.children] at hpairwise hcolonMem
    rcases List.mem_cons.mp hcolonMem with rfl | hrest
    · exact Nat.le_refl _
    · exact Nat.le_trans ((List.pairwise_cons.mp hpairwise).1 colon hrest) (Nat.le_of_lt hlt)
  have hnameConforms := hchildren name (h.children ▸ List.mem_cons_self)
  have hcolonBoundary := (hchildren colon hcolonMem).stop.isBoundary
  obtain ⟨hle, hboundary⟩ := le_valueStop hn hcolonMem hcolonKind hchildren
  obtain ⟨hlow, hvalueBoundary, hvalue⟩ := slice_trimStart hcolonBoundary hboundary hle rfl
  have hraw : rawValue? source n = some (source.slice colon.stop.byte (valueStop n)) := by
    rw [rawValue?, hcolon]
    exact Text.slice?_eq_some_iff.mpr ⟨⟨hle, hcolonBoundary, hboundary⟩, rfl⟩
  refine ⟨_, by rw [snapshotDeclaration?, hname, hraw]; rfl, rfl, rfl, rfl, rfl,
    (source.slice colon.stop.byte (valueStop n)).trimStart, ?_, ?_⟩
  · exact List.dropWhile_idempotent ..
  · have hstop := hn.stop.isBoundary
    have hstopLe := valueStop_le hn hchildren
    have hstart := Nat.sub_le (valueStop n)
      (source.slice colon.stop.byte (valueStop n)).trimStart.byteSize
    dsimp only
    rw [← slice_valueStop h hchildren]
    generalize valueStop n - (source.slice colon.stop.byte (valueStop n)).trimStart.byteSize
      = valueStart at hlow hvalueBoundary hvalue hstart ⊢
    rw [← hvalue, Text.slice_append_slice hvalueBoundary hboundary hstop hstart hstopLe,
      Text.slice_append_slice hnameConforms.stop.isBoundary hvalueBoundary hstop
        (Nat.le_trans hbehind hlow) (Nat.le_trans hstart hstopLe), ← h.start,
      Text.slice_append_slice hnameConforms.start.isBoundary hnameConforms.stop.isBoundary hstop
        (Nat.le_of_lt hnameConforms.start_lt_stop)
        (Nat.le_trans hbehind (hn.child colon hcolonMem).2)]

/-! ## Blocks -/

variable {opening closing list : Node} {inner comments : List Node} {r : Rule} {d : Declaration}

/-- Of each declaration of a block there is a record that is well formed. -/
theorem exists_isWellFormed (hb : b.IsBlock source opening inner closing)
    (hforest : IsForest source b.children) (hc : (p, c) ∈ declarationNodes b) :
    ∃ d, snapshotDeclaration? source p c = some d ∧ d.IsWellFormed source ∧
      d.start = c.start.byte ∧ d.stop = c.stop.byte ∧
      ∃ prev, p = some prev ∧ d.leadingStart = prev.stop.byte := by
  obtain ⟨hkind, front, prev, back, hchildren, rfl⟩ := hb.exists_of_mem hc
  have hc := hforest.mem (n := c) (by simp [hchildren])
  have hprev := hforest.mem (n := prev) (by simp [hchildren])
  have hmem : c ∈ b.children := by simp [hchildren]
  obtain ⟨d, hd, hstart, hstop, hleading, hcounted, value, hvalue, htext⟩ :=
    exists_snapshotDeclaration? hc hkind (fun x hx => (hforest.inside_of_mem hmem).mem hx) prev
  have hle : prev.stop.byte ≤ c.start.byte := by
    have hpairwise := hforest.pairwise
    rw [hchildren, List.pairwise_append, List.pairwise_cons] at hpairwise
    exact hpairwise.2.1.1 c List.mem_cons_self
  have hfits : d.Fits source := by
    refine ⟨?_, ?_, ?_, ?_, ?_⟩
    · rwa [hleading, hstart]
    · rw [hstart, hstop]
      exact hc.start_lt_stop
    · exact hleading ▸ hprev.stop.isBoundary
    · exact hstart ▸ hc.start.isBoundary
    · exact hstop ▸ hc.stop.isBoundary
  refine ⟨d, hd, ⟨hfits, ?_, ?_, ?_, ⟨value, hvalue, htext⟩, ?_⟩, hstart, hstop, prev, rfl,
    hleading⟩
  · rw [Declaration.leading, hleading, hstart]
    exact hb.gap front prev c _ hchildren
  · refine List.IsPrefix.trans ⟨value ++ if d.terminated then [';'] else [], ?_⟩
      (Text.slice_isPrefix source d.start d.stop)
    rw [htext, List.append_assoc]
  · intro hterminated
    rw [htext, hterminated, if_pos rfl]
    exact ⟨d.property ++ (d.separator ++ value), by simp⟩
  · rw [hcounted, hstart]
    exact positionOf_of_isIn hc.start

theorem map_snd_declarationNodes (b : Node) :
    (declarationNodes b).map Prod.snd = b.children.filter (·.kind = .declaration) := by
  have hsiblings : b.siblings.map Prod.snd = b.children :=
    List.map_snd_zip (by simp)
  rw [declarationNodes]
  conv => rhs; rw [← hsiblings, List.filter_map]
  congr 2
  funext x
  cases hkind : x.2.kind <;> simp [hkind, NodeKind.isNamed]

theorem forall₂_filterMap {α β : Type} {R : α → β → Prop} {f : α → Option β} {l : List α}
    (h : ∀ x ∈ l, ∃ y, f x = some y ∧ R x y) : List.Forall₂ R l (l.filterMap f) := by
  induction l with
  | nil => exact .nil
  | cons x l ih =>
    obtain ⟨⟨y, hy, hR⟩, hl⟩ := List.forall_mem_cons.mp h
    rw [List.filterMap_cons, hy]
    exact .cons hR (ih hl)

/-- The declarations directly in a block have one record each. -/
theorem forall₂_declarations (hb : b.IsBlock source opening inner closing)
    (hforest : IsForest source b.children) :
    List.Forall₂ (fun c d => d.start = c.start.byte ∧ d.stop = c.stop.byte)
      (b.children.filter (·.kind = .declaration))
      ((declarationNodes b).filterMap fun s => snapshotDeclaration? source s.1 s.2) := by
  rw [← map_snd_declarationNodes, List.forall₂_map_left_iff]
  refine forall₂_filterMap fun s hs => ?_
  obtain ⟨d, hd, -, hstart, hstop, -⟩ := exists_isWellFormed hb hforest hs
  exact ⟨d, hd, hstart, hstop⟩

/-! ## Rule sets -/

theorem snapshotRule?_of_isRuleSet (source : Text) (h : n.IsRuleSet list comments b) :
    snapshotRule? source n = some
      { start := n.start.byte
        stop := n.stop.byte
        selector := source.slice list.start.byte list.stop.byte
        branches := (list.namedChildren.filter (·.kind ≠ .comment)).map fun c =>
          (c.start.byte - list.start.byte, c.stop.byte - list.start.byte)
        indent := indentAfter (source.takeBytes n.start.byte)
        declarations := (declarationNodes b).filterMap fun s =>
          snapshotDeclaration? source s.1 s.2 } := by
  have hlist : n.namedChildren.find? (·.kind = .selectors) = some list := by
    simp [Node.namedChildren, h.children, h.kind_list, NodeKind.isNamed]
  have hblock : n.namedChildren.find? (·.kind = .block) = some b := by
    have hcomments : (comments.filter (·.kind.isNamed)).find? (·.kind = .block) = none := by
      rw [List.find?_eq_none]
      intro c hc
      rcases h.kind_comment c (List.mem_filter.mp hc).1 with hkind | hkind <;> simp [hkind]
    rw [Node.namedChildren, h.children, List.filter_cons_of_pos (by rw [h.kind_list]; rfl),
      List.find?_cons_of_neg (by simp [h.kind_list]), List.filter_append, List.find?_append,
      hcomments]
    simp [h.kind_block, NodeKind.isNamed]
  rw [snapshotRule?, hlist, hblock]
  rfl

/-- Where the parts of a rule set stand. -/
theorem Node.IsRuleSet.places (h : n.IsRuleSet list comments b) (hforest : IsForest source [n]) :
    list.start.byte = n.start.byte ∧ list.start.byte < list.stop.byte ∧
      list.stop.byte ≤ b.start.byte ∧ b.stop.byte ≤ n.stop.byte := by
  have hlist : list ∈ n.children := by simp [h.children]
  have hb : b ∈ n.children := by simp [h.children]
  have hpairwise := hforest.head.children
  rw [h.children, List.pairwise_cons] at hpairwise
  refine ⟨by rw [h.start], (hforest.inside.mem hlist).start_lt_stop, hpairwise.1 b (by simp), ?_⟩
  exact (hforest.head.child b hb).2

theorem Node.IsBlock.places (hb : b.IsBlock source opening inner closing)
    (hforest : IsForest source [b]) :
    closing.start.byte < b.stop.byte ∧
      ∀ c ∈ opening :: inner, b.start.byte ≤ c.start.byte ∧ c.stop.byte ≤ closing.start.byte := by
  have hclosing : closing ∈ b.children := by simp [hb.children]
  refine ⟨Nat.lt_of_lt_of_le (hforest.inside.mem hclosing).start_lt_stop
    (hforest.head.child _ hclosing).2, fun c hc => ⟨(hforest.head.child c ?_).1, ?_⟩⟩
  · rw [hb.children, ← List.cons_append]
    exact List.mem_append_left _ hc
  · have hpairwise := hforest.head.children
    rw [hb.children, ← List.cons_append, List.pairwise_append] at hpairwise
    exact hpairwise.2.2 c hc closing List.mem_cons_self

/-- A rule set in a block ends in front of the closing brace. -/
theorem stop_le_of_mem_block (hb : b.IsBlock source opening inner closing)
    (hforest : IsForest source [b]) (hc : c ∈ Node.preorderAll b.children)
    (hkind : c.kind = .ruleSet) :
    b.start.byte ≤ c.start.byte ∧ c.stop.byte ≤ closing.start.byte := by
  have hinside := hforest.inside
  rw [hb.children, ← List.cons_append] at hc hinside
  rw [Node.preorderAll_append] at hc
  rcases List.mem_append.mp hc with hc | hc
  · have hplaces := (hb.places hforest).2
    exact ⟨hinside.left.le_start (fun x hx => (hplaces x hx).1) hc,
      hinside.left.stop_le (fun x hx => (hplaces x hx).2) hc⟩
  · -- the brace is a token, and so nothing is in it
    have hleaf := ((hinside.mem (List.mem_append_right _ List.mem_cons_self)).mark _
      hb.kind_closing).1
    rw [Node.preorderAll_singleton, hleaf, Node.preorderAll_nil, List.mem_singleton] at hc
    rw [hc, hb.kind_closing] at hkind
    cases hkind

/-- The declarations of a block are well formed and stand between its braces. -/
theorem isWellFormed_of_mem_block (hb : b.IsBlock source opening inner closing)
    (hforest : IsForest source [b]) {d : Declaration}
    (hd : d ∈ (declarationNodes b).filterMap fun s => snapshotDeclaration? source s.1 s.2) :
    d.IsWellFormed source ∧ b.start.byte < d.leadingStart ∧ d.stop ≤ closing.start.byte := by
  obtain ⟨⟨p, c⟩, hc, hd⟩ := List.mem_filterMap.mp hd
  obtain ⟨d', hd', hwell, -, hstop, prev, rfl, hleading⟩ := exists_isWellFormed hb hforest.inside hc
  obtain rfl := Option.some.inj (hd.symm.trans hd')
  obtain ⟨-, front, prev', back, hchildren, hprev⟩ := hb.exists_of_mem hc
  obtain rfl := Option.some.inj hprev
  have hmem : prev ∈ b.children := by simp [hchildren]
  have hbehind : c.stop.byte ≤ closing.start.byte := by
    have hpairwise := hforest.head.children
    rw [hchildren, List.pairwise_append, List.pairwise_cons, List.pairwise_cons] at hpairwise
    exact hpairwise.2.1.2.1 closing (by simp)
  have hlow := (hforest.head.child prev hmem).1
  have hlt := (hforest.inside.mem hmem).start_lt_stop
  exact ⟨hwell, by omega, by omega⟩

/-- The declarations of a block come one behind the other. -/
theorem pairwise_declarations (hb : b.IsBlock source opening inner closing)
    (hforest : IsForest source b.children) :
    ((declarationNodes b).filterMap fun s => snapshotDeclaration? source s.1 s.2).Pairwise
      fun d e => d.stop ≤ e.leadingStart := by
  have hsiblings : (declarationNodes b).Pairwise fun x y =>
      ∃ q, y.1 = some q ∧ x.2.stop.byte ≤ q.stop.byte := (pairwise_zip hforest).filter _
  refine List.pairwise_filterMap.mpr (hsiblings.imp_of_mem ?_)
  rintro ⟨p, c⟩ ⟨p', c'⟩ hc hc' ⟨q, hq, hle⟩ d hd e he
  obtain ⟨d', hd', -, -, hstop, -⟩ := exists_isWellFormed hb hforest hc
  obtain ⟨e', he', -, -, -, prev, hprev, hleading⟩ := exists_isWellFormed hb hforest hc'
  obtain rfl := Option.some.inj (hd.symm.trans hd')
  obtain rfl := Option.some.inj (he.symm.trans he')
  obtain rfl := Option.some.inj (hq.symm.trans hprev)
  rw [hstop, hleading]
  exact hle

/-- The selectors of a list stand in it one behind the other. -/
theorem branches_spec (hforest : IsForest source [list]) (q : Node → Bool) :
    (∀ x ∈ (list.namedChildren.filter q).map fun c =>
        (c.start.byte - list.start.byte, c.stop.byte - list.start.byte),
      x.1 < x.2 ∧ x.2 ≤ list.stop.byte - list.start.byte) ∧
    ((list.namedChildren.filter q).map fun c =>
        (c.start.byte - list.start.byte, c.stop.byte - list.start.byte)).Pairwise
      fun x y => x.2 ≤ y.1 := by
  constructor
  · rintro x hx
    obtain ⟨c, hc, rfl⟩ := List.mem_map.mp hx
    have hmem : c ∈ list.children := (List.mem_filter.mp (List.mem_filter.mp hc).1).1
    have hbounds := hforest.head.child c hmem
    have hlt := (hforest.inside.mem hmem).start_lt_stop
    exact ⟨by omega, Nat.sub_le_sub_right hbounds.2 _⟩
  · refine List.pairwise_map.mpr (((hforest.head.children.filter _).filter _).imp ?_)
    exact fun h => Nat.sub_le_sub_right h _

/-- The rule of a rule set is well formed. -/
theorem isWellFormed_of_isRuleSet (h : n.IsRuleSet list comments b) (hforest : IsForest source [n])
    (hb : b.IsBlock source opening inner closing) (hr : snapshotRule? source n = some r) :
    r.IsWellFormed source := by
  rw [snapshotRule?_of_isRuleSet source h, Option.some.injEq] at hr
  obtain ⟨hstart, hlt, hlist, hstop⟩ := h.places hforest
  have hlistForest : IsForest source [list] :=
    hforest.inside.singleton_of_mem (by simp [h.children])
  have hblock : IsForest source [b] := hforest.inside.singleton_of_mem (by simp [h.children])
  have hclosing := (hb.places hblock).1
  have hbranches := branches_spec hlistForest fun c => decide (c.kind ≠ .comment)
  obtain ⟨-, -, -, -, hsize⟩ := Text.exists_append_slice hlistForest.head.start.isBoundary
    hlistForest.head.stop.isBoundary (Nat.le_of_lt hlt)
  have hblockLt := hblock.head.start_lt_stop
  subst hr
  refine ⟨?_, ?_, ?_, hbranches.2, ?_, pairwise_declarations hb hblock.inside⟩
  · rw [← hstart]
    exact Text.slice_isPrefix ..
  · dsimp only
    omega
  · intro x hx
    have := hbranches.1 x hx
    dsimp only
    omega
  · intro d hd
    obtain ⟨hwell, hlow, hhigh⟩ := isWellFormed_of_mem_block hb hblock hd
    dsimp only
    exact ⟨hwell, by omega, by omega⟩

theorem Node.IsRuleSet.filter_comments (h : n.IsRuleSet list comments b) {kind : NodeKind}
    (hcomment : kind ≠ .comment) (hother : kind ≠ .other) :
    comments.filter (·.kind = kind) = [] := by
  rw [List.filter_eq_nil_iff]
  intro c hc
  rcases h.kind_comment c hc with hkind | hkind
  · simp [hkind, hcomment.symm]
  · simp [hkind, hother.symm]

theorem Node.IsRuleSet.branches_eq (h : n.IsRuleSet list comments b) :
    n.branches = list.namedChildren.filter (·.kind ≠ .comment) := by
  rw [branches, h.children, List.filter_cons_of_pos (by simp [h.kind_list]),
    List.filter_append, h.filter_comments (by simp) (by simp)]
  simp [h.kind_block, namedChildren, Bool.and_comm]

theorem Node.IsRuleSet.declarations_eq (h : n.IsRuleSet list comments b) :
    n.declarations = b.children.filter (·.kind = .declaration) := by
  rw [declarations, h.children, List.filter_cons_of_neg (by simp [h.kind_list]),
    List.filter_append, h.filter_comments (by simp) (by simp)]
  simp [h.kind_block]

/-- There is a rule of each rule set. -/
theorem exists_isOf (hforest : IsForest source [n]) (hkind : n.kind = .ruleSet) :
    ∃ r, snapshotRule? source n = some r ∧ r.IsWellFormed source ∧ r.IsOf n := by
  obtain ⟨list, comments, b, h⟩ := hforest.head.ruleSet hkind
  have hblock : IsForest source [b] := hforest.inside.singleton_of_mem (by simp [h.children])
  obtain ⟨opening, inner, closing, hb⟩ := hblock.head.block h.kind_block
  have hr := snapshotRule?_of_isRuleSet source h
  refine ⟨_, hr, isWellFormed_of_isRuleSet h hforest hb hr, rfl, rfl, ?_, ?_⟩
  · rw [h.branches_eq, List.forall₂_map_right_iff, List.forall₂_same]
    intro c hc
    have hlist := hforest.inside.mem (n := list) (by simp [h.children])
    have hbounds := hlist.child c (List.mem_filter.mp (List.mem_filter.mp hc).1).1
    have hstart := (h.places hforest).1
    have hlt := (hforest.inside.inside_of_mem (by simp [h.children])).mem
      (List.mem_filter.mp (List.mem_filter.mp hc).1).1 |>.start_lt_stop
    dsimp only
    omega
  rw [h.declarations_eq]
  exact forall₂_declarations hb hblock.inside

/-! ## All rules -/

/-- A rule set stands behind another, or in its block beside the declarations. -/
structure IsBeside (source : Text) (n m : Node) : Prop where
  start_lt_start : n.start.byte < m.start.byte
  nested : m.stop.byte < n.stop.byte ∨ n.stop.byte ≤ m.start.byte
  spares : ∀ r, snapshotRule? source n = some r → ∀ d ∈ r.declarations,
    d.stop ≤ m.start.byte ∨ m.stop.byte ≤ d.leadingStart

theorem isBeside_of_le (hforest : IsForest source [n]) (hkind : n.kind = .ruleSet)
    (hle : n.stop.byte ≤ m.start.byte) : IsBeside source n m := by
  refine ⟨Nat.lt_of_lt_of_le hforest.head.start_lt_stop hle, Or.inr hle, fun r hr d hd => ?_⟩
  obtain ⟨r', hr', hwell, hof⟩ := exists_isOf hforest hkind
  obtain rfl := Option.some.inj (hr.symm.trans hr')
  have hstop := (hwell.declaration d hd).2.2
  rw [hof.stop] at hstop
  exact Or.inl (by omega)

/-- A rule set in a block shares no byte with the declarations of the block. -/
theorem spares_of_mem_block (hb : b.IsBlock source opening inner closing)
    (hforest : IsForest source b.children) (hc : (p, c) ∈ declarationNodes b)
    (hm : m ∈ Node.preorderAll b.children) (hkind : m.kind = .ruleSet) :
    c.stop.byte ≤ m.start.byte ∨ ∃ prev, p = some prev ∧ m.stop.byte ≤ prev.stop.byte := by
  obtain ⟨hdeclaration, front, prev, back, hchildren, rfl⟩ := hb.exists_of_mem hc
  rw [hchildren, ← List.singleton_append, ← List.append_assoc] at hm hforest
  rw [Node.preorderAll_append, List.mem_append] at hm
  have hpairwise := List.pairwise_append.mp hforest.pairwise
  rcases hm with hm | hm
  · refine Or.inr ⟨prev, rfl, hforest.left.stop_le (fun x hx => ?_) hm⟩
    rcases List.mem_append.mp hx with hx | hx
    · have hle := (List.pairwise_append.mp hpairwise.1).2.2 x hx prev List.mem_cons_self
      have hlt := (hforest.mem (n := prev) (by simp)).start_lt_stop
      omega
    · rw [List.mem_singleton.mp hx]
  · rw [Node.preorderAll_cons, List.mem_cons, List.mem_append] at hm
    have hright := hforest.right
    rcases hm with rfl | hm | hm
    · rw [hkind] at hdeclaration
      cases hdeclaration
    · obtain ⟨name, rest, h⟩ := hright.head.declaration hdeclaration
      exact absurd hkind (h.noRuleSet m hm)
    · exact Or.inl (hright.tail.le_start (List.pairwise_cons.mp hright.pairwise).1 hm)

/-- A rule set in another is in its block. -/
theorem isBeside_of_mem (hforest : IsForest source [n]) (hn : n.kind = .ruleSet)
    (hm : m ∈ Node.preorderAll n.children) (hkind : m.kind = .ruleSet) :
    IsBeside source n m := by
  obtain ⟨list, comments, b, h⟩ := hforest.head.ruleSet hn
  have hblock : IsForest source [b] := hforest.inside.singleton_of_mem (by simp [h.children])
  obtain ⟨opening, inner, closing, hb⟩ := hblock.head.block h.kind_block
  have hmem : m ∈ Node.preorderAll b.children := by
    rw [h.children, ← List.cons_append, Node.preorderAll_append, List.mem_append,
      Node.preorderAll_singleton] at hm
    rcases hm with hm | hm
    · exact absurd hkind (h.noRuleSet m hm)
    · rcases List.mem_cons.mp hm with rfl | hm
      · rw [h.kind_block] at hkind
        cases hkind
      · exact hm
  obtain ⟨hstart, hlt, hlist, hstop⟩ := h.places hforest
  obtain ⟨hlow, hhigh⟩ := stop_le_of_mem_block hb hblock hmem hkind
  have hclosing := (hb.places hblock).1
  refine ⟨by omega, Or.inl (by omega), fun r hr d hd => ?_⟩
  rw [snapshotRule?_of_isRuleSet source h, Option.some.injEq] at hr
  subst hr
  obtain ⟨⟨p, c⟩, hc, hd⟩ := List.mem_filterMap.mp hd
  obtain ⟨d', hd', -, -, hdstop, prev, rfl, hleading⟩ := exists_isWellFormed hb hblock.inside hc
  obtain rfl := Option.some.inj (hd.symm.trans hd')
  rw [hdstop, hleading]
  exact (spares_of_mem_block hb hblock.inside hc hmem hkind).imp_right
    fun ⟨_, hprev, hle⟩ => Option.some.inj hprev ▸ hle

/-- Of two rule sets the later one is beside the earlier one. -/
theorem pairwise_preorderAll (hforest : IsForest source nodes) :
    (Node.preorderAll nodes).Pairwise fun n m =>
      n.kind = .ruleSet → m.kind = .ruleSet → IsBeside source n m := by
  induction nodes using Node.forestInduction with
  | nil => exact .nil
  | cons n nodes ihchildren ihnodes =>
    have hhead : IsForest source [n] := hforest.singleton_of_mem List.mem_cons_self
    have hbehind := (List.pairwise_cons.mp hforest.pairwise).1
    have hnodes : ∀ m ∈ Node.preorderAll nodes, n.stop.byte ≤ m.start.byte := fun m hm =>
      hforest.tail.le_start hbehind hm
    rw [Node.preorderAll_cons, List.pairwise_cons, List.pairwise_append]
    refine ⟨fun m hm hn hkind => ?_, ihchildren hforest.inside, ihnodes hforest.tail, ?_⟩
    · rcases List.mem_append.mp hm with hm | hm
      · exact isBeside_of_mem hhead hn hm hkind
      · exact isBeside_of_le hhead hn (hnodes m hm)
    · intro c hc m hm hkind _
      have hstop := hforest.inside.stop_le (fun x hx => (hforest.head.child x hx).2) hc
      exact isBeside_of_le (hforest.inside.forest_of_mem hc) hkind
        (Nat.le_trans hstop (hnodes m hm))

theorem collectRules_eq (source : Text) (root : Node) :
    collectRules source root =
      (root.preorder.filter (·.kind = .ruleSet)).filterMap (snapshotRule? source) := by
  rw [collectRules, Cursor.walk_root, List.filterMap_filter]
  simp

theorem mem_preorderAll_of_mem_ruleSets {root : Node} (h : IsTreeOf source root)
    (hn : n ∈ root.preorder.filter (·.kind = .ruleSet)) :
    n ∈ Node.preorderAll root.children ∧ n.kind = .ruleSet := by
  obtain ⟨hmem, hkind⟩ := List.mem_filter.mp hn
  have hkind : n.kind = .ruleSet := by simpa using hkind
  rcases Node.mem_preorder_iff.mp hmem with rfl | hmem
  · exact absurd hkind h.kind
  · exact ⟨hmem, hkind⟩

theorem exists_isOf_of_mem {root : Node} (h : IsTreeOf source root)
    (hn : n ∈ root.preorder.filter (·.kind = .ruleSet)) :
    ∃ r, snapshotRule? source n = some r ∧ r.IsWellFormed source ∧ r.IsOf n := by
  obtain ⟨hmem, hkind⟩ := mem_preorderAll_of_mem_ruleSets h hn
  exact exists_isOf (h.isForest.forest_of_mem hmem) hkind

/-- Of two rules the later one stands behind the earlier one, or is nested in it beside its
declarations. -/
theorem pairwise_collectRules {root : Node} (h : IsTreeOf source root) :
    (collectRules source root).Pairwise fun r s => r.start < s.start ∧
      (s.stop < r.stop ∨ r.stop ≤ s.start) ∧
      ∀ d ∈ r.declarations, d.stop ≤ s.start ∨ s.stop ≤ d.leadingStart := by
  have hbeside : (root.preorder.filter (·.kind = .ruleSet)).Pairwise (IsBeside source) := by
    rw [Node.preorder_eq, List.filter_cons_of_neg (by simpa using h.kind), List.pairwise_filter]
    exact (pairwise_preorderAll h.isForest).imp fun h hn hm =>
      h (by simpa using hn) (by simpa using hm)
  rw [collectRules_eq, List.pairwise_filterMap]
  refine hbeside.imp_of_mem fun {n m} hn hm hbeside r hr s hs => ?_
  obtain ⟨r', hr', -, hof⟩ := exists_isOf_of_mem h hn
  obtain ⟨s', hs', -, hof'⟩ := exists_isOf_of_mem h hm
  obtain rfl := Option.some.inj (hr.symm.trans hr')
  obtain rfl := Option.some.inj (hs.symm.trans hs')
  rw [hof.start, hof.stop, hof'.start, hof'.stop]
  exact ⟨hbeside.start_lt_start, hbeside.nested, hbeside.spares r hr⟩

theorem isWellFormed_of_mem_collectRules {root : Node} (h : IsTreeOf source root)
    (hr : r ∈ collectRules source root) : r.IsWellFormed source := by
  rw [collectRules_eq] at hr
  obtain ⟨n, hn, hr⟩ := List.mem_filterMap.mp hr
  obtain ⟨r', hr', hwell, -⟩ := exists_isOf_of_mem h hn
  obtain rfl := Option.some.inj (hr.symm.trans hr')
  exact hwell

/-- The rules of the tree that a parser gives of a sheet are well formed, and there is one of each
rule set, in the same order, with one record of each declaration directly in its block. -/
theorem isWellFormed_collectRules {root : Node} (h : IsTreeOf source root) :
    IsWellFormed source (collectRules source root) ∧
      List.Forall₂ Rule.IsOf (root.preorder.filter (·.kind = .ruleSet))
        (collectRules source root) := by
  have hrule : ∀ r ∈ collectRules source root, r.IsWellFormed source := fun r hr =>
    isWellFormed_of_mem_collectRules h hr
  have hpairwise := pairwise_collectRules h
  constructor
  · refine ⟨hrule, hpairwise.imp fun h => h.1, hpairwise.imp fun h => ?_, ?_, ?_⟩
    · exact h.2.1.symm.imp_right fun hstop => ⟨h.1, hstop⟩
    · refine hpairwise.imp_of_mem fun {r s} _ hs h => ?_
      have hlt := (hrule s hs).lt_stop
      rcases h.2.1 with hstop | hstop <;> omega
    · intro r hr s hs hinside d hd
      obtain ⟨i, hi, rfl⟩ := List.mem_iff_getElem.mp hr
      obtain ⟨j, hj, rfl⟩ := List.mem_iff_getElem.mp hs
      rw [List.pairwise_iff_getElem] at hpairwise
      rcases Nat.lt_trichotomy i j with hij | rfl | hij
      · exact (hpairwise i j hi hj hij).2.2 d hd
      · exact absurd hinside.1 (Nat.lt_irrefl _)
      · exact absurd hinside.1 (Nat.lt_asymm (hpairwise j i hj hi hij).1)
  · rw [collectRules_eq]
    refine forall₂_filterMap fun n hn => ?_
    obtain ⟨r, hr, -, hof⟩ := exists_isOf_of_mem h hn
    exact ⟨r, hr, hof⟩

/-- Two selectors, a rule nested between declarations, text of several bytes, a rule in the block of
an at-rule and declarations without a semicolon. -/
def blocksSheet : Text :=
  "/*🙂*/a,\né \x7b p:1;\n\tb\x7bq: é\x7d /*c*/ r :2 \x7d\n".toList
    ++ "@media x\x7bd\x7b\x7de\x7bs:3;\x7d\x7d".toList

theorem isWellFormed_collectRules_blocksSheet :
    IsTreeOf blocksSheet (tree blocksSheet) ∧
      (rules blocksSheet).map (fun r => (r.start, r.stop, r.branches)) =
        [(8, 43, [(0, 1), (3, 5)]), (22, 30, [(0, 1)]), (53, 56, [(0, 1)]), (56, 63, [(0, 1)])] ∧
      IsWellFormed blocksSheet (rules blocksSheet) ∧
      List.Forall₂ Rule.IsOf ((tree blocksSheet).preorder.filter (·.kind = .ruleSet))
        (rules blocksSheet) := by
  have htree : IsTreeOf blocksSheet (tree blocksSheet) := isTreeOf_tree (by decide +kernel)
  exact ⟨htree, by decide +kernel, isWellFormed_collectRules htree⟩

theorem isWellFormed_of_mem_rules (h : isSound source = true) (hr : r ∈ rules source) :
    r.IsWellFormed source :=
  isWellFormed_of_mem_collectRules (isTreeOf_tree h) hr

end LeadingTrim.Sheet
