/-
# The syntax tree of a sound sheet

The tree of a sound sheet is one that a parser gives of it (`isTreeOf_tree`). The nodes of parts
fill the sheet from the first part on, white space aside (`Fills`), and so stand one behind the
other. Of the lists that `levels` gives each one but the last ends with a closing brace when all
blocks are closed (`Closes`), and so the nodes of a block can be cut off at its end and put into its
node (`AreNodes.open`).
-/

import LeadingTrim.Proofs.Sheet.Closed
import LeadingTrim.Proofs.Sheet.Pieces
import LeadingTrim.Proofs.Sheet.PseudoHead
import LeadingTrim.Proofs.Sheet.SyntaxTree

namespace LeadingTrim.Sheet

open Text (EndsLine IsBoundary isSheetSpace)

variable {source t u : Text} {s : Spot} {n m c : Node} {nodes more : List Node}
  {start middle stop : Nat}

/-! ## Nodes that fill the sheet -/

/-- There is nothing but white space between the offsets. -/
structure IsGap (source : Text) (start stop : Nat) : Prop where
  le : start ≤ stop
  isBoundary_start : source.IsBoundary start
  isBoundary_stop : source.IsBoundary stop
  space : ∀ c ∈ source.slice start stop, isSheetSpace c = true

/-- The nodes fill the sheet between the offsets, up to white space. -/
def Fills (source : Text) : Nat → List Node → Nat → Prop
  | start, [], stop => IsGap source start stop
  | start, n :: nodes, stop =>
    IsGap source start n.start.byte ∧ IsForest source [n] ∧ Fills source n.stop.byte nodes stop

theorem IsGap.refl (h : source.IsBoundary start) : IsGap source start start :=
  ⟨Nat.le_refl _, h, h, by simp [Text.slice]⟩

theorem IsGap.trans (h : IsGap source start middle) (h' : IsGap source middle stop) :
    IsGap source start stop := by
  refine ⟨Nat.le_trans h.le h'.le, h.isBoundary_start, h'.isBoundary_stop, ?_⟩
  rw [← Text.slice_append_slice h.isBoundary_start h.isBoundary_stop h'.isBoundary_stop h.le h'.le]
  exact List.forall_mem_append.mpr ⟨h.space, h'.space⟩

theorem Fills.of_gap (hgap : IsGap source start middle) (h : Fills source middle nodes stop) :
    Fills source start nodes stop := by
  cases nodes with
  | nil => exact hgap.trans h
  | cons n nodes => exact ⟨hgap.trans h.1, h.2⟩

theorem Fills.append (h : Fills source start nodes middle) (h' : Fills source middle more stop) :
    Fills source start (nodes ++ more) stop := by
  induction nodes generalizing start with
  | nil => exact h'.of_gap h
  | cons n nodes ih => exact ⟨h.1, h.2.1, ih h.2.2⟩

/-- Behind its last node a row can be cut. -/
theorem Fills.split (h : Fills source start (nodes ++ n :: more) stop) :
    Fills source start (nodes ++ [n]) n.stop.byte ∧ Fills source n.stop.byte more stop := by
  induction nodes generalizing start with
  | nil =>
    exact ⟨⟨h.1, h.2.1, .refl h.2.1.head.stop.isBoundary⟩, h.2.2⟩
  | cons a nodes ih => exact ⟨⟨h.1, h.2.1, (ih h.2.2).1⟩, (ih h.2.2).2⟩

theorem Fills.le (h : Fills source start nodes stop) : start ≤ stop := by
  induction nodes generalizing start with
  | nil => exact IsGap.le h
  | cons n nodes ih =>
    have hlt := h.2.1.head.start_lt_stop
    have hle := h.1.le
    have := ih h.2.2
    omega

theorem Fills.bounds (h : Fills source start nodes stop) :
    ∀ n ∈ nodes, start ≤ n.start.byte ∧ n.stop.byte ≤ stop := by
  induction nodes generalizing start with
  | nil => exact fun n hn => absurd hn List.not_mem_nil
  | cons n nodes ih =>
    have hlt := h.2.1.head.start_lt_stop
    refine List.forall_mem_cons.mpr ⟨⟨h.1.le, h.2.2.le⟩, fun m hm => ?_⟩
    have := ih h.2.2 m hm
    have := h.1.le
    omega

theorem Fills.isForest (h : Fills source start nodes stop) : IsForest source nodes := by
  induction nodes generalizing start with
  | nil => exact ⟨.nil, fun m hm => absurd hm List.not_mem_nil⟩
  | cons n nodes ih =>
    have hrest := ih h.2.2
    refine ⟨List.pairwise_cons.mpr ⟨fun m hm => (h.2.2.bounds m hm).1, hrest.pairwise⟩, ?_⟩
    intro m hm
    rw [← List.singleton_append, Node.preorderAll_append] at hm
    rcases List.mem_append.mp hm with hm | hm
    · exact h.2.1.conforms m hm
    · exact hrest.conforms m hm

theorem Fills.gap (h : Fills source start nodes stop) {front back : List Node}
    (hnodes : nodes = front ++ n :: m :: back) :
    ∀ x ∈ source.slice n.stop.byte m.start.byte, isSheetSpace x = true := by
  subst hnodes
  exact h.split.2.1.space

/-- A node that its children fill is as the grammar has it if its children are. -/
theorem isForest_singleton (hstart : n.start.IsIn source) (hstop : n.stop.IsIn source)
    (hlt : n.start.byte < n.stop.byte) (h : Fills source n.start.byte n.children n.stop.byte)
    (hmark : ∀ t, n.kind ≠ .mark t)
    (hruleSet : n.kind = .ruleSet → ∃ list comments block, n.IsRuleSet list comments block)
    (hblock : n.kind = .block → ∃ opening inner closing, n.IsBlock source opening inner closing)
    (hdeclaration : n.kind = .declaration → ∃ name rest, n.IsDeclaration name rest) :
    IsForest source [n] := by
  refine ⟨List.pairwise_singleton _ _, fun m hm => ?_⟩
  rw [Node.preorderAll_singleton] at hm
  rcases List.mem_cons.mp hm with rfl | hm
  · exact ⟨⟨hstart, hstop, hlt, h.bounds, h.isForest.pairwise, fun t ht => absurd ht (hmark t)⟩,
      hruleSet, hblock, hdeclaration⟩
  · exact h.isForest.conforms m hm

/-- Of a list of selectors, and of anything else that has no name here, the grammar says no more
than that its children fill it. -/
theorem isForest_filled (hstart : n.start.IsIn source) (hstop : n.stop.IsIn source)
    (hlt : n.start.byte < n.stop.byte) (h : Fills source n.start.byte n.children n.stop.byte)
    (hkind : n.kind = .selectors ∨ n.kind = .other) : IsForest source [n] := by
  have hne : ∀ kind, kind ≠ .selectors → kind ≠ .other → n.kind ≠ kind := by
    rintro kind hselectors hother rfl
    exact hkind.elim hselectors hother
  exact isForest_singleton hstart hstop hlt h (fun t => hne _ (by simp) (by simp))
    (fun h => absurd h (hne _ (by simp) (by simp))) (fun h => absurd h (hne _ (by simp) (by simp)))
    (fun h => absurd h (hne _ (by simp) (by simp)))

/-! ## Nodes of single texts -/

theorem lastLine_append {before line : Text} (hbefore : EndsLine before) (hline : '\n' ∉ line) :
    Text.lastLine (before ++ line) = line := by
  have hpass : ∀ c ∈ line.reverse, (c != '\n') = true := by
    intro c hc
    rw [bne_iff_ne]
    rintro rfl
    exact hline (List.mem_reverse.mp hc)
  rw [Text.lastLine, List.reverse_append, List.takeWhile_append_of_pos hpass]
  rcases hbefore with rfl | ⟨s, rfl⟩
  · simp
  · simp

theorem StandsAt.isIn (h : StandsAt source s t) : s.IsIn source := by
  obtain ⟨before, rfl, rfl⟩ := h
  obtain ⟨lines, line, rfl, hlines, hline⟩ := Text.exists_endsLine_append before
  refine ⟨lines, line, t, List.append_assoc _ _ _, hlines, hline, ?_⟩
  rw [Spot.zero_behind, lastLine_append hlines hline]

/-- What a leaf is: no rule set, block or declaration, and a token only of its own text. -/
def IsLeafKind (kind : NodeKind) (t : Text) : Prop :=
  kind ≠ .ruleSet ∧ kind ≠ .block ∧ kind ≠ .declaration ∧ ∀ mark, kind = .mark mark → mark = t

theorem isForest_leaf {kind : NodeKind} (h : StandsAt source s (t ++ u)) (ht : t ≠ [])
    (hkind : IsLeafKind kind t) : IsForest source [leaf kind s t] := by
  obtain ⟨hruleSet, hblock, hdeclaration, hmark⟩ := hkind
  refine ⟨List.pairwise_singleton _ _, fun m hm => ?_⟩
  obtain rfl : m = leaf kind s t := List.mem_singleton.mp hm
  refine ⟨⟨h.isIn, h.behind.isIn, ?_, nofun, .nil, fun mark hkind => ⟨rfl, ?_⟩⟩,
    fun hkind => absurd hkind hruleSet, fun hkind => absurd hkind hblock,
    fun hkind => absurd hkind hdeclaration⟩
  · rw [leaf_start, leaf_stop, Spot.byte_behind]
    exact Nat.lt_add_of_pos_right (Text.byteSize_pos ht)
  · rw [leaf_start, leaf_stop, Spot.byte_behind, h.slice]
    exact (hmark mark hkind).symm

theorem fills_leaf {kind : NodeKind} (h : StandsAt source s (t ++ u)) (ht : t ≠ [])
    (hkind : IsLeafKind kind t) :
    Fills source s.byte [leaf kind s t] (s.behind t).byte :=
  ⟨.refl h.isBoundary, isForest_leaf h ht hkind, .refl h.behind.isBoundary⟩

theorem StandsAt.isGap (h : StandsAt source s (t ++ u)) (ht : ∀ c ∈ t, isSheetSpace c = true) :
    IsGap source s.byte (s.behind t).byte := by
  refine ⟨?_, h.isBoundary, h.behind.isBoundary, ?_⟩
  · rw [Spot.byte_behind]
    exact Nat.le_add_right _ _
  · rw [Spot.byte_behind, h.slice]
    exact ht

/-- A text is white space, ink and white space. -/
theorem exists_ink (t : Text) : ∃ space, t = t.takeWhile isSheetSpace ++ (ink t ++ space) ∧
    ∀ c ∈ space, isSheetSpace c = true := by
  refine ⟨((t.dropWhile isSheetSpace).reverse.takeWhile isSheetSpace).reverse, ?_, ?_⟩
  · rw [ink, ← List.reverse_append, List.takeWhile_append_dropWhile, List.reverse_reverse,
      List.takeWhile_append_dropWhile]
  · intro c hc
    exact List.all_eq_true.mp List.all_takeWhile c (List.mem_reverse.mp hc)

theorem fills_inkLeaf {kind : NodeKind} (h : StandsAt source s (t ++ u))
    (hkind : IsLeafKind kind (ink t)) :
    Fills source s.byte (inkLeaf kind s t) (s.behind t).byte := by
  obtain ⟨space, ht, hspace⟩ := exists_ink t
  have hfront : ∀ c ∈ t.takeWhile isSheetSpace, isSheetSpace c = true :=
    List.all_eq_true.mp List.all_takeWhile
  unfold inkLeaf
  split
  next hink =>
    rw [hink, List.nil_append] at ht
    refine h.isGap ?_
    rw [ht]
    exact List.forall_mem_append.mpr ⟨hfront, hspace⟩
  next hink =>
    have hbehind : s.behind t =
        ((s.behind (t.takeWhile isSheetSpace)).behind (ink t)).behind space := by
      conv => lhs; rw [ht, Spot.behind_append, Spot.behind_append]
    rw [ht, List.append_assoc, List.append_assoc] at h
    rw [hbehind]
    have hend : Fills source _ [] _ := h.behind.behind.isGap hspace
    exact ((fills_leaf h.behind hink hkind).append hend).of_gap (h.isGap hfront)

theorem noRuleSet_of_isPlain (h : ∀ n ∈ nodes, n.IsPlain) : NoRuleSet nodes := by
  intro m hm
  obtain ⟨n, hn, hm⟩ := Node.mem_preorderAll_iff.mp hm
  rw [Node.mem_preorder_iff, (h n hn).2] at hm
  rcases hm with rfl | hm
  · exact (h m hn).1
  · cases hm

/-! ## Nodes of declarations -/

theorem isLeafKind_comment (t : Text) : IsLeafKind .comment t := by simp [IsLeafKind]

theorem isLeafKind_other (t : Text) : IsLeafKind .other t := by simp [IsLeafKind]

theorem isLeafKind_propertyName (t : Text) : IsLeafKind .propertyName t := by simp [IsLeafKind]

theorem isLeafKind_mark (t : Text) : IsLeafKind (.mark t) t := by simp [IsLeafKind]

theorem fills_children_node {d : DeclarationText} (h : StandsAt source s (d.text ++ u))
    (hname : d.name ≠ []) :
    Fills source s.byte (d.node s).children (s.behind d.text).byte := by
  have hstands : StandsAt source s (d.name ++ (d.gap ++ ([':'] ++ (d.value ++
      ((if d.terminated then [';'] else []) ++ u))))) := by
    simpa [DeclarationText.text] using h
  have hgap := hstands.behind
  have hcolon := hgap.behind
  have hvalue := hcolon.behind
  have hend := hvalue.behind
  have hlast : Fills source (((((s.behind d.name).behind d.gap).behind [':']).behind d.value)).byte
      (if d.terminated then [leaf (.mark [';'])
        ((((s.behind d.name).behind d.gap).behind [':']).behind d.value) [';']] else [])
      (s.behind d.text).byte := by
    rw [DeclarationText.text]
    simp only [Spot.behind_append]
    split
    next hterminated =>
      rw [if_pos hterminated] at hend
      exact fills_leaf hend (List.cons_ne_nil _ _) (isLeafKind_mark _)
    · exact .refl hend.isBoundary
  exact ((fills_leaf hstands hname (isLeafKind_propertyName _)).append
    ((fills_inkLeaf hgap (isLeafKind_comment _)).append
      ((fills_leaf hcolon (List.cons_ne_nil _ _) (isLeafKind_mark _)).append
        (fills_inkLeaf hvalue (isLeafKind_other _))))).append hlast

theorem isForest_node {d : DeclarationText} (h : StandsAt source s (d.text ++ u))
    (hname : d.name ≠ []) : IsForest source [d.node s] := by
  have hlt : s.byte < (s.behind d.text).byte := by
    rw [Spot.byte_behind]
    exact Nat.lt_add_of_pos_right d.byteSize_text_pos
  refine isForest_singleton h.isIn h.behind.isIn hlt (fills_children_node h hname) nofun nofun nofun
    fun _ => ⟨leaf .propertyName s d.name, _, rfl, rfl, rfl, ?_, ?_, ?_⟩
  · exact ⟨leaf (.mark [':']) ((s.behind d.name).behind d.gap) [':'], by simp, rfl⟩
  · intro c hlast hkind
    have hsemicolon : semicolon? (d.node s) = some c := by
      rw [semicolon?, hlast]
      simp [hkind]
    rw [d.semicolon?_node] at hsemicolon
    split at hsemicolon
    next hterminated =>
      obtain rfl := Option.some.inj hsemicolon
      change _ = s.behind d.text
      rw [leaf_stop, DeclarationText.text, if_pos hterminated]
      exact (Spot.behind_append _ _ _).symm
    · cases hsemicolon
  · exact noRuleSet_of_isPlain (isPlain_node d s)

/-! ## Nodes of blocks -/

theorem fills_selectorNodes {pieces : List SelectorPiece}
    (h : StandsAt source s (pieces.flatMap SelectorPiece.text ++ u))
    (hne : ∀ text, .branch text ∈ pieces → text ≠ []) :
    Fills source s.byte (selectorNodes s pieces)
      (s.behind (pieces.flatMap SelectorPiece.text)).byte := by
  induction pieces generalizing s with
  | nil => exact .refl h.isBoundary
  | cons piece rest ih =>
    rw [List.flatMap_cons, List.append_assoc] at h
    rw [List.flatMap_cons, Spot.behind_append]
    have hrest := ih h.behind fun text htext => hne text (List.mem_cons_of_mem _ htext)
    cases piece with
    | branch text =>
      exact (fills_leaf h (hne text List.mem_cons_self) (isLeafKind_other _)).append hrest
    | gap text =>
      refine Fills.append ?_ hrest
      split
      next hcomma =>
        obtain rfl := hcomma
        exact fills_leaf h (List.cons_ne_nil _ _) (isLeafKind_mark _)
      · exact fills_inkLeaf h (isLeafKind_comment _)

variable {brace : Node}

theorem blockNode_stop (s : Spot) (nodes : List Node) (brace : Node) :
    (blockNode s (nodes ++ [brace])).stop = brace.stop := by
  simp [blockNode]

/-- A block that is closed. -/
theorem isForest_blockNode (h : StandsAt source s (['\x7b'] ++ u))
    (hinner : Fills source (s.behind ['\x7b']).byte (nodes ++ [brace]) brace.stop.byte)
    (hbrace : brace.kind = .mark ['}']) :
    IsForest source [blockNode s (nodes ++ [brace])] := by
  have hchildren : Fills source s.byte (blockNode s (nodes ++ [brace])).children
      (blockNode s (nodes ++ [brace])).stop.byte := by
    rw [blockNode_stop]
    exact (fills_leaf h (List.cons_ne_nil _ _) (isLeafKind_mark _)).append hinner
  have hstop : (blockNode s (nodes ++ [brace])).stop.IsIn source := by
    rw [blockNode_stop]
    exact (hinner.isForest.mem (by simp)).stop
  refine isForest_singleton h.isIn hstop ?_ hchildren nofun nofun
    (fun _ => ⟨_, nodes, brace, rfl, rfl, hbrace, ?_⟩) nofun
  · rw [blockNode_stop]
    refine Nat.lt_of_lt_of_le ?_ hinner.le
    rw [Spot.byte_behind]
    exact Nat.lt_add_of_pos_right (Text.byteSize_pos (List.cons_ne_nil _ _))
  · intro front c d back hnodes
    exact hchildren.gap hnodes

/-- The node of a head with a block that is closed. -/
theorem isForest_headNode {gap : Text} {kind between : NodeKind} {first : Node}
    (h : StandsAt source s (t ++ gap ++ ['\x7b'] ++ u)) (hfirst : IsForest source [first])
    (hstart : first.start = s) (hstop : first.stop = s.behind t)
    (hbetween : IsLeafKind between (ink gap))
    (hinner : Fills source (s.behind (t ++ gap ++ ['\x7b'])).byte (nodes ++ [brace])
      brace.stop.byte)
    (hbrace : brace.kind = .mark ['}'])
    (hkind : kind = .other ∨ kind = .ruleSet ∧ between = .comment ∧ first.kind = .selectors ∧
      NoRuleSet first.children) :
    IsForest source [headNode kind first between gap (nodes ++ [brace])] ∧
      (headNode kind first between gap (nodes ++ [brace])).stop = brace.stop := by
  obtain rfl := hstart
  have hend := blockNode_stop (first.stop.behind gap) nodes brace
  refine ⟨?_, hend⟩
  rw [List.append_assoc, List.append_assoc] at h
  simp only [Spot.behind_append] at hinner
  rw [← hstop] at hinner
  have hbehind := hstop ▸ h.behind
  have hblock := isForest_blockNode hbehind.behind hinner hbrace
  have hbraceStop := (hinner.isForest.mem (n := brace) (by simp)).stop
  have hlast : Fills source (first.stop.behind gap).byte
      [blockNode (first.stop.behind gap) (nodes ++ [brace])] brace.stop.byte := by
    refine ⟨.refl hbehind.behind.isBoundary, hblock, ?_⟩
    rw [hend]
    exact IsGap.refl hbraceStop.isBoundary
  have hchildren : Fills source first.start.byte
      (headNode kind first between gap (nodes ++ [brace])).children
      (headNode kind first between gap (nodes ++ [brace])).stop.byte := by
    rw [show (headNode kind first between gap (nodes ++ [brace])).stop = brace.stop from hend]
    exact ⟨.refl h.isBoundary, hfirst, (fills_inkLeaf hbehind hbetween).append hlast⟩
  have hlt : first.start.byte < (headNode kind first between gap (nodes ++ [brace])).stop.byte :=
    Nat.lt_of_lt_of_le hfirst.head.start_lt_stop hchildren.2.2.le
  have hstopIn : (headNode kind first between gap (nodes ++ [brace])).stop.IsIn source :=
    hend ▸ hbraceStop
  rcases hkind with rfl | ⟨rfl, rfl, hkind, hplain⟩
  · exact isForest_filled h.isIn hstopIn hlt hchildren (.inr rfl)
  · refine isForest_singleton h.isIn hstopIn hlt hchildren nofun
      (fun _ => ⟨first, inkLeaf .comment first.stop gap, _, rfl, rfl, hkind,
        fun c hc => Or.inl (kind_of_mem_inkLeaf hc), rfl, ?_⟩) nofun nofun
    intro m hm
    rw [Node.preorderAll_cons, List.mem_cons, List.mem_append] at hm
    rcases hm with rfl | hm | hm
    · rw [hkind]
      nofun
    · exact hplain m hm
    · exact noRuleSet_of_isPlain (isPlain_inkLeaf (by simp) _ _) m hm

/-! ## Nodes of all parts -/

/-- What holds of every part that is read: white space is white space of a sheet, and nothing else
is empty. -/
def Part.IsFull : Part → Prop
  | .space text => ∀ c ∈ text, isSheetSpace c = true
  | .comment text | .lineComment text | .atStatement text | .stray text => text ≠ []
  | .declaration d => d.name ≠ []
  | .rule head => head.selector ≠ [] ∧ ∀ text, .branch text ∈ head.selectors → text ≠ []
  | .atBlock head => head.keyword ≠ []
  | .close => True

theorem isForest_ruleNode {head : RuleHead} (isFrame : Bool)
    (h : StandsAt source s (head.text ++ u)) (hfull : (Part.rule head).IsFull)
    (hinner : Fills source (s.behind head.text).byte (nodes ++ [brace]) brace.stop.byte)
    (hbrace : brace.kind = .mark ['}']) :
    IsForest source [head.node isFrame s (nodes ++ [brace])] ∧
      (head.node isFrame s (nodes ++ [brace])).stop = brace.stop := by
  have hstands : StandsAt source s (head.selector ++ (head.gap ++ (['\x7b'] ++ u))) := by
    simpa [RuleHead.text] using h
  cases isFrame with
  | true =>
    exact isForest_headNode h (isForest_leaf hstands hfull.1 (isLeafKind_other _)) rfl rfl
      (isLeafKind_comment _) hinner hbrace (Or.inl rfl)
  | false =>
    have hlist : IsForest source [head.list s] := by
      refine isForest_filled h.isIn hstands.behind.isIn ?_ (fills_selectorNodes hstands hfull.2)
        (.inl rfl)
      change s.byte < (s.behind head.selector).byte
      rw [Spot.byte_behind]
      exact Nat.lt_add_of_pos_right (Text.byteSize_pos hfull.1)
    exact isForest_headNode h hlist rfl rfl (isLeafKind_comment _) hinner hbrace
      (Or.inr ⟨rfl, rfl, rfl, noRuleSet_of_isPlain (isPlain_selectorNodes _ _)⟩)

theorem isForest_atNode {head : AtHead} (h : StandsAt source s (head.text ++ u))
    (hfull : head.keyword ≠ [])
    (hinner : Fills source (s.behind head.text).byte (nodes ++ [brace]) brace.stop.byte)
    (hbrace : brace.kind = .mark ['}']) :
    IsForest source [head.node s (nodes ++ [brace])] ∧
      (head.node s (nodes ++ [brace])).stop = brace.stop := by
  have hstands : StandsAt source s (head.keyword ++ (head.prelude ++ (['\x7b'] ++ u))) := by
    simpa [AtHead.text] using h
  exact isForest_headNode h (isForest_leaf hstands hfull (isLeafKind_mark _)) rfl rfl
    (isLeafKind_other _) hinner hbrace (Or.inl rfl)

theorem RuleHead.start_node (head : RuleHead) (isFrame : Bool) (s : Spot) (inner : List Node) :
    (head.node isFrame s inner).start = s := by
  cases isFrame <;> rfl

/-- Each list but the last ends with a closing brace, and there are as many of those as blocks. -/
def Closes : Nat → List (List Node) → Prop
  | 0, lists => ∃ top, lists = [top]
  | opened + 1, lists => ∃ nodes brace rest, lists = (nodes ++ [brace]) :: rest ∧
      brace.kind = .mark ['}'] ∧ Closes opened rest

variable {opened : Nat} {lists : List (List Node)} {ended : Bool} {blocks : List Bool}
  {all rest : List Part} {p : Part}

theorem Closes.cons (n : Node) (h : Closes opened (nodes :: lists)) :
    Closes opened ((n :: nodes) :: lists) := by
  cases opened with
  | zero =>
    obtain ⟨top, htop⟩ := h
    exact ⟨n :: top, by rw [(List.cons.inj htop).1, (List.cons.inj htop).2]⟩
  | succ opened =>
    obtain ⟨nodes', brace, rest, hlists, hbrace, hrest⟩ := h
    obtain ⟨rfl, rfl⟩ := List.cons.inj hlists
    exact ⟨n :: nodes', brace, lists, rfl, hbrace, hrest⟩

theorem Closes.not_nil : ¬ Closes opened [] := by
  cases opened with
  | zero => exact fun ⟨_, h⟩ => absurd h (List.cons_ne_nil _ _).symm
  | succ opened => exact fun ⟨_, _, _, h, _⟩ => absurd h (List.cons_ne_nil _ _).symm

/-- The nodes of the parts, those of each block apart, fill the sheet to its end. -/
structure AreNodes (source : Text) (s : Spot) (opened : Nat) (l : Levels) : Prop where
  fills : Fills source s.byte l.nodes source.byteSize
  closes : Closes opened (l.inner :: l.outer)

theorem AreNodes.cons {l : Levels} {s' : Spot} (hn : Fills source s.byte [n] s'.byte)
    (h : AreNodes source s' opened l) : AreNodes source s opened (l.cons n) :=
  ⟨hn.append h.fills, h.closes.cons n⟩

theorem AreNodes.close {l : Levels} {s' : Spot} (hn : Fills source s.byte [n] s'.byte)
    (hkind : n.kind = .mark ['}']) (h : AreNodes source s' opened l) :
    AreNodes source s (opened + 1) (l.close n) :=
  ⟨hn.append h.fills, [], n, _, rfl, hkind, h.closes⟩

/-- The nodes of the innermost block are those of the node that its head is made. -/
theorem AreNodes.open {l : Levels} {s' : Spot} {node : List Node → Node}
    (h : AreNodes source s' (opened + 1) l) (hs : source.IsBoundary s.byte)
    (hnode : ∀ {nodes brace}, Fills source s'.byte (nodes ++ [brace]) brace.stop.byte →
      brace.kind = .mark ['}'] → (node (nodes ++ [brace])).start = s ∧
        IsForest source [node (nodes ++ [brace])] ∧ (node (nodes ++ [brace])).stop = brace.stop) :
    AreNodes source s opened (l.open node) := by
  obtain ⟨inner, outer⟩ := l
  obtain ⟨hfills, nodes, brace, rest, hlists, hbrace, hcloses⟩ := h
  obtain ⟨rfl, rfl⟩ := List.cons.inj hlists
  rw [Levels.nodes, List.append_assoc, List.singleton_append] at hfills
  obtain ⟨hinner, houter⟩ := hfills.split
  obtain ⟨hstart, hforest, hstop⟩ := hnode hinner hbrace
  cases outer with
  | nil => exact absurd hcloses Closes.not_nil
  | cons next outer =>
    refine ⟨⟨?_, hforest, hstop ▸ houter⟩, hcloses.cons _⟩
    rw [hstart]
    exact .refl hs

/-- The nodes of the parts of a sheet whose blocks are all closed. -/
theorem areNodes_levels (hfull : ∀ p ∈ all, p.IsFull)
    (h : StandsAt source s (all.flatMap Part.text))
    (hsound : isSoundFrom opened ended t all = true) :
    AreNodes source s opened (levels blocks s all) := by
  induction all generalizing opened ended t blocks s with
  | nil =>
    simp only [isSoundFrom, Bool.and_eq_true, beq_iff_eq] at hsound
    obtain ⟨before, hsource, rfl⟩ := h
    rw [List.flatMap_nil, List.append_nil] at hsource
    refine ⟨?_, ?_⟩
    · rw [Spot.zero_behind, hsource]
      exact IsGap.refl ⟨before, [], (List.append_nil _).symm, rfl⟩
    · rw [hsound.1]
      exact ⟨[], rfl⟩
  | cons p rest ih =>
    obtain ⟨hp, hrestFull⟩ := List.forall_mem_cons.mp hfull
    obtain ⟨ended', t', hrest⟩ := isSoundFrom_tail hsound
    rw [List.flatMap_cons] at h
    have hnodes : ∀ blocks, AreNodes source (s.behind p.text) (p.openBehind opened)
        (levels blocks (s.behind p.text) rest) := fun blocks => ih hrestFull h.behind hrest
    cases p with
    | space text => exact ⟨(hnodes blocks).fills.of_gap (h.isGap hp), (hnodes blocks).closes⟩
    | comment text => exact (hnodes blocks).cons (fills_leaf h hp (isLeafKind_comment _))
    | lineComment text | atStatement text | stray text =>
      exact (hnodes blocks).cons (fills_leaf h hp (isLeafKind_other _))
    | declaration d =>
      exact (hnodes blocks).cons
        ⟨.refl h.isBoundary, isForest_node h hp, .refl h.behind.isBoundary⟩
    | rule head =>
      exact (hnodes (false :: blocks)).open h.isBoundary fun hinner hbrace =>
        ⟨head.start_node _ _ _, isForest_ruleNode _ h hp hinner hbrace⟩
    | atBlock head =>
      exact (hnodes _).open h.isBoundary fun hinner hbrace =>
        ⟨rfl, isForest_atNode h hp hinner hbrace⟩
    | close =>
      cases opened with
      | zero => simp [isSoundFrom] at hsound
      | succ opened =>
        exact (hnodes _).close (fills_leaf h (List.cons_ne_nil _ _) (isLeafKind_mark _)) rfl

/-! ## Parts that are read -/

theorem isSheetSpace_of_part {c : Char} {rest text : Text} (h : part depth c rest = .space text) :
    ∀ d ∈ text, isSheetSpace d = true := by
  obtain ⟨s, hs⟩ := text_part_isPrefix depth c rest
  have hne := text_part_ne_nil depth c rest
  rw [h] at hs hne
  cases text with
  | nil => exact absurd rfl hne
  | cons a x =>
    obtain ⟨rfl, rfl⟩ := List.cons.inj hs
    cases (filler_eq_some_iff.mp (filler_of_part (.inl rfl) h)).1 with
    | space ha hx => exact List.forall_mem_cons.mpr ⟨ha, hx⟩

theorem ne_nil_of_branch_eq {l : Lexeme} {text : Text} (hl : l.2 ≠ [])
    (h : SelectorPiece.branch text = .ofFiller l) : text ≠ [] := by
  have htext := congrArg SelectorPiece.text h
  rw [SelectorPiece.text_ofFiller] at htext
  exact fun hnil => hl (htext.symm.trans hnil)

/-- What ends in front of a comma or at the end of a list is no empty selector. -/
theorem ne_nil_of_mem_ended {current text : Text} {held : List Lexeme}
    (hheld : ∀ x ∈ held, x.2 ≠ [])
    (h : .branch text ∈
      (if current.isEmpty then [] else [SelectorPiece.branch current]) ++ held.map .ofFiller) :
    text ≠ [] := by
  rcases List.mem_append.mp h with h | h
  · split at h
    · simp at h
    next hne =>
      rw [List.mem_singleton, SelectorPiece.branch.injEq] at h
      simpa [h] using hne
  · obtain ⟨x, hx, hpiece⟩ := List.mem_map.mp h
    exact ne_nil_of_branch_eq (hheld x hx) hpiece.symm

/-- No selector of a list is empty. -/
theorem ne_nil_of_mem_selectorPieces {current text : Text} {held l : List Lexeme}
    (hheld : ∀ x ∈ held, x.2 ≠ []) (hl : ∀ x ∈ l, x.2 ≠ [])
    (h : .branch text ∈ selectorPieces current held l) : text ≠ [] := by
  induction l generalizing current held with
  | nil => exact ne_nil_of_mem_ended hheld h
  | cons a l ih =>
    obtain ⟨ha, hl⟩ := List.forall_mem_cons.mp hl
    have hnone : ∀ x ∈ ([] : List Lexeme), x.2 ≠ [] := fun x hx => absurd hx List.not_mem_nil
    rw [selectorPieces] at h
    split at h
    · split at h
      · rcases List.mem_cons.mp h with h | h
        · exact ne_nil_of_branch_eq ha h
        · exact ih hnone hl h
      · exact ih (List.forall_mem_append.mpr ⟨hheld, by simpa using ha⟩) hl h
    · split at h
      · rcases List.mem_append.mp h with h | h
        · exact ne_nil_of_mem_ended hheld h
        · rcases List.mem_cons.mp h with h | h
          · cases h
          · exact ih hnone hl h
      · exact ih hnone hl h

/-- A head that is read has a selector list, and no selector of the list is empty. -/
theorem isFull_rule {c : Char} {rest : Text} {head : RuleHead}
    (h : part depth c rest = .rule head) : (Part.rule head).IsFull := by
  obtain ⟨hfiller, -, -, -, hrule⟩ := part_eq_rule_iff.mp h
  obtain ⟨w, s, ht, hw, hrow, rfl⟩ := exists_of_rulePart hrule
  rw [filler_eq_none_iff_row, ht] at hfiller
  have hlexeme : ∀ x ∈ row .selector (w ++ '\x7b' :: s), x.2 ≠ [] := by
    intro x hx
    obtain ⟨_, _, _, _, -, rfl⟩ := Text.exists_of_mem_scan hx
    exact List.cons_ne_nil _ _
  generalize row .selector (w ++ '\x7b' :: s) = l at hrow hfiller hlexeme
  obtain ⟨x, hx⟩ : ∃ x, l.head? = some x := by
    cases l with
    | nil => exact absurd hrow.symm hw
    | cons x l => exact ⟨x, rfl⟩
  have hlist := exists_head?_splitRow hx (hfiller x hx)
  refine ⟨?_, fun text htext => ?_⟩
  · change (selectorPieces [] [] (splitRow l).1).flatMap SelectorPiece.text ≠ []
    rw [flatMap_text_selectorPieces [] [] _ fun _ => rfl]
    cases hfirst : (splitRow l).1 with
    | nil =>
      rw [hfirst] at hlist
      cases hlist
    | cons y rest =>
      have hy := hlexeme y (by rw [← splitRow_append l, hfirst]; exact List.mem_cons_self)
      intro hnil
      have htexts := (List.append_eq_nil_iff.mp hnil).2
      rw [Text.texts_cons] at htexts
      exact hy (List.append_eq_nil_iff.mp htexts).1
  · refine ne_nil_of_mem_selectorPieces (fun x hx => absurd hx List.not_mem_nil) (fun y hy => ?_)
      htext
    rw [← splitRow_append l] at hlexeme
    exact hlexeme y (List.mem_append_left _ hy)

/-- An at-rule has its keyword. -/
theorem isFull_atBlock {c : Char} {rest : Text} {head : AtHead}
    (h : part depth c rest = .atBlock head) : (Part.atBlock head).IsFull := by
  cases hfiller : filler c rest with
  | some found =>
    unfold part at h
    rw [hfiller] at h
    dsimp only at h
    split at h <;> cases h
  | none =>
    rw [part_of_filler_eq_none hfiller] at h
    split at h
    · cases h
    split at h
    · unfold atPart at h
      dsimp only at h
      split at h
      · obtain rfl := Part.atBlock.inj h
        exact List.cons_ne_nil _ _
      · cases h
      · cases h
    split at h
    · cases h
    · unfold rulePart at h
      dsimp only at h
      split at h <;> cases h

/-- Parts that are read are full. -/
theorem isFull_part (depth : Nat) (c : Char) (rest : Text) : (part depth c rest).IsFull := by
  have hne := text_part_ne_nil depth c rest
  cases h : part depth c rest with
  | space text => exact isSheetSpace_of_part h
  | comment | lineComment | atStatement | stray => rwa [h] at hne
  | declaration d => exact (declaration?_eq_some_iff.mp (declaration?_of_part h)).choose_spec.2.1
  | rule head => exact isFull_rule h
  | atBlock head => exact isFull_atBlock h
  | close => trivial

/-! ## The tree of a sheet -/

theorem isFull_of_mem_partsOf (h : p ∈ partsOf t) : p.IsFull := by
  obtain ⟨depth, c, rest, rfl⟩ := exists_of_mem_scan_partStep h
  exact isFull_part depth c rest

/-- The nodes of a text whose parts are sound are as the grammar has them. -/
theorem isForest_levels (hstands : StandsAt source s t)
    (hsound : isSoundFrom 0 ended u (partsOf t) = true) :
    IsForest source (levels blocks s (partsOf t)).nodes := by
  refine (areNodes_levels (fun p hp => isFull_of_mem_partsOf hp) ?_ hsound).fills.isForest
  rwa [flatMap_text_partsOf]

/-- The tree of a sound sheet is one that a parser gives of it. -/
theorem isTreeOf_tree (h : isSound source = true) : IsTreeOf source (tree source) := by
  have hforest : IsForest source (levels [] .zero (parts source)).nodes := by
    replace h := isSoundFrom_of_isSound h
    cases source with
    | nil => exact isForest_levels (standsAt_zero []) h
    | cons c rest =>
      rw [parts] at h ⊢
      split at h
      next hmark =>
        -- the byte order mark has no node
        obtain ⟨ended, u, hsound⟩ := isSoundFrom_tail h
        rw [if_pos hmark]
        exact isForest_levels (StandsAt.behind (t := [c]) (standsAt_zero (c :: rest))) hsound
      next hmark =>
        rw [if_neg hmark]
        exact isForest_levels (standsAt_zero (c :: rest)) h
  exact ⟨fun h => NodeKind.noConfusion h, hforest.pairwise, hforest.conforms⟩

end LeadingTrim.Sheet
