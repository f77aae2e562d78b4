/-
# Comments, strings and escapes in front of other texts

A comment ends at its mark and a string at its quote, so what follows them does not matter. There is
one way in which it does: where a string begins like a comment that nothing in it ends, the string
goes on to the next end of a comment, if there is one anywhere behind (`stringTail_congr`).
-/

import LeadingTrim.Proofs.Sheet.WordEnd

namespace LeadingTrim.Sheet

open Text (isSheetSpace)

/-! ## Runs -/

theorem takeWhile_append_eq_left {p : Char → Bool} {x s : Text} (hx : ∀ a ∈ x, p a = true)
    (hs : ∀ a ∈ s.head?, p a = false) : (x ++ s).takeWhile p = x := by
  rw [List.takeWhile_append_of_pos hx]
  cases s with
  | nil => simp
  | cons a s => simp [hs a rfl]

theorem all_of_length_takeWhile {p : Char → Bool} {x s : Text}
    (h : ((x ++ s).takeWhile p).length = x.length) :
    (∀ a ∈ x, p a = true) ∧ ∀ a ∈ s.head?, p a = false := by
  have heq : (x ++ s).takeWhile p = x :=
    (List.prefix_of_prefix_length_le (List.takeWhile_prefix p) (List.prefix_append x s)
      (Nat.le_of_eq h)).eq_of_length h
  have hx : ∀ a ∈ x, p a = true := by
    have hall := List.all_takeWhile (p := p) (l := x ++ s)
    rw [heq] at hall
    exact List.all_eq_true.mp hall
  refine ⟨hx, fun a ha => ?_⟩
  cases s with
  | nil => simp at ha
  | cons b s =>
    obtain rfl : b = a := by simpa using ha
    rw [List.takeWhile_append_of_pos hx, List.length_append] at h
    cases hb : p b with
    | false => rfl
    | true =>
      rw [List.takeWhile_cons_of_pos hb, List.length_cons] at h
      omega

theorem takeWhile_append_of_length_lt {p : Char → Bool} {y s : Text}
    (h : ((y ++ s).takeWhile p).length < y.length) :
    (y ++ s).takeWhile p = y.takeWhile p ∧ (y.takeWhile p).length < y.length := by
  rw [List.takeWhile_append] at h ⊢
  split
  next hall =>
    rw [if_pos hall, List.length_append] at h
    omega
  next hne =>
    rw [if_neg hne] at h
    exact ⟨rfl, h⟩

theorem takeWhile_append_of_lt {p : Char → Bool} {y : Text}
    (h : (y.takeWhile p).length < y.length) (s : Text) : (y ++ s).takeWhile p = y.takeWhile p := by
  rw [List.takeWhile_append, if_neg (Nat.ne_of_lt h)]

/-! ## Escapes -/

theorem escapeLength_cons (c : Char) (rest : Text) :
    escapeLength (c :: rest) =
      if isHex c then
        (((c :: rest).take 6).takeWhile isHex).length
          + if ((c :: rest).drop
              (((c :: rest).take 6).takeWhile isHex).length).head?.any isSheetSpace then 1 else 0
      else if c = '\n' ∨ c = '\r' then 0
      else 1 := by
  simp only [escapeLength, beq_iff_eq, Bool.or_eq_true]
  split
  · split
    next d _ heq =>
      rw [heq]
      cases hd : isSheetSpace d <;> simp [hd]
    next heq =>
      rw [heq]
      rfl
  · rfl

/-- An escape looks no further than to the first character that ends a word. -/
theorem escapeLength_congr {d : Char} (hd : endsPlain d = true) (w v v' : Text) :
    escapeLength (w ++ d :: v) = escapeLength (w ++ d :: v') := by
  have hhex : ∀ c ∈ '/' :: wordStops, isHex c = false := by decide
  cases w with
  | nil =>
    have hd' := hhex d (List.mem_cons_of_mem _ (mem_wordStops hd))
    rw [List.nil_append, List.nil_append, escapeLength_cons, escapeLength_cons, hd']
    rfl
  | cons c w =>
    have hdigits : ∀ v, ((c :: w ++ d :: v).take 6).takeWhile isHex =
        ((c :: w).take 6).takeWhile isHex := by
      intro v
      rw [List.take_append,
        takeWhile_append_of_endsName hhex ((endsWord_cons hd v).endsName.take _)]
    have hle : (((c :: w).take 6).takeWhile isHex).length ≤ (c :: w).length :=
      Nat.le_trans (length_takeWhile_le_length _ _) (List.length_take_le' _ _)
    have hbehind : ∀ v, ((c :: w ++ d :: v).drop
        (((c :: w).take 6).takeWhile isHex).length).head? =
        (((c :: w).drop (((c :: w).take 6).takeWhile isHex).length) ++ [d]).head? := by
      intro v
      rw [List.drop_append_of_le_length hle]
      cases (c :: w).drop (((c :: w).take 6).takeWhile isHex).length <;> rfl
    have hv := hbehind v
    have hv' := hbehind v'
    have hdv := hdigits v
    have hdv' := hdigits v'
    rw [List.cons_append] at hv hv' hdv hdv' ⊢
    rw [List.cons_append, escapeLength_cons, escapeLength_cons, hdv, hdv', hv, hv']

/-- The digits of an escape at the front. -/
def hexRun (t : Text) : Text := (t.take 6).takeWhile isHex

theorem escapeLength_of_isHex {c : Char} (hc : isHex c = true) (rest : Text) :
    escapeLength (c :: rest) = (hexRun (c :: rest)).length
      + if ((c :: rest).drop (hexRun (c :: rest)).length).head?.any isSheetSpace then 1 else 0 := by
  rw [escapeLength_cons, if_pos hc]
  rfl

/-- Digits that end in the first part of a text are the same whatever follows. -/
theorem hexRun_append_of_lt {x s : Text} (h : (hexRun (x ++ s)).length < x.length) (s' : Text) :
    hexRun (x ++ s') = hexRun (x ++ s) := by
  unfold hexRun at h ⊢
  rw [List.take_append] at h ⊢
  rw [List.take_append]
  by_cases hx : 6 ≤ x.length
  · rw [Nat.sub_eq_zero_of_le hx, List.take_zero, List.take_zero]
  · rw [List.take_of_length_le (by omega)] at h ⊢
    obtain ⟨hsame, hlt⟩ := takeWhile_append_of_length_lt h
    rw [hsame, takeWhile_append_of_lt hlt]

/-- Digits that are just the first part of a text stay so in front of a text that does not go on
with one. -/
theorem length_hexRun_append {x s s' : Text} (h : (hexRun (x ++ s)).length = x.length)
    (hs : s'.head? = s.head? ∨ ∀ a ∈ s'.head?, isHex a = false) :
    (hexRun (x ++ s')).length = x.length := by
  unfold hexRun at h ⊢
  rw [List.take_append] at h ⊢
  by_cases hx : 6 ≤ x.length
  · rwa [Nat.sub_eq_zero_of_le hx, List.take_zero] at h ⊢
  · rw [List.take_of_length_le (by omega)] at h ⊢
    obtain ⟨hall, hend⟩ := all_of_length_takeWhile h
    rw [takeWhile_append_eq_left hall]
    rw [List.head?_take, if_neg (by omega)] at hend ⊢
    rcases hs with hs | hs
    · rwa [hs]
    · exact hs

/-- An escape that does not go beyond the first part of a text is the same in front of another
text, if it does not go on there. -/
theorem escapeLength_append_congr {x s s' : Text} (hx : x ≠ [])
    (hle : escapeLength (x ++ s) ≤ x.length)
    (hs : escapeLength (x ++ s) = x.length →
      s'.head? = s.head? ∨ ∀ a ∈ s'.head?, isHex a = false ∧ isSheetSpace a = false) :
    escapeLength (x ++ s') = escapeLength (x ++ s) := by
  obtain ⟨c, y, rfl⟩ := List.exists_cons_of_ne_nil hx
  rw [List.cons_append] at hle hs ⊢
  by_cases hc : isHex c = true
  case neg => rw [List.cons_append, escapeLength_cons, escapeLength_cons, if_neg hc, if_neg hc]
  case pos =>
  rw [escapeLength_of_isHex hc] at hle hs ⊢
  rw [List.cons_append, escapeLength_of_isHex hc]
  rw [← List.cons_append] at hle hs ⊢
  rw [← List.cons_append]
  generalize c :: y = x at *
  rcases Nat.lt_or_eq_of_le (Nat.le_trans (Nat.le_add_right _ _) hle) with hlt | heq
  · -- the digits end in the first part, and so does the look behind them
    rw [hexRun_append_of_lt hlt s', List.drop_append_of_le_length (Nat.le_of_lt hlt),
      List.drop_append_of_le_length (Nat.le_of_lt hlt)]
    cases hdrop : x.drop (hexRun (x ++ s)).length with
    | nil => exact absurd (List.drop_eq_nil_iff.mp hdrop) (by omega)
    | cons a y => rfl
  · have hspace : ¬ s.head?.any isSheetSpace := by
      intro hspace
      rw [heq, List.drop_left, if_pos hspace] at hle
      omega
    rw [heq, List.drop_left, if_neg hspace, Nat.add_zero] at hs ⊢
    have hs' := hs rfl
    have hspace' : ¬ s'.head?.any isSheetSpace := by
      rcases hs' with hs' | hs'
      · rwa [hs']
      · cases hhead : s'.head? with
        | none => simp
        | some a => simpa using (hs' a hhead).2
    rw [length_hexRun_append heq (hs'.imp_right fun h a ha => (h a ha).1), List.drop_left,
      if_neg hspace', Nat.add_zero]

/-! ## Comments -/

theorem commentTail_cons (c : Char) (t : Text) :
    commentTail (c :: t) =
      if c = '*' ∧ t.head? = some '/' then some 2 else (commentTail t).map (· + 1) := by
  by_cases h : c = '*' ∧ t.head? = some '/'
  · obtain ⟨rfl, hhead⟩ := h
    cases t with
    | nil => simp at hhead
    | cons d t =>
      obtain rfl : d = '/' := by simpa using hhead
      rfl
  · rw [if_neg h, commentTail]
    rintro t' rfl rfl
    exact h ⟨rfl, rfl⟩

theorem two_le_of_commentTail {t : Text} {n : Nat} (h : commentTail t = some n) : 2 ≤ n := by
  induction t generalizing n with
  | nil => simp [commentTail] at h
  | cons c t ih =>
    rw [commentTail_cons] at h
    split at h
    · obtain rfl := Option.some.inj h
      exact Nat.le_refl 2
    · obtain ⟨m, hm, rfl⟩ := Option.map_eq_some_iff.mp h
      have := ih hm
      omega

/-- A comment that ends is not changed by what follows. -/
theorem commentTail_append {t : Text} {n : Nat} (h : commentTail t = some n) (r : Text) :
    commentTail (t ++ r) = some n := by
  induction t generalizing n with
  | nil => simp [commentTail] at h
  | cons c t ih =>
    rw [commentTail_cons] at h
    rw [List.cons_append, commentTail_cons]
    by_cases hend : c = '*' ∧ t.head? = some '/'
    · rw [if_pos hend] at h
      rw [if_pos ⟨hend.1, by simp [hend.2]⟩, h]
    · rw [if_neg hend] at h
      obtain ⟨m, hm, rfl⟩ := Option.map_eq_some_iff.mp h
      have hne : ¬ (c = '*' ∧ (t ++ r).head? = some '/') := by
        cases t with
        | nil => simp [commentTail] at hm
        | cons d t => exact hend
      rw [if_neg hne, ih hm]
      rfl

/-- A comment that ends in the first part of a text ends there without the second. -/
theorem commentTail_of_append {t r : Text} {n : Nat} (h : commentTail (t ++ r) = some n)
    (hn : n ≤ t.length) : commentTail t = some n := by
  induction t generalizing n with
  | nil =>
    have := two_le_of_commentTail h
    simp at hn
    omega
  | cons c t ih =>
    rw [List.cons_append, commentTail_cons] at h
    rw [commentTail_cons]
    split at h
    next hend =>
      obtain rfl := Option.some.inj h
      cases t with
      | nil => simp at hn
      | cons d t => rw [if_pos ⟨hend.1, hend.2⟩]
    next hend =>
      obtain ⟨m, hm, rfl⟩ := Option.map_eq_some_iff.mp h
      have hrest := ih hm (by simpa using hn)
      have hne : ¬ (c = '*' ∧ t.head? = some '/') := fun ⟨hc, hhead⟩ =>
        hend ⟨hc, by simp [hhead]⟩
      rw [if_neg hne, hrest]
      rfl

theorem commentLength_cons_cons (c d : Char) (t : Text) :
    commentLength (c :: d :: t) =
      if c = '/' ∧ d = '*' then (commentTail t).map (· + 2) else none := by
  by_cases h : c = '/' ∧ d = '*'
  · obtain ⟨rfl, rfl⟩ := h
    rfl
  · rw [if_neg h, commentLength]
    intro t' heq
    injection heq with hc htail
    injection htail with hd _
    exact h ⟨hc, hd⟩

theorem exists_of_commentLength {t : Text} {n : Nat} (h : commentLength t = some n) :
    ∃ u m, t = '/' :: '*' :: u ∧ commentTail u = some m ∧ n = m + 2 := by
  match t with
  | [] => simp [commentLength] at h
  | [c] => simp [commentLength] at h
  | c :: d :: t =>
    rw [commentLength_cons_cons] at h
    split at h
    next hmark =>
      obtain ⟨rfl, rfl⟩ := hmark
      obtain ⟨m, hm, rfl⟩ := Option.map_eq_some_iff.mp h
      exact ⟨t, m, rfl, hm, rfl⟩
    · simp at h

theorem commentLength_append {t : Text} {n : Nat} (h : commentLength t = some n) (r : Text) :
    commentLength (t ++ r) = some n := by
  obtain ⟨u, m, rfl, hm, rfl⟩ := exists_of_commentLength h
  rw [List.cons_append, List.cons_append, commentLength_cons_cons, if_pos ⟨rfl, rfl⟩,
    commentTail_append hm]
  rfl

theorem commentLength_of_append {t r : Text} {n : Nat} (h : commentLength (t ++ r) = some n)
    (hn : n ≤ t.length) : commentLength t = some n := by
  obtain ⟨u, m, hu, hm, rfl⟩ := exists_of_commentLength h
  match t with
  | [] => simp at hn
  | [c] => simp at hn
  | c :: d :: t =>
    injection hu with hc htail
    injection htail with hd hrest
    subst hc hd hrest
    rw [commentLength_cons_cons, if_pos ⟨rfl, rfl⟩, commentTail_of_append hm (by simpa using hn)]
    rfl

/-! ## Strings -/

theorem drop_length_takeWhile (p : Char → Bool) (y : Text) :
    y.drop (y.takeWhile p).length = y.dropWhile p := by
  have h := congrArg (List.drop (y.takeWhile p).length) (List.takeWhile_append_dropWhile (p := p)
    (l := y))
  rw [List.drop_left] at h
  exact h.symm

/-- Every comment that is open in the first part of a text and is not ended by what follows is not
ended by something else that follows either. -/
def KeepsOpen (y s s' : Text) : Prop :=
  ∀ u z, y = u ++ '/' :: '*' :: z → commentTail (z ++ s) = none → commentTail (z ++ s') = none

theorem KeepsOpen.of_append {u y s s' : Text} (h : KeepsOpen (u ++ y) s s') : KeepsOpen y s s' :=
  fun a z hy => h (u ++ a) z (by rw [hy, List.append_assoc])

theorem KeepsOpen.of_append_left {y z s s' : Text} (h : KeepsOpen (y ++ z) s s') :
    KeepsOpen y (z ++ s) (z ++ s') := by
  intro a b hy hnone
  rw [← List.append_assoc] at hnone ⊢
  exact h a (b ++ z) (by rw [hy]; simp) hnone

/-- Every comment that is open in the first part of a text is ended, in it or by what follows. -/
def ClosesComments (y s : Text) : Prop :=
  ∀ u z, y = u ++ '/' :: '*' :: z → commentTail (z ++ s) ≠ none

theorem ClosesComments.keepsOpen {y s : Text} (h : ClosesComments y s) (s' : Text) :
    KeepsOpen y s s' := fun u z hy hnone => absurd hnone (h u z hy)

theorem ClosesComments.of_append {u y s : Text} (h : ClosesComments (u ++ y) s) :
    ClosesComments y s := by
  rintro w z rfl
  exact h (u ++ w) z (by rw [List.append_assoc])

theorem ClosesComments.of_append_left {y z s : Text} (h : ClosesComments (y ++ z) s) :
    ClosesComments y (z ++ s) := by
  rintro w x rfl
  rw [← List.append_assoc]
  exact h w (x ++ z) (by rw [List.append_assoc, List.cons_append, List.cons_append])

/-- A comment that is open in a text begins with its first character, or behind it. -/
theorem forall_open_cons {c : Char} {y : Text} {P : Text → Prop} :
    (∀ u z, c :: y = u ++ '/' :: '*' :: z → P z) ↔
      (c = '/' → y.head? = some '*' → P y.tail) ∧ ∀ u z, y = u ++ '/' :: '*' :: z → P z := by
  constructor
  · refine fun h => ⟨?_, fun u z hz => h (c :: u) z (by rw [hz, List.cons_append])⟩
    rintro rfl hy
    obtain ⟨z, rfl⟩ := List.head?_eq_some_iff.mp hy
    exact h [] z rfl
  · rintro ⟨hfirst, hrest⟩ u z hz
    cases u with
    | nil =>
      obtain ⟨rfl, rfl⟩ := List.cons.inj hz
      exact hfirst rfl rfl
    | cons a u => exact hrest u z (List.cons.inj hz).2

/-- Whether a property holds behind every comment that is open in a text. -/
instance decidableForallOpen {P : Text → Prop} [DecidablePred P] :
    (y : Text) → Decidable (∀ u z, y = u ++ '/' :: '*' :: z → P z)
  | [] => isTrue fun u z h => by simp at h
  | _ :: y =>
    have := decidableForallOpen (P := P) y
    decidable_of_iff _ forall_open_cons.symm

instance (y s : Text) : Decidable (ClosesComments y s) :=
  decidableForallOpen (P := fun z => commentTail (z ++ s) ≠ none) y

instance (y s s' : Text) : Decidable (KeepsOpen y s s') :=
  decidableForallOpen (P := fun z => commentTail (z ++ s) = none → commentTail (z ++ s') = none) y

/-- A comment that may begin in the first part of a text, not with its last character. -/
theorem commentLength_congr {y s s' : Text} (hopen : KeepsOpen y s s') (hend : y ≠ ['/'])
    (hne : y ≠ []) (hle : ∀ n, commentLength (y ++ s) = some n → n ≤ y.length) :
    commentLength (y ++ s') = commentLength (y ++ s) := by
  cases h : commentLength (y ++ s) with
  | some n => exact commentLength_append (commentLength_of_append h (hle n h)) s'
  | none =>
    match y with
    | [] => exact absurd rfl hne
    | [c] =>
      have hc : c ≠ '/' := fun hc => hend (by rw [hc])
      cases s' with
      | nil => simp [commentLength]
      | cons d s' => simp [commentLength_cons_cons, hc]
    | c :: d :: z =>
      rw [List.cons_append, List.cons_append, commentLength_cons_cons] at h ⊢
      split at h
      next hmark =>
        obtain ⟨rfl, rfl⟩ := hmark
        rw [if_pos ⟨rfl, rfl⟩, hopen [] z rfl (Option.map_eq_none_iff.mp h)]
        rfl
      next hmark => rw [if_neg hmark]

/-- The white space at the start of the stretch of a string's text. -/
def stretchSpace (q : Char) (t : Text) : Nat :=
  ((t.takeWhile (isQuotable q)).takeWhile isSheetSpace).length

theorem stretchSpace_le (q : Char) (t : Text) :
    stretchSpace q t ≤ (t.takeWhile (isQuotable q)).length := length_takeWhile_le_length _ _

theorem stretchLength_eq (q : Char) (t : Text) :
    stretchLength q t =
      max (t.takeWhile (isQuotable q)).length
        (stretchSpace q t + (commentLength (t.drop (stretchSpace q t))).getD 0) := by
  have hspace := stretchSpace_le q t
  unfold stretchSpace at hspace ⊢
  unfold stretchLength
  dsimp only
  cases commentLength
      (t.drop ((t.takeWhile (isQuotable q)).takeWhile isSheetSpace).length) with
  | none => exact (Nat.max_eq_left hspace).symm
  | some n => rfl

/-- A stretch that ends in the first part of a text. -/
theorem stretchLength_congr {q : Char} (hq : isQuotable q '/' = true) {y s s' : Text}
    (hopen : KeepsOpen y s s') (hlt : stretchLength q (y ++ s) < y.length) :
    stretchLength q (y ++ s') = stretchLength q (y ++ s) := by
  have hmax := stretchLength_eq q (y ++ s)
  obtain ⟨htake, hshort⟩ : (y ++ s).takeWhile (isQuotable q) = y.takeWhile (isQuotable q) ∧
      (y.takeWhile (isQuotable q)).length < y.length :=
    takeWhile_append_of_length_lt (by omega)
  have htake' := takeWhile_append_of_lt hshort s'
  have hspace : stretchSpace q (y ++ s) = stretchSpace q y := by rw [stretchSpace, htake]; rfl
  have hspace' : stretchSpace q (y ++ s') = stretchSpace q y := by rw [stretchSpace, htake']; rfl
  have hle := stretchSpace_le q y
  have hdrop : ∀ s, (y ++ s).drop (stretchSpace q y) = y.drop (stretchSpace q y) ++ s := fun s =>
    List.drop_append_of_le_length (by omega)
  rw [hspace, hdrop] at hmax
  have hcomment : commentLength (y.drop (stretchSpace q y) ++ s') =
      commentLength (y.drop (stretchSpace q y) ++ s) := by
    refine commentLength_congr ?_ ?_ ?_ ?_
    · rw [← List.take_append_drop (stretchSpace q y) y] at hopen
      exact hopen.of_append
    · -- the stretch is followed by a character that it does not hold
      intro heq
      have hlength := congrArg List.length heq
      rw [List.length_drop, List.length_singleton] at hlength
      have hend : y.drop (y.takeWhile (isQuotable q)).length = ['/'] := by
        rw [← heq]
        congr 1
        omega
      rw [drop_length_takeWhile] at hend
      have hhead := List.head?_dropWhile_not (isQuotable q) y
      rw [hend] at hhead
      simp [hq] at hhead
    · intro hnil
      have hlength := congrArg List.length hnil
      rw [List.length_drop, List.length_nil] at hlength
      omega
    · intro n hn
      rw [hn, Option.getD_some] at hmax
      rw [List.length_drop]
      omega
  rw [stretchLength_eq, stretchLength_eq, htake, htake', hspace, hspace', hdrop, hdrop, hcomment]

theorem stringTail_zero {q c : Char} {rest : Text} :
    stringTail q 0 (c :: rest) =
      if c = q then some 1
      else if c = '\\' then
        if escapeLength rest = 0 then none
        else (stringTail q (escapeLength rest) rest).map (· + 1)
      else (stringTail q (stretchLength q (c :: rest) - 1) rest).map (· + 1) := by
  simp only [stringTail, beq_iff_eq]
  split
  · rfl
  · split
    · split
      next hzero => rw [if_pos hzero]
      next n hsucc => rw [hsucc, if_neg (Nat.succ_ne_zero n)]
    · rfl

theorem lt_of_stringTail {q : Char} {skip : Nat} {t : Text} {n : Nat}
    (h : stringTail q skip t = some n) : skip < n := by
  induction t generalizing skip n with
  | nil => simp [stringTail] at h
  | cons c t ih =>
    cases skip with
    | succ skip =>
      obtain ⟨m, hm, rfl⟩ := Option.map_eq_some_iff.mp h
      have := ih hm
      omega
    | zero =>
      rw [stringTail_zero] at h
      split at h
      · obtain rfl := Option.some.inj h
        exact Nat.one_pos
      · split at h
        · split at h
          · simp at h
          · obtain ⟨m, -, rfl⟩ := Option.map_eq_some_iff.mp h
            omega
        · obtain ⟨m, -, rfl⟩ := Option.map_eq_some_iff.mp h
          omega

/-- A string that ends in the first part of a text ends there whatever follows, as long as an open
comment in it stays open. -/
theorem stringTail_congr {q : Char} (hq : isQuotable q '/' = true) {skip : Nat} {x s s' : Text}
    (hopen : KeepsOpen x s s') (h : stringTail q skip (x ++ s) = some x.length) :
    stringTail q skip (x ++ s') = some x.length := by
  induction x generalizing skip with
  | nil =>
    have := lt_of_stringTail h
    simp at this
  | cons c x ih =>
    have hrest : KeepsOpen x s s' := KeepsOpen.of_append (u := [c]) hopen
    have step : ∀ {skip}, (stringTail q skip (x ++ s)).map (· + 1) = some (c :: x).length →
        (stringTail q skip (x ++ s')).map (· + 1) = some (c :: x).length := by
      intro skip h
      obtain ⟨m, hm, hlength⟩ := Option.map_eq_some_iff.mp h
      obtain rfl : m = x.length := by simpa using hlength
      rw [ih hrest hm]
      rfl
    have hlt : ∀ {skip}, (stringTail q skip (x ++ s)).map (· + 1) = some (c :: x).length →
        skip < x.length := by
      intro skip h
      obtain ⟨m, hm, hlength⟩ := Option.map_eq_some_iff.mp h
      obtain rfl : m = x.length := by simpa using hlength
      exact lt_of_stringTail hm
    cases skip with
    | succ skip => exact step h
    | zero =>
      rw [List.cons_append, stringTail_zero] at h ⊢
      split at h
      next hc => rw [if_pos hc, h]
      next hc =>
      rw [if_neg hc]
      split at h
      next hescape =>
        split at h
        · simp at h
        next hne =>
          -- the escape ends in front of the closing quote
          have hescape' := hlt h
          have hsame : escapeLength (x ++ s') = escapeLength (x ++ s) :=
            escapeLength_append_congr (List.ne_nil_of_length_pos (by omega)) (by omega)
              fun heq => absurd heq (by omega)
          rw [if_pos hescape, hsame, if_neg hne]
          exact step h
      next hescape =>
        have hstretch := stretchLength_congr hq hopen (by
          have := hlt h
          rw [List.cons_append]
          simp only [List.length_cons]
          omega)
        rw [List.cons_append, List.cons_append] at hstretch
        rw [if_neg hescape, hstretch]
        exact step h

end LeadingTrim.Sheet
