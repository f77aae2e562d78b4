/-
# Written JSON is read again

A text is written JSON for a value if it is read as that value wherever a value may come
(`IsWritten`), as long as no other token goes on behind it. Strings are, whatever characters are in
them (`isWritten_quote`), and so are arrays and objects of what is written (`isWritten_list`,
`isWritten_record`). A document of written JSON is read as its value (`IsWritten.parse?_eq`).
-/

import LeadingTrim.Json.Reader
import LeadingTrim.Json.Writer
import Mathlib.Data.List.Forall2

namespace LeadingTrim.Json

/-! ## Characters in strings -/

/-- A character that stands for itself in a string. -/
def isPlain (c : Char) : Bool := 0x20 ≤ c.toNat && c != '"' && c != '\\'

theorem isPlain_iff {c : Char} : isPlain c = true ↔ ¬ c.toNat < 0x20 ∧ c ≠ '"' ∧ c ≠ '\\' := by
  simp [isPlain, and_assoc]

/-- Plain characters are passed over where the end of a string is looked for. -/
theorem stringTail_append_plain {x : Text} (hx : ∀ c ∈ x, isPlain c = true) (r : Text) :
    stringTail false (x ++ r) = (stringTail false r).map (· + x.length) := by
  induction x with
  | nil => simp
  | cons c x ih =>
    obtain ⟨hc, hx⟩ := List.forall_mem_cons.mp hx
    obtain ⟨hcontrol, hquote, hbackslash⟩ := isPlain_iff.mp hc
    rw [List.cons_append, stringTail, if_neg hcontrol, if_neg Bool.false_ne_true,
      if_neg (by simpa using hquote), beq_eq_false_iff_ne.mpr hbackslash, ih hx, Option.map_map]
    rfl

theorem stringTail_escaped {c : Char} (hcontrol : ¬ c.toNat < 0x20) (r : Text) :
    stringTail true (c :: r) = (stringTail false r).map (· + 1) := by
  rw [stringTail, if_neg hcontrol, if_pos rfl]

theorem hex4?_append {t : Text} (ht : t.length = 4) (r : Text) : hex4? (t ++ r) = hex4? t := by
  rw [hex4?, hex4?, if_neg (by rw [List.length_append]; omega), if_neg (by omega),
    List.take_append_of_le_length (by omega)]

/-- A control character is written with digits that are plain and that make its number. -/
theorem hex_of_lt : ∀ n < 0x20, (hex 4 n).length = 4 ∧ hex4? (hex 4 n) = some n ∧
    ∀ c ∈ hex 4 n, isPlain c = true := by
  decide +kernel

/-- What is written behind a backslash is read as the character, and is passed over where the end of
a string is looked for. -/
structure IsEscape (c : Char) (x : Text) : Prop where
  escape? : ∀ r, Json.escape? (x ++ r) = some (some c, x.length)
  tail : ∀ r, stringTail true (x ++ r) = (stringTail false r).map (· + x.length)

theorem isEscape_hex {c : Char} (h : c.toNat < 0x20) : IsEscape c ('u' :: hex 4 c.toNat) := by
  obtain ⟨hlength, hnumber, hplain⟩ := hex_of_lt c.toNat h
  refine ⟨fun r => ?_, fun r => ?_⟩
  · have hunit : (c.toNat < 0xD800 || 0xDFFF < c.toNat) = true := by
      rw [Bool.or_eq_true, decide_eq_true_eq]
      omega
    simp only [List.cons_append, Json.escape?, hex4?_append hlength, hnumber]
    rw [if_pos hunit, Char.ofNat_toNat, List.length_cons, hlength]
  · rw [List.cons_append, stringTail_escaped (by decide), stringTail_append_plain hplain,
      Option.map_map]
    rfl

/-- A character is written as itself, if it is plain, and else as an escape. -/
theorem escape_cases (c : Char) :
    isPlain c = true ∧ escape c = [c] ∨ ∃ x, escape c = '\\' :: x ∧ IsEscape c x := by
  have hletter : ∀ {d e : Char}, (∀ r, Json.escape? (e :: r) = some (some d, 1)) →
      ¬ e.toNat < 0x20 → IsEscape d [e] := fun h he => ⟨h, stringTail_escaped he⟩
  have hof : ∀ {n : Nat}, c.toNat = n → c = Char.ofNat n := fun h => by
    rw [← h, Char.ofNat_toNat]
  unfold escape
  split
  next h =>
    obtain rfl := beq_iff_eq.mp h
    exact .inr ⟨_, rfl, hletter (fun _ => rfl) (by decide)⟩
  next hquote =>
    split
    next h =>
      obtain rfl := beq_iff_eq.mp h
      exact .inr ⟨_, rfl, hletter (fun _ => rfl) (by decide)⟩
    next hbackslash =>
      split
      next h =>
        obtain rfl := hof (beq_iff_eq.mp h)
        exact .inr ⟨_, rfl, hletter (fun _ => rfl) (by decide)⟩
      split
      next h =>
        obtain rfl := beq_iff_eq.mp h
        exact .inr ⟨_, rfl, hletter (fun _ => rfl) (by decide)⟩
      split
      next h =>
        obtain rfl := beq_iff_eq.mp h
        exact .inr ⟨_, rfl, hletter (fun _ => rfl) (by decide)⟩
      split
      next h =>
        obtain rfl := hof (beq_iff_eq.mp h)
        exact .inr ⟨_, rfl, hletter (fun _ => rfl) (by decide)⟩
      split
      next h =>
        obtain rfl := beq_iff_eq.mp h
        exact .inr ⟨_, rfl, hletter (fun _ => rfl) (by decide)⟩
      split
      next hcontrol => exact .inr ⟨_, rfl, isEscape_hex hcontrol⟩
      next hcontrol =>
        exact .inl ⟨isPlain_iff.mpr ⟨hcontrol, by simpa using hquote, by simpa using hbackslash⟩,
          rfl⟩

/-! ## Strings -/

theorem mapM_some {α : Type} (l : List α) : l.mapM some = some l := by
  have h : l.mapM (fun a => (pure (id a) : Option α)) = pure (l.map id) := List.mapM_pure
  rwa [List.map_id] at h

/-- A written text is passed over where the end of a string is looked for. -/
theorem stringTail_flatMap_escape (t r : Text) :
    stringTail false (t.flatMap escape ++ r) =
      (stringTail false r).map (· + (t.flatMap escape).length) := by
  induction t with
  | nil => simp
  | cons c t ih =>
    rw [List.flatMap_cons, List.append_assoc]
    have hfirst : ∀ s, stringTail false (escape c ++ s) =
        (stringTail false s).map (· + (escape c).length) := by
      intro s
      rcases escape_cases c with ⟨hplain, hc⟩ | ⟨x, hx, hescape⟩
      · rw [hc]
        exact stringTail_append_plain (by simpa using hplain) s
      · have hbackslash : stringTail false ('\\' :: (x ++ s)) =
            (stringTail true (x ++ s)).map (· + 1) := rfl
        rw [hx, List.cons_append, hbackslash, hescape.tail, Option.map_map]
        rfl
    rw [hfirst, ih, Option.map_map, List.length_append]
    congr 1
    funext n
    simp only [Function.comp_apply]
    omega

/-- The pieces of a written text are its characters. -/
theorem map_fst_scan_flatMap_escape (t : Text) :
    (Text.scan (fun _ => stringStep) () 0 (t.flatMap escape)).map Prod.fst = t.map .char := by
  induction t with
  | nil => rfl
  | cons c t ih =>
    have hstep : ∃ d x, escape c = d :: x ∧ ∀ s, stringStep d (x ++ s) =
        some ⟨.char c, (), x.length⟩ := by
      rcases escape_cases c with ⟨hplain, hc⟩ | ⟨x, hx, hescape⟩
      · refine ⟨c, [], hc, fun s => ?_⟩
        rw [stringStep, if_neg (by simpa using (isPlain_iff.mp hplain).2.2)]
        rfl
      · refine ⟨'\\', x, hx, fun s => ?_⟩
        rw [stringStep, if_pos (beq_self_eq_true _), hescape.escape?]
    obtain ⟨d, x, hd, hstep⟩ := hstep
    rw [List.flatMap_cons, hd, List.cons_append, Text.scan, hstep]
    dsimp only
    rw [Text.scan_eq_scan_drop, List.drop_left, List.map_cons, List.map_cons, ih]

theorem string?_flatMap_escape (t : Text) : string? (t.flatMap escape) = some (.string t) := by
  have hnone : (t.map Piece.char).contains .stray = false := by
    simp [List.contains_eq_mem]
  have hall : (t.map Piece.char).mapM Piece.char? = some t := by
    rw [List.mapM_map]
    exact mapM_some t
  unfold string?
  dsimp only
  rw [map_fst_scan_flatMap_escape, hnone, if_neg Bool.false_ne_true, hall]
  rfl

/-! ## Tokens -/

/-- The state behind a text. -/
def run (s : State) (t : Text) : Option State :=
  (Text.scan (fun _ => token) () 0 t).foldlM (fun s p => State.step s p.1) s

theorem run_cons {s : State} {c : Char} {x t : Text} {k : Token}
    (h : token c (x ++ t) = some ⟨k, (), x.length⟩) :
    run s (c :: (x ++ t)) = (s.step k).bind (run · t) := by
  unfold run
  rw [Text.scan, h]
  dsimp only
  rw [Text.scan_eq_scan_drop, List.drop_left, List.foldlM_cons]
  rfl

theorem run_mark {s s' : State} {c : Char} (hc : c ∈ ['[', ']', '\x7b', '\x7d', ':', ','])
    (hs : s.mark c = some s') (t : Text) : run s (c :: t) = run s' t := by
  have htoken : ∀ c ∈ ['[', ']', '\x7b', '\x7d', ':', ','], token c t = some ⟨.mark c, (), 0⟩ := by
    simp [token, isSpace]
  have h := run_cons (s := s) (x := []) (htoken c hc)
  rwa [State.step, hs] at h

/-- A string is a token. -/
theorem run_quote (s : State) (t r : Text) :
    run s (quote t ++ r) = (s.value (.string t)).bind (run · r) := by
  have htoken : token '"' ((t.flatMap escape ++ ['"']) ++ r) =
      some ⟨.value (.string t), (), (t.flatMap escape ++ ['"']).length⟩ := by
    have htail : stringTail false ('"' :: r) = some 1 := rfl
    have hlength : stringTail false ((t.flatMap escape ++ ['"']) ++ r) =
        some (t.flatMap escape ++ ['"']).length := by
      rw [List.append_assoc, List.singleton_append, stringTail_flatMap_escape, htail,
        Option.map_some, List.length_append, Nat.add_comm]
      rfl
    have htake : ((t.flatMap escape ++ ['"']) ++ r).take
        ((t.flatMap escape ++ ['"']).length - 1) = t.flatMap escape := by
      rw [List.length_append, List.append_assoc]
      exact List.take_left
    show token '"' _ = _
    unfold token
    rw [if_neg (by decide), if_neg (by decide), if_pos (beq_self_eq_true _), hlength]
    dsimp only
    rw [htake, string?_flatMap_escape]
  exact run_cons htoken

/-! ## Values -/

/-- No token goes on into the text: it is the rest of an array or object, or nothing. -/
def Ends (r : Text) : Prop := ∀ c ∈ r.head?, c ∈ [',', ']', '\x7d']

/-- A value may come next. -/
inductive Expected.IsValue : Expected → Prop
  | value : IsValue .value
  | valueOrEnd : IsValue .valueOrEnd

/-- The text is read as the value, wherever a value may come. -/
def IsWritten (t : Text) (v : Json) : Prop :=
  ∀ (stack : List Frame) (expected : Expected) (r : Text), expected.IsValue → Ends r →
    run ⟨stack, expected⟩ (t ++ r) = run (.complete stack v) r

/-- A document is read as its value. -/
theorem IsWritten.parse?_eq {t : Text} {v : Json} (h : IsWritten t v) : parse? t = some v := by
  have hrun := h [] .value [] .value nofun
  rw [List.append_nil] at hrun
  unfold parse?
  rw [show (Text.scan (fun _ => token) () 0 t).foldlM (fun s p => State.step s p.1) _ = _ from hrun]
  rfl

/-- A value of its own is read wherever a value may come. -/
theorem State.value_of_isValue {stack : List Frame} {expected : Expected}
    (h : expected.IsValue) (v : Json) :
    (State.mk stack expected).value v = some (.complete stack v) := by
  cases h <;> cases v <;> rfl

/-- A string is written between quotes. -/
theorem isWritten_quote (t : Text) : IsWritten (quote t) (.string t) := by
  intro stack expected r hexpected _
  rw [run_quote, State.value_of_isValue hexpected]
  rfl

theorem isWritten_null : IsWritten "null".toList .null := by
  intro stack expected r hexpected _
  have h := run_cons (s := ⟨stack, expected⟩) (c := 'n') (x := "ull".toList) (t := r)
    (k := .value .null) rfl
  rwa [State.step, State.value_of_isValue hexpected] at h

/-! ## Arrays and objects -/

section Items

variable {t : Text} {ts : List Text} {v : Json} {vs : List Json}

/-- The items of an array are read up to its end. -/
theorem run_items {stack : List Frame} {expected : Expected} (hexpected : expected.IsValue)
    (ht : IsWritten t v) (hts : List.Forall₂ IsWritten ts vs) (items : List Json) (r : Text) :
    run ⟨.array items :: stack, expected⟩ (Text.joinWith [','] (t :: ts) ++ ']' :: r) =
      run (.complete stack (.array (items.reverse ++ v :: vs))) r := by
  induction hts generalizing t v expected items with
  | nil =>
    rw [Text.joinWith, ht _ _ _ hexpected (by simp [Ends]), run_mark (by simp) rfl]
    simp
  | cons ht' _ ih =>
    rw [Text.joinWith_cons_cons, List.append_assoc, List.append_assoc,
      ht _ _ _ hexpected (by simp [Ends]), List.singleton_append, run_mark (by simp) rfl,
      ih .value ht']
    simp

/-- An array is written with its items. -/
theorem isWritten_list (h : List.Forall₂ IsWritten ts vs) : IsWritten (list ts) (.array vs) := by
  intro stack expected r hexpected hr
  have hopen : (State.mk stack expected).mark '[' = some ⟨.array [] :: stack, .valueOrEnd⟩ := by
    cases hexpected <;> rfl
  rw [list, List.cons_append, List.cons_append, List.append_assoc, List.singleton_append,
    run_mark (by simp) hopen]
  cases h with
  | nil => exact run_mark (by simp) rfl r
  | cons ht hts => exact run_items .valueOrEnd ht hts [] r

end Items

section Members

/-- A member is written with its name and its value. -/
def IsMember (m : Text × Text) (member : Text × Json) : Prop :=
  m.1 = member.1 ∧ IsWritten m.2 member.2

/-- The members of an object, as they are kept while it is read. -/
def kept (members : List (Text × Json)) : List (Option Text × Json) :=
  members.map fun m => (some m.1, m.2)

theorem objectOf_kept (members : List (Text × Json)) :
    objectOf (kept members) = .object members := by
  have hall : (kept members).mapM named? = some members := by
    rw [kept, List.mapM_map]
    exact mapM_some members
  rw [objectOf, hall]
  rfl

variable {m : Text × Text} {ms : List (Text × Text)} {member : Text × Json}
  {members : List (Text × Json)}

/-- A member is read where the name of one may come. -/
theorem run_member {stack : List Frame} {expected : Expected}
    (hexpected : expected = .name ∨ expected = .nameOrEnd) (hm : IsMember m member)
    (earlier : List (Text × Json)) (name : Option Text) {r : Text} (hr : Ends r) :
    run ⟨.object (kept earlier).reverse name :: stack, expected⟩ (quote m.1 ++ (':' :: m.2 ++ r)) =
      run ⟨.object (kept (earlier ++ [member])).reverse none :: stack, .commaOrEnd⟩ r := by
  obtain ⟨hname, ht⟩ := hm
  have hvalue : (State.mk (.object (kept earlier).reverse name :: stack) expected).value
      (.string m.1) = some ⟨.object (kept earlier).reverse (some m.1) :: stack, .colon⟩ := by
    rcases hexpected with rfl | rfl <;> rfl
  rw [run_quote, hvalue, Option.bind_some, List.cons_append, run_mark (by simp) rfl,
    ht _ _ _ .value hr, hname]
  simp [State.complete, kept]

/-- The members of an object are read up to its end. -/
theorem run_members {stack : List Frame} {expected : Expected}
    (hexpected : expected = .name ∨ expected = .nameOrEnd) (hm : IsMember m member)
    (hms : List.Forall₂ IsMember ms members) (earlier : List (Text × Json)) (name : Option Text)
    (r : Text) :
    run ⟨.object (kept earlier).reverse name :: stack, expected⟩ (Text.joinWith [',']
        ((m :: ms).map fun m => quote m.1 ++ ':' :: m.2) ++ '\x7d' :: r) =
      run (.complete stack (.object (earlier ++ member :: members))) r := by
  induction hms generalizing m member expected earlier name with
  | nil =>
    rw [List.map_cons, List.map_nil, Text.joinWith, List.append_assoc,
      run_member hexpected hm _ _ (by simp [Ends]), run_mark (by simp) rfl, List.reverse_reverse,
      objectOf_kept]
  | cons hm' _ ih =>
    rw [List.map_cons, List.map_cons, Text.joinWith_cons_cons, List.append_assoc, List.append_assoc,
      List.append_assoc, run_member hexpected hm _ _ (by simp [Ends]), List.singleton_append,
      run_mark (by simp) rfl]
    have hbehind := ih (.inl rfl) hm' (earlier ++ [member]) none
    rw [List.map_cons] at hbehind
    rw [hbehind]
    simp

/-- An object is written with its members. -/
theorem isWritten_record (h : List.Forall₂ IsMember ms members) :
    IsWritten (record ms) (.object members) := by
  intro stack expected r hexpected hr
  have hopen : (State.mk stack expected).mark '\x7b' =
      some ⟨.object [] none :: stack, .nameOrEnd⟩ := by
    cases hexpected <;> rfl
  rw [record, List.cons_append, List.cons_append, List.append_assoc, List.singleton_append,
    run_mark (by simp) hopen]
  cases h with
  | nil => exact run_mark (by simp) rfl r
  | cons hm hms => exact run_members (.inr rfl) hm hms [] none r

end Members

end LeadingTrim.Json
