/-
# Text and its byte offsets

A text is a list of characters. An offset into a text counts the bytes of its UTF-8 form, and a
piece of a text is cut out by two such offsets. An offset is a *boundary* when no character
straddles it; cutting at a boundary splits the text there (`takeBytes_byteSize_append`,
`dropBytes_byteSize_append`). Where it is not known that an offset is a boundary, `slice?` cuts out
a piece only if both of its ends are.
-/

namespace LeadingTrim

/-- A text, character by character. -/
abbrev Text := List Char

namespace Text

/-- The number of bytes of the UTF-8 form. -/
def byteSize : Text → Nat
  | [] => 0
  | c :: rest => c.utf8Size + byteSize rest

/-- The characters that begin before the byte offset. -/
def takeBytes : Nat → Text → Text
  | _, [] => []
  | 0, _ => []
  | n + 1, c :: rest => c :: takeBytes (n + 1 - c.utf8Size) rest

/-- The characters that begin at the byte offset or after it. -/
def dropBytes : Nat → Text → Text
  | _, [] => []
  | 0, t => t
  | n + 1, c :: rest => dropBytes (n + 1 - c.utf8Size) rest

/-- The piece between two byte offsets; empty when the second is not after the first. -/
def slice (start stop : Nat) (t : Text) : Text :=
  (t.dropBytes start).takeBytes (stop - start)

/-- No character straddles the byte offset, and it is not past the end. -/
def IsBoundary (t : Text) (n : Nat) : Prop :=
  ∃ before after, t = before ++ after ∧ byteSize before = n

/-- Whether some first characters of the text have the given number of bytes. -/
def endsCharacter : Text → Nat → Bool
  | _, 0 => true
  | [], _ + 1 => false
  | c :: rest, n + 1 => c.utf8Size ≤ n + 1 && endsCharacter rest (n + 1 - c.utf8Size)

/-- What holds of all characters of a text is decided along the text, not over all characters that
there are. -/
instance (priority := high) decidableForallMem (p : Char → Prop) [DecidablePred p] (t : Text) :
    Decidable (∀ c ∈ t, p c) :=
  List.decidableBAll p t

/-! ## Counting bytes -/

@[simp] theorem byteSize_nil : byteSize [] = 0 := rfl

@[simp] theorem byteSize_cons (c : Char) (t : Text) :
    byteSize (c :: t) = c.utf8Size + byteSize t := rfl

@[simp] theorem byteSize_append (s t : Text) : byteSize (s ++ t) = byteSize s + byteSize t := by
  induction s with
  | nil => simp
  | cons c s ih => simp only [List.cons_append, byteSize_cons, ih]; omega

theorem byteSize_pos {t : Text} (h : t ≠ []) : 0 < byteSize t := by
  cases t with
  | nil => exact absurd rfl h
  | cons c t => have := c.utf8Size_pos; simp only [byteSize_cons]; omega

/-! ## Cutting -/

@[simp] theorem takeBytes_zero (t : Text) : takeBytes 0 t = [] := by cases t <;> rfl

@[simp] theorem dropBytes_zero (t : Text) : dropBytes 0 t = t := by cases t <;> rfl

@[simp] theorem takeBytes_nil (n : Nat) : takeBytes n [] = [] := by cases n <;> rfl

@[simp] theorem dropBytes_nil (n : Nat) : dropBytes n [] = [] := by cases n <;> rfl

/-- Nothing is lost where a text is cut. -/
theorem takeBytes_append_dropBytes (n : Nat) (t : Text) : takeBytes n t ++ dropBytes n t = t := by
  induction t generalizing n with
  | nil => simp
  | cons c t ih => cases n <;> simp [takeBytes, dropBytes, ih]

/-- Cutting behind a first part gives that part. -/
@[simp] theorem takeBytes_byteSize_append (s t : Text) : takeBytes (byteSize s) (s ++ t) = s := by
  induction s with
  | nil => simp
  | cons c s ih =>
    obtain ⟨k, hk⟩ := Nat.exists_eq_succ_of_ne_zero (Nat.ne_of_gt c.utf8Size_pos)
    have step : takeBytes (c.utf8Size + byteSize s) (c :: (s ++ t)) =
        c :: takeBytes (c.utf8Size + byteSize s - c.utf8Size) (s ++ t) := by
      rw [show c.utf8Size + byteSize s = (k + byteSize s) + 1 by omega]; rfl
    rw [byteSize_cons, List.cons_append, step, Nat.add_sub_cancel_left, ih]

/-- Cutting behind a first part leaves the second. -/
@[simp] theorem dropBytes_byteSize_append (s t : Text) : dropBytes (byteSize s) (s ++ t) = t := by
  have h := takeBytes_append_dropBytes (byteSize s) (s ++ t)
  rw [takeBytes_byteSize_append] at h
  exact List.append_cancel_left h

/-- The middle one of three parts is the piece between their seams. -/
theorem slice_append (s t u : Text) :
    slice (byteSize s) (byteSize s + byteSize t) (s ++ t ++ u) = t := by
  rw [slice, List.append_assoc, dropBytes_byteSize_append, Nat.add_sub_cancel_left,
    takeBytes_byteSize_append]

/-! ## Cutting between characters only -/

theorem endsCharacter_iff {t : Text} {n : Nat} : endsCharacter t n = true ↔ IsBoundary t n := by
  induction t generalizing n with
  | nil =>
    cases n with
    | zero => exact ⟨fun _ => ⟨[], [], rfl, rfl⟩, fun _ => rfl⟩
    | succ n =>
      refine ⟨fun h => Bool.noConfusion h, ?_⟩
      rintro ⟨s, u, hsplit, hsize⟩
      obtain ⟨rfl, -⟩ := List.append_eq_nil_iff.mp hsplit.symm
      exact Nat.noConfusion hsize
  | cons c t ih =>
    cases n with
    | zero => exact ⟨fun _ => ⟨[], c :: t, rfl, rfl⟩, fun _ => rfl⟩
    | succ n =>
      rw [endsCharacter, Bool.and_eq_true, decide_eq_true_eq, ih]
      constructor
      · rintro ⟨hle, s, u, rfl, hsize⟩
        exact ⟨c :: s, u, rfl, by rw [byteSize_cons]; omega⟩
      · rintro ⟨s, u, hsplit, hsize⟩
        cases s with
        | nil => exact Nat.noConfusion hsize
        | cons d s =>
          obtain ⟨rfl, rfl⟩ := List.cons.inj hsplit
          rw [byteSize_cons] at hsize
          exact ⟨by omega, s, u, rfl, by omega⟩

instance (t : Text) (n : Nat) : Decidable (IsBoundary t n) := decidable_of_iff _ endsCharacter_iff

/-- The piece between two byte offsets, if they are boundaries in order. -/
def slice? (start stop : Nat) (t : Text) : Option Text :=
  if start ≤ stop ∧ IsBoundary t start ∧ IsBoundary t stop then some (slice start stop t) else none

theorem slice?_eq_some_iff {start stop : Nat} {t piece : Text} :
    slice? start stop t = some piece ↔
      (start ≤ stop ∧ IsBoundary t start ∧ IsBoundary t stop) ∧ piece = slice start stop t := by
  rw [slice?, Option.ite_none_right_eq_some, Option.some.injEq, eq_comm (a := piece)]

/-! ## Looking at the front -/

/-- What follows a given first part, if the text begins with it. -/
def after? : (first : Text) → Text → Option Text
  | [], t => some t
  | _ :: _, [] => none
  | p :: ps, c :: cs => if p = c then after? ps cs else none

theorem after?_eq_some_iff {first t rest : Text} :
    after? first t = some rest ↔ t = first ++ rest := by
  fun_induction after? first t with
  | case1 t => exact ⟨fun h => by simpa using h, fun h => by simp [h]⟩
  | case2 => simp
  | case3 ps c cs ih => simp [ih]
  | case4 p ps c cs hne => simp [Ne.symm hne]

/-- Whether the text begins with the given first part. -/
def startsWith (first t : Text) : Bool := (after? first t).isSome

/-- ASCII letters in lower case, all else as it is. -/
def lower (t : Text) : Text := t.map Char.toLower

/-- Equality up to the case of ASCII letters. -/
def sameWord (s t : Text) : Bool := lower s == lower t

/-- The parts between the occurrences of a separator character; always at least one. -/
def splitOn (separator : Char) : Text → List Text
  | [] => [[]]
  | c :: rest =>
    if c = separator then [] :: splitOn separator rest
    else match splitOn separator rest with
      | [] => [[c]]
      | part :: parts => (c :: part) :: parts

/-- The texts with a separator between each two. -/
def joinWith (separator : Text) : List Text → Text
  | [] => []
  | [t] => t
  | t :: rest => t ++ separator ++ joinWith separator rest

theorem splitOn_ne_nil (separator : Char) (t : Text) : splitOn separator t ≠ [] := by
  cases t with
  | nil => simp [splitOn]
  | cons c t =>
    rw [splitOn]
    split
    · simp
    · split <;> simp

theorem splitOn_separator (separator : Char) (t : Text) :
    splitOn separator (separator :: t) = [] :: splitOn separator t := by
  rw [splitOn, if_pos rfl]

/-- What stands in front of the first separator belongs to the first part. -/
theorem splitOn_append {separator : Char} {x t first : Text} {parts : List Text}
    (hx : separator ∉ x) (ht : splitOn separator t = first :: parts) :
    splitOn separator (x ++ t) = (x ++ first) :: parts := by
  induction x with
  | nil => exact ht
  | cons c x ih =>
    rw [List.mem_cons, not_or] at hx
    rw [List.cons_append, splitOn, if_neg (Ne.symm hx.1), ih hx.2]
    rfl

theorem joinWith_cons_cons (separator x y : Text) (xs : List Text) :
    joinWith separator (x :: y :: xs) = x ++ (separator ++ joinWith separator (y :: xs)) := by
  rw [joinWith, List.append_assoc]
  exact List.cons_ne_nil y xs

/-- The parts of a text have the separators between them. -/
theorem joinWith_splitOn (separator : Char) (t : Text) :
    joinWith [separator] (splitOn separator t) = t := by
  induction t with
  | nil => rfl
  | cons c t ih =>
    obtain ⟨part, parts, hparts⟩ := List.exists_cons_of_ne_nil (splitOn_ne_nil separator t)
    rw [splitOn]
    split
    next hc => rw [hparts, joinWith_cons_cons, ← hparts, ih, hc, List.nil_append,
      List.singleton_append]
    · rw [hparts] at ih ⊢
      rw [← ih]
      cases parts with
      | nil => rfl
      | cons part' parts => rw [joinWith_cons_cons, joinWith_cons_cons, List.cons_append]

/-- There is no separator in a part. -/
theorem not_mem_of_mem_splitOn {separator : Char} {t part : Text}
    (h : part ∈ splitOn separator t) : separator ∉ part := by
  induction t generalizing part with
  | nil =>
    rw [List.mem_singleton.mp h]
    exact List.not_mem_nil
  | cons c t ih =>
    obtain ⟨first, parts, hparts⟩ := List.exists_cons_of_ne_nil (splitOn_ne_nil separator t)
    rw [splitOn] at h
    rw [hparts] at h ih
    split at h
    · rcases List.mem_cons.mp h with rfl | h
      · exact List.not_mem_nil
      · exact ih h
    next hc =>
      rcases List.mem_cons.mp h with rfl | h
      · intro hmem
        rcases List.mem_cons.mp hmem with heq | hmem
        · exact hc heq.symm
        · exact ih List.mem_cons_self hmem
      · exact ih (List.mem_cons_of_mem _ h)

theorem mem_of_mem_joinWith {separator : Text} {texts : List Text} {c : Char}
    (hc : c ∈ joinWith separator texts) : c ∈ separator ∨ ∃ t ∈ texts, c ∈ t := by
  induction texts with
  | nil => cases hc
  | cons t texts ih =>
    cases texts with
    | nil => exact Or.inr ⟨t, List.mem_cons_self, hc⟩
    | cons u texts =>
      rw [joinWith, List.mem_append, List.mem_append] at hc
      · rcases hc with (hc | hc) | hc
        · exact Or.inr ⟨t, List.mem_cons_self, hc⟩
        · exact Or.inl hc
        · rcases ih hc with hc | ⟨v, hv, hcv⟩
          · exact Or.inl hc
          · exact Or.inr ⟨v, List.mem_cons_of_mem _ hv, hcv⟩
      · simp

end Text

end LeadingTrim
