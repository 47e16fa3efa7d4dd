import PatternGraph.Pattern.Parentheses
import PatternGraph.Proofs.Pattern.Grammar

/-!
# Balance — texts in which every parenthesis has its partner

`Balanced` is the grammar of these texts. The searches for a partner step over a balanced text
(`closingIndex_append` and `openingIndex_append`), so that the two parentheses around a balanced
text find each other (`closingOf_group`, `openingOf_group`).
-/

namespace PatternGraph.Pattern

/-- A text whose parentheses are all paired within it. -/
inductive Balanced : List Char → Prop where
  | nil : Balanced []
  | cons {c : Char} {t : List Char} (hopen : c ≠ '(') (hclose : c ≠ ')') (h : Balanced t) :
    Balanced (c :: t)
  | group {s t : List Char} (h : Balanced s) (h' : Balanced t) : Balanced ('(' :: (s ++ ')' :: t))

variable {s t u v rest before : List Char} {level : Int} {index : Nat}

/-- Two texts that are balanced each are balanced together. -/
theorem Balanced.append (hs : Balanced s) (ht : Balanced t) : Balanced (s ++ t) := by
  induction hs with
  | nil => exact ht
  | cons hopen hclose _ ih => exact .cons hopen hclose ih
  | group h _ _ ih =>
    rw [List.cons_append, List.append_assoc, List.cons_append]
    exact .group h ih

theorem Balanced.parenthesized (h : Balanced s) : Balanced ('(' :: (s ++ [')'])) :=
  .group h .nil

/-- Without parentheses there is nothing to pair. -/
theorem Balanced.of_notMem (hopen : '(' ∉ s) (hclose : ')' ∉ s) : Balanced s := by
  induction s with
  | nil => exact .nil
  | cons c s ih =>
    rw [List.mem_cons, not_or] at hopen hclose
    exact .cons (Ne.symm hopen.1) (Ne.symm hclose.1) (ih hopen.2 hclose.2)

theorem Balanced.quantifiers (qs : List Quantifier) :
    Balanced (qs.map Quantifier.toChar) := by
  induction qs with
  | nil => exact .nil
  | cons q qs ih =>
    refine .cons ?_ ?_ ih
    · cases q <;> decide
    · cases q <;> decide

mutual

/-- A text of the grammar has its parentheses paired: groups are the one rule that has any, and it
has both. -/
theorem Branches.balanced {s : List Char} {branches : List Pattern} (h : Branches s branches) :
    Balanced s := by
  match h with
  | .last h => exact h.balanced
  | .bar h h' => exact h.balanced.append (.cons (by decide) (by decide) h'.balanced)

theorem Items.balanced {s : List Char} {items : List Pattern} (h : Items s items) :
    Balanced s := by
  match h with
  | .nil => exact .nil
  | .cons h quantifiers h' =>
    exact h.balanced.append ((Balanced.quantifiers quantifiers).append h'.balanced)

theorem Atom.balanced {s : List Char} {atom : Pattern} (h : Atom s atom) : Balanced s := by
  match h with
  | .literal h => exact .cons h.1 h.2.1 .nil
  | .group h => exact h.balanced.parenthesized

end

/-! ## Groups in a text -/

/-- A group, seen from the parenthesis that closes it. -/
theorem group_eq_append (u s v : List Char) :
    u ++ '(' :: (s ++ ')' :: v) = (u ++ '(' :: s) ++ ')' :: v := by simp

theorem length_before_closing (u s : List Char) :
    (u ++ '(' :: s).length = u.length + 1 + s.length := by
  rw [List.length_append, List.length_cons]
  omega

theorem getElem?_group_closing (u s v : List Char) :
    (u ++ '(' :: (s ++ ')' :: v))[u.length + 1 + s.length]? = some ')' := by
  rw [group_eq_append, ← length_before_closing]
  simp

theorem take_closing (u s v : List Char) :
    (u ++ '(' :: (s ++ ')' :: v)).take (u.length + 1 + s.length) = u ++ '(' :: s := by
  rw [group_eq_append, ← length_before_closing, List.take_left]

/-- Between the two parentheses of a group stand its contents. -/
theorem between_group :
    between (u ++ '(' :: (s ++ ')' :: v)) u.length (u.length + 1 + s.length) = s := by
  have hfront : u ++ '(' :: s = (u ++ ['(']) ++ s := by simp
  rw [between, take_closing, hfront]
  apply List.drop_left'
  simp

/-! ## Partners -/

/-- With a group open, the search for its end steps over a balanced text. -/
theorem Balanced.closingIndex_append (h : Balanced s) (hlevel : 1 ≤ level) :
    closingIndex level index (s ++ rest) = closingIndex level (index + s.length) rest := by
  induction h generalizing level index rest with
  | nil => rfl
  | cons hopen hclose _ ih =>
    rw [List.cons_append, closingIndex, if_neg hopen, if_neg hclose, ih hlevel, List.length_cons,
      Nat.add_right_comm, Nat.add_assoc]
  | @group s t _ _ ih ih' =>
    -- the group leaves the level where it was, and that is not zero
    have hinside : 1 ≤ level + 1 := by omega
    have hbehind : level + 1 - 1 = level := by omega
    have hlevel' : ¬level = 0 := by omega
    rw [List.cons_append, closingIndex, if_pos rfl, List.append_assoc, ih hinside,
      List.cons_append, closingIndex, if_neg (by decide), if_pos rfl, hbehind, if_neg hlevel',
      ih' hlevel]
    congr 1
    simp only [List.length_cons, List.length_append]
    omega

/-- Backwards, with a group closed, the search for its start steps over a balanced text. -/
theorem Balanced.openingIndex_append (h : Balanced s) (hlevel : 1 ≤ level) :
    openingIndex level index (s.reverse ++ before)
      = openingIndex level (index - s.length) before := by
  induction h generalizing level index before with
  | nil => rfl
  | cons hopen hclose _ ih =>
    rw [List.reverse_cons, List.append_assoc, ih hlevel, List.singleton_append, openingIndex,
      if_neg hclose, if_neg hopen, List.length_cons, Nat.sub_sub]
  | @group s t _ _ ih ih' =>
    -- read backwards, the end of the group comes first
    have hinside : 1 ≤ level + 1 := by omega
    have hbehind : level + 1 - 1 = level := by omega
    have hlevel' : ¬level = 0 := by omega
    have hreverse : ('(' :: (s ++ ')' :: t)).reverse ++ before
        = t.reverse ++ (')' :: (s.reverse ++ '(' :: before)) := by simp
    rw [hreverse, ih' hlevel, openingIndex, if_pos rfl, ih hinside, openingIndex,
      if_neg (by decide), if_pos rfl, hbehind, if_neg hlevel']
    congr 1
    simp only [List.length_cons, List.length_append]
    omega

/-- The search from the opening parenthesis of a balanced group ends at its closing one. -/
theorem closingOf_group (h : Balanced s) :
    closingOf (u ++ '(' :: (s ++ ')' :: v)) u.length = .ok (u.length + 1 + s.length) := by
  have hclosing : closingIndex 0 u.length ('(' :: (s ++ ')' :: v))
      = some (u.length + 1 + s.length) := by
    rw [closingIndex, if_pos rfl, h.closingIndex_append (by decide), closingIndex,
      if_neg (by decide), if_pos rfl, if_pos (by decide)]
  rw [closingOf, List.drop_left, hclosing]

/-- The search back from the closing parenthesis ends at the opening one. -/
theorem openingOf_group (h : Balanced s) :
    openingOf (u ++ '(' :: (s ++ ')' :: v)) (u.length + 1 + s.length) = .ok u.length := by
  have htake : (u ++ '(' :: (s ++ ')' :: v)).take (u.length + 1 + s.length + 1)
      = u ++ '(' :: (s ++ [')']) := by
    have hsplit : u ++ '(' :: (s ++ ')' :: v) = (u ++ '(' :: (s ++ [')'])) ++ v := by simp
    rw [hsplit]
    apply List.take_left'
    simp only [List.length_append, List.length_cons, List.length_nil]
    omega
  have hopening : openingIndex 0 (u.length + 1 + s.length + 1)
      (')' :: (s.reverse ++ '(' :: u.reverse)) = some u.length := by
    rw [openingIndex, if_pos rfl, h.openingIndex_append (by decide), openingIndex,
      if_neg (by decide), if_pos rfl, if_pos (by decide)]
    congr 1
    omega
  have hreverse : (u ++ '(' :: (s ++ [')'])).reverse = ')' :: (s.reverse ++ '(' :: u.reverse) := by
    simp
  -- the search goes over the text in front of the parenthesis in the opposite direction
  rw [openingOf, htake, hreverse, hopening]

/-- Each opening parenthesis of a balanced text has its partner behind it. -/
theorem Balanced.exists_closing (h : Balanced t) (ht : t = u ++ '(' :: v) :
    ∃ s rest, v = s ++ ')' :: rest ∧ Balanced s := by
  induction h generalizing u v with
  | nil => cases u <;> cases ht
  | cons hopen _ _ ih =>
    cases u with
    | nil => exact absurd (List.cons.inj ht).1 hopen
    | cons x u => exact ih (List.cons.inj ht).2
  | @group s t hs _ ih ih' =>
    cases u with
    | nil => exact ⟨s, t, (List.cons.inj ht).2.symm, hs⟩
    | cons x u =>
      -- the parenthesis stands inside the group or behind it
      rcases List.append_eq_append_iff.1 (List.cons.inj ht).2 with
        ⟨front, rfl, hback⟩ | ⟨back, rfl, hback⟩
      · cases front with
        | nil => cases (List.cons.inj hback).1
        | cons y front => exact ih' (List.cons.inj hback).2
      · cases back with
        | nil => cases (List.cons.inj hback).1
        | cons y back =>
          rcases List.cons.inj hback with ⟨rfl, rfl⟩
          rcases ih rfl with ⟨s', rest, rfl, hs'⟩
          exact ⟨s', rest ++ ')' :: t, by simp, hs'⟩

/-- Each closing parenthesis of a balanced text has its partner before it. -/
theorem Balanced.exists_opening (h : Balanced t) (ht : t = u ++ ')' :: v) :
    ∃ before s, u = before ++ '(' :: s ∧ Balanced s := by
  induction h generalizing u v with
  | nil => cases u <;> cases ht
  | @cons c t _ hclose _ ih =>
    cases u with
    | nil => exact absurd (List.cons.inj ht).1 hclose
    | cons x u =>
      rcases ih (List.cons.inj ht).2 with ⟨before, s, rfl, hs⟩
      exact ⟨x :: before, s, rfl, hs⟩
  | @group s t hs _ ih ih' =>
    cases u with
    | nil => cases (List.cons.inj ht).1
    | cons x u =>
      rcases List.cons.inj ht with ⟨rfl, htail⟩
      -- the parenthesis closes the group, or stands inside it or behind it
      rcases List.append_eq_append_iff.1 htail with ⟨front, rfl, hback⟩ | ⟨back, rfl, hback⟩
      · cases front with
        | nil => exact ⟨[], s, by simp, hs⟩
        | cons y front =>
          rcases List.cons.inj hback with ⟨rfl, ht'⟩
          rcases ih' ht' with ⟨before, s', rfl, hs'⟩
          exact ⟨'(' :: (s ++ ')' :: before), s', by simp, hs'⟩
      · cases back with
        | nil => exact ⟨[], u, rfl, by simpa using hs⟩
        | cons y back =>
          rcases List.cons.inj hback with ⟨rfl, -⟩
          rcases ih rfl with ⟨before, s', rfl, hs'⟩
          exact ⟨'(' :: before, s', rfl, hs'⟩

/-- Where two balanced texts are each closed, they are the same text. -/
theorem Balanced.closed_unique (hs : Balanced s) (hu : Balanced u)
    (h : s ++ ')' :: t = u ++ ')' :: v) : s = u ∧ t = v := by
  -- the search for the end of the group finds both closing parentheses
  have hlength : s.length = u.length := by
    have hclosing : closingIndex 1 0 (s ++ ')' :: t) = closingIndex 1 0 (u ++ ')' :: v) := by
      rw [h]
    rw [hs.closingIndex_append (by decide), hu.closingIndex_append (by decide)] at hclosing
    simpa [closingIndex] using hclosing
  rcases List.append_inj h hlength with ⟨hsu, htv⟩
  exact ⟨hsu, (List.cons.inj htv).2⟩

end PatternGraph.Pattern
