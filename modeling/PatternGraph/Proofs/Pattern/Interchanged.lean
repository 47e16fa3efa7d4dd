import PatternGraph.Proofs.Pattern.Loosened
import PatternGraph.Proofs.Pattern.PlainUnions
import Mathlib.Data.List.TakeWhile

/-!
# Interchanged quantifiers — texts that differ outside their unions

1. Two texts have the same loosened text if and only if they have one length and differ only where
   both hold a quantifier (`loosenWord_eq_iff`). Their parentheses then pair alike
   (`Balanced.of_loosenWord_eq`).
2. `InUnion` names the positions that lie in a slice with a bar at its own level. If two texts
   differ at none of these, the slices with such a bar are the same text in both (`KeepsUnions`).
3. Keeping unions goes down into groups, to parts between them, and to what trimming leaves.
-/

namespace PatternGraph

open Text

variable {s t u v u' v' : List Char}

/-! ## Texts with the same loosened text -/

namespace Text

/-- A loosened character tells which character it was, but not which quantifier. -/
theorem loosenChar_eq_loosenChar_iff {c d : Char} :
    loosenChar c = loosenChar d ↔ c = d ∨ (c = '*' ∨ c = '+') ∧ (d = '*' ∨ d = '+') := by
  unfold loosenChar
  grind

/-- Texts of one length that differ only where both hold a quantifier. -/
theorem loosenWord_eq_iff :
    loosenWord s = loosenWord t ↔ s.length = t.length ∧ ∀ (i : Nat) (c d : Char), s[i]? = some c →
      t[i]? = some d → c ≠ d → (c = '*' ∨ c = '+') ∧ (d = '*' ∨ d = '+') := by
  constructor
  · intro h
    refine ⟨by simpa [loosenWord] using congrArg List.length h, fun i c d hc hd hne => ?_⟩
    have hi : (loosenWord s)[i]? = (loosenWord t)[i]? := by rw [h]
    simp only [loosenWord, List.getElem?_map, hc, hd, Option.map_some, Option.some.injEq] at hi
    exact (loosenChar_eq_loosenChar_iff.1 hi).resolve_left hne
  · rintro ⟨hlength, hdiffer⟩
    refine List.ext_getElem (by simpa [loosenWord] using hlength) fun i hi hi' => ?_
    simp only [loosenWord, List.getElem_map]
    rw [loosenChar_eq_loosenChar_iff, or_iff_not_imp_left]
    exact hdiffer i _ _ (List.getElem?_eq_getElem _) (List.getElem?_eq_getElem _)

/-- A loosened text has the length of the text. -/
theorem length_eq_of_loosenWord_eq (h : loosenWord s = loosenWord t) : s.length = t.length :=
  (loosenWord_eq_iff.1 h).1

/-- What stands before and behind a place of one text stands there in the other, loosened. -/
theorem exists_append_of_loosenWord_eq (h : loosenWord (s ++ t) = loosenWord u) :
    ∃ s' t', u = s' ++ t' ∧ loosenWord s = loosenWord s' ∧ loosenWord t = loosenWord t' := by
  rw [loosenWord_append] at h
  obtain ⟨s', t', rfl, hs, ht⟩ := List.map_eq_append_iff.1 h.symm
  exact ⟨s', t', rfl, hs.symm, ht.symm⟩

/-- The first character of one text has its place in the other. -/
theorem exists_cons_of_loosenWord_eq {c : Char} (h : loosenWord (c :: t) = loosenWord u) :
    ∃ d t', u = d :: t' ∧ loosenChar c = loosenChar d ∧ loosenWord t = loosenWord t' := by
  obtain ⟨d, t', rfl, hd, ht⟩ := List.map_eq_cons_iff.1 h.symm
  exact ⟨d, t', rfl, hd.symm, ht.symm⟩

/-- An ordinary character stands in both texts. -/
theorem eq_of_loosenChar_eq {c d : Char} (hc : IsOrdinary c) (h : loosenChar c = loosenChar d) :
    d = c := by
  rcases hc with ⟨-, -, -, hstar, hplus⟩
  rw [loosenChar_of_ne hplus] at h
  exact (loosenChar_eq_iff hstar hplus).1 h.symm

/-- Nothing but the empty text is loosened to the empty text. -/
theorem eq_nil_of_loosenWord_eq (h : loosenWord [] = loosenWord u) : u = [] :=
  List.eq_nil_of_length_eq_zero (length_eq_of_loosenWord_eq h).symm

/-- A group stands in both texts, and loosened it has the same contents in both. -/
theorem exists_group_of_loosenWord_eq (h : loosenWord ('(' :: (s ++ ')' :: t)) = loosenWord u) :
    ∃ s' t', u = '(' :: (s' ++ ')' :: t') ∧ loosenWord s = loosenWord s' ∧
      loosenWord t = loosenWord t' := by
  obtain ⟨d, u₁, rfl, hd, h₁⟩ := exists_cons_of_loosenWord_eq h
  obtain ⟨s', u₂, rfl, hs, h₂⟩ := exists_append_of_loosenWord_eq h₁
  obtain ⟨e, t', rfl, he, ht⟩ := exists_cons_of_loosenWord_eq h₂
  obtain rfl : d = '(' := loosenChar_eq_opening_iff.1 hd.symm
  obtain rfl : e = ')' := loosenChar_eq_closing_iff.1 he.symm
  exact ⟨s', t', rfl, hs, ht⟩

/-- So does a run of quantifiers, each of which may be another one. -/
theorem exists_quantifiers_of_loosenWord_eq {qs : List Quantifier}
    (h : loosenWord (qs.map Quantifier.toChar) = loosenWord u) :
    ∃ rs : List Quantifier, u = rs.map Quantifier.toChar ∧ rs.length = qs.length := by
  induction qs generalizing u with
  | nil => exact ⟨[], eq_nil_of_loosenWord_eq h, rfl⟩
  | cons q qs ih =>
    obtain ⟨d, v, rfl, hd, hv⟩ := exists_cons_of_loosenWord_eq h
    obtain ⟨rs, rfl, hlength⟩ := ih hv
    have hquantifier : d = '*' ∨ d = '+' := by
      rcases loosenChar_eq_loosenChar_iff.1 hd with rfl | ⟨-, hd⟩
      · exact q.toChar_eq
      · exact hd
    rcases hquantifier with rfl | rfl
    · exact ⟨.zeroOrMore :: rs, rfl, congrArg Nat.succ hlength⟩
    · exact ⟨.oneOrMore :: rs, rfl, congrArg Nat.succ hlength⟩

end Text

namespace Pattern

/-- Parentheses pair in both texts or in neither. -/
theorem Balanced.of_loosenWord_eq (hs : Balanced s) (h : loosenWord s = loosenWord t) :
    Balanced t := by
  induction hs generalizing t with
  | nil =>
    rw [eq_nil_of_loosenWord_eq h]
    exact .nil
  | cons hopen hclose _ ih =>
    obtain ⟨d, t', rfl, hd, ht'⟩ := exists_cons_of_loosenWord_eq h
    -- loosening neither makes a parenthesis nor takes one away
    refine .cons ?_ ?_ (ih ht')
    · rintro rfl
      exact hopen (loosenChar_eq_opening_iff.1 hd)
    · rintro rfl
      exact hclose (loosenChar_eq_closing_iff.1 hd)
  | group _ _ ih ih' =>
    obtain ⟨s', t', rfl, hs', ht'⟩ := exists_group_of_loosenWord_eq h
    exact .group (ih hs') (ih' ht')

/-! ## Positions in unions -/

/-- The slice of a text that starts at a position: the whole text, or what a group contains. -/
def IsSliceAt (text : List Char) (start : Nat) (slice : List Char) : Prop :=
  (start = 0 ∧ slice = text) ∨
    ∃ u v, text = u ++ '(' :: (slice ++ ')' :: v) ∧ Balanced slice ∧ start = u.length + 1

/-- The position lies in a slice of the text that has a bar at its own level. -/
def InUnion (text : List Char) (i : Nat) : Prop :=
  ∃ start slice, IsSliceAt text start slice ∧ HasOpenBar slice ∧
    start ≤ i ∧ i < start + slice.length

/-- The unions in the groups of a text stand in the same places of another text. -/
def KeepsGroups (s t : List Char) : Prop :=
  ∀ u x v u' x' v', s = u ++ '(' :: (x ++ ')' :: v) → t = u' ++ '(' :: (x' ++ ')' :: v') →
    u.length = u'.length → x.length = x'.length → Balanced x → HasOpenBar x → x = x'

/-- All unions of a text stand in the same places of another text. -/
structure KeepsUnions (s t : List Char) : Prop where
  whole : HasOpenBar s → s = t
  groups : KeepsGroups s t

/-- The contents of a group stand behind its opening parenthesis. -/
theorem getElem?_group {i : Nat} (hi : i < s.length) :
    (u ++ '(' :: (s ++ ')' :: v))[u.length + 1 + i]? = s[i]? := by
  have hsplit : u ++ '(' :: (s ++ ')' :: v) = (u ++ ['(']) ++ (s ++ ')' :: v) := by simp
  have hlength : u.length + 1 = (u ++ ['(']).length := by simp
  rw [hsplit, hlength, List.getElem?_append_right (Nat.le_add_right _ i), Nat.add_sub_cancel_left,
    List.getElem?_append_left hi]

/-- Texts that differ at no position in a union have the same unions. -/
theorem keepsUnions_of_not_inUnion (hlength : s.length = t.length)
    (h : ∀ i, s[i]? ≠ t[i]? → ¬InUnion s i) : KeepsUnions s t where
  whole := by
    intro hbar
    apply List.ext_getElem?
    intro i
    by_cases hi : i < s.length
    · -- a position at which the texts differ would lie in the whole text, which is a union
      by_contra hne
      exact h i hne ⟨0, s, .inl ⟨rfl, rfl⟩, hbar, Nat.zero_le i, by omega⟩
    · rw [List.getElem?_eq_none (by omega), List.getElem?_eq_none (by omega)]
  groups := by
    rintro u x v u' x' v' rfl rfl hu hx hbalanced hbar
    apply List.ext_getElem?
    intro j
    by_cases hj : j < x.length
    · by_contra hne
      refine h (u.length + 1 + j) ?_ ⟨u.length + 1, x, .inr ⟨u, v, rfl, hbalanced, rfl⟩, hbar,
        Nat.le_add_right _ j, Nat.add_lt_add_left hj _⟩
      rwa [getElem?_group hj, hu, getElem?_group (by omega)]
    · rw [List.getElem?_eq_none (by omega), List.getElem?_eq_none (by omega)]

/-! ## Parts that keep their unions -/

/-- The parts at the same place keep the unions of their groups. -/
theorem KeepsGroups.part (h : KeepsGroups (u ++ (s ++ v)) (u' ++ (t ++ v')))
    (hu : u.length = u'.length) : KeepsGroups s t := by
  intro x y z x' y' z' hs ht hx hy
  subst hs ht
  refine h (u ++ x) y (z ++ v) (u' ++ x') y' (z' ++ v') ?_ ?_ ?_ hy
  · simp
  · simp
  · rw [List.length_append, List.length_append, hu, hx]

/-- Parts in front stand at the same place by themselves. -/
theorem KeepsGroups.left (h : KeepsGroups (s ++ v) (t ++ v')) : KeepsGroups s t := by
  have hfront : KeepsGroups ([] ++ (s ++ v)) ([] ++ (t ++ v')) := h
  exact hfront.part rfl

/-- Parts behind stand at the same place if those in front are of one length. -/
theorem KeepsGroups.right (h : KeepsGroups (u ++ s) (u' ++ t)) (hu : u.length = u'.length) :
    KeepsGroups s t := by
  rw [← List.append_nil s, ← List.append_nil t] at h
  exact h.part hu

/-- The contents of a group keep their unions, the whole of them included. -/
theorem KeepsGroups.inside (h : KeepsGroups ('(' :: (s ++ [')'])) ('(' :: (t ++ [')'])))
    (hlength : s.length = t.length) (hs : Balanced s) : KeepsUnions s t where
  whole := fun hbar => h [] s [] [] t [] rfl rfl rfl hlength hs hbar
  groups := by
    have hinside : KeepsGroups (['('] ++ (s ++ [')'])) (['('] ++ (t ++ [')'])) := h
    exact hinside.part rfl

/-! ## Trimmed texts -/

/-- Trimming takes the blanks before a word away, and some characters behind it. -/
theorem exists_trimWord_append (word : List Char) :
    ∃ back, word = word.takeWhile isBlank ++ (trimWord word ++ back) := by
  have hsuffix := List.dropWhile_suffix isBlank (l := (word.dropWhile isBlank).reverse)
  obtain ⟨front, hfront⟩ := hsuffix
  refine ⟨front.reverse, ?_⟩
  -- blanks are dropped at the end by dropping them at the start of the reversed word
  have hrest : trimWord word ++ front.reverse = word.dropWhile isBlank := by
    rw [trimWord, trimEnd, ← List.reverse_append, hfront, List.reverse_reverse]
  rw [hrest, List.takeWhile_append_dropWhile]

/-- Where as many blanks are trimmed off, what is left stands in the same place. -/
theorem length_takeWhile_isBlank_eq (h : loosenWord s = loosenWord t) :
    (s.takeWhile isBlank).length = (t.takeWhile isBlank).length := by
  -- no quantifier is a blank, so loosening keeps the blanks at the start
  have hlength : ∀ w : List Char, ((loosenWord w).takeWhile isBlank).length
      = (w.takeWhile isBlank).length := by
    intro w
    rw [loosenWord, List.takeWhile_map, List.length_map, isBlank_comp_loosenChar]
  rw [← hlength s, ← hlength t, h]

/-- Blanks are no parentheses. -/
theorem balanced_takeWhile_isBlank (word : List Char) : Balanced (word.takeWhile isBlank) := by
  apply Balanced.of_notMem
  · intro hopen
    exact absurd (List.mem_takeWhile_imp hopen) (by decide)
  · intro hclose
    exact absurd (List.mem_takeWhile_imp hclose) (by decide)

/-- What is left of two texts keeps the unions that the texts keep. -/
theorem KeepsUnions.trimWord (h : KeepsUnions s t) (hloosened : loosenWord s = loosenWord t) :
    KeepsUnions (trimWord s) (trimWord t) := by
  obtain ⟨back, hs⟩ := exists_trimWord_append s
  obtain ⟨back', ht⟩ := exists_trimWord_append t
  constructor
  · intro hbar
    obtain ⟨x, y, htrim, hx⟩ := hbar
    -- a bar that stands open in the trimmed text stands open in the whole text
    have hopen : HasOpenBar s := by
      refine ⟨s.takeWhile isBlank ++ x, y ++ back, ?_, (balanced_takeWhile_isBlank s).append hx⟩
      conv_lhs => rw [hs, htrim]
      simp
    rw [h.whole hopen]
  · have hgroups := h.groups
    rw [hs, ht] at hgroups
    exact hgroups.part (length_takeWhile_isBlank_eq hloosened)

end Pattern

end PatternGraph
