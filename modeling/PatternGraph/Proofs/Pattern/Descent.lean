import PatternGraph.Proofs.Pattern.Balance
import Mathlib.Computability.Language

/-!
# The language of a textual descent — what a text stands for where no tree is read

A slice is a text whose parentheses are paired. With a bar outside all its parentheses it stands
for its pieces between the bars, of whatever nesting, each taken as it is written; only the empty
pieces are left out. Without such a bar it stands for its items one after the other, where a
repeated character stands for at least one and a repeated group for at least two of what it
repeats. A slice stands for one language at most (`SliceDenotes.unique`).
-/

namespace PatternGraph.Pattern

open scoped Computability

/-! ## Words of a list -/

/-- The words of a list, without the empty word. -/
def nonEmptyWords (words : List (List Char)) : Language Char :=
  {w | w ≠ [] ∧ w ∈ words}

/-- An empty list has no words. -/
theorem nonEmptyWords_nil : nonEmptyWords [] = 0 := by
  ext w
  exact ⟨fun hw => absurd hw.2 List.not_mem_nil, fun hw => absurd hw (Language.notMem_zero w)⟩

/-- The words of a list are those of its first member and those of the others. -/
theorem nonEmptyWords_cons (word : List Char) (words : List (List Char)) :
    nonEmptyWords (word :: words) = nonEmptyWords [word] + nonEmptyWords words := by
  ext w
  rw [Language.mem_add]
  constructor
  · rintro ⟨hw, hmem⟩
    rcases List.mem_cons.1 hmem with rfl | hmem
    · exact .inl ⟨hw, List.mem_singleton.2 rfl⟩
    · exact .inr ⟨hw, hmem⟩
  · rintro (⟨hw, hmem⟩ | ⟨hw, hmem⟩)
    · exact ⟨hw, List.mem_cons.2 (.inl (List.mem_singleton.1 hmem))⟩
    · exact ⟨hw, List.mem_cons_of_mem _ hmem⟩

/-- The empty word is left out. -/
theorem nonEmptyWords_singleton_nil : nonEmptyWords [[]] = 0 := by
  ext w
  exact ⟨fun hw => absurd (List.mem_singleton.1 hw.2) hw.1,
    fun hw => absurd hw (Language.notMem_zero w)⟩

/-- A word with a character is kept. -/
theorem nonEmptyWords_singleton_cons (c : Char) (rest : List Char) :
    nonEmptyWords [c :: rest] = {c :: rest} := by
  ext w
  constructor
  · rintro ⟨-, hw⟩
    exact List.mem_singleton.1 hw
  · rintro rfl
    exact ⟨List.cons_ne_nil c rest, List.mem_singleton.2 rfl⟩

/-- The words of a list are never the empty word alone, which is left out. -/
theorem nonEmptyWords_ne_one (words : List (List Char)) : nonEmptyWords words ≠ 1 := by
  intro h
  have hmem : [] ∈ nonEmptyWords words := by
    rw [h]
    exact Language.nil_mem_one
  exact hmem.1 rfl

/-! ## Languages of texts -/

mutual

/-- What a slice stands for. -/
inductive SliceDenotes : List Char → Language Char → Prop where
  | union {u v : List Char} (hu : Balanced u) (hv : Balanced v) :
    SliceDenotes (u ++ '|' :: v) (nonEmptyWords ((u ++ '|' :: v).splitOn '|'))
  | sequence {s : List Char} {L : Language Char} (h : SequenceDenotes s L) : SliceDenotes s L

/-- What a slice without a bar outside its parentheses stands for, item by item. -/
inductive SequenceDenotes : List Char → Language Char → Prop where
  | nil : SequenceDenotes [] 1
  | letter {c : Char} {t : List Char} {M : Language Char} (hc : IsOrdinary c)
    (h : SequenceDenotes t M) : SequenceDenotes (c :: t) ({[c]} * M)
  | letters {c : Char} {t : List Char} {M : Language Char} (hc : IsOrdinary c) (q : Quantifier)
    (h : SequenceDenotes t M) : SequenceDenotes (c :: q.toChar :: t) ({[c]} * {[c]}∗ * M)
  | group {s t : List Char} {L M : Language Char} (h : SliceDenotes s L)
    (h' : SequenceDenotes t M) : SequenceDenotes ('(' :: (s ++ ')' :: t)) (L * M)
  | groups {s t : List Char} {L M : Language Char} (h : SliceDenotes s L) (q : Quantifier)
    (h' : SequenceDenotes t M) :
    SequenceDenotes ('(' :: (s ++ ')' :: q.toChar :: t)) (L * L * L∗ * M)

end

variable {c : Char} {s t u v : List Char} {L M : Language Char}

/-! ## Slices are balanced, and their bars decide how they are taken -/

mutual

/-- A slice that stands for something has its parentheses paired. -/
theorem SliceDenotes.balanced {s : List Char} {L : Language Char} (h : SliceDenotes s L) :
    Balanced s := by
  match h with
  | .union hu hv => exact hu.append (.cons (by decide) (by decide) hv)
  | .sequence h => exact h.balanced

theorem SequenceDenotes.balanced {s : List Char} {L : Language Char} (h : SequenceDenotes s L) :
    Balanced s := by
  match h with
  | .nil => exact .nil
  | .letter hc h => exact .cons hc.1 hc.2.1 h.balanced
  | .letters hc q h =>
    exact .cons hc.1 hc.2.1 ((Balanced.quantifiers [q]).append h.balanced)
  | .group h h' => exact .group h.balanced h'.balanced
  | .groups h q h' => exact .group h.balanced ((Balanced.quantifiers [q]).append h'.balanced)

end

/-- A sequence starts with an item. -/
theorem SequenceDenotes.head (h : SequenceDenotes (c :: t) L) : c = '(' ∨ IsOrdinary c := by
  generalize hs : c :: t = s at h
  cases h with
  | nil => cases hs
  | letter hc h =>
    cases hs
    exact .inr hc
  | letters hc q h =>
    cases hs
    exact .inr hc
  | group h h' =>
    cases hs
    exact .inl rfl
  | groups h q h' =>
    cases hs
    exact .inl rfl

/-- A sequence starts with no quantifier, which would have nothing to repeat. -/
theorem SequenceDenotes.ne_quantifier (h : SequenceDenotes s L) (q : Quantifier) (t : List Char) :
    s ≠ q.toChar :: t := by
  rintro rfl
  rcases h.head with hq | ⟨-, -, -, hstar, hplus⟩
  · cases q <;> cases hq
  · rcases q.toChar_eq with hq | hq
    · exact hstar hq
    · exact hplus hq

/-- Behind a character that is no parenthesis and no bar, the bar still stands open. -/
theorem Balanced.bar_behind_char (hu : Balanced u) (h : c :: t = u ++ '|' :: v) (hopen : c ≠ '(')
    (hbar : c ≠ '|') : ∃ u', Balanced u' ∧ t = u' ++ '|' :: v := by
  cases hu with
  | nil => exact absurd (List.cons.inj h).1 hbar
  | cons _ _ hu => exact ⟨_, hu, (List.cons.inj h).2⟩
  | group _ _ => exact absurd (List.cons.inj h).1 hopen

/-- Behind a group the bar stands open as well, since the parentheses of the group are paired with
each other. -/
theorem Balanced.bar_behind_group (hu : Balanced u) (hs : Balanced s)
    (h : '(' :: (s ++ ')' :: t) = u ++ '|' :: v) : ∃ u', Balanced u' ∧ t = u' ++ '|' :: v := by
  cases hu with
  | nil => cases (List.cons.inj h).1
  | cons hopen _ _ => exact absurd (List.cons.inj h).1.symm hopen
  | @group s' u' hs' hu' =>
    have htail : s ++ ')' :: t = s' ++ ')' :: (u' ++ '|' :: v) := by
      simpa using h
    exact ⟨u', hu', (hs.closed_unique hs' htail).2⟩

/-- The bars of a sequence stand inside its groups. -/
theorem SequenceDenotes.not_balanced {s u v : List Char} {L : Language Char}
    (h : SequenceDenotes s L) (hs : s = u ++ '|' :: v) : ¬Balanced u := by
  intro hu
  match h with
  | .nil => cases u <;> cases hs
  | .letter hc h =>
    rcases hu.bar_behind_char hs hc.1 hc.2.2.1 with ⟨u', hu', ht⟩
    exact h.not_balanced ht hu'
  | .letters hc q h =>
    -- neither the character nor its quantifier is the bar
    rcases hu.bar_behind_char hs hc.1 hc.2.2.1 with ⟨u', hu', ht⟩
    rcases hu'.bar_behind_char ht (by cases q <;> decide) (by cases q <;> decide) with
      ⟨u'', hu'', ht'⟩
    exact h.not_balanced ht' hu''
  | .group h h' =>
    rcases hu.bar_behind_group h.balanced hs with ⟨u', hu', ht⟩
    exact h'.not_balanced ht hu'
  | .groups h q h' =>
    rcases hu.bar_behind_group h.balanced hs with ⟨u', hu', ht⟩
    rcases hu'.bar_behind_char ht (by cases q <;> decide) (by cases q <;> decide) with
      ⟨u'', hu'', ht'⟩
    exact h'.not_balanced ht' hu''

/-! ## One language at most -/

mutual

/-- Two derivations of one slice end with the same language. By mutual induction on the first; a bar
at its own level decides between a union and a sequence, and the head of a sequence decides which
item it begins with. -/
theorem SliceDenotes.unique {s s' : List Char} {L M : Language Char} (h : SliceDenotes s L)
    (h' : SliceDenotes s' M) (hs : s = s') : L = M := by
  match h with
  | .union hu hv =>
    cases h' with
    | union hu' hv' => rw [hs]
    | sequence h' => exact absurd hu (h'.not_balanced hs.symm)
  | .sequence h =>
    cases h' with
    | union hu hv => exact absurd hu (h.not_balanced hs)
    | sequence h' => exact h.unique h' hs

/-- The same of a sequence. Whether a quantifier follows an item is seen from the text behind it,
which starts with no quantifier. -/
theorem SequenceDenotes.unique {s s' : List Char} {L M : Language Char}
    (h : SequenceDenotes s L) (h' : SequenceDenotes s' M) (hs : s = s') : L = M := by
  match h with
  | .nil =>
    cases h' with
    | nil => rfl
    | _ => cases hs
  -- the head of the text tells a letter from a group, and what follows tells whether it is repeated
  | .letter hc h =>
    cases h' with
    | nil => cases hs
    | letter hc' h' =>
      rcases List.cons.inj hs with ⟨rfl, ht⟩
      rw [h.unique h' ht]
    | letters hc' q h' => exact absurd (List.cons.inj hs).2 (h.ne_quantifier q _)
    | group h' h'' => exact absurd (List.cons.inj hs).1 hc.1
    | groups h' q h'' => exact absurd (List.cons.inj hs).1 hc.1
  | .letters hc q h =>
    cases h' with
    | nil => cases hs
    | letter hc' h' => exact absurd (List.cons.inj hs).2.symm (h'.ne_quantifier q _)
    | letters hc' q' h' =>
      rcases List.cons.inj hs with ⟨rfl, ht⟩
      rw [h.unique h' (List.cons.inj ht).2]
    | group h' h'' => exact absurd (List.cons.inj hs).1 hc.1
    | groups h' q' h'' => exact absurd (List.cons.inj hs).1 hc.1
  | .group h hrest =>
    cases h' with
    | nil => cases hs
    | letter hc' h' => exact absurd (List.cons.inj hs).1.symm hc'.1
    | letters hc' q' h' => exact absurd (List.cons.inj hs).1.symm hc'.1
    | group h' hrest' =>
      rcases h.balanced.closed_unique h'.balanced (List.cons.inj hs).2 with ⟨hs, ht⟩
      rw [h.unique h' hs, hrest.unique hrest' ht]
    | groups h' q' hrest' =>
      rcases h.balanced.closed_unique h'.balanced (List.cons.inj hs).2 with ⟨-, ht⟩
      exact absurd ht (hrest.ne_quantifier q' _)
  | .groups h q hrest =>
    cases h' with
    | nil => cases hs
    | letter hc' h' => exact absurd (List.cons.inj hs).1.symm hc'.1
    | letters hc' q' h' => exact absurd (List.cons.inj hs).1.symm hc'.1
    | group h' hrest' =>
      rcases h.balanced.closed_unique h'.balanced (List.cons.inj hs).2 with ⟨-, ht⟩
      exact absurd ht.symm (hrest'.ne_quantifier q _)
    | groups h' q' hrest' =>
      rcases h.balanced.closed_unique h'.balanced (List.cons.inj hs).2 with ⟨hs, ht⟩
      rw [h.unique h' hs, hrest.unique hrest' (List.cons.inj ht).2]

end

/-- A slice that stands for a language stands for no other. -/
theorem SliceDenotes.iff_eq (h : SliceDenotes s L) : SliceDenotes s M ↔ M = L := by
  constructor
  · intro h'
    exact h'.unique h rfl
  · rintro rfl
    exact h

end PatternGraph.Pattern
