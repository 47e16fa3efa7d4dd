import PatternGraph.Proofs.Pattern.Descent
import PatternGraph.Proofs.Pattern.Language
import Mathlib.Order.CompletePartialOrder

/-!
# Plain unions — where the descent stays within the language of the grammar

The textual descent takes the pieces of a union as they are written. That is what the grammar makes
of them too, as long as a union has no parentheses and no quantifiers in its branches.

1. `HasPlainUnions` says so of all slices of a text.
2. `SliceDenotes.exists_le` follows the items of a slice: each of them stands for words that the
   grammar gives to it as well, because both quantifiers of the descent demand more than those of
   the grammar do.
-/

namespace PatternGraph

open scoped Computability

/-! ## Quantifiers -/

/-- Whatever a quantifier demands, it allows one item or more. -/
theorem Quantifier.mul_kstar_le (strict : Bool) (q : Quantifier) (L : Language Char) :
    L * L∗ ≤ q.language strict L := by
  cases q with
  | zeroOrMore => exact mul_kstar_le_kstar
  | oneOrMore =>
    cases strict
    · exact mul_kstar_le_kstar
    · exact le_refl _

theorem Quantifier.toChar_ne_opening (q : Quantifier) : q.toChar ≠ '(' := by
  cases q <;> decide

/-- More words to repeat give no fewer words. -/
theorem Quantifier.language_mono (strict : Bool) (q : Quantifier) {L M : Language Char}
    (h : L ≤ M) : q.language strict L ≤ q.language strict M := by
  have hstar : L∗ ≤ M∗ := kstar_mono h
  cases q with
  | zeroOrMore => exact hstar
  | oneOrMore =>
    cases strict
    · exact hstar
    · exact mul_le_mul' h hstar

namespace Pattern

variable {c : Char} {s t u v text slice : List Char} {L M : Language Char} {strict : Bool}

/-! ## Slices and their unions -/

/-- A slice of a text is all of it, or what one of its groups contains. -/
def IsSlice (text slice : List Char) : Prop :=
  slice = text ∨ ∃ u v, text = u ++ '(' :: (slice ++ ')' :: v) ∧ Balanced slice

/-- A bar of the text stands outside all its parentheses. -/
def HasOpenBar (text : List Char) : Prop :=
  ∃ u v, text = u ++ '|' :: v ∧ Balanced u

/-- The text has neither parentheses nor quantifiers. -/
def IsPlain (text : List Char) : Prop :=
  ∀ c ∈ text, c ≠ '(' ∧ c ≠ ')' ∧ c ≠ '*' ∧ c ≠ '+'

instance (text : List Char) : Decidable (IsPlain text) :=
  List.decidableBAll (fun c => c ≠ '(' ∧ c ≠ ')' ∧ c ≠ '*' ∧ c ≠ '+') text

/-- The unions of the text, in whatever group they stand, are plain. -/
def HasPlainUnions (text : List Char) : Prop :=
  ∀ slice, IsSlice text slice → HasOpenBar slice → IsPlain slice

/-- The unions in the groups of the text are plain. -/
def HasPlainGroups (text : List Char) : Prop :=
  ∀ u slice v, text = u ++ '(' :: (slice ++ ')' :: v) → Balanced slice → HasOpenBar slice →
    IsPlain slice

/-- The unions of a text are the text itself, if it is one, and those in its groups. -/
theorem hasPlainUnions_iff :
    HasPlainUnions text ↔ (HasOpenBar text → IsPlain text) ∧ HasPlainGroups text := by
  constructor
  · intro h
    refine ⟨h text (.inl rfl), fun u slice v htext hslice => ?_⟩
    exact h slice (.inr ⟨u, v, htext, hslice⟩)
  · rintro ⟨hwhole, hgroups⟩ slice (rfl | ⟨u, v, htext, hslice⟩)
    · exact hwhole
    · exact hgroups u slice v htext hslice

/-- The groups in a part of a text are groups of the text. -/
theorem HasPlainGroups.part (h : HasPlainGroups (u ++ (t ++ v))) : HasPlainGroups t := by
  intro x slice y ht hslice
  refine h (u ++ x) slice (y ++ v) ?_ hslice
  rw [ht]
  simp

theorem hasPlainGroups_nil : HasPlainGroups [] := by
  intro u slice v htext
  cases u <;> cases htext

/-- A character that opens no group adds no group to a text. -/
theorem hasPlainGroups_cons_iff (hc : c ≠ '(') : HasPlainGroups (c :: t) ↔ HasPlainGroups t := by
  constructor
  · intro h
    have h' : HasPlainGroups ([c] ++ (t ++ [])) := by simpa using h
    exact h'.part
  · intro h u slice v htext
    cases u with
    | nil => exact absurd (List.cons.inj htext).1 hc
    | cons x u => exact h u slice v (List.cons.inj htext).2

/-- The groups of a text that starts with a group are this one, those in it, and those behind
it. -/
theorem hasPlainGroups_group_iff (hs : Balanced s) :
    HasPlainGroups ('(' :: (s ++ ')' :: t)) ↔ HasPlainUnions s ∧ HasPlainGroups t := by
  constructor
  · intro h
    have hin : HasPlainGroups (['('] ++ (s ++ ')' :: t)) := h
    have hbehind : HasPlainGroups (('(' :: (s ++ [')'])) ++ (t ++ [])) := by simpa using h
    exact ⟨hasPlainUnions_iff.2 ⟨h [] s t rfl hs, hin.part⟩, hbehind.part⟩
  · rintro ⟨hslice, hrest⟩ u slice v htext hbalanced
    rcases hasPlainUnions_iff.1 hslice with ⟨hwhole, hinside⟩
    cases u with
    | nil =>
      rcases hs.closed_unique hbalanced (List.cons.inj htext).2 with ⟨rfl, -⟩
      exact hwhole
    | cons x u =>
      -- a group of the text other than the first one opens behind it or inside it
      rcases List.append_eq_append_iff.1 (List.cons.inj htext).2 with
        ⟨front, rfl, hfront⟩ | ⟨back, rfl, hback⟩
      · -- the group stands behind the first one
        cases front with
        | nil => cases (List.cons.inj hfront).1
        | cons y front => exact hrest front slice v (List.cons.inj hfront).2 hbalanced
      · -- the group stands inside the first one, and so does its closing parenthesis
        cases back with
        | nil => cases (List.cons.inj hback).1
        | cons y back =>
          rw [List.cons_append] at hback
          rcases List.cons.inj hback with ⟨rfl, hclosed⟩
          rcases hs.exists_closing rfl with ⟨inner, rest, rfl, hinner⟩
          rw [List.append_assoc, List.cons_append] at hclosed
          rcases hbalanced.closed_unique hinner hclosed with ⟨rfl, -⟩
          exact hinside u slice rest rfl hbalanced

/-! ## Unions -/

/-- A text of ordinary characters is a word of what it denotes, namely the only one. -/
theorem exists_itemsDenote_of_ordinary (hs : ∀ c ∈ s, IsOrdinary c) :
    ∃ M, ItemsDenote strict s M ∧ s ∈ M := by
  induction s with
  | nil => exact ⟨1, .nil, Language.nil_mem_one⟩
  | cons c t ih =>
    rcases ih fun d hd => hs d (List.mem_cons_of_mem c hd) with ⟨M, hM, ht⟩
    have hc : IsOrdinary c := hs c List.mem_cons_self
    have hword : [c] ++ t ∈ ({[c]} * M : Language Char) :=
      Language.append_mem_mul (Set.mem_singleton [c]) ht
    exact ⟨{[c]} * M, .cons (.literal hc) [] hM, hword⟩

/-- Without bars a plain text is one of ordinary characters. -/
theorem IsPlain.isOrdinary (hs : IsPlain s) (hbar : '|' ∉ s) : ∀ c ∈ s, IsOrdinary c := by
  intro c hc
  rcases hs c hc with ⟨hopen, hclose, hstar, hplus⟩
  refine ⟨hopen, hclose, ?_, hstar, hplus⟩
  rintro rfl
  exact hbar hc

/-- A plain text has no parentheses to pair. -/
theorem IsPlain.balanced (hs : IsPlain s) : Balanced s :=
  Balanced.of_notMem (fun hopen => (hs _ hopen).1 rfl) fun hclose => (hs _ hclose).2.1 rfl

/-- A plain text has no groups, so that it is its only slice. -/
theorem IsPlain.hasPlainUnions (hs : IsPlain s) : HasPlainUnions s := by
  rw [hasPlainUnions_iff]
  refine ⟨fun _ => hs, fun u slice v htext => ?_⟩
  have hopen : '(' ∈ s := by
    rw [htext]
    exact List.mem_append_right _ List.mem_cons_self
  exact absurd rfl (hs '(' hopen).1

/-- The pieces of a plain union are words of its branches, the empty ones as well. -/
theorem IsPlain.exists_branchesDenote {s : List Char} (hs : IsPlain s) :
    ∃ M, BranchesDenote strict s M ∧ ∀ piece ∈ s.splitOn '|', piece ∈ M := by
  by_cases hbar : '|' ∈ s
  · -- the first branch ends at the first bar, and what is behind it is a shorter plain text
    rcases List.eq_append_cons_of_mem hbar with ⟨u, v, hsplit, hu⟩
    have hlength : v.length < s.length := by
      rw [hsplit]
      simp only [List.length_append, List.length_cons]
      omega
    rw [hsplit] at hs ⊢
    have hplain : IsPlain u := fun c hc => hs c (List.mem_append_left _ hc)
    have hplain' : IsPlain v := fun c hc =>
      hs c (List.mem_append_right _ (List.mem_cons_of_mem _ hc))
    rcases exists_itemsDenote_of_ordinary (hplain.isOrdinary hu) with ⟨L, hL, hword⟩
    rcases hplain'.exists_branchesDenote with ⟨M, hM, hpieces⟩
    refine ⟨L + M, .bar hL hM, fun piece hpiece => ?_⟩
    rw [List.splitOn_append_cons_self_of_not_mem hu] at hpiece
    rcases List.mem_cons.1 hpiece with rfl | hpiece
    · exact .inl hword
    · exact .inr (hpieces piece hpiece)
  · rcases exists_itemsDenote_of_ordinary (hs.isOrdinary hbar) with ⟨M, hM, hword⟩
    refine ⟨M, .last hM, fun piece hpiece => ?_⟩
    rw [List.splitOn_eq_singleton hbar] at hpiece
    rwa [List.mem_singleton.1 hpiece]
termination_by s.length
decreasing_by exact hlength

/-! ## Slices -/

mutual

/-- What a slice stands for, the grammar gives to it too, as long as its unions are plain. -/
theorem SliceDenotes.exists_le {s : List Char} {L : Language Char} (h : SliceDenotes s L)
    (hs : HasPlainUnions s) : ∃ M, BranchesDenote strict s M ∧ L ≤ M := by
  match h with
  | .union (u := u) (v := v) hu hv =>
    -- the slice is a union, so it is plain by assumption and its pieces are its branches
    have hplain : IsPlain (u ++ '|' :: v) := hs _ (.inl rfl) ⟨u, v, rfl, hu⟩
    rcases hplain.exists_branchesDenote with ⟨M, hM, hpieces⟩
    exact ⟨M, hM, fun word hword => hpieces word hword.2⟩
  | .sequence h =>
    rcases h.exists_le (hasPlainUnions_iff.1 hs).2 with ⟨M, hM, hle⟩
    exact ⟨M, .last hM, hle⟩

/-- Item by item, the items of a slice stand for no more than those of the grammar. -/
theorem SequenceDenotes.exists_le {s : List Char} {L : Language Char} (h : SequenceDenotes s L)
    (hs : HasPlainGroups s) : ∃ M, ItemsDenote strict s M ∧ L ≤ M := by
  match h with
  | .nil => exact ⟨1, .nil, le_refl 1⟩
  | .letter hc h =>
    rcases h.exists_le ((hasPlainGroups_cons_iff hc.1).1 hs) with ⟨M, hM, hle⟩
    exact ⟨_, .cons (.literal hc) [] hM, mul_le_mul' (le_refl _) hle⟩
  | .letters hc q h =>
    -- a quantifier opens no group either
    rw [hasPlainGroups_cons_iff hc.1, hasPlainGroups_cons_iff q.toChar_ne_opening] at hs
    rcases h.exists_le hs with ⟨M, hM, hle⟩
    exact ⟨_, .cons (.literal hc) [q] hM, mul_le_mul' (q.mul_kstar_le strict _) hle⟩
  | .group h h' =>
    rcases (hasPlainGroups_group_iff h.balanced).1 hs with ⟨hslice, hrest⟩
    rcases h.exists_le hslice with ⟨L', hL', hle⟩
    rcases h'.exists_le hrest with ⟨M, hM, hle'⟩
    have hitems := ItemsDenote.cons (.group hL') [] hM
    simp only [List.map_nil, List.nil_append, List.cons_append, List.append_assoc] at hitems
    exact ⟨_, hitems, mul_le_mul' hle hle'⟩
  | .groups (L := L) h q h' =>
    rcases (hasPlainGroups_group_iff h.balanced).1 hs with ⟨hslice, hrest⟩
    rcases h.exists_le hslice with ⟨L', hL', hle⟩
    rw [hasPlainGroups_cons_iff q.toChar_ne_opening] at hrest
    rcases h'.exists_le hrest with ⟨M, hM, hle'⟩
    have hitems := ItemsDenote.cons (.group hL') [q] hM
    simp only [List.map_cons, List.map_nil, List.cons_append, List.append_assoc,
      List.nil_append] at hitems
    -- two copies or more are one copy or more
    have htwo : L * L * L∗ ≤ q.language strict L' :=
      calc L * L * L∗ = L * (L * L∗) := mul_assoc L L L∗
        _ ≤ L * L∗ := mul_le_mul' (le_refl L) mul_kstar_le_kstar
        _ ≤ q.language strict L := q.mul_kstar_le strict L
        _ ≤ q.language strict L' := q.language_mono strict hle
    exact ⟨_, hitems, mul_le_mul' htwo hle'⟩

end

end Pattern

end PatternGraph
