import PatternGraph.Proofs.Drawing.Totality
import PatternGraph.Proofs.Drawing.Tree
import Mathlib.Data.List.Chain

/-!
# Alike — texts that are drawn the same from the text and from the tree

1. `IsCore` are the texts in which both ways of drawing mean the same: no bars, no stars, and a plus
   behind ordinary characters only.
2. `Alike` compares drawings by what they make of every automaton, the numbers of new states
   included.
3. `alike_of_branches` follows a text of the core along the grammar. From an exclusive entry the
   drawing of the tree keeps every state it comes to exclusive, so the loop of a plus turns on the
   state that its character has just led to, where the descent has it turn as well.
-/

namespace PatternGraph

instance : DecidablePred IsOrdinary :=
  fun c => inferInstanceAs (Decidable (c ≠ '(' ∧ c ≠ ')' ∧ c ≠ '|' ∧ c ≠ '*' ∧ c ≠ '+'))

namespace Pattern

/-! ## The core -/

/-- A text without bars and stars in which every plus stands directly behind an ordinary
character. -/
structure IsCore (text : List Char) : Prop where
  no_bar : '|' ∉ text
  no_star : '*' ∉ text
  no_leading_plus : text.head? ≠ some '+'
  behind_ordinary : text.IsChain fun c d => d = '+' → IsOrdinary c

instance (text : List Char) : Decidable (IsCore text) :=
  decidable_of_iff
    ('|' ∉ text ∧ '*' ∉ text ∧ text.head? ≠ some '+' ∧
      text.IsChain fun c d => d = '+' → IsOrdinary c)
    ⟨fun ⟨hbar, hstar, hplus, hchain⟩ => ⟨hbar, hstar, hplus, hchain⟩,
      fun ⟨hbar, hstar, hplus, hchain⟩ => ⟨hbar, hstar, hplus, hchain⟩⟩

variable {s t u v : List Char} {atom : Pattern} {items branches : List Pattern}
  {qs : List Quantifier}

/-- A part of a text of the core that starts with no plus is of the core too. -/
theorem IsCore.part (h : IsCore t) (hs : s <:+: t) (hplus : s.head? ≠ some '+') : IsCore s where
  no_bar hmem := h.no_bar (hs.subset hmem)
  no_star hmem := h.no_star (hs.subset hmem)
  no_leading_plus := hplus
  behind_ordinary := h.behind_ordinary.infix hs

/-- What stands in front of a text of the core, up to any place, is of the core. -/
theorem IsCore.left (h : IsCore (s ++ t)) : IsCore s := by
  refine h.part (List.prefix_append s t).isInfix fun hplus => ?_
  cases s with
  | nil => cases hplus
  | cons c s => exact h.no_leading_plus hplus

/-- A text that can be read starts with no plus. -/
theorem Branches.no_leading_plus (h : Branches s branches) : s.head? ≠ some '+' := by
  intro hplus
  rcases List.head?_eq_some_iff.1 hplus with ⟨v, rfl⟩
  exact h.ne_quantifier .oneOrMore v rfl

theorem IsCore.right (h : IsCore (u ++ (v ++ t))) (ht : Items t items) : IsCore t :=
  h.part ⟨u ++ v, [], by simp⟩ (Branches.last ht).no_leading_plus

/-- The contents of a group of the core are of the core. -/
theorem IsCore.inside (h : IsCore ('(' :: (s ++ [')']))) (hs : Branches s branches) : IsCore s :=
  h.part ⟨['('], [')'], rfl⟩ hs.no_leading_plus

/-- A quantifier of the core is a plus, and no plus stands behind a plus. -/
theorem IsCore.unstacked (h : IsCore t) : Unstacked t := by
  rintro u v q r rfl
  cases r with
  | zeroOrMore =>
    exact absurd (List.mem_append_right u (List.mem_cons_of_mem _ List.mem_cons_self)) h.no_star
  | oneOrMore =>
    have hordinary := (List.isChain_cons_cons.1 h.behind_ordinary.right_of_append).1 rfl
    cases q with
    | zeroOrMore => exact absurd rfl hordinary.2.2.2.1
    | oneOrMore => exact absurd rfl hordinary.2.2.2.2

/-- Behind an atom stands no quantifier, or one plus behind a character. -/
theorem IsCore.quantified (h : IsCore (s ++ (qs.map Quantifier.toChar ++ t))) (hs : Atom s atom) :
    qs = [] ∨ (qs = [.oneOrMore] ∧ ∃ c, IsOrdinary c ∧ s = [c] ∧ atom = literal c) := by
  rcases h.unstacked.right.left.quantifiers with rfl | ⟨q, rfl⟩
  · exact .inl rfl
  · cases q with
    | zeroOrMore => exact absurd (List.mem_append_right s List.mem_cons_self) h.no_star
    | oneOrMore =>
      refine .inr ⟨rfl, ?_⟩
      cases hs with
      | literal hc => exact ⟨_, hc, rfl, rfl⟩
      | @group u _ _ =>
        -- the plus would stand behind the closing parenthesis
        have hchain := (List.isChain_append.1 h.behind_ordinary).2.2
        have hclose := hchain ')' (by simp [List.getLast?_cons]) '+' rfl rfl
        exact absurd rfl hclose.2.1

end Pattern

namespace Drawing

open Pattern

variable {a : Automaton} {entry : StateId} {c : Char} {d d' e e' : StateId → Drawing StateId}

/-! ## Drawings that make the same -/

/-- Behind any state of any automaton the two drawings make the same automaton and end in the same
state. -/
def Alike (d d' : StateId → Drawing StateId) : Prop :=
  ∀ a p, a.WellFormed → p < a.size → d p a = d' p a

/-- Drawings that make the same, put behind one another. The second ones start in the same state of
the same automaton, since the first ones have made them. -/
theorem Alike.append (h : Alike d d') (h' : Alike e e')
    (hd : ∀ a p, a.WellFormed → p < a.size → Completes (d' p) a) :
    Alike (fun p => d p >>= e) (fun p => d' p >>= e') := by
  intro a p ha hp
  rcases hd a p ha hp with ⟨m, b, hm, hb, -, hlt⟩
  have hm' : d p a = .ok (m, b) := (h a p ha hp).trans hm
  show (d p >>= e) a = (d' p >>= e') a
  rw [bind_eq_of_ok hm, bind_eq_of_ok hm']
  exact h' b m hb hlt

/-- Drawings that make the same make the same whole automaton. -/
theorem Alike.automaton_eq (h : Alike d d') : automaton d = automaton d' :=
  automaton_congr (h initialState 0 wellFormed_initialState size_initialState_pos)

/-! ## Items of the core -/

/-- The tree of a few items is drawn as the sequence of them, be there none, one or more. -/
theorem tree_ofItems (strict : Bool) (items : List Pattern) (entry : StateId) (exclusive : Bool) :
    tree strict (ofItems items) entry exclusive = sequence strict items entry exclusive := by
  match items with
  | [] => rw [ofItems, tree, sequence]
  | [item] =>
    rw [ofItems, sequence]
    simp only [sequence, bind_pure]
  | item :: item' :: items =>
    show tree strict (concat (item :: item' :: items)) entry exclusive = _
    rw [tree]

/-- Behind an exclusive entry every item of a sequence has an exclusive entry. -/
theorem sequence_exclusive (strict : Bool) (item : Pattern) (items : List Pattern)
    (entry : StateId) :
    sequence strict (item :: items) entry true
      = tree strict item entry true >>= fun next => sequence strict items next true := by
  rw [sequence]
  simp only [Bool.true_or]

/-- A state that was just made has only the edge that leads to it. -/
theorem hasEdges_step (ha : a.WellFormed) (hentry : entry < a.size) (s : Symbol) :
    (a.withState.withEdge entry s a.size).hasEdges a.size = false := by
  have hwf : (a.withState.withEdge entry s a.size).WellFormed :=
    ha.withState.withEdge Automaton.size_lt_size_withState
  rw [Bool.eq_false_iff, ne_eq, hwf.hasEdges_iff]
  rintro ⟨t, q, edge⟩
  exact ha.not_hasEdge_step hentry edge

/-- A character is drawn by the same three steps in both ways. -/
theorem alike_letter (c : Char) :
    Alike (fun p => do let next ← newState; addEdge p (.char c) next; pure next)
      (fun p => tree true (literal c) p true) := by
  intro a p _ _
  show _ = tree true (literal c) p true a
  rw [tree]

/-- A strict plus behind a character turns on the state that the character led to, like a
quantifier of the descent. -/
theorem alike_letters (c : Char) :
    Alike (fun p => do
        let loop ← (do let next ← newState; addEdge p (.char c) next; pure next)
        addEdge loop (.char c) loop
        pure loop)
      (fun p => tree true (closure (literal c) .oneOrMore) p true) := by
  intro a p ha hp
  have hstep := step_eq_ok ha hp (.char c)
  have honce : tree true (literal c) p true a
      = .ok (a.size, a.withState.withEdge p (.char c) a.size) :=
    (alike_letter c a p ha hp).symm.trans hstep
  -- nothing leaves the state that was just made, so the loop takes it and makes none
  have hloop := loopState_of_free (hasEdges_step ha hp (.char c))
  have hplus : tree true (closure (literal c) .oneOrMore) p true a
      = (do addEdge a.size (.char c) a.size; pure a.size : Drawing StateId)
          (a.withState.withEdge p (.char c) a.size) := by
    rw [tree, if_pos rfl, bind_eq_of_ok honce, Bool.true_or, star, bind_eq_of_ok hloop]
    rfl
  show _ = tree true (closure (literal c) .oneOrMore) p true a
  rw [hplus]
  exact bind_eq_of_ok hstep

/-- A first item and the items behind it. -/
theorem Alike.cons {item : Pattern} {items : List Pattern}
    (h : Alike d (fun p => tree true item p true))
    (h' : Alike e (fun p => sequence true items p true)) :
    Alike (fun p => d p >>= e) (fun p => sequence true (item :: items) p true) := by
  simp only [sequence_exclusive]
  exact h.append h' fun a p ha hp => (realizes_tree true item true ha hp).completes

/-! ## Texts of the core -/

mutual

/-- The two drawings of a text of the core, by induction on how the grammar derives it. The flag of
the tree is on from the entry to the end: that is the invariant, without which a plus would not turn
on the state before it. -/
theorem alike_of_branches {s : List Char} {branches : List Pattern} (h : Branches s branches)
    (hs : IsCore s) :
    Alike (fun p => slice s p p 0) (fun p => tree true (ofBranches branches) p true) := by
  match h with
  | .last hitems =>
    rcases exists_alike_of_items hitems hs with ⟨d, hdescends, halike⟩
    rw [hdescends.slice_eq]
    intro a p ha hp
    show d p a = tree true (ofItems _) p true a
    rw [tree_ofItems]
    exact halike a p ha hp
  | .bar hitems hbranches =>
    exact absurd (List.mem_append_right _ List.mem_cons_self) hs.no_bar

/-- The same of the items of a branch, with the drawing that the descent has for them. -/
theorem exists_alike_of_items {s : List Char} {items : List Pattern} (h : Items s items)
    (hs : IsCore s) :
    ∃ d, Descends s d ∧ Alike d (fun p => sequence true items p true) := by
  match h with
  | .nil =>
    refine ⟨pure, descends_nil, fun a p _ _ => ?_⟩
    show _ = sequence true [] p true a
    rw [sequence]
  | @Items.cons w t _ _ hatom qs hitems =>
    rcases exists_alike_of_items hitems (hs.right hitems) with ⟨d, hdescends, halike⟩
    rcases hs.quantified hatom with rfl | ⟨rfl, c, hc, rfl, rfl⟩
    · match hatom with
      -- a group has no quantifier behind it here, so its contents are drawn once, from the same
      -- state
      | .literal hc =>
        exact ⟨_, (descends_letter hc).append hdescends, (alike_letter _).cons halike⟩
      | @Atom.group s branches hbranches =>
        have hgroup := alike_of_branches hbranches (hs.left.inside hbranches)
        have htree : Alike (fun p => slice s p p 0)
            (fun p => tree true (group (ofBranches branches)) p true) := by
          intro a p ha hp
          show slice s p p 0 a = tree true (group (ofBranches branches)) p true a
          rw [tree]
          exact hgroup a p ha hp
        exact ⟨_, (descends_group hbranches.balanced).append hdescends, htree.cons halike⟩
    · exact ⟨_, (descends_letters hc .oneOrMore).append hdescends, (alike_letters c).cons halike⟩

end

end Drawing

end PatternGraph
