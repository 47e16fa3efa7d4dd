import PatternGraph.Drawing.Basic
import PatternGraph.Proofs.Automaton.Growth
import PatternGraph.Proofs.Automaton.Words

/-!
# Fragments — what a piece of a drawing adds to the automaton

1. `Automaton.Moves` leaves idle edges out of the edge relation; they make no difference to paths.
2. `Fragment a b E entry exit ends` says that the automaton `a` was drawn on to `b` behind the
   state `entry`: the edges `E` are added, they leave only `entry` and new states, and they lead
   only to new states and to `ends`.
3. Fragments are put behind one another (`Fragment.words_append`, and with an edge back
   `Fragment.words_again`) and beside one another (`Fragment.words_sup`); new states keep them apart
   as the rules of `EdgeRelation.words` ask.
-/

namespace PatternGraph

open scoped Computability

/-! ## Edges that make a difference -/

namespace Automaton

/-- An edge that is not an ε edge from a state to itself. -/
def Moves (a : Automaton) : EdgeRelation :=
  fun p s q => a.HasEdge p s q ∧ ¬(s = .epsilon ∧ p = q)

variable {a b : Automaton} {p q x y : StateId} {s t : Symbol} {w : List Char}

/-- An idle edge can be left out of every path, so the words between two states stay the same
without them. -/
theorem path_moves_iff : Path a.HasEdge p w q ↔ Path a.Moves p w q := by
  refine Path.iff_of_idle (fun p s q edge => edge.1) fun p s q edge => ?_
  by_cases hidle : s = .epsilon ∧ p = q
  · exact .inr hidle
  · exact .inl ⟨edge, hidle⟩

theorem WellFormed.moves_withState (h : a.WellFormed) :
    a.withState.Moves x t y ↔ a.Moves x t y := by
  unfold Moves
  rw [h.hasEdge_withState]

/-- An edge that is no idle one is one edge more. -/
theorem WellFormed.moves_withEdge (h : a.WellFormed) (hp : p < a.size) (hq : q < a.size)
    (hmove : s ≠ .epsilon ∨ p ≠ q) :
    (a.withEdge p s q).Moves x t y ↔ a.Moves x t y ∨ EdgeRelation.one p s q x t y := by
  unfold Moves EdgeRelation.one
  rw [h.hasEdge_withEdge hp hq]
  grind

/-- An idle edge makes no difference, be it new or there already. -/
theorem WellFormed.moves_withEdge_idle (h : a.WellFormed) (hp : p < a.size) :
    (a.withEdge p .epsilon p).Moves x t y ↔ a.Moves x t y := by
  unfold Moves
  rw [h.hasEdge_withEdge hp hp]
  grind

theorem WellFormed.moves_withFinal (h : a.WellFormed) :
    (a.withFinal p).Moves x t y ↔ a.Moves x t y := by
  unfold Moves
  rw [h.hasEdge_withFinal]

/-- Nothing moves away from a state that no edge leaves. -/
theorem WellFormed.not_moves (h : a.WellFormed) (hp : a.hasEdges p = false) (s : Symbol)
    (q : StateId) : ¬a.Moves p s q := by
  intro edge
  have htrue : a.hasEdges p = true := h.hasEdges_iff.2 ⟨s, q, edge.1⟩
  rw [hp] at htrue
  cases htrue

end Automaton

/-! ## Fragments -/

/-- The automaton `a` was drawn on to `b` by the edges `E`, from the state `entry` on up to the
state `exit`; `ends` are the old states that edges may lead to. -/
structure Fragment (a b : Automaton) (E : EdgeRelation) (entry exit : StateId)
    (ends : Set StateId) : Prop where
  wellFormed : b.WellFormed
  entry_lt : entry < a.size
  size_le : a.size ≤ b.size
  isFinal_eq : ∀ x, b.isFinal x = a.isFinal x
  moves_iff : ∀ p s q, b.Moves p s q ↔ a.Moves p s q ∨ E p s q
  source : ∀ p s q, E p s q → p = entry ∨ a.size ≤ p
  target : ∀ p s q, E p s q → a.size ≤ q ∨ q ∈ ends
  exit_lt : exit < b.size
  exit_mem : exit = entry ∨ a.size ≤ exit ∨ exit ∈ ends

namespace Fragment

variable {a b c : Automaton} {E F : EdgeRelation} {entry exit m p q : StateId} {s : Symbol}
  {ends ends' : Set StateId}

/-- Every edge of a fragment is between states of what was drawn. What is drawn later starts beyond
these, and that alone is what keeps the edges of two fragments apart. -/
theorem edge_lt (h : Fragment a b E entry exit ends) (edge : E p s q) :
    p < b.size ∧ q < b.size :=
  h.wellFormed.edge_lt ((h.moves_iff p s q).2 (.inr edge)).1

/-- A fragment ends where it started or in a state of its own, as long as no other end is allowed.
-/
theorem exit_eq_or_le (h : Fragment a b E entry exit ends) (hends : ends ⊆ {entry}) :
    exit = entry ∨ a.size ≤ exit := by
  rcases h.exit_mem with hexit | hexit | hexit
  · exact .inl hexit
  · exact .inr hexit
  · exact .inl (hends hexit)

/-- No edge leads back to the entry unless the entry is an end. -/
theorem not_return (h : Fragment a b E entry exit ends) (hentry : entry ∉ ends) (x : StateId)
    (s : Symbol) : ¬E x s entry := by
  intro edge
  rcases h.target _ _ _ edge with hnew | hold
  · exact absurd h.entry_lt (Nat.not_lt.2 hnew)
  · exact hentry hold

/-- Nothing leads back to the entry, so no word but the empty one stands between it and itself. -/
theorem words_entry (h : Fragment a b E entry exit ∅) : E.words entry entry = 1 :=
  EdgeRelation.words_self (h.not_return (Set.notMem_empty entry))

/-! ### Single steps -/

/-- Nothing drawn is a fragment of no edges. -/
theorem refl (ha : a.WellFormed) (hentry : entry < a.size) (ends : Set StateId) :
    Fragment a a ⊥ entry entry ends where
  wellFormed := ha
  entry_lt := hentry
  size_le := Nat.le_refl _
  isFinal_eq _ := rfl
  moves_iff _ _ _ := ⟨.inl, fun h => h.elim id False.elim⟩
  source _ _ _ := False.elim
  target _ _ _ := False.elim
  exit_lt := hentry
  exit_mem := .inl rfl

/-- Any state of the fragment may be looked at as its exit. -/
theorem withExit (h : Fragment a b E entry exit ends) (hlt : q < b.size)
    (hmem : q = entry ∨ a.size ≤ q ∨ q ∈ ends) : Fragment a b E entry q ends :=
  { h with exit_lt := hlt, exit_mem := hmem }

/-- More states may be allowed as ends. -/
theorem mono (h : Fragment a b E entry exit ends) (hends : ends ⊆ ends') :
    Fragment a b E entry exit ends' where
  __ := h
  target p s q edge := (h.target p s q edge).imp_right fun hq => hends hq
  exit_mem := h.exit_mem.imp_right fun hq => hq.imp_right fun hq => hends hq

/-- A new state, which may be the exit from now on. -/
theorem withState (h : Fragment a b E entry exit ends) :
    Fragment a b.withState E entry b.size ends where
  wellFormed := h.wellFormed.withState
  entry_lt := h.entry_lt
  size_le := by
    rw [Automaton.size_withState]
    exact Nat.le_succ_of_le h.size_le
  isFinal_eq x := by rw [Automaton.isFinal_withState, h.isFinal_eq]
  moves_iff p s q := by rw [h.wellFormed.moves_withState, h.moves_iff]
  source := h.source
  target := h.target
  exit_lt := by simp
  exit_mem := .inr (.inl h.size_le)

/-- A new edge, whose target may be the exit from now on. -/
theorem withEdge (h : Fragment a b E entry exit ends) (hp : p < b.size) (hq : q < b.size)
    (hmove : s ≠ .epsilon ∨ p ≠ q) (hsource : p = entry ∨ a.size ≤ p)
    (htarget : a.size ≤ q ∨ q ∈ ends') (hends : ends ⊆ ends') :
    Fragment a (b.withEdge p s q) (E ⊔ EdgeRelation.one p s q) entry q ends' where
  wellFormed := h.wellFormed.withEdge hq
  entry_lt := h.entry_lt
  size_le := by
    rw [Automaton.size_withEdge]
    exact h.size_le
  isFinal_eq x := by rw [Automaton.isFinal_withEdge, h.isFinal_eq]
  moves_iff x t y := by
    rw [h.wellFormed.moves_withEdge hp hq hmove, h.moves_iff]
    exact or_assoc
  source x t y := by
    rintro (edge | ⟨rfl, -, -⟩)
    · exact h.source _ _ _ edge
    · exact hsource
  target x t y := by
    rintro (edge | ⟨-, -, rfl⟩)
    · exact (h.target _ _ _ edge).imp_right fun hy => hends hy
    · exact htarget
  exit_lt := by
    rw [Automaton.size_withEdge]
    exact hq
  exit_mem := .inr htarget

/-- An edge to a new state. -/
theorem step (ha : a.WellFormed) (hentry : entry < a.size) (s : Symbol) (ends : Set StateId) :
    Fragment a (a.withState.withEdge entry s a.size) (EdgeRelation.one entry s a.size) entry a.size
      ends := by
  have hstate := (refl ha hentry ends).withState
  have hlt : entry < a.withState.size := Automaton.lt_size_withState hentry
  have h := hstate.withEdge (s := s) hlt hstate.exit_lt (.inr (Nat.ne_of_lt hentry)) (.inl rfl)
    (.inl (Nat.le_refl _)) (Set.Subset.refl ends)
  rw [bot_sup_eq] at h
  exact h

/-- An edge by a character from a state to itself. -/
theorem turn (ha : a.WellFormed) (hentry : entry < a.size) (c : Char) :
    Fragment a (a.withEdge entry (.char c) entry) (EdgeRelation.one entry (.char c) entry) entry
      entry {entry} := by
  have hmem : a.size ≤ entry ∨ entry ∈ ({entry} : Set StateId) := .inr rfl
  have h := (refl ha hentry {entry}).withEdge (s := .char c) hentry hentry
    (.inl Symbol.noConfusion) (.inl rfl) hmem (Set.Subset.refl _)
  rw [bot_sup_eq] at h
  exact h

/-- An idle edge is as good as none. -/
theorem withEdge_idle (h : Fragment a b E entry exit ends) (hp : p < b.size) :
    Fragment a (b.withEdge p .epsilon p) E entry exit ends where
  wellFormed := h.wellFormed.withEdge hp
  entry_lt := h.entry_lt
  size_le := by
    rw [Automaton.size_withEdge]
    exact h.size_le
  isFinal_eq x := by rw [Automaton.isFinal_withEdge, h.isFinal_eq]
  moves_iff x t y := by rw [h.wellFormed.moves_withEdge_idle hp, h.moves_iff]
  source := h.source
  target := h.target
  exit_lt := by
    rw [Automaton.size_withEdge]
    exact h.exit_lt
  exit_mem := h.exit_mem

/-! ### Fragments together -/

/-- Two fragments drawn after one another are one fragment, wherever the second one starts among
the states that belong to the first. -/
theorem trans (h : Fragment a b E entry m ends) (h' : Fragment b c F p exit ends')
    (hp : p = entry ∨ a.size ≤ p) {outer : Set StateId} (hends : ends ⊆ outer)
    (hends' : ∀ q ∈ ends', a.size ≤ q ∨ q ∈ outer) :
    Fragment a c (E ⊔ F) entry exit outer where
  wellFormed := h'.wellFormed
  entry_lt := h.entry_lt
  size_le := Nat.le_trans h.size_le h'.size_le
  isFinal_eq x := (h'.isFinal_eq x).trans (h.isFinal_eq x)
  moves_iff x t y := by
    rw [h'.moves_iff, h.moves_iff]
    exact or_assoc
  source x t y := by
    have hle := h.size_le
    rintro (edge | edge)
    · exact h.source _ _ _ edge
    · -- an edge of the second leaves its start, which belongs to the first, or a newer state
      rcases h'.source _ _ _ edge with rfl | hx
      · exact hp
      · exact .inr (Nat.le_trans hle hx)
  target x t y := by
    rintro (edge | edge)
    · exact (h.target _ _ _ edge).imp_right fun hy => hends hy
    · rcases h'.target _ _ _ edge with hy | hy
      · exact .inl (Nat.le_trans h.size_le hy)
      · exact hends' y hy
  exit_lt := h'.exit_lt
  exit_mem := by
    rcases h'.exit_mem with rfl | hexit | hexit
    · exact hp.imp_right .inl
    · exact .inr (.inl (Nat.le_trans h.size_le hexit))
    · exact .inr (hends' exit hexit)

/-- What a fragment reaches is older than what is drawn after it. -/
theorem lt_of_visits (h : Fragment a b E entry m ends) (hx : E.Visits entry p) : p < b.size := by
  rcases hx with rfl | ⟨y, s, edge⟩
  · exact Nat.lt_of_lt_of_le h.entry_lt h.size_le
  · exact (h.edge_lt edge).2

/-- A fragment that is drawn after another leads to new states, from which the other does not go
on. -/
theorem notFollowedBy (h : Fragment a b E entry m ends) (h' : Fragment b c F p exit ends')
    (hfree : ∀ q ∈ ends', ∀ s r, ¬E q s r) : F.NotFollowedBy E := by
  intro x s y t z edge next
  rcases h'.target _ _ _ edge with hy | hy
  · exact absurd (h.edge_lt next).1 (Nat.not_lt.2 hy)
  · exact hfree y hy t z next

/-- What a fragment reaches and a later one leaves is where the later one starts. -/
theorem eq_of_visits (h : Fragment a b E entry m ends) (h' : Fragment b c F p exit ends')
    {x : StateId} (hx : E.Visits entry x) (hleaves : ∃ s y, F x s y) : x = p := by
  rcases hleaves with ⟨s, y, edge⟩
  rcases h'.source _ _ _ edge with hp | hnew
  · exact hp
  · exact absurd (h.lt_of_visits hx) (Nat.not_lt.2 hnew)

/-- The words through two fragments of which the second starts where the first one ends. What the
second one leads back to must not be left by the first, and an exit among that must not be reached
before. -/
theorem words_append (h : Fragment a b E entry m ends) (h' : Fragment b c F m exit ends')
    (hfree : ∀ q ∈ ends', ∀ s r, ¬E q s r)
    (hexit : exit ∈ ends' → exit = m ∨ (exit ≠ entry ∧ ∀ x s, ¬E x s exit)) :
    (E ⊔ F).words entry exit = E.words entry m * F.words m exit := by
  refine EdgeRelation.words_append (h.notFollowedBy h' hfree) fun x hx hx' => ?_
  rcases hx' with rfl | hleaves
  · -- the path may also end where it changes over: then its end is the exit
    rcases h'.exit_mem with hm | hnew | hold
    · exact hm
    · exact absurd (h.lt_of_visits hx) (Nat.not_lt.2 hnew)
    · rcases hexit hold with hm | ⟨hne, hnone⟩
      · exact hm
      · rcases hx with hx | ⟨y, s, edge⟩
        · exact absurd hx hne
        · exact absurd edge (hnone y s)
  · exact h.eq_of_visits h' hx hleaves

/-- Two fragments behind one another of which neither leads to an old state. -/
theorem append (h : Fragment a b E entry m ∅) (h' : Fragment b c F m exit ∅) :
    Fragment a c (E ⊔ F) entry exit ∅ ∧
      (E ⊔ F).words entry exit = E.words entry m * F.words m exit := by
  constructor
  · exact h.trans h' (h.exit_eq_or_le (Set.empty_subset _)) (Set.Subset.refl ∅)
      fun q hq => absurd hq (Set.notMem_empty q)
  · exact h.words_append h' (fun q hq => absurd hq (Set.notMem_empty q))
      fun hexit => absurd hexit (Set.notMem_empty exit)

/-- The words through two fragments behind one another that stand for the same language, with an
edge from the second exit back to the first. -/
theorem words_again (h : Fragment a b E entry m ∅) (h' : Fragment b c F m exit ∅)
    (hexit : exit ≠ m) (hsame : F.words m exit = E.words entry m) :
    (E ⊔ F ⊔ EdgeRelation.one exit .epsilon m).words entry exit
      = E.words entry m * E.words entry m * (E.words entry m)∗ := by
  have hnew : b.size ≤ exit := (h'.exit_eq_or_le (Set.empty_subset _)).resolve_left hexit
  have hfollow : F.NotFollowedBy E := h.notFollowedBy h' fun q hq => absurd hq (Set.notMem_empty q)
  refine EdgeRelation.words_again hfollow (fun x => h.eq_of_visits h') hexit ?_ hsame
  intro hx
  exact Nat.not_lt.2 hnew (h.lt_of_visits hx)

/-- The words through two fragments that start at the same state, to which neither returns. -/
theorem words_sup (h : Fragment a b E entry m ends) (h' : Fragment b c F entry exit ends')
    (hentry : entry ∉ ends) (hentry' : entry ∉ ends') (hends' : ∀ q ∈ ends', q < a.size)
    (r : StateId) :
    (E ⊔ F).words entry r = E.words entry r + F.words entry r := by
  have hle := h.size_le
  have hlt := h.entry_lt
  apply EdgeRelation.words_sup
  -- an edge of the first does not lead on into the second: the two share nothing but the entry
  · intro x s y t z edge next
    have hy := (h.edge_lt edge).2
    rcases h'.source _ _ _ next with rfl | hnew
    · rcases h.target _ _ _ edge with hold | hold
      · exact Nat.not_le.2 hlt hold
      · exact hentry hold
    · exact Nat.not_le.2 hy hnew
  -- nor the other way round, as what the second leads to is new or older than both
  · intro x s y t z edge next
    have hy := (h.edge_lt next).1
    rcases h'.target _ _ _ edge with hnew | hold
    · exact Nat.not_le.2 hy hnew
    · have hold' := hends' y hold
      rcases h.source _ _ _ next with rfl | hnew
      · exact hentry' hold
      · exact Nat.not_le.2 hold' hnew

end Fragment

end PatternGraph
