import PatternGraph.Automaton.Basic

/-!
# Paths — the words that chains of edges spell

A path is a finite chain of edges of some relation; an ε edge adds nothing to the word it spells.
Paths compose, more edges make more paths, and an idle edge, which is an ε edge from a state to
itself, makes none.
-/

namespace PatternGraph

/-- A relation of edges: source, symbol and target. -/
abbrev EdgeRelation := StateId → Symbol → StateId → Prop

/-- A chain of edges from one state to another, and the word it spells. -/
inductive Path (E : EdgeRelation) : StateId → List Char → StateId → Prop where
  | nil (p : StateId) : Path E p [] p
  | cons {p q r : StateId} {s : Symbol} {w : List Char} (edge : E p s q) (rest : Path E q w r) :
    Path E p (s.char?.toList ++ w) r

namespace Path

variable {E F : EdgeRelation} {p q r : StateId} {s : Symbol} {u v w : List Char}

theorem epsilon (edge : E p .epsilon q) (rest : Path E q w r) : Path E p w r :=
  cons edge rest

theorem char {c : Char} (edge : E p (.char c) q) (rest : Path E q w r) : Path E p (c :: w) r :=
  cons edge rest

theorem single (edge : E p s q) : Path E p s.char?.toList q := by
  have h := cons edge (nil q)
  rwa [List.append_nil] at h

/-- Paths compose, and so do the words that they spell. -/
theorem append (h : Path E p u q) (h' : Path E q v r) : Path E p (u ++ v) r := by
  induction h with
  | nil => exact h'
  | cons edge _ ih =>
    rw [List.append_assoc]
    exact cons edge (ih h')

/-- More edges make more paths. -/
theorem mono (h : Path E p w q) (hle : ∀ p s q, E p s q → F p s q) : Path F p w q := by
  induction h with
  | nil p => exact nil p
  | cons edge _ ih => exact cons (hle _ _ _ edge) ih

/-- A path ends where it starts or at the end of an edge. -/
theorem eq_or_target (h : Path E p w r) : r = p ∨ ∃ x s, E x s r := by
  induction h with
  | nil p => exact .inl rfl
  | @cons p q r s w edge rest ih =>
    rcases ih with rfl | hr
    · exact .inr ⟨p, s, edge⟩
    · exact .inr hr

/-- A path starts where it ends or at the start of an edge. -/
theorem eq_or_source (h : Path E p w r) : p = r ∨ ∃ s y, E p s y := by
  cases h with
  | nil p => exact .inl rfl
  | cons edge rest => exact .inr ⟨_, _, edge⟩

/-- Idle edges lead nowhere: a relation without them has the same paths. -/
theorem iff_of_idle (hle : ∀ p s q, F p s q → E p s q)
    (hidle : ∀ p s q, E p s q → F p s q ∨ (s = .epsilon ∧ p = q)) :
    Path E p w q ↔ Path F p w q := by
  constructor
  -- an idle edge is left out, which changes neither the word nor the ends
  · intro h
    induction h with
    | nil p => exact nil p
    | cons edge _ ih =>
      rcases hidle _ _ _ edge with edge | ⟨rfl, rfl⟩
      · exact cons edge ih
      · exact ih
  · intro h
    exact h.mono hle

/-- A path that spells a character first takes ε edges, then an edge by that character. -/
theorem split_cons {c : Char} (h : Path E p (c :: w) q) :
    ∃ x y, Path E p [] x ∧ E x (.char c) y ∧ Path E y w q := by
  -- induction on the path as long as it takes ε edges; the word is fixed beforehand
  generalize hword : c :: w = word at h
  induction h with
  | nil p => cases hword
  | @cons p x r s v edge rest ih =>
    cases s with
    | epsilon =>
      rcases ih hword with ⟨y, z, hy, hc, hz⟩
      exact ⟨y, z, epsilon edge hy, hc, hz⟩
    | char d =>
      cases hword
      exact ⟨p, x, nil p, edge, rest⟩

end Path

end PatternGraph
