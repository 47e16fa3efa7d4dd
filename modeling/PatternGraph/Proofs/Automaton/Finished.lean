import PatternGraph.Proofs.Automaton.Growth
import Mathlib.Data.List.Nodup

/-!
# Finished automata — what a compilation hands over

An automaton in the making is well formed; one that is handed over has one final state besides.
`Finished` says both in terms of what the automaton shows.
-/

namespace PatternGraph.Automaton

/-- What holds of an automaton that a compilation returns. -/
structure Finished (a : Automaton) : Prop where
  /-- A word starts in the first state. -/
  initial_eq : a.initial = 0
  /-- The next identifier is the number of states. -/
  nextId_eq : a.nextId = a.size
  /-- A state is identified by its place. -/
  id_eq : ∀ p state, a.state? p = some state → state.id = p
  /-- No edge leads out of the automaton. -/
  target_lt : ∀ edge ∈ a.edges, edge.target < a.size
  /-- A word may end in one state only. -/
  exists_finals_eq : ∃ q, a.finals = [q]

variable {a : Automaton} {q : StateId}

/-- The states are listed in the order of their identifiers. -/
theorem WellFormed.map_id_states (h : a.WellFormed) :
    a.states.toList.map State.id = List.range a.size := by
  apply List.ext_getElem
  · simp [size]
  · intro p hp hp'
    have hlt : p < a.states.size := by simpa using hp
    have hstate : a.state? p = some a.states[p] := Array.getElem?_eq_getElem hlt
    simp only [List.getElem_map, Array.getElem_toList, List.getElem_range]
    exact h.id_eq hstate

/-- No final state is listed twice. -/
theorem WellFormed.nodup_finals (h : a.WellFormed) : a.finals.Nodup := by
  have hsublist : a.finals.Sublist (a.states.toList.map State.id) :=
    List.filter_sublist.map State.id
  rw [h.map_id_states] at hsublist
  exact List.nodup_range.sublist hsublist

/-- A well-formed automaton with a single final state is finished. -/
theorem WellFormed.finished (h : a.WellFormed) (hq : ∀ p, a.isFinal p = true ↔ p = q) :
    a.Finished where
  initial_eq := h.initial_eq
  nextId_eq := h.nextId_eq
  id_eq _ _ hp := h.id_eq hp
  target_lt _ hedge := (h.edge_lt hedge).2
  exists_finals_eq := by
    refine ⟨q, List.perm_singleton.1 ?_⟩
    rw [List.perm_ext_iff_of_nodup h.nodup_finals (List.nodup_singleton q)]
    intro p
    rw [h.mem_finals, hq, List.mem_singleton]

end PatternGraph.Automaton
