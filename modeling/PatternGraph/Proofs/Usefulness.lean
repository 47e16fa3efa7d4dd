import PatternGraph.Proofs.Compile
import PatternGraph.Proofs.Drawing.Threads

/-!
# Usefulness — no state of a compiled tree is drawn in vain

An automaton that is drawn from the tree of a pattern has no state that no word gets to and none
that no word gets out of, and no ε edge that leads nowhere.
-/

namespace PatternGraph

open Pattern

/-- The drawing of a canonical tree threads all states of its automaton. -/
theorem Drawing.exists_threads_of_ofPattern {strict : Bool} {p : Pattern} {a : Automaton}
    (hp : p.IsCanonical) (h : ofPattern strict p = .ok a) :
    ∃ exit b, a = b.withFinal exit ∧ Threads initialState b 0 exit ∧ a.finals = [exit] := by
  have hrealizes := realizes_tree strict p true wellFormed_initialState size_initialState_pos
  rcases hrealizes with ⟨exit, b, E, hdraw, hfragment, -⟩
  rcases connects_tree strict p true hp wellFormed_initialState size_initialState_pos with
    ⟨exit', b', hdraw', hthreads⟩
  -- both speak of the same drawing
  rw [hdraw] at hdraw'
  cases hdraw'
  have hexit : exit < b.size := hthreads.exit_lt
  have ha : a = b.withFinal exit := by
    have hautomaton : ofPattern strict p = .ok (b.withFinal exit) :=
      automaton_eq_of_ok hdraw hexit
    rw [h] at hautomaton
    exact Except.ok.inj hautomaton
  have hwf : (b.withFinal exit).WellFormed := hthreads.wellFormed.withFinal
  have hfinished := hwf.finished fun q => isFinal_withFinal_iff (q := q) hfragment
  rcases hfinished.exists_finals_eq with ⟨q, hq⟩
  have hmem : exit ∈ (b.withFinal exit).finals :=
    hwf.mem_finals.2 ((isFinal_withFinal_iff hfragment).2 rfl)
  rw [hq, List.mem_singleton] at hmem
  exact ⟨exit, b, ha, hthreads, by rw [ha, hq, hmem]⟩

/-- In an automaton compiled from the tree of a pattern every state is reached from the initial one
and reaches the one final state, and no ε edge leads from a state to itself. -/
theorem compile_tree_all_useful {options : Options} {pattern : String} {a : Automaton}
    (hlegacy : options.flags.legacy = false) (h : compile options pattern = .ok a) :
    ∃ final, a.finals = [final] ∧
      (∀ q < a.size, a.Reaches a.initial q ∧ a.Reaches q final) ∧
      ∀ q, ¬a.HasEdge q .epsilon q := by
  rcases (compile_tree_eq_ok_iff hlegacy).1 h with ⟨p, hparse, ha⟩
  rcases Drawing.exists_threads_of_ofPattern (isCanonical_of_parse hparse) ha with
    ⟨exit, b, rfl, hthreads, hfinals⟩
  have hb := hthreads.wellFormed
  have hmark : ∀ p s q, b.HasEdge p s q → (b.withFinal exit).HasEdge p s q :=
    fun p s q edge => hb.hasEdge_withFinal.2 edge
  have hfirst : Drawing.initialState.size = 1 := rfl
  refine ⟨exit, hfinals, fun q hq => ?_, fun q hidle => ?_⟩
  · rw [hb.withFinal.initial_eq]
    rw [Automaton.size_withFinal] at hq
    -- a state is the initial one or was drawn behind it
    rcases Nat.eq_zero_or_pos q with rfl | hnew
    · exact ⟨.refl _ 0, hthreads.reaches_exit.mono hmark⟩
    · rcases hthreads.through q (hfirst ▸ hnew) hq with ⟨hto, hfrom⟩
      exact ⟨hto.mono hmark, hfrom.mono hmark⟩
  · have hold := hthreads.idle_old q (hb.hasEdge_withFinal.1 hidle)
    exact absurd hold (Drawing.not_hasEdge_initialState q .epsilon q)

/-- In `(a*|)+` the star loops on a state of its own, because another branch shares its entry; the
plus loops on the state where the branches of its first copy meet. -/
theorem compile_tree_all_useful_nested_loops :
    Options.standard.flags.legacy = false ∧
    ∃ a, compile Options.standard "(a*|)+" = .ok a ∧ a.size = 5 ∧
      ∃ final, a.finals = [final] ∧
        (∀ q < a.size, a.Reaches a.initial q ∧ a.Reaches q final) ∧
        ∀ q, ¬a.HasEdge q .epsilon q := by
  have hrun : (compile Options.standard "(a*|)+").map (·.size) = .ok 5 := by cbv
  rcases exists_of_map_compile hrun with ⟨a, ha, hsize⟩
  exact ⟨rfl, a, ha, hsize, compile_tree_all_useful rfl ha⟩

end PatternGraph
