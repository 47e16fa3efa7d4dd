import PatternGraph.Proofs.Compile
import PatternGraph.Proofs.CommonCore
import PatternGraph.Proofs.Drawing.Size

/-!
# Size of an automaton — bounded by the pattern it is compiled from

An automaton that is compiled from the tree has one state and, for every character of the text that
is no parenthesis, at most as many states as strict pluses around one another draw copies. That is
one where a plus may stand for a star, or where there is no plus at all.
-/

namespace PatternGraph

open Pattern

variable {options : Options} {pattern : String} {p : Pattern}

/-- The text of a parsed tree weighs no more than the text that was parsed. -/
theorem weight_chars_le_of_parse (h : parse options pattern = .ok p) :
    weight p.chars ≤ weight pattern.toList := by
  have hrender := (render_of_parse h).1
  rw [toList_render] at hrender
  rw [hrender]
  exact weight_collapse_le pattern.toList

/-- No plus is nested in the tree of a text that has none. -/
theorem plusNesting_eq_zero_of_parse (h : parse options pattern = .ok p)
    (hplus : '+' ∉ pattern.toList) : p.plusNesting = 0 := by
  have hrender := (render_of_parse h).1
  rw [toList_render] at hrender
  have hchars : '+' ∉ p.chars := by
    intro hmem
    rw [hrender] at hmem
    exact hplus ((collapse_sublist pattern.toList).subset hmem)
  have hcount := plusNesting_le_count p
  rw [List.count_eq_zero.2 hchars] at hcount
  exact Nat.eq_zero_of_le_zero hcount

/-- The automaton of a pattern that is compiled from its tree has at most one state more than there
are characters in the text that is looked at, parentheses not counted, where each level of strict
pluses doubles what the characters count for. -/
theorem size_le_of_compile_tree {a : Automaton} (hlegacy : options.flags.legacy = false)
    (h : compile options pattern = .ok a) :
    ∃ p, parse options (options.text pattern) = .ok p ∧
      a.size ≤ 1 + weight (options.text pattern).toList
        * 2 ^ (if options.flags.strictPlus then p.plusNesting else 0) ∧
      (options.flags.strictPlus = false ∨ '+' ∉ pattern.toList →
        a.size ≤ 1 + weight (options.text pattern).toList) := by
  obtain ⟨p, hparse, hdrawn⟩ := (compile_tree_eq_ok_iff hlegacy).1 h
  have hcost := cost_le options.flags.strictPlus (isCanonical_of_parse hparse)
    (Nat.le_refl p.plusNesting)
  have hbound : a.size ≤ 1 + weight (options.text pattern).toList
      * 2 ^ (if options.flags.strictPlus then p.plusNesting else 0) := by
    calc a.size
      _ ≤ 1 + p.cost options.flags.strictPlus := Drawing.size_ofPattern_le hdrawn
      _ ≤ 1 + weight p.chars * copies options.flags.strictPlus p.plusNesting :=
          Nat.add_le_add_left hcost 1
      _ ≤ 1 + weight (options.text pattern).toList
            * copies options.flags.strictPlus p.plusNesting :=
          Nat.add_le_add_left (Nat.mul_le_mul_right _ (weight_chars_le_of_parse hparse)) 1
  refine ⟨p, hparse, hbound, fun hsingle => ?_⟩
  -- in both cases there is one copy of everything
  have honce : (if options.flags.strictPlus then p.plusNesting else 0) = 0 := by
    rcases hsingle with hlax | hplus
    · rw [hlax]
      rfl
    · have htext : '+' ∉ (options.text pattern).toList :=
        fun hmem => hplus ((options.text_infix pattern).subset hmem)
      rw [plusNesting_eq_zero_of_parse hparse htext, ite_self]
  rw [honce] at hbound
  rwa [Nat.pow_zero, Nat.mul_one] at hbound

/-- In `((a+b)+c)+d` three pluses are nested, and the seven characters that are no parentheses do
not bound the automaton on their own: it has twelve states. -/
theorem size_le_of_compile_tree_nested_pluses :
    Options.standard.flags.legacy = false ∧
    ∃ a p, compile Options.standard "((a+b)+c)+d" = .ok a ∧
      parse Options.standard (Options.standard.text "((a+b)+c)+d") = .ok p ∧
      p.plusNesting = 3 ∧ weight (Options.standard.text "((a+b)+c)+d").toList = 7 ∧
      a.size = 12 ∧
      a.size ≤ 1 + weight (Options.standard.text "((a+b)+c)+d").toList * 2 ^ p.plusNesting := by
  have hrun : (compile Options.standard "((a+b)+c)+d").map (·.size) = .ok 12 := by cbv
  have hnesting : (parse Options.standard (Options.standard.text "((a+b)+c)+d")).map
      (·.plusNesting) = .ok 3 := by cbv
  have hweight : weight (Options.standard.text "((a+b)+c)+d").toList = 7 := by cbv
  obtain ⟨a, ha, hsize⟩ := exists_of_map_compile hrun
  obtain ⟨p, hparse, hbound, -⟩ := size_le_of_compile_tree rfl ha
  rw [hparse] at hnesting
  exact ⟨rfl, a, p, ha, hparse, Except.ok.inj hnesting, hweight, hsize, hbound⟩

end PatternGraph
