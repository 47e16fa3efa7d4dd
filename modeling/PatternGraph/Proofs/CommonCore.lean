import PatternGraph.Proofs.Drawing.Alike
import PatternGraph.Proofs.Rejection

/-!
# The common core — where the way of drawing makes no difference

Without bars and stars, and with pluses behind characters only, textual descent and the drawing of
the tree make the very same automaton: the same states under the same numbers, the same edges and
the same final mark.
-/

namespace PatternGraph

open Pattern

variable {options : Options} {pattern : String}

/-- The text that is looked at is a part of the pattern. -/
theorem Options.text_infix (options : Options) (pattern : String) :
    (options.text pattern).toList <:+: pattern.toList := by
  unfold Options.text
  split
  · rw [Text.toList_trim]
    exact Text.trimWord_infix pattern.toList
  · exact List.infix_refl _

/-- A tree of a text of the core is drawn as its text is. -/
theorem Drawing.automaton_slice_eq_ofPattern {text : List Char} {branches : List Pattern}
    (h : Branches text branches) (hcore : IsCore text) :
    automaton (fun p => slice text p p 0) = ofPattern true (ofBranches branches) :=
  (alike_of_branches h hcore).automaton_eq

/-- A pattern of the core that can be parsed is compiled to the same automaton either way. -/
theorem compile_byText_eq_byTree_of_parse {p : Pattern} (hcore : IsCore pattern.toList)
    (hparse : parse options (options.text pattern) = .ok p) :
    compile options.byText pattern = compile (options.byTree true) pattern := by
  rcases parse_eq_ok_iff.1 hparse with ⟨-, branches, hbranches, -, rfl⟩
  have htext : IsCore (options.text pattern).toList :=
    hcore.part (options.text_infix pattern) hbranches.no_leading_plus
  have hdrawn := Drawing.automaton_slice_eq_ofPattern hbranches htext
  have htree : ∃ a, compile (options.byTree true) pattern = .ok a :=
    (exists_compile_tree_iff rfl).2 ⟨_, hparse⟩
  -- a text of the core stacks no quantifiers, so the descent takes it as well
  rcases (exists_compile_byText_iff options true pattern).2 ⟨htree, htext.unstacked⟩ with ⟨a, ha⟩
  have hslice := ((compile_textual_eq_ok_iff rfl).1 ha).2
  have hofPattern : Drawing.ofPattern true (ofBranches branches) = .ok a := by
    rw [← hdrawn]
    exact hslice
  have hcompile : compile (options.byTree true) pattern = .ok a :=
    (compile_tree_eq_ok_iff rfl).2 ⟨_, hparse, hofPattern⟩
  rw [ha, hcompile]

/-- A pattern of the core has an automaton either way or neither, under whatever limits and with
blanks trimmed or not, and the two automata are equal. -/
theorem compile_byText_eq_ok_iff_byTree (options : Options) (pattern : String)
    (hcore : IsCore pattern.toList) (a : Automaton) :
    compile options.byText pattern = .ok a ↔ compile (options.byTree true) pattern = .ok a := by
  have hparsed : (∃ a, compile (options.byTree true) pattern = .ok a) →
      ∃ p, parse options (options.text pattern) = .ok p := (exists_compile_tree_iff rfl).1
  constructor
  · intro h
    rcases hparsed ((exists_compile_byText_iff options true pattern).1 ⟨a, h⟩).1 with ⟨p, hparse⟩
    rwa [← compile_byText_eq_byTree_of_parse hcore hparse]
  · intro h
    rcases hparsed ⟨a, h⟩ with ⟨p, hparse⟩
    rwa [compile_byText_eq_byTree_of_parse hcore hparse]

/-- In `a+(b(c+))` the loops of both pluses turn on the states behind `a` and behind `c`. -/
theorem compile_byText_eq_ok_iff_byTree_plus_in_group :
    IsCore "a+(b(c+))".toList ∧
    ∃ a, compile Options.standard.byText "a+(b(c+))" = .ok a ∧
      compile (Options.standard.byTree true) "a+(b(c+))" = .ok a ∧ a.size = 4 := by
  have hcore : IsCore "a+(b(c+))".toList := by decide
  have hrun : (compile Options.standard.byText "a+(b(c+))").map (·.size) = .ok 4 := by cbv
  rcases exists_of_map_compile hrun with ⟨a, ha, hsize⟩
  exact ⟨hcore, a, ha, (compile_byText_eq_ok_iff_byTree _ _ hcore a).1 ha, hsize⟩

end PatternGraph
