import PatternGraph.Proofs.Pattern.PlainUnions
import PatternGraph.Proofs.Rejection

/-!
# Refinement — textual descent accepts nothing new

Where unions are plain, an automaton drawn by textual descent accepts only what the automaton drawn
from the tree accepts: the pieces of a union are words of its branches, and the quantifiers of the
descent ask for more copies.
-/

namespace PatternGraph

open Pattern

/-- A pattern with plain unions that textual descent compiles is compiled from its tree too, under
the same limits and whether a plus is strict or not, and the automaton of the tree accepts whatever
the one of the text accepts. -/
theorem compile_byText_le_byTree {options : Options} {pattern : String} {a : Automaton}
    (h : compile options.byText pattern = .ok a)
    (hplain : HasPlainUnions (options.text pattern).toList) (strict : Bool) :
    ∃ b, compile (options.byTree strict) pattern = .ok b ∧
      ∀ text, a.accepts text = true → b.accepts text = true := by
  rcases exists_denotes_of_compile_textual rfl h with ⟨L, hdenotes, haccepts⟩
  have hgrammar : ∃ M, BranchesDenote strict (options.text pattern).toList M ∧ L ≤ M :=
    hdenotes.exists_le hplain
  rcases hgrammar with ⟨M, hM, hle⟩
  have htree : ∃ b, compile (options.byTree strict) pattern = .ok b :=
    ((exists_compile_byText_iff options strict pattern).1 ⟨a, h⟩).1
  rcases (exists_compile_tree_iff rfl).1 htree with ⟨p, hparse⟩
  rcases exists_compile_of_parse rfl hparse with ⟨b, hb, haccepts'⟩
  -- the text denotes one language, that of its tree
  have hML : M = p.language strict := (branchesDenote_iff_of_parse hparse).1 hM
  subst hML
  refine ⟨b, hb, fun text htext => ?_⟩
  exact (haccepts' text).2 (hle ((haccepts text).1 htext))

/-- In `x(a||b)+(cd)*` the descent takes no empty branch and repeats both groups twice at least;
drawn from the tree, the pattern accepts what that leaves. -/
theorem compile_byText_le_byTree_empty_branch :
    HasPlainUnions (Options.standard.text "x(a||b)+(cd)*").toList ∧
    ∃ a b, compile Options.standard.byText "x(a||b)+(cd)*" = .ok a ∧
      compile (Options.standard.byTree true) "x(a||b)+(cd)*" = .ok b ∧
      a.accepts "xabcdcd" = true ∧ b.accepts "xabcdcd" = true := by
  have htext : (Options.standard.text "x(a||b)+(cd)*").toList
      = 'x' :: '(' :: ("a||b".toList ++ ')' :: '+' :: '(' :: ("cd".toList ++ [')', '*'])) := by cbv
  have hunion : IsPlain "a||b".toList := by decide
  have hword : IsPlain "cd".toList := by decide
  have hclosed : ¬HasOpenBar (Options.standard.text "x(a||b)+(cd)*").toList := by
    rintro ⟨u, v, hsplit, hu⟩
    rw [htext] at hsplit
    -- the bar would stand behind the last star
    rcases hu.bar_behind_char hsplit (by decide) (by decide) with ⟨u₁, hu₁, h₁⟩
    rcases hu₁.bar_behind_group hunion.balanced h₁ with ⟨u₂, hu₂, h₂⟩
    rcases hu₂.bar_behind_char h₂ (by decide) (by decide) with ⟨u₃, hu₃, h₃⟩
    rcases hu₃.bar_behind_group hword.balanced h₃ with ⟨u₄, hu₄, h₄⟩
    rcases hu₄.bar_behind_char h₄ (by decide) (by decide) with ⟨u₅, hu₅, h₅⟩
    cases u₅ <;> cases h₅
  have hgroups : HasPlainGroups (Options.standard.text "x(a||b)+(cd)*").toList := by
    rw [htext, hasPlainGroups_cons_iff (by decide), hasPlainGroups_group_iff hunion.balanced,
      hasPlainGroups_cons_iff (by decide), hasPlainGroups_group_iff hword.balanced,
      hasPlainGroups_cons_iff (by decide)]
    exact ⟨hunion.hasPlainUnions, hword.hasPlainUnions, hasPlainGroups_nil⟩
  have hplain := hasPlainUnions_iff.2 ⟨fun h => absurd h hclosed, hgroups⟩
  have hrun : (compile Options.standard.byText "x(a||b)+(cd)*").map (·.accepts "xabcdcd")
      = .ok true := by cbv
  rcases exists_of_map_compile hrun with ⟨a, hcompile, haccepts⟩
  rcases compile_byText_le_byTree hcompile hplain true with ⟨b, hb, hle⟩
  exact ⟨hplain, a, b, hcompile, hb, haccepts, hle _ haccepts⟩

end PatternGraph
