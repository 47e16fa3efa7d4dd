import PatternGraph.Proofs.Compile
import PatternGraph.Proofs.Drawing.Totality

/-!
# Construction — drawing cannot fail once the text has passed

Whatever a compilation refuses, it refuses before it draws: for its length, or by the check of the
text or the reading of the tree. `compile_draws_finished` says so of both ways of drawing, of every
step of the descent, and of the automaton that is returned.
-/

namespace PatternGraph

open Pattern Drawing

variable {options : Options} {pattern : String} {text : List Char} {a : Automaton}

/-- Every tree is drawn, in both modes: what there is to draw is there before it is looked up. -/
theorem Drawing.exists_ofPattern_finished (strict : Bool) (p : Pattern) :
    ∃ a, ofPattern strict p = .ok a ∧ a.Finished :=
  (realizes_tree strict p true wellFormed_initialState size_initialState_pos).finished

/-- A text that passes the length limit and the check is drawn by descent. -/
theorem Drawing.exists_ofText_finished (hlength : text.length ≤ options.maxLength)
    (hcheck : check options.maxDepth text = .ok ()) :
    ∃ a, ofText options text = .ok a ∧ a.Finished := by
  rcases exists_realizes_of_check hcheck with ⟨L, -, hrealizes⟩
  rw [ofText_eq_automaton hlength hcheck]
  exact Realizes.finished hrealizes

/-- No defect of a pattern is reported as an unknown state. -/
theorem CompileError.ofPatternError_ne_unknownState (e : PatternError) (id : StateId) :
    ofPatternError e ≠ .unknownState id := by
  cases e <;> exact CompileError.noConfusion

/-- A compilation returns a finished automaton, or it refuses the pattern for another reason than an
unknown state. -/
theorem compile_cases (options : Options) (pattern : String) :
    (∃ a, compile options pattern = .ok a ∧ a.Finished) ∨
      ∃ e, compile options pattern = .error e ∧ ∀ id, e ≠ .unknownState id := by
  unfold compile
  simp only
  -- each way of drawing has its refusals before it draws, and none behind them
  by_cases hlegacy : options.flags.legacy = true
  · rw [if_pos hlegacy]
    by_cases hlength : (options.text pattern).toList.length ≤ options.maxLength
    · cases hcheck : check options.maxDepth (options.text pattern).toList with
      | ok _ => exact .inl (exists_ofText_finished hlength hcheck)
      | error e =>
        refine .inr ⟨.ofPatternError e, ?_, CompileError.ofPatternError_ne_unknownState e⟩
        rw [ofText, if_neg (Nat.not_lt.2 hlength), hcheck]
    · refine .inr ⟨.tooLong (options.text pattern).toList.length options.maxLength, ?_,
          fun id => CompileError.noConfusion⟩
      rw [ofText, if_pos (Nat.not_le.1 hlength)]
  · rw [if_neg hlegacy]
    cases parse options (options.text pattern) with
    | ok p => exact .inl (exists_ofPattern_finished options.flags.strictPlus p)
    | error e => exact .inr ⟨_, rfl, CompileError.ofPatternError_ne_unknownState e⟩

/-- No compilation names an unknown state, and every automaton that one returns is finished. What
can be read is drawn from its tree; what passes the check is drawn by descent, no step of which
fails in any slice that the descent comes to. -/
theorem compile_draws_finished (options : Options) (pattern : String) :
    (∀ id, compile options pattern ≠ .error (.unknownState id)) ∧
    (∀ a, compile options pattern = .ok a → a.Finished) ∧
    (∀ p, parse options (options.text pattern) = .ok p →
      ∃ a, ofPattern options.flags.strictPlus p = .ok a) ∧
    ((options.text pattern).toList.length ≤ options.maxLength →
      check options.maxDepth (options.text pattern).toList = .ok () →
      (∃ a, ofText options (options.text pattern).toList = .ok a) ∧
        ∀ slice, Visits (options.text pattern).toList slice → NeverFails slice) := by
  refine ⟨fun id h => ?_, fun a h => ?_, fun p _ => ?_, fun hlength hcheck => ⟨?_, ?_⟩⟩
  · -- every refusal of a compilation is one of its text
    rcases compile_cases options pattern with ⟨a, ha, -⟩ | ⟨e, he, hne⟩
    · rw [ha] at h
      cases h
    · rw [he] at h
      exact hne id (Except.error.inj h)
  · rcases compile_cases options pattern with ⟨b, hb, hfinished⟩ | ⟨e, he, -⟩
    · rw [hb] at h
      cases h
      exact hfinished
    · rw [he] at h
      cases h
  · rcases exists_ofPattern_finished options.flags.strictPlus p with ⟨a, ha, -⟩
    exact ⟨a, ha⟩
  · rcases exists_ofText_finished hlength hcheck with ⟨a, ha, -⟩
    exact ⟨a, ha⟩
  · intro slice hslice
    exact neverFails (hslice.checked (checked_of_check hcheck))

/-- In `((a|b)*c)+` the descent comes to the slice `a|b` twice, the second time inside a group that
is drawn once more. -/
theorem compile_draws_finished_nested_again :
    (∃ a, compile Options.legacy "((a|b)*c)+" = .ok a ∧ a.Finished) ∧
      Visits "((a|b)*c)+".toList "(a|b)*c".toList ∧ NeverFails "(a|b)*c".toList := by
  have htext : Options.legacy.text "((a|b)*c)+" = "((a|b)*c)+" := by cbv
  have hlength : "((a|b)*c)+".toList.length ≤ Options.legacy.maxLength := by decide
  have hcheck : check Options.legacy.maxDepth "((a|b)*c)+".toList = .ok () := by decide
  have hplus : "((a|b)*c)+".toList[9]? = some '+' := by decide
  have hrepeated :
      repeatedAt "((a|b)*c)+".toList '+' 9 = .ok (.group "(a|b)*c".toList) := by cbv
  -- the plus at the end makes the descent draw the outer group once more
  have hvisits : Visits "((a|b)*c)+".toList "(a|b)*c".toList :=
    .again .whole .oneOrMore hplus hrepeated
  have h := compile_draws_finished Options.legacy "((a|b)*c)+"
  rw [htext] at h
  rcases h with ⟨-, hfinished, -, hdescent⟩
  rcases hdescent hlength hcheck with ⟨⟨a, ha⟩, hslices⟩
  have hcompile : compile Options.legacy "((a|b)*c)+" = .ok a := by
    have hlegacy : Options.legacy.flags.legacy = true := by decide
    unfold compile
    simp only
    rw [if_pos hlegacy, htext, ha]
  exact ⟨⟨a, hcompile, hfinished a hcompile⟩, hvisits, hslices _ hvisits⟩

end PatternGraph
