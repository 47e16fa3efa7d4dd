import PatternGraph.Proofs.Compile
import PatternGraph.Proofs.Pattern.Stacked

/-!
# Rejection — which patterns the two ways of drawing refuse, and why

Textual descent checks a text by a scan with a stack of positions, drawing from the tree by reading
it along the grammar. `check_eq_parse_unless_stacked` says that both name the same defect, up to the
first quantifier that stands directly behind a quantifier: the check refuses it there.
-/

namespace PatternGraph

open Pattern

variable {options : Options} {pattern : String}

/-- A text passes the check if it can be read and stacks no quantifiers. -/
theorem Pattern.check_eq_ok_iff {limit : Nat} {text : List Char} :
    check limit text = .ok () ↔ (∃ p, read limit text = .ok p) ∧ Unstacked text := by
  constructor
  · intro h
    have hunstacked := unstacked_of_check h
    rw [check_of_unstacked limit hunstacked] at h
    refine ⟨?_, hunstacked⟩
    cases hread : read limit text with
    | error e =>
      rw [hread] at h
      cases h
    | ok p => exact ⟨p, rfl⟩
  · rintro ⟨⟨p, hp⟩, hunstacked⟩
    rw [check_of_unstacked limit hunstacked, hp]
    rfl

/-- Textual descent accepts what drawing from the tree accepts, without the patterns that stack
quantifiers. -/
theorem exists_compile_byText_iff (options : Options) (strict : Bool) (pattern : String) :
    (∃ a, compile options.byText pattern = .ok a) ↔
      (∃ a, compile (options.byTree strict) pattern = .ok a) ∧
        Unstacked (options.text pattern).toList := by
  have htree : (∃ a, compile (options.byTree strict) pattern = .ok a) ↔
      ∃ p, parse options (options.text pattern) = .ok p := exists_compile_tree_iff rfl
  have htext : (∃ a, compile options.byText pattern = .ok a) ↔
      (options.text pattern).toList.length ≤ options.maxLength ∧
        check options.maxDepth (options.text pattern).toList = .ok () :=
    exists_compile_textual_iff rfl
  rw [htree, htext, String.length_toList]
  by_cases hlength : (options.text pattern).length ≤ options.maxLength
  · rw [parse_eq_read hlength]
    exact ⟨fun h => check_eq_ok_iff.1 h.2, fun h => ⟨hlength, check_eq_ok_iff.2 h⟩⟩
  · -- both refuse a pattern that is too long
    constructor
    · intro h
      exact absurd h.1 hlength
    · rintro ⟨⟨p, hp⟩, -⟩
      rw [parse, if_pos (Nat.not_le.1 hlength)] at hp
      cases hp

/-- The check refuses what the reader refuses, with the same defect, and the first quantifier
behind a quantifier besides, unless the reader finds the defect of a character before that. So
textual descent accepts the patterns that drawing from the tree accepts and that stack no
quantifiers. -/
theorem check_eq_parse_unless_stacked {options : Options} {pattern : String}
    (hlength : pattern.length ≤ options.maxLength) (htrim : options.text pattern = pattern) :
    (Unstacked pattern.toList →
      check options.maxDepth pattern.toList = (parse options pattern).map fun _ => ()) ∧
    (∀ k q, StackedAt pattern.toList k q → (∀ j < k, ∀ r, ¬StackedAt pattern.toList j r) →
      (∀ e, parse options pattern = .error e → e.StandsBefore k →
        check options.maxDepth pattern.toList = .error e) ∧
      ((∀ e, parse options pattern = .error e → ¬e.StandsBefore k) →
        check options.maxDepth pattern.toList = .error (.danglingQuantifier q.toChar k))) ∧
    ∀ strict, (∃ a, compile options.byText pattern = .ok a) ↔
      (∃ a, compile (options.byTree strict) pattern = .ok a) ∧ Unstacked pattern.toList := by
  rw [parse_eq_read hlength]
  refine ⟨check_of_unstacked options.maxDepth, fun k q hk hfirst => ?_, fun strict => ?_⟩
  · rcases check_of_stacked options.maxDepth hk hfirst with
      ⟨e, hread, hbefore, hcheck⟩ | ⟨hnone, hcheck⟩
    · constructor
      · intro e' hread' _
        rw [hread] at hread'
        cases hread'
        exact hcheck
      · intro hnone
        exact absurd hbefore (hnone e hread)
    · constructor
      · intro e hread hbefore
        exact absurd hbefore (hnone e hread)
      · intro _
        exact hcheck
  · have h := exists_compile_byText_iff options strict pattern
    rwa [htrim] at h

/-- In `a(b*+` the reader reports the group, which is never closed, and the check the plus behind
the star. -/
theorem check_eq_parse_unless_stacked_in_open_group :
    "a(b*+".length ≤ Options.standard.maxLength ∧ Options.standard.text "a(b*+" = "a(b*+" ∧
    StackedAt "a(b*+".toList 4 .oneOrMore ∧
    parse Options.standard "a(b*+" = .error (.unclosedGroup 1) ∧
    check Options.standard.maxDepth "a(b*+".toList = .error (.danglingQuantifier '+' 4) := by
  have hlength : "a(b*+".length ≤ Options.standard.maxLength := by decide
  have htrim : Options.standard.text "a(b*+" = "a(b*+" := by cbv
  have hstacked : StackedAt "a(b*+".toList 4 .oneOrMore :=
    ⟨.zeroOrMore, ['a', '(', 'b'], [], rfl, rfl⟩
  have hparse : parse Options.standard "a(b*+" = .error (.unclosedGroup 1) := by cbv
  have hfirst : ∀ j < 4, ∀ r, ¬StackedAt "a(b*+".toList j r := by
    rintro j hj r ⟨r', u, v, htext, rfl⟩
    have htext' : ['a', '(', 'b', '*', '+'] = u ++ r'.toChar :: r.toChar :: v := htext
    -- a pair of quantifiers before position 4 would stand within the first three characters and the
    -- star
    rcases u with _ | ⟨x, _ | ⟨y, _ | ⟨z, u⟩⟩⟩
    · cases r' <;> cases htext'
    · cases r' <;> cases htext'
    · cases r' <;> cases htext'
    · simp only [List.length_cons] at hj
      omega
  refine ⟨hlength, htrim, hstacked, hparse, ?_⟩
  refine ((check_eq_parse_unless_stacked hlength htrim).2.1 4 _ hstacked hfirst).2 ?_
  intro e he
  rw [hparse] at he
  cases he
  exact fun hbefore => hbefore.2 1 rfl

end PatternGraph
