import PatternGraph.Proofs.Compile
import PatternGraph.Proofs.Pattern.Loosened

/-!
# Lax plus — a plus that demands nothing is a star

Where a plus is not strict it is drawn as a star is, from the same states in the same order, so a
tree and its loosened tree have the same drawing (`Drawing.tree_loosen`). With what is read from a
loosened text this settles whole compilations: a pattern with a lax plus and the pattern with a star
for every plus have the same automaton, or fail alike.
-/

namespace PatternGraph

open Pattern

/-- The same failure, with a star named for a plus where a quantifier is reported. -/
def CompileError.loosen : CompileError → CompileError
  | malformed cause => malformed cause.loosen
  | e => e

theorem CompileError.ofPatternError_loosen (e : PatternError) :
    ofPatternError e.loosen = (ofPatternError e).loosen := by
  cases e with
  | _ => rfl

/-! ## Drawing a loosened tree -/

namespace Drawing

/-- A drawing takes a shortcut for a literal, and a loosened tree is a literal exactly where the
tree is. -/
theorem literal?_loosen (p : Pattern) : p.loosen.literal? = p.literal? := by
  cases p with
  | _ => rfl

theorem eq_literal_of_loosen {p : Pattern} {c : Char} (h : p.loosen = .literal c) :
    p = .literal c := by
  cases p with
  | literal d => exact h
  | _ => cases h

theorem loosenAll_eq_nil {ps : List Pattern} (h : loosenAll ps = []) : ps = [] := by
  cases ps with
  | nil => rfl
  | cons p ps => cases h

mutual

/-- With stars for its pluses a tree is drawn as it is with lax pluses. The loosened tree has no
plus, so it makes no difference to it whether a plus is strict. -/
theorem tree_loosen (strict : Bool) (p : Pattern) (entry : StateId) (exclusive : Bool) :
    tree strict p.loosen entry exclusive = tree false p entry exclusive := by
  match p with
  | .empty => rfl
  | .literal c => rfl
  | .concat items => exact sequence_loosen strict items entry exclusive
  | .alternation alternatives =>
    have hbranches : ∀ join, branches strict (loosenAll alternatives) entry join
        = branches false alternatives entry join :=
      fun join => branches_loosen strict alternatives entry join
    rw [Pattern.loosen, tree, tree]
    simp only [hbranches]
  | .closure item .zeroOrMore | .closure item .oneOrMore =>
    -- both closures are drawn as a star on either side, so their bodies are left to compare
    have hbody : tree strict item.loosen = tree false item := by
      funext loop exclusive
      exact tree_loosen strict item loop exclusive
    show star item.loosen.literal? (tree strict item.loosen) entry exclusive
      = star item.literal? (tree false item) entry exclusive
    rw [hbody, literal?_loosen]
  | .group inner => exact tree_loosen strict inner entry exclusive

/-- The same of the items of a sequence, one behind the other. -/
theorem sequence_loosen (strict : Bool) (items : List Pattern) (current : StateId)
    (exclusive : Bool) :
    sequence strict (loosenAll items) current exclusive
      = sequence false items current exclusive := by
  match items with
  | [] => rfl
  | item :: items =>
    have hrest : ∀ next exclusive, sequence strict (loosenAll items) next exclusive
        = sequence false items next exclusive := sequence_loosen strict items
    rw [loosenAll, sequence, sequence, tree_loosen strict item current exclusive]
    simp only [hrest]

/-- The same of the alternatives between two states. A literal and a sequence have shortcuts of
their own; every other alternative is drawn as a tree and then joined. -/
theorem branches_loosen (strict : Bool) (alternatives : List Pattern) (entry join : StateId) :
    branches strict (loosenAll alternatives) entry join
      = branches false alternatives entry join := by
  match alternatives with
  | [] => rfl
  | branch :: rest =>
    have hrest := branches_loosen strict rest entry join
    have hbranch := tree_loosen strict branch entry false
    match branch with
    | .literal c =>
      rw [loosenAll, Pattern.loosen, branches, branches, hrest]
    | .concat items =>
      rw [loosenAll, Pattern.loosen, branches, branches,
        sequenceInto_loosen strict items entry false join, hrest]
    | .empty | .alternation _ | .closure _ _ | .group _ =>
      rw [loosenAll, branches_cons, branches_cons, hbranch, hrest]
      all_goals exact id

/-- The same of a sequence that ends in a given state. Its last item takes a shortcut if it is a
literal, which loosening does not change. -/
theorem sequenceInto_loosen (strict : Bool) (items : List Pattern) (current : StateId)
    (exclusive : Bool) (join : StateId) :
    sequenceInto strict (loosenAll items) current exclusive join
      = sequenceInto false items current exclusive join := by
  match items with
  | [] => rfl
  | item :: items =>
    by_cases hlast : ∃ c, item = .literal c ∧ items = []
    · obtain ⟨c, rfl, rfl⟩ := hlast
      rfl
    · -- no shortcut is taken for the loosened sequence either
      have hlast' : ¬∃ c, item.loosen = .literal c ∧ loosenAll items = [] := by
        rintro ⟨c, hitem, hitems⟩
        exact hlast ⟨c, eq_literal_of_loosen hitem, loosenAll_eq_nil hitems⟩
      have hrest : ∀ next exclusive, sequenceInto strict (loosenAll items) next exclusive join
          = sequenceInto false items next exclusive join :=
        fun next exclusive => sequenceInto_loosen strict items next exclusive join
      rw [loosenAll, sequenceInto_cons hlast, sequenceInto_cons hlast',
        tree_loosen strict item current exclusive]
      simp only [hrest]

end

/-- A tree with lax pluses and its loosened tree have the same automaton. -/
theorem ofPattern_loosen (strict : Bool) (p : Pattern) :
    ofPattern strict p.loosen = ofPattern false p := by
  unfold ofPattern
  simp only [tree_loosen]

end Drawing

/-! ## Compiling a loosened pattern -/

/-- A plus is no blank, so the blanks around a text are dropped before it is loosened or behind it.
-/
theorem Options.text_loosen (options : Options) (pattern : String) :
    options.text (Text.loosen pattern) = Text.loosen (options.text pattern) := by
  unfold Options.text
  split
  · rw [← String.toList_inj]
    simp [Text.trimWord_loosenWord]
  · rfl

/-- Compiled from the tree with a lax plus, a pattern gives the automaton of the pattern with a star
in the place of every plus, be the plus strict for that one or not: the same states under the same
numbers, the same edges and the same final mark. If one of them fails the other fails as well, for
the same reason at the same position, and only the quantifier that is reported may differ. -/
theorem compile_loosen (options : Options) (strict : Bool) (pattern : String) :
    compile (options.byTree strict) (Text.loosen pattern)
      = (compile (options.byTree false) pattern).mapError CompileError.loosen := by
  rw [compile_byTree_eq, compile_byTree_eq, Options.text_loosen, parse_loosen]
  cases parse options (options.text pattern) with
  | error e => exact congrArg Except.error (CompileError.ofPatternError_loosen e)
  | ok p =>
    -- a drawing does not fail, so there is no error that could differ
    obtain ⟨a, ha, -⟩ := Drawing.exists_ofPattern false p
    have hloosened : Drawing.ofPattern strict p.loosen = .ok a := by
      rw [Drawing.ofPattern_loosen, ha]
    show Drawing.ofPattern strict p.loosen
      = (Drawing.ofPattern false p).mapError CompileError.loosen
    rw [hloosened, ha]
    rfl

/-- The plus that dangles behind the bar is reported as a star once it is one. -/
example : compile (Options.standard.byTree false) "a+|+"
      = .error (.malformed (.danglingQuantifier '+' 3)) ∧
    compile (Options.standard.byTree true) (Text.loosen "a+|+")
      = .error (.malformed (.danglingQuantifier '*' 3)) := by
  constructor
  · cbv
  · cbv

end PatternGraph
