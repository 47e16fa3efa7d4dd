import PatternGraph.Drawing.Tree
import PatternGraph.Proofs.Drawing.Realizes
import PatternGraph.Proofs.Pattern.Language

/-!
# Drawing a tree — the automaton accepts the language of the tree

The drawing of a tree behind an entry realizes the language of the tree. The invariant that carries
the proof through the economies of the drawing is `loopEnds`: a fragment leads back to its entry
only where the entry is exclusive and nothing left it when the fragment was begun. What comes
before in a sequence then cannot be re-entered from a loop, and of the branches of an alternation,
which are drawn with an entry that is not exclusive, none ever leads back to the entry.
-/

namespace PatternGraph.Drawing

open scoped Computability

variable {α : Type} {a b : Automaton} {entry m : StateId} {exclusive strict : Bool}
  {outer ends : Set StateId} {L M : Language Char}

/-! ## Steps of a loop -/

/-- Where nothing leaves an exclusive entry yet, a loop turns on the entry itself. -/
theorem loopState_of_free (h : a.hasEdges entry = false) :
    loopState entry true a = .ok (entry, a) := by
  unfold loopState
  rw [bind_eq_of_ok (rfl : hasEdges entry a = .ok (a.hasEdges entry, a)), h]
  rfl

/-- A loop turns on its entry only there, and else on a new state behind it. -/
theorem loopState_cases (ha : a.WellFormed) (hentry : entry < a.size) (exclusive : Bool) :
    (exclusive = true ∧ a.hasEdges entry = false ∧
      loopState entry exclusive a = .ok (entry, a)) ∨
    loopState entry exclusive a = .ok (a.size, a.withState.withEdge entry .epsilon a.size) := by
  by_cases hfree : exclusive = true ∧ a.hasEdges entry = false
  · obtain ⟨rfl, hnone⟩ := hfree
    exact .inl ⟨rfl, hnone, loopState_of_free hnone⟩
  · right
    unfold loopState
    rw [bind_eq_of_ok (rfl : hasEdges entry a = .ok (a.hasEdges entry, a)),
      if_neg (by simpa using hfree)]
    exact step_eq_ok ha hentry .epsilon

section Turns

variable {body : StateId → Bool → Drawing StateId} {loop exit : StateId}

/-- A lone literal turns on the loop state by one edge. -/
theorem turn_literal (hloop : loop < a.size) (c : Char) :
    turn (some c) body loop a = .ok (loop, a.withEdge loop (.char c) loop) := by
  show (addEdge loop (.char c) loop >>= fun _ => pure loop) a = _
  rw [bind_eq_of_ok (addEdge_eq_ok hloop hloop)]
  rfl

/-- A body that ends where it began needs no edge back. -/
theorem turn_of_return (h : body loop false a = .ok (loop, b)) :
    turn none body loop a = .ok (loop, b) := by
  unfold turn
  simp only
  rw [bind_eq_of_ok h, if_neg (not_not.2 rfl)]
  rfl

/-- Any other gets one from where it ended. -/
theorem turn_of_exit (h : body loop false a = .ok (exit, b)) (hne : exit ≠ loop)
    (hexit : exit < b.size) (hloop : loop < b.size) :
    turn none body loop a = .ok (loop, b.withEdge exit .epsilon loop) := by
  have hlink : link exit loop b = .ok ((), b.withEdge exit .epsilon loop) :=
    addEdge_eq_ok hexit hloop
  unfold turn
  simp only
  rw [bind_eq_of_ok h, if_pos hne, bind_eq_of_ok hlink]
  rfl

end Turns

/-! ## Loops -/

/-- The state for a loop is the entry or a new state behind it, and nothing leaves it yet. -/
theorem loopState_fragment (ha : a.WellFormed) (hentry : entry < a.size) (exclusive : Bool) :
    ∃ m b E, loopState entry exclusive a = .ok (m, b) ∧ Fragment a b E entry m ∅ ∧
      E.words entry m = 1 ∧ (∀ s r, ¬b.Moves m s r) ∧
      (a.size ≤ m ∨ m ∈ loopEnds ∅ a entry exclusive) := by
  rcases loopState_cases ha hentry exclusive with ⟨hexclusive, hfree, hd⟩ | hd
  · have hnone : ∀ s r, ¬a.Moves entry s r := ha.not_moves hfree
    -- the entry itself: nothing is drawn
    refine ⟨entry, a, ⊥, hd, Fragment.refl ha hentry ∅, ?_, hnone, ?_⟩
    · exact EdgeRelation.words_self fun _ _ => id
    · exact .inr (.inr ⟨rfl, hexclusive, hnone⟩)
  · have hne : entry ≠ a.size := Nat.ne_of_lt hentry
    refine ⟨a.size, _, _, hd, Fragment.step ha hentry .epsilon ∅, EdgeRelation.words_one hne, ?_,
      .inl (Nat.le_refl _)⟩
    exact fun s r edge => ha.not_hasEdge_step hentry edge.1

/-- An item that does not lead back to its entry turns on it any number of times. -/
theorem realizes_turn {literal? : Option Char} {body : StateId → Bool → Drawing StateId}
    {loop : StateId} (ha : a.WellFormed) (hloop : loop < a.size)
    (hliteral : ∀ c, literal? = some c → L = {[c]})
    (hbody : literal? = none → Realizes (body loop false) id a loop ∅ L) :
    Realizes (turn literal? body loop) id a loop {loop} L∗ := by
  cases literal? with
  | some c =>
    refine ⟨loop, _, _, turn_literal hloop c, Fragment.turn ha hloop c, ?_⟩
    rw [hliteral c rfl]
    exact EdgeRelation.words_turn loop c
  | none =>
    rcases hbody rfl with ⟨exit, b, E, hd, hfragment, hwords⟩
    have hreturn : ∀ x s, ¬E x s loop := hfragment.not_return (Set.notMem_empty loop)
    by_cases hexit : exit = loop
    · -- the item has moved nowhere: it stands for the empty word, and so does its repetition
      subst hexit
      refine ⟨exit, b, E, turn_of_return hd, hfragment.mono (Set.empty_subset _), ?_⟩
      have hone : L = 1 := hwords.symm.trans (EdgeRelation.words_self hreturn)
      rw [hone, kstar_one]
      exact EdgeRelation.words_self hreturn
    · have hexit_lt : exit < b.size := hfragment.exit_lt
      have hloop' : loop < b.size := Nat.lt_of_lt_of_le hloop hfragment.size_le
      have hnew : exit = loop ∨ a.size ≤ exit := hfragment.exit_eq_or_le (Set.empty_subset _)
      have hmem : a.size ≤ loop ∨ loop ∈ ({loop} : Set StateId) := .inr rfl
      refine ⟨loop, _, _, turn_of_exit hd hexit hexit_lt hloop',
        hfragment.withEdge (s := .epsilon) hexit_lt hloop' (.inr hexit) hnew hmem
          (Set.empty_subset _), ?_⟩
      rw [← hwords]
      exact EdgeRelation.words_loop hreturn

/-- A loop realizes the star of what its body realizes. It leads back to the entry only where it
turns on the entry itself, which then nothing leaves but the loop. -/
theorem realizes_star {literal? : Option Char} {body : StateId → Bool → Drawing StateId}
    (ha : a.WellFormed) (hentry : entry < a.size)
    (hliteral : ∀ c, literal? = some c → L = {[c]})
    (hbody : literal? = none → ∀ b loop, b.WellFormed → loop < b.size →
      Realizes (body loop false) id b loop ∅ L) :
    Realizes (star literal? body entry exclusive) id a entry (loopEnds ∅ a entry exclusive) L∗ := by
  rcases loopState_fragment ha hentry exclusive with
    ⟨m, b, E, hd, hfragment, hwords, hnone, hmem⟩
  rcases realizes_turn hfragment.wellFormed hfragment.exit_lt hliteral
    (fun h => hbody h b m hfragment.wellFormed hfragment.exit_lt) with
    ⟨exit, c, F, hd', hfragment', hwords'⟩
  have hm : m = entry ∨ a.size ≤ m := hfragment.exit_eq_or_le (Set.empty_subset _)
  refine ⟨exit, c, E ⊔ F, ?_, ?_, ?_⟩
  · unfold star
    rw [bind_eq_of_ok hd, hd']
  · refine hfragment.trans hfragment' hm (Set.empty_subset _) ?_
    rintro q rfl
    exact hmem
  -- the state of the loop is left by nothing before the loop turns
  · have hfree : ∀ q ∈ ({m} : Set StateId), ∀ s r, ¬E q s r := by
      rintro q rfl s r edge
      exact hnone s r ((hfragment.moves_iff _ _ _).2 (.inr edge))
    rw [hfragment.words_append hfragment' hfree fun hexit => .inl hexit, hwords, one_mul]
    exact hwords'

/-! ## Trees -/

/-- A branch that is drawn straight into the state where the branches meet. -/
def EndsInJoin : Pattern → Prop
  | .literal _ => True
  | .concat _ => True
  | _ => False

section Equations

variable {branch item : Pattern} {rest items : List Pattern} {current join : StateId}

/-- The branch is drawn as any tree is, and its exit is linked to the join. -/
theorem branches_cons (h : ¬EndsInJoin branch) :
    branches strict (branch :: rest) entry join = (do
      let exit ← tree strict branch entry false
      link exit join
      branches strict rest entry join) := by
  rw [branches]
  · rintro c rfl
    exact h trivial
  · rintro items rfl
    exact h trivial

/-- Unless it is the one literal that is left, an item is drawn as any tree is. -/
theorem sequenceInto_cons (h : ¬∃ c, item = .literal c ∧ items = []) :
    sequenceInto strict (item :: items) current exclusive join = (do
      let next ← tree strict item current exclusive
      sequenceInto strict items next (exclusive || next ≠ current) join) := by
  rw [sequenceInto]
  intro c hitem hitems
  exact h ⟨c, hitem, hitems⟩

end Equations

mutual

/-- The drawing of a tree realizes the language of the tree, by mutual induction on the tree and its
lists. The invariant is `loopEnds`: the drawing leads back to no old state but the entry, and to
that one only if it is exclusive and was left by nothing. An item hands it on to the items behind it
through `Realizes.append`, which asks for a new entry or a flag that is still on. -/
theorem realizes_tree (strict : Bool) (p : Pattern) {a : Automaton} {entry : StateId}
    (exclusive : Bool) (ha : a.WellFormed) (hentry : entry < a.size) :
    Realizes (tree strict p entry exclusive) id a entry (loopEnds ∅ a entry exclusive)
      (p.language strict) := by
  match p with
  | .empty => exact realizes_pure ha hentry _
  | .literal c => exact realizes_step ha hentry (.char c) _
  | .concat items => exact realizes_sequence strict items exclusive ha hentry
  | .alternation alternatives =>
    refine Realizes.toNewState ha hentry (fun b join hb hentry hjoin hne => ?_) _
    exact realizes_branches strict alternatives hb hentry hjoin hne
  | .closure item .zeroOrMore => exact realizes_starOf strict item exclusive ha hentry
  | .closure item .oneOrMore =>
    cases strict with
    | false => exact realizes_starOf false item exclusive ha hentry
    | true =>
      -- once, and then any number of times from where that ended
      refine (realizes_tree true item exclusive ha hentry).append (fun q hq => ?_) ?_
      · exact absurd hq (Set.notMem_empty q)
      · intro m b hb hm _
        exact realizes_starOf true item _ hb hm
  | .group inner => exact realizes_tree strict inner exclusive ha hentry

/-- The loop of an item realizes the star of the item's language. Its body is drawn with the flag
off, so that the body never leads back to the state on which it turns. -/
theorem realizes_starOf (strict : Bool) (item : Pattern) {a : Automaton} {entry : StateId}
    (exclusive : Bool) (ha : a.WellFormed) (hentry : entry < a.size) :
    Realizes (star item.literal? (tree strict item) entry exclusive) id a entry
      (loopEnds ∅ a entry exclusive) (item.language strict)∗ := by
  refine realizes_star ha hentry ?_ ?_
  · -- a body is taken for a literal only if it is one
    intro c hc
    cases item with
    | literal d =>
      cases hc
      rfl
    | _ => cases hc
  · intro _ b loop hb hloop
    have hbody := realizes_tree strict item false hb hloop
    rwa [loopEnds_false] at hbody

/-- The items of a sequence realize the product of their languages. -/
theorem realizes_sequence (strict : Bool) (items : List Pattern) {a : Automaton}
    {entry : StateId} (exclusive : Bool) (ha : a.WellFormed) (hentry : entry < a.size) :
    Realizes (sequence strict items entry exclusive) id a entry (loopEnds ∅ a entry exclusive)
      (Pattern.product strict items) := by
  match items with
  | [] => exact realizes_pure ha hentry _
  | item :: items =>
    refine (realizes_tree strict item exclusive ha hentry).append (fun q hq => ?_) ?_
    · exact absurd hq (Set.notMem_empty q)
    · intro m b hb hm _
      exact realizes_sequence strict items _ hb hm

/-- The alternatives between an entry and a join realize the sum of their languages. They share the
entry, so each of them is drawn with the flag off. -/
theorem realizes_branches (strict : Bool) (alternatives : List Pattern) {a : Automaton}
    {entry join : StateId} (ha : a.WellFormed) (hentry : entry < a.size) (hjoin : join < a.size)
    (hne : entry ≠ join) :
    Realizes (branches strict alternatives entry join) (fun _ => join) a entry {join}
      (Pattern.choice strict alternatives) := by
  match alternatives with
  | [] => exact realizes_none ha hentry hjoin hne
  | branch :: rest =>
    have hrest : ∀ b, b.WellFormed → entry < b.size → join < b.size →
        Realizes (branches strict rest entry join) (fun _ => join) b entry {join}
          (Pattern.choice strict rest) :=
      fun b hb hentry hjoin => realizes_branches strict rest hb hentry hjoin hne
    -- any other branch is drawn from the shared entry and linked to the join
    have hother : Realizes (do let exit ← tree strict branch entry false; link exit join)
        (fun _ => join) a entry {join} (branch.language strict) := by
      have hbranch := realizes_tree strict branch false ha hentry
      rw [loopEnds_false] at hbranch
      exact hbranch.into hjoin hne
    match branch with
    | .literal c => exact (realizes_addEdge ha hentry hjoin hne (.char c)).beside hjoin hne hrest
    | .concat items =>
      have hitems := realizes_sequenceInto strict items false ha hentry hjoin hne
      rw [loopEnds_false] at hitems
      exact hitems.beside hjoin hne hrest
    | .empty | .alternation _ | .closure _ _ | .group _ =>
      rw [branches_cons, ← bind_assoc]
      · exact hother.beside hjoin hne hrest
      · exact id

/-- The items of a sequence realize their product up to a join that is there already; a literal at
the end leads to the join by itself. -/
theorem realizes_sequenceInto (strict : Bool) (items : List Pattern) {a : Automaton}
    {entry join : StateId} (exclusive : Bool) (ha : a.WellFormed) (hentry : entry < a.size)
    (hjoin : join < a.size) (hne : entry ≠ join) :
    Realizes (sequenceInto strict items entry exclusive join) (fun _ => join) a entry
      (loopEnds {join} a entry exclusive) (Pattern.product strict items) := by
  match items with
  | [] => exact (realizes_link ha hentry hjoin hne).mono subset_loopEnds
  | item :: items =>
    by_cases hlast : ∃ c, item = .literal c ∧ items = []
    · rcases hlast with ⟨c, rfl, rfl⟩
      rw [Pattern.product, Pattern.product, mul_one]
      exact (realizes_addEdge ha hentry hjoin hne (.char c)).mono subset_loopEnds
    · rw [sequenceInto_cons hlast]
      refine (realizes_tree strict item exclusive ha hentry).append (join_outer hjoin hne) ?_
      intro m b hb hm hlt
      have hjoin' := hlt join rfl
      exact realizes_sequenceInto strict items _ hb hm hjoin'.1 hjoin'.2.symm

end

end PatternGraph.Drawing
