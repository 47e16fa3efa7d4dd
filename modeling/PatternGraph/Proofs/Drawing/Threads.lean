import PatternGraph.Proofs.Automaton.Path
import PatternGraph.Proofs.Drawing.Tree
import PatternGraph.Proofs.Pattern.Canonical

/-!
# Threads — drawings without loose ends

1. `Threads a b entry exit` says that the automaton `a` was drawn on to `b` so that every new state
   lies on a way from the state `entry` to the state `exit`, with no new idle edge.
2. What is drawn behind it or beside it keeps this (`Threads.trans`, `Threads.beside`).
3. `connects_tree` says it of the drawing of a canonical tree, one economy after the other. A tree
   that is not canonical may leave a loose end: an alternation without branches has a join that
   nothing leads to.
-/

namespace PatternGraph

/-! ## Ways through an automaton -/

namespace Automaton

/-- Some word leads from the state `p` to the state `q`. -/
def Reaches (a : Automaton) (p q : StateId) : Prop :=
  ∃ w, Path a.HasEdge p w q

variable {a b : Automaton} {p q r : StateId} {s : Symbol}

/-- The empty word leads from a state to itself. -/
theorem Reaches.refl (a : Automaton) (p : StateId) : a.Reaches p p :=
  ⟨[], Path.nil p⟩

theorem Reaches.trans (h : a.Reaches p q) (h' : a.Reaches q r) : a.Reaches p r := by
  rcases h with ⟨u, hu⟩
  rcases h' with ⟨v, hv⟩
  exact ⟨u ++ v, hu.append hv⟩

/-- An edge is a way of its own. -/
theorem Reaches.edge (h : a.HasEdge p s q) : a.Reaches p q :=
  ⟨_, Path.single h⟩

/-- A way stays where no edge is lost. -/
theorem Reaches.mono (h : a.Reaches p q) (hle : ∀ p s q, a.HasEdge p s q → b.HasEdge p s q) :
    b.Reaches p q := by
  rcases h with ⟨w, hw⟩
  exact ⟨w, hw.mono hle⟩

end Automaton

/-! ## Threads -/

/-- The automaton `a` was drawn on to `b` from the state `entry` to the state `exit`: no edge is
lost and no idle one added, and a way from `entry` to `exit` leads through every new state. -/
structure Threads (a b : Automaton) (entry exit : StateId) : Prop where
  wellFormed : b.WellFormed
  entry_lt : entry < a.size
  size_le : a.size ≤ b.size
  exit_lt : exit < b.size
  hasEdge_mono : ∀ p s q, a.HasEdge p s q → b.HasEdge p s q
  idle_old : ∀ p, b.HasEdge p .epsilon p → a.HasEdge p .epsilon p
  reaches_exit : b.Reaches entry exit
  through : ∀ x, a.size ≤ x → x < b.size → b.Reaches entry x ∧ b.Reaches x exit

namespace Threads

variable {a b c : Automaton} {entry exit m p q : StateId} {s : Symbol}

/-- Where nothing is drawn, no new state can be a loose end. -/
theorem refl (ha : a.WellFormed) (hentry : entry < a.size) : Threads a a entry entry where
  wellFormed := ha
  entry_lt := hentry
  size_le := Nat.le_refl _
  exit_lt := hentry
  hasEdge_mono _ _ _ := id
  idle_old _ := id
  reaches_exit := .refl a entry
  through _ hnew hlt := absurd hlt (Nat.not_lt.2 hnew)

/-- An edge between two states that are there. -/
theorem edge (ha : a.WellFormed) (hp : p < a.size) (hq : q < a.size)
    (hmove : s ≠ .epsilon ∨ p ≠ q) : Threads a (a.withEdge p s q) p q where
  wellFormed := ha.withEdge hq
  entry_lt := hp
  size_le := Nat.le_of_eq Automaton.size_withEdge.symm
  exit_lt := by rwa [Automaton.size_withEdge]
  hasEdge_mono _ _ _ edge := (ha.hasEdge_withEdge hp hq).2 (.inr edge)
  idle_old x hidle := by
    rcases (ha.hasEdge_withEdge hp hq).1 hidle with ⟨rfl, rfl, rfl⟩ | hold
    · -- the new edge is no idle one: it reads something or moves on
      rcases hmove with hs | hne
      · exact absurd rfl hs
      · exact absurd rfl hne
    · exact hold
  reaches_exit := .edge ((ha.hasEdge_withEdge hp hq).2 (.inl ⟨rfl, rfl, rfl⟩))
  through x hnew hlt := by
    rw [Automaton.size_withEdge] at hlt
    exact absurd hlt (Nat.not_lt.2 hnew)

/-- What is threaded behind a new state, up to that state. -/
theorem ofNewState (ha : a.WellFormed) (h : Threads a.withState b entry a.size)
    (hentry : entry < a.size) : Threads a b entry a.size where
  wellFormed := h.wellFormed
  entry_lt := hentry
  size_le := by
    have hle := h.size_le
    rw [Automaton.size_withState] at hle
    exact Nat.le_of_succ_le hle
  exit_lt := h.exit_lt
  hasEdge_mono p s q edge := h.hasEdge_mono p s q (ha.hasEdge_withState.2 edge)
  idle_old p hidle := ha.hasEdge_withState.1 (h.idle_old p hidle)
  reaches_exit := h.reaches_exit
  through x hnew hlt := by
    -- the state asked for is the new one itself, the exit, or came later
    rcases Nat.eq_or_lt_of_le hnew with rfl | hlater
    · exact ⟨h.reaches_exit, .refl b _⟩
    · exact h.through x (Automaton.size_withState ▸ hlater) hlt

/-- A drawing from `entry` to `m` and another one from `p` to `exit`, in an automaton with a way
from the first entry to the second and one from the first exit to the second. -/
theorem extend (h : Threads a b entry m) (h' : Threads b c p exit) (hentry : c.Reaches entry p)
    (hexit : c.Reaches m exit) : Threads a c entry exit where
  wellFormed := h'.wellFormed
  entry_lt := h.entry_lt
  size_le := Nat.le_trans h.size_le h'.size_le
  exit_lt := h'.exit_lt
  hasEdge_mono p s q edge := h'.hasEdge_mono p s q (h.hasEdge_mono p s q edge)
  idle_old p hidle := h.idle_old p (h'.idle_old p hidle)
  reaches_exit := hentry.trans h'.reaches_exit
  through x hnew hlt := by
    -- a state of the first drawing goes on through its exit, one of the second is come to through
    -- its entry
    by_cases hx : x < b.size
    · rcases h.through x hnew hx with ⟨hto, hfrom⟩
      exact ⟨hto.mono h'.hasEdge_mono, (hfrom.mono h'.hasEdge_mono).trans hexit⟩
    · rcases h'.through x (Nat.not_lt.1 hx) hlt with ⟨hto, hfrom⟩
      exact ⟨hentry.trans hto, hfrom⟩

/-- One drawing behind the other. -/
theorem trans (h : Threads a b entry m) (h' : Threads b c m exit) : Threads a c entry exit :=
  h.extend h' (h.reaches_exit.mono h'.hasEdge_mono) h'.reaches_exit

/-- One drawing beside the other, between the same two states. -/
theorem beside (h : Threads a b entry exit) (h' : Threads b c entry exit) :
    Threads a c entry exit :=
  h.extend h' (.refl c entry) (.refl c exit)

end Threads

/-! ## Drawings that connect -/

namespace Drawing

variable {α : Type} {a : Automaton} {entry join p q : StateId} {s : Symbol}
  {exclusive strict : Bool}

/-- The drawing `d` succeeds on `a` and threads what it adds from `entry` to its exit, which `exit`
reads off its result. -/
def Connects (d : Drawing α) (exit : α → StateId) (a : Automaton) (entry : StateId) : Prop :=
  ∃ x b, d a = .ok (x, b) ∧ Threads a b entry (exit x)

theorem connects_pure (ha : a.WellFormed) (hentry : entry < a.size) :
    Connects (pure entry) id a entry :=
  ⟨entry, a, rfl, Threads.refl ha hentry⟩

/-- An edge between two states that are there connects them, unless it is an idle one. -/
theorem connects_addEdge (ha : a.WellFormed) (hp : p < a.size) (hq : q < a.size)
    (hmove : s ≠ .epsilon ∨ p ≠ q) : Connects (addEdge p s q) (fun _ => q) a p :=
  ⟨(), _, addEdge_eq_ok hp hq, Threads.edge ha hp hq hmove⟩

/-- Drawings between the entry and a join make a drawing that ends in a new state. -/
theorem Connects.toNewState {d : StateId → Drawing Unit} (ha : a.WellFormed)
    (hentry : entry < a.size)
    (h : ∀ b join, b.WellFormed → entry < b.size → join < b.size → entry ≠ join →
      Connects (d join) (fun _ => join) b entry) :
    Connects (do let join ← newState; d join; pure join) id a entry := by
  have hentry' : entry < a.withState.size := Automaton.lt_size_withState hentry
  have hjoin : a.size < a.withState.size := Automaton.size_lt_size_withState
  rcases h a.withState a.size ha.withState hentry' hjoin (Nat.ne_of_lt hentry) with
    ⟨x, b, hd, hthreads⟩
  refine ⟨a.size, b, ?_, hthreads.ofNewState ha hentry⟩
  rw [bind_eq_of_ok (newState_eq_ok ha), bind_eq_of_ok hd]
  rfl

/-- A new state hangs on the edge that leads to it. -/
theorem connects_step (ha : a.WellFormed) (hentry : entry < a.size) (s : Symbol) :
    Connects (do let next ← newState; addEdge entry s next; pure next) id a entry :=
  Connects.toNewState ha hentry fun _ _ hb hp hq hne => connects_addEdge hb hp hq (.inr hne)

/-- One drawing behind the other. -/
theorem Connects.bind {d : Drawing StateId} {f : StateId → Drawing α} {exit : α → StateId}
    (h : Connects d id a entry)
    (h' : ∀ m b, d a = .ok (m, b) → b.WellFormed → a.size ≤ b.size → m < b.size →
      Connects (f m) exit b m) : Connects (d >>= f) exit a entry := by
  rcases h with ⟨m, b, hd, hthreads⟩
  rcases h' m b hd hthreads.wellFormed hthreads.size_le hthreads.exit_lt with ⟨x, c, hf, hthreads'⟩
  refine ⟨x, c, ?_, hthreads.trans hthreads'⟩
  rw [bind_eq_of_ok hd, hf]

/-- One drawing beside the other. -/
theorem Connects.beside {d d' : Drawing Unit} (h : Connects d (fun _ => join) a entry)
    (h' : ∀ b, b.WellFormed → a.size ≤ b.size → Connects d' (fun _ => join) b entry) :
    Connects (do d; d') (fun _ => join) a entry := by
  rcases h with ⟨x, b, hd, hthreads⟩
  rcases h' b hthreads.wellFormed hthreads.size_le with ⟨y, c, hd', hthreads'⟩
  refine ⟨y, c, ?_, hthreads.beside hthreads'⟩
  rw [bind_eq_of_ok hd, hd']

/-! ### Loops -/

/-- The state of a loop is the entry or hangs on an ε edge from it. -/
theorem connects_loopState (ha : a.WellFormed) (hentry : entry < a.size) (exclusive : Bool) :
    Connects (loopState entry exclusive) id a entry := by
  unfold loopState Connects
  rw [bind_eq_of_ok (rfl : hasEdges entry a = .ok (a.hasEdges entry, a))]
  split
  · exact connects_pure ha hentry
  · exact connects_step ha hentry .epsilon

/-- A body that moves on is led back to the loop's state by an edge that is not idle; a body that
stays has drawn its own way back. -/
theorem connects_turn {literal? : Option Char} {body : StateId → Bool → Drawing StateId}
    {loop : StateId} (ha : a.WellFormed) (hloop : loop < a.size)
    (hbody : literal? = none → Connects (body loop false) id a loop) :
    Connects (turn literal? body loop) id a loop := by
  cases literal? with
  | some c =>
    have hmove : Symbol.char c ≠ .epsilon ∨ loop ≠ loop := .inl Symbol.noConfusion
    exact ⟨loop, _, turn_literal hloop c, Threads.edge ha hloop hloop hmove⟩
  | none =>
    rcases hbody rfl with ⟨exit, b, hd, hthreads⟩
    by_cases hsame : exit = loop
    · subst hsame
      exact ⟨exit, b, turn_of_return hd, hthreads⟩
    · have hloop' : loop < b.size := Nat.lt_of_lt_of_le hloop hthreads.size_le
      refine ⟨loop, _, turn_of_exit hd hsame hthreads.exit_lt hloop', ?_⟩
      exact hthreads.trans (Threads.edge hthreads.wellFormed hthreads.exit_lt hloop' (.inr hsame))

/-- A loop is its state and one turn of it. -/
theorem connects_star {literal? : Option Char} {body : StateId → Bool → Drawing StateId}
    (ha : a.WellFormed) (hentry : entry < a.size)
    (hbody : ∀ b loop, b.WellFormed → loop < b.size → Connects (body loop false) id b loop) :
    Connects (star literal? body entry exclusive) id a entry :=
  (connects_loopState ha hentry exclusive).bind fun loop b _ hb _ hloop =>
    connects_turn hb hloop fun _ => hbody b loop hb hloop

/-! ### Trees -/

/-- A tree is drawn up to its entry or to a new state. -/
theorem exit_of_tree {item : Pattern} {m : StateId} {b : Automaton} (ha : a.WellFormed)
    (hentry : entry < a.size) (h : tree strict item entry exclusive a = .ok (m, b)) :
    m = entry ∨ a.size ≤ m := by
  rcases realizes_tree strict item exclusive ha hentry with ⟨x, c, E, hd, hfragment, -⟩
  rw [h] at hd
  cases hd
  exact hfragment.exit_eq_or_le loopEnds_empty_subset

/-- So it never ends in a join that was there before. -/
theorem ne_join_of_tree {item : Pattern} {m : StateId} {b : Automaton} (ha : a.WellFormed)
    (hentry : entry < a.size) (hjoin : join < a.size) (hne : entry ≠ join)
    (h : tree strict item entry exclusive a = .ok (m, b)) : m ≠ join := by
  rcases exit_of_tree ha hentry h with rfl | hm
  · exact hne
  · rintro rfl
    exact absurd hjoin (Nat.not_lt.2 hm)

mutual

/-- The drawing of a canonical tree connects its entry to its exit. Mutual induction on the tree and
its lists; canonical means here that no alternation is without branches and that the same holds of
every part. -/
theorem connects_tree (strict : Bool) (p : Pattern) {a : Automaton} {entry : StateId}
    (exclusive : Bool) (hp : p.IsCanonical) (ha : a.WellFormed) (hentry : entry < a.size) :
    Connects (tree strict p entry exclusive) id a entry := by
  match p with
  | .empty => exact connects_pure ha hentry
  | .literal c => exact connects_step ha hentry (.char c)
  | .concat items =>
    have hitems := (Pattern.isCanonical_concat_iff.1 hp).2
    exact connects_sequence strict items exclusive (fun item h => (hitems item h).1) ha hentry
  | .alternation alternatives =>
    rcases Pattern.isCanonical_alternation_iff.1 hp with ⟨hlength, hbranches⟩
    -- without a branch nothing would lead to the join: here the canonical form is needed
    have hsome : alternatives ≠ [] := by
      rintro rfl
      cases hlength
    exact Connects.toNewState ha hentry fun b join hb hentry hjoin hne =>
      connects_branches strict alternatives hsome (fun branch h => (hbranches branch h).1) hb
        hentry hjoin hne
  | .closure item .zeroOrMore =>
    have hitem := (Pattern.isCanonical_closure_iff.1 hp).1
    exact connects_star ha hentry fun b loop hb hloop =>
      connects_tree strict item false hitem hb hloop
  | .closure item .oneOrMore =>
    have hitem := (Pattern.isCanonical_closure_iff.1 hp).1
    have hstar : ∀ (exclusive : Bool) (b : Automaton) (m : StateId), b.WellFormed → m < b.size →
        Connects (star item.literal? (tree strict item) m exclusive) id b m :=
      fun _ _ _ hb hm => connects_star hb hm fun b loop hb hloop =>
        connects_tree strict item false hitem hb hloop
    cases strict with
    | false => exact hstar exclusive a entry ha hentry
    | true =>
      exact (connects_tree true item exclusive hitem ha hentry).bind fun m b _ hb _ hm =>
        hstar _ b m hb hm
  | .group inner =>
    exact connects_tree strict inner exclusive (Pattern.isCanonical_group_iff.1 hp) ha hentry

/-- The same of the items of a sequence, one behind the other. -/
theorem connects_sequence (strict : Bool) (items : List Pattern) {a : Automaton} {entry : StateId}
    (exclusive : Bool) (hitems : ∀ item ∈ items, item.IsCanonical) (ha : a.WellFormed)
    (hentry : entry < a.size) : Connects (sequence strict items entry exclusive) id a entry := by
  match items with
  | [] => exact connects_pure ha hentry
  | item :: items =>
    rcases List.forall_mem_cons.1 hitems with ⟨hitem, hrest⟩
    exact (connects_tree strict item exclusive hitem ha hentry).bind fun m b _ hb _ hm =>
      connects_sequence strict items _ hrest hb hm

/-- The same of alternatives between two states. There must be one, since nothing else leads to the
join. -/
theorem connects_branches (strict : Bool) (alternatives : List Pattern) {a : Automaton}
    {entry join : StateId} (hsome : alternatives ≠ [])
    (hbranches : ∀ branch ∈ alternatives, branch.IsCanonical) (ha : a.WellFormed)
    (hentry : entry < a.size) (hjoin : join < a.size) (hne : entry ≠ join) :
    Connects (branches strict alternatives entry join) (fun _ => join) a entry := by
  match alternatives with
  | [] => exact absurd rfl hsome
  | branch :: rest =>
    rcases List.forall_mem_cons.1 hbranches with ⟨hbranch, hrest⟩
    -- the first branch leads to the join, whether another one follows or none
    have hfirst : ∀ d : Drawing Unit, Connects d (fun _ => join) a entry →
        Connects (do d; branches strict rest entry join) (fun _ => join) a entry := by
      intro d hd
      by_cases hlast : rest = []
      · have hnone : (do d; branches strict [] entry join) = d := by
          rw [branches]
          exact bind_pure_unit
        rw [hlast, hnone]
        exact hd
      · exact hd.beside fun b hb hle => connects_branches strict rest hlast hrest hb
          (Nat.lt_of_lt_of_le hentry hle) (Nat.lt_of_lt_of_le hjoin hle) hne
    have hother : Connects (do let exit ← tree strict branch entry false; link exit join)
        (fun _ => join) a entry :=
      (connects_tree strict branch false hbranch ha hentry).bind fun m b hd hb hle hm =>
        connects_addEdge hb hm (Nat.lt_of_lt_of_le hjoin hle)
          (.inr (ne_join_of_tree ha hentry hjoin hne hd))
    match branch with
    | .literal c => exact hfirst _ (connects_addEdge ha hentry hjoin (.inr hne))
    | .concat items =>
      have hitems := (Pattern.isCanonical_concat_iff.1 hbranch).2
      exact hfirst _ (connects_sequenceInto strict items false (fun item h => (hitems item h).1) ha
        hentry hjoin hne)
    | .empty | .alternation _ | .closure _ _ | .group _ =>
      rw [branches_cons, ← bind_assoc]
      · exact hfirst _ hother
      · exact id

/-- The same of a sequence into a join. A last literal takes the join for its exit, and everything
else ends in another state, so the edge to the join is not idle. -/
theorem connects_sequenceInto (strict : Bool) (items : List Pattern) {a : Automaton}
    {entry join : StateId} (exclusive : Bool) (hitems : ∀ item ∈ items, item.IsCanonical)
    (ha : a.WellFormed) (hentry : entry < a.size) (hjoin : join < a.size) (hne : entry ≠ join) :
    Connects (sequenceInto strict items entry exclusive join) (fun _ => join) a entry := by
  match items with
  | [] => exact connects_addEdge ha hentry hjoin (.inr hne)
  | item :: items =>
    by_cases hlast : ∃ c, item = .literal c ∧ items = []
    · rcases hlast with ⟨c, rfl, rfl⟩
      exact connects_addEdge ha hentry hjoin (.inr hne)
    · rcases List.forall_mem_cons.1 hitems with ⟨hitem, hrest⟩
      rw [sequenceInto_cons hlast]
      refine (connects_tree strict item exclusive hitem ha hentry).bind fun m b hd hb hle hm => ?_
      exact connects_sequenceInto strict items _ hrest hb hm (Nat.lt_of_lt_of_le hjoin hle)
        (ne_join_of_tree ha hentry hjoin hne hd)

end

end Drawing

end PatternGraph
