import PatternGraph.Proofs.Automaton.Simulation
import Mathlib.Logic.Function.Iterate
import Mathlib.Order.Bounds.Defs

/-!
# Closure — the loop that closes a set under ε edges, and what it ends with

`Automaton.closeFrom` looks at all pending states together. The plain loop takes one state at a time
off a stack, and the stack grows while it is drained.

1. `Worklist.turn` is one turn of that loop. `Worklist.Invariant` is kept by a turn, and a turn
   moves one state for good from the stack to those that are done (`Worklist.length_turn`).
2. So the loop takes as many turns as the closure has members (`Worklist.stack_eq_nil_iff`), and it
   ends with the closure that `Automaton.epsilonClosure` computes.
3. `epsilonClosure_drains_and_isLeast` adds that this is the least closed set above the one it
   starts from, and the laws that follow.
-/

namespace PatternGraph

/-! ## Numbers of members -/

namespace OrderedSet

variable {α : Type} [Ranked α] {s t : OrderedSet α} {x : α}

/-- An element that is new takes one place of its own in the order. -/
theorem length_insertRanked {ys : List α} (h : x ∉ ys) :
    (insertRanked x ys).length = ys.length + 1 := by
  induction ys with
  | nil => rfl
  | cons y ys ih =>
    rw [List.mem_cons, not_or] at h
    unfold insertRanked
    split
    · rfl
    · split
      · next hsame => exact absurd (rank_injective hsame) h.1
      · rw [List.length_cons, List.length_cons, ih h.2]

theorem length_insert (h : x ∉ s) : (s.insert x).toList.length = s.toList.length + 1 :=
  length_insertRanked h

/-- In strictly ascending order nothing stands twice. -/
theorem nodup_toList (s : OrderedSet α) : s.toList.Nodup := by
  refine s.sorted.imp fun {x y} hlt => ?_
  rintro rfl
  exact Nat.lt_irrefl _ hlt

theorem length_le_of_subset (h : ∀ x ∈ s, x ∈ t) : s.toList.length ≤ t.toList.length :=
  s.nodup_toList.length_le_of_subset h

end OrderedSet

namespace Automaton

/-! ## The loop -/

/-- What the loop works on: the states that are counted in, and a stack of those among them whose
ε targets have not been looked at. -/
structure Worklist where
  seen : OrderedSet StateId
  stack : List StateId
deriving DecidableEq

namespace Worklist

/-- The members of a set are counted in from the start, and the greatest of them is on top. -/
def start (ids : OrderedSet StateId) : Worklist where
  seen := ids
  stack := ids.toList.reverse

/-- A state that is new is counted in and put on top. -/
def visit (w : Worklist) (q : StateId) : Worklist :=
  if q ∈ w.seen then w else ⟨w.seen.insert q, q :: w.stack⟩

/-- One turn of the loop: the state on top is taken off, and its ε targets are visited. When the
stack is empty nothing changes any more. -/
def turn (a : Automaton) (w : Worklist) : Worklist :=
  match w.stack with
  | [] => w
  | p :: stack => (a.targets p .epsilon).toList.foldl visit ⟨w.seen, stack⟩

variable {a : Automaton} {w : Worklist} {ids : OrderedSet StateId} {p q : StateId}
  {qs : List StateId}

/-! ### Visits -/

/-- A visit counts in the state that is visited and nothing else. -/
theorem mem_seen_visit : p ∈ (w.visit q).seen ↔ p ∈ w.seen ∨ p = q := by
  unfold visit
  split
  · next h =>
    constructor
    · exact .inl
    · rintro (hp | rfl)
      · exact hp
      · exact h
  · rw [OrderedSet.mem_insert, or_comm]

/-- A visit puts a state on the stack only where it is new, so nothing is stacked twice. -/
theorem mem_stack_visit : p ∈ (w.visit q).stack ↔ p ∈ w.stack ∨ p = q ∧ p ∉ w.seen := by
  unfold visit
  split
  · next h =>
    constructor
    · exact .inl
    · rintro (hp | ⟨rfl, hp⟩)
      · exact hp
      · exact absurd h hp
  · next h =>
    rw [List.mem_cons, or_comm]
    refine or_congr_right ⟨?_, And.left⟩
    rintro rfl
    exact ⟨rfl, h⟩

/-- Whatever a visit counts in it also puts on the stack: the difference of the two numbers stays.
-/
theorem length_visit (w : Worklist) (q : StateId) :
    (w.visit q).seen.toList.length + w.stack.length
      = w.seen.toList.length + (w.visit q).stack.length := by
  unfold visit
  split
  · rfl
  · next h =>
    rw [OrderedSet.length_insert h, List.length_cons]
    omega

theorem mem_seen_visits : p ∈ (qs.foldl visit w).seen ↔ p ∈ w.seen ∨ p ∈ qs := by
  induction qs generalizing w with
  | nil => simp
  | cons q qs ih => rw [List.foldl_cons, ih, mem_seen_visit, List.mem_cons, or_assoc]

theorem mem_stack_visits : p ∈ (qs.foldl visit w).stack ↔ p ∈ w.stack ∨ p ∈ qs ∧ p ∉ w.seen := by
  induction qs generalizing w with
  | nil => simp
  | cons q qs ih =>
    rw [List.foldl_cons, ih, mem_stack_visit, mem_seen_visit, List.mem_cons]
    grind

/-- However many states are visited, the number that is counted in grows as the stack does. -/
theorem length_visits (w : Worklist) (qs : List StateId) :
    (qs.foldl visit w).seen.toList.length + w.stack.length
      = w.seen.toList.length + (qs.foldl visit w).stack.length := by
  induction qs generalizing w with
  | nil => rfl
  | cons q qs ih =>
    have hfirst := length_visit w q
    have hrest := ih (w.visit q)
    rw [List.foldl_cons]
    omega

/-! ### Turns -/

/-- What the loop keeps: it has counted in the set that it started from and nothing beyond the
closure, and only stacked states may have ε targets that are not counted in. -/
structure Invariant (a : Automaton) (ids : OrderedSet StateId) (w : Worklist) : Prop where
  start_seen : ∀ p ∈ ids, p ∈ w.seen
  seen_closure : ∀ p ∈ w.seen, p ∈ a.epsilonClosure ids
  stack_seen : ∀ p ∈ w.stack, p ∈ w.seen
  settled : ∀ p ∈ w.seen, p ∉ w.stack → ∀ q ∈ a.targets p .epsilon, q ∈ w.seen

theorem invariant_start (a : Automaton) (ids : OrderedSet StateId) :
    Invariant a ids (start ids) where
  start_seen _ hp := hp
  seen_closure _ hp := subset_epsilonClosure hp
  stack_seen _ hp := List.mem_reverse.1 hp
  settled _ hp hnot := absurd (List.mem_reverse.2 hp) hnot

/-- A turn keeps the invariant. Only the part about the targets needs care: the state that was on
top is no longer stacked, and it must have its own targets counted in by then. -/
theorem Invariant.turn (h : Invariant a ids w) : Invariant a ids (w.turn a) := by
  unfold Worklist.turn
  split
  · exact h
  · next p stack hstack =>
    have hp : p ∈ w.seen := h.stack_seen p (hstack ▸ List.mem_cons_self)
    constructor
    · intro x hx
      exact mem_seen_visits.2 (.inl (h.start_seen x hx))
    · intro x hx
      rcases mem_seen_visits.1 hx with hx | hx
      · exact h.seen_closure x hx
      · exact epsilonClosure_closed a ids p (h.seen_closure p hp) x hx
    · intro x hx
      rcases mem_stack_visits.1 hx with hx | ⟨hx, -⟩
      · exact mem_seen_visits.2 (.inl (h.stack_seen x (hstack ▸ List.mem_cons_of_mem p hx)))
      · exact mem_seen_visits.2 (.inr hx)
    · intro x hx hnot y hy
      rw [mem_stack_visits, not_or] at hnot
      by_cases htop : x = p
      · -- the state that was taken off has just had its targets visited
        subst htop
        exact mem_seen_visits.2 (.inr hy)
      · have hold : x ∈ w.seen := by
          rcases mem_seen_visits.1 hx with hx | hx
          · exact hx
          · by_contra hnew
            -- what is new has gone to the stack, and there it is not any more
            exact hnot.2 ⟨hx, hnew⟩
        have hunstacked : x ∉ w.stack := by
          rw [hstack, List.mem_cons, not_or]
          exact ⟨htop, hnot.1⟩
        exact mem_seen_visits.2 (.inl (h.settled x hold hunstacked y hy))

/-- A turn leaves one state more that is counted in and not on the stack. -/
theorem length_turn (h : w.stack ≠ []) :
    (w.turn a).seen.toList.length + w.stack.length
      = w.seen.toList.length + (w.turn a).stack.length + 1 := by
  unfold turn
  split
  · next hstack => exact absurd hstack h
  · next p stack hstack =>
    have hvisits := length_visits ⟨w.seen, stack⟩ (a.targets p .epsilon).toList
    rw [hstack, List.length_cons]
    simp only at hvisits
    omega

theorem turn_of_nil (h : w.stack = []) : w.turn a = w := by
  unfold turn
  rw [h]

/-! ### The whole loop -/

/-- By induction on the number of turns, the invariant holds after each of them. -/
theorem invariant_iterate (a : Automaton) (ids : OrderedSet StateId) (n : Nat) :
    Invariant a ids ((turn a)^[n] (start ids)) := by
  induction n with
  | zero => exact invariant_start a ids
  | succ n ih =>
    rw [Function.iterate_succ_apply']
    exact ih.turn

/-- With nothing left on the stack the closure is complete. -/
theorem Invariant.seen_eq (h : Invariant a ids w) (hstack : w.stack = []) :
    w.seen = a.epsilonClosure ids := by
  ext q
  refine ⟨h.seen_closure q, fun hq => ?_⟩
  refine closeFrom_least (P := (· ∈ w.seen)) h.start_seen h.start_seen (fun p hp => ?_) hq
  exact h.settled p hp (by rw [hstack]; exact List.not_mem_nil)

/-- Up to the number of the closure's members each turn settles one state. -/
theorem length_seen_iterate {n : Nat} (hn : n ≤ (a.epsilonClosure ids).toList.length) :
    ((turn a)^[n] (start ids)).seen.toList.length
      = ((turn a)^[n] (start ids)).stack.length + n := by
  induction n with
  | zero => simp [start]
  | succ n ih =>
    have hlength := ih (Nat.le_of_succ_le hn)
    -- an empty stack would mean that the closure is complete, with all its members settled
    have hstack : ((turn a)^[n] (start ids)).stack ≠ [] := by
      intro hnil
      rw [(invariant_iterate a ids n).seen_eq hnil, hnil, List.length_nil] at hlength
      omega
    have hturn := length_turn (a := a) hstack
    rw [Function.iterate_succ_apply']
    omega

/-- After as many turns as the closure has members it is complete and the stack is empty. -/
theorem iterate_length (a : Automaton) (ids : OrderedSet StateId) :
    (turn a)^[(a.epsilonClosure ids).toList.length] (start ids) = ⟨a.epsilonClosure ids, []⟩ := by
  have hinv := invariant_iterate a ids (a.epsilonClosure ids).toList.length
  have hlength := length_seen_iterate (Nat.le_refl (a.epsilonClosure ids).toList.length)
  have hle := OrderedSet.length_le_of_subset hinv.seen_closure
  -- nothing is counted in beyond the closure, so after that many turns nothing is left to be done
  have hstack : ((turn a)^[(a.epsilonClosure ids).toList.length] (start ids)).stack = [] := by
    rw [← List.length_eq_zero_iff]
    omega
  have hseen := hinv.seen_eq hstack
  generalize (turn a)^[(a.epsilonClosure ids).toList.length] (start ids) = w at hstack hseen
  cases w
  cases hstack
  exact congrArg (Worklist.mk · []) hseen

/-- The loop ends, and it takes as many turns as the closure has members. -/
theorem stack_eq_nil_iff {n : Nat} :
    ((turn a)^[n] (start ids)).stack = [] ↔ (a.epsilonClosure ids).toList.length ≤ n := by
  constructor
  · intro hstack
    by_contra hlt
    have hlength := length_seen_iterate (Nat.le_of_lt (Nat.not_le.1 hlt))
    rw [(invariant_iterate a ids n).seen_eq hstack, hstack, List.length_nil] at hlength
    omega
  · intro hle
    obtain ⟨k, rfl⟩ := Nat.exists_eq_add_of_le' hle
    rw [Function.iterate_add_apply, iterate_length, Function.iterate_fixed (turn_of_nil rfl)]

end Worklist

/-! ## The least closed set -/

variable {a : Automaton} {ids others : OrderedSet StateId} {p q : StateId} {c : Char}

/-- The sets that hold some states and with each state the targets of its ε edges. -/
def closedAbove (a : Automaton) (ids : OrderedSet StateId) : Set (Set StateId) :=
  {closed | (∀ p ∈ ids, p ∈ closed) ∧
    ∀ p q, a.HasEdge p .epsilon q → p ∈ closed → q ∈ closed}

/-- The closure is closed, and every closed set above the one it starts from is above the closure.
-/
theorem WellFormed.epsilonClosure_isLeast (h : a.WellFormed) (ids : OrderedSet StateId) :
    IsLeast (a.closedAbove ids) {q | q ∈ a.epsilonClosure ids} := by
  constructor
  · refine ⟨fun p hp => subset_epsilonClosure hp, fun p q hedge hp => ?_⟩
    exact epsilonClosure_closed a ids p hp q (h.mem_targets.2 hedge)
  · rintro closed ⟨hids, hclosed⟩ q hq
    refine closeFrom_least (P := (· ∈ closed)) hids hids (fun p hp x hx => ?_) hq
    exact hclosed p x (h.mem_targets.1 hx) hp

/-- A path starts in one state, so closing two sets together is closing each by itself. -/
theorem WellFormed.epsilonClosure_union (h : a.WellFormed) (ids others : OrderedSet StateId) :
    a.epsilonClosure (ids.union others)
      = (a.epsilonClosure ids).union (a.epsilonClosure others) := by
  ext q
  simp only [OrderedSet.mem_union, h.mem_epsilonClosure, or_and_right, exists_or]

/-- To close a closure adds nothing. -/
theorem WellFormed.epsilonClosure_idem (h : a.WellFormed) (ids : OrderedSet StateId) :
    a.epsilonClosure (a.epsilonClosure ids) = a.epsilonClosure ids := by
  ext q
  constructor
  · intro hq
    rcases h.mem_epsilonClosure.1 hq with ⟨p, hp, hpath⟩
    exact h.mem_of_path_nil (epsilonClosure_closed a ids) hpath hp
  · exact subset_epsilonClosure

theorem WellFormed.epsilonClosure_mono (h : a.WellFormed) (hsubset : ∀ p ∈ ids, p ∈ others)
    (hq : q ∈ a.epsilonClosure ids) : q ∈ a.epsilonClosure others := by
  rcases h.mem_epsilonClosure.1 hq with ⟨p, hp, hpath⟩
  exact h.mem_epsilonClosure.2 ⟨p, hsubset p hp, hpath⟩

/-- No edge leaves an unknown state, so the closure of a set is that of its known members, with the
unknown ones added as they are. -/
theorem WellFormed.epsilonClosure_eq_known_union (h : a.WellFormed) (ids : OrderedSet StateId) :
    a.epsilonClosure ids
      = (a.epsilonClosure (ids.filter (· < a.size))).union (ids.filter (a.size ≤ ·)) := by
  ext q
  rw [OrderedSet.mem_union, h.mem_epsilonClosure, h.mem_epsilonClosure]
  simp only [OrderedSet.mem_filter, decide_eq_true_eq]
  constructor
  · rintro ⟨p, hp, hpath⟩
    by_cases hknown : p < a.size
    · exact .inl ⟨p, ⟨hp, hknown⟩, hpath⟩
    · -- a path from an unknown state has no edge to begin with
      rcases hpath.eq_or_source with rfl | ⟨s, y, edge⟩
      · exact .inr ⟨hp, Nat.not_lt.1 hknown⟩
      · exact absurd (h.edge_lt edge).1 hknown
  · rintro (⟨p, ⟨hp, -⟩, hpath⟩ | ⟨hq, -⟩)
    · exact ⟨p, hp, hpath⟩
    · exact ⟨q, hq, .nil q⟩

/-- A step is taken from each state by itself, so it distributes over unions as well. -/
theorem WellFormed.step_union (h : a.WellFormed) (ids others : OrderedSet StateId) (c : Char) :
    a.step (ids.union others) c = (a.step ids c).union (a.step others c) := by
  ext q
  simp only [OrderedSet.mem_union, h.mem_step, or_and_right, exists_or]

/-- In every automaton that operations make, the loop on any set of states comes to an end with the
closure of the set, after as many turns as the closure has members and not before. The closure is
the least set above the given one that no ε edge leaves, an unknown state being in it for itself
only. It is idempotent and monotone and distributes over unions, and so does a step. -/
theorem epsilonClosure_drains_and_isLeast (operations : List Operation)
    (ids : OrderedSet StateId) :
    let a := grow operations
    (∀ n, ((Worklist.turn a)^[n] (.start ids)).stack = [] ↔
      (a.epsilonClosure ids).toList.length ≤ n) ∧
    (Worklist.turn a)^[(a.epsilonClosure ids).toList.length] (.start ids)
      = ⟨a.epsilonClosure ids, []⟩ ∧
    IsLeast (a.closedAbove ids) {q | q ∈ a.epsilonClosure ids} ∧
    a.epsilonClosure ids
      = (a.epsilonClosure (ids.filter (· < a.size))).union (ids.filter (a.size ≤ ·)) ∧
    a.epsilonClosure (a.epsilonClosure ids) = a.epsilonClosure ids ∧
    (∀ others : OrderedSet StateId, (∀ p ∈ ids, p ∈ others) →
      ∀ q ∈ a.epsilonClosure ids, q ∈ a.epsilonClosure others) ∧
    (∀ others, a.epsilonClosure (ids.union others)
      = (a.epsilonClosure ids).union (a.epsilonClosure others)) ∧
    ∀ others c, a.step (ids.union others) c = (a.step ids c).union (a.step others c) := by
  intro a
  have h : a.WellFormed := wellFormed_grow operations
  exact ⟨fun _ => Worklist.stack_eq_nil_iff, Worklist.iterate_length a ids,
    h.epsilonClosure_isLeast ids, h.epsilonClosure_eq_known_union ids, h.epsilonClosure_idem ids,
    fun _ hsubset _ => h.epsilonClosure_mono hsubset, h.epsilonClosure_union ids, h.step_union ids⟩

/-- From the middle of a cycle of ε edges three turns close the set; the unknown state in it costs a
fourth. -/
example :
    let a := grow [.addState, .addState, .addState, .addEdge 0 .epsilon 1, .addEdge 1 .epsilon 2,
      .addEdge 2 .epsilon 0]
    (Worklist.turn a)^[4] (.start (OrderedSet.ofList [1, 9]))
      = ⟨OrderedSet.ofList [0, 1, 2, 9], []⟩ := by
  rfl

end Automaton

end PatternGraph
