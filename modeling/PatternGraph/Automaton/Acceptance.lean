import PatternGraph.Automaton.Basic

/-!
# Acceptance — the states that a word can reach

A word is read one character at a time by the set of all states that the word so far can reach.
The set is closed under ε edges by a worklist: the states on it have been counted in, and their own
ε targets have not yet been looked at.
-/

namespace PatternGraph.Automaton

/-! ## Closing a set under ε edges -/

/-- Everything that some ε edge leads to. -/
def epsilonTargets (a : Automaton) : List StateId :=
  a.states.toList.flatMap fun state => (state.targets .epsilon).toList

/-- The ε targets that a set does not have: each round of the worklist that finds something new
makes this number smaller. -/
def unseenCount (a : Automaton) (seen : OrderedSet StateId) : Nat :=
  (a.epsilonTargets.filter (· ∉ seen)).length

/-- A state that an ε edge leads to from some state is among the ε targets. -/
theorem mem_epsilonTargets {a : Automaton} {p q : StateId} (h : q ∈ a.targets p .epsilon) :
    q ∈ a.epsilonTargets := by
  simp only [targets, state?] at h
  split at h
  · next state hs =>
    refine List.mem_flatMap.2 ⟨state, ?_, h⟩
    exact Array.mem_toList_iff.2 (Array.mem_of_getElem? hs)
  · exact absurd h (OrderedSet.not_mem_empty q)

/-- A set that takes in a new ε target has fewer of them left: the worklist gets on. -/
theorem unseenCount_union_lt {a : Automaton} {seen fresh : OrderedSet StateId} {p q : StateId}
    (hp : q ∈ a.targets p .epsilon) (hq : q ∈ fresh) (hs : q ∉ seen) :
    a.unseenCount (seen.union fresh) < a.unseenCount seen := by
  have hsplit : a.epsilonTargets.filter (· ∉ seen.union fresh)
      = (a.epsilonTargets.filter (· ∉ seen)).filter (· ∉ fresh) := by
    rw [List.filter_filter]
    refine List.filter_congr fun x _ => ?_
    simp [not_or, Bool.and_comm]
  rw [unseenCount, unseenCount, hsplit, List.length_filter_lt_length_iff_exists]
  exact ⟨q, by simpa [hs] using mem_epsilonTargets hp, by simpa using hq⟩

/-- The worklist: `pending` are the members of `seen` whose own ε targets have not been looked at.
All of them are looked at together, and what is new joins the set and makes the next list. -/
def closeFrom (a : Automaton) (seen pending : OrderedSet StateId) : OrderedSet StateId :=
  let fresh := (pending.bind fun id => a.targets id .epsilon).diff seen
  if fresh.isEmpty then seen else closeFrom a (seen.union fresh) fresh
termination_by a.unseenCount seen
decreasing_by
  next h =>
    obtain ⟨q, hq⟩ := OrderedSet.exists_mem_of_isEmpty_eq_false (by simpa using h)
    obtain ⟨hmem, hs⟩ := OrderedSet.mem_diff.1 hq
    obtain ⟨p, _, hp⟩ := OrderedSet.mem_bind.1 hmem
    exact unseenCount_union_lt hp hq hs

/-- A set together with every state that ε edges lead to from it. An unknown state of the set
stays in it and leads nowhere. -/
def epsilonClosure (a : Automaton) (ids : OrderedSet StateId) : OrderedSet StateId :=
  a.closeFrom ids ids

/-! ## Reading words -/

/-- The states behind one character, closed under ε edges. The set itself is taken as it is. -/
def step (a : Automaton) (ids : OrderedSet StateId) (c : Char) : OrderedSet StateId :=
  a.epsilonClosure (ids.bind fun id => a.targets id (.char c))

/-- The states that the empty word reaches. -/
def start (a : Automaton) : OrderedSet StateId :=
  a.epsilonClosure (OrderedSet.ofList [a.initial])

/-- The states that a word reaches. -/
def reach (a : Automaton) (word : List Char) : OrderedSet StateId :=
  word.foldl a.step a.start

/-- Whether a word leads from a set into a final state; a set that has run empty refuses at
once. -/
def acceptsFrom (a : Automaton) (ids : OrderedSet StateId) : List Char → Bool
  | [] => ids.any a.isFinal
  | c :: word => if ids.isEmpty then false else acceptsFrom a (a.step ids c) word

/-- Whether the automaton accepts a text as a whole. -/
def accepts (a : Automaton) (text : String) : Bool :=
  a.acceptsFrom a.start text.toList

/-- The sets that a word runs through from a set on, that set first. -/
def traceFrom (a : Automaton) (ids : OrderedSet StateId) : List Char → List (OrderedSet StateId)
  | [] => [ids]
  | c :: word => ids :: traceFrom a (a.step ids c) word

/-- The sets that a text runs through, from the closed initial state to the end of the text. -/
def trace (a : Automaton) (text : String) : List (OrderedSet StateId) :=
  a.traceFrom a.start text.toList

end PatternGraph.Automaton
