import PatternGraph.OrderedSet

/-!
# Automata — states in a row, edges with and without a character

An automaton is grown by three operations: a new state, an edge between two states, a final mark.
A state's identifier is its place in the row of states. The edges of a state are kept by symbol,
ε before every character and characters by code point, and the targets of a symbol by identifier,
so that automata with the same states, edges and marks are the same value, in whatever order they
were grown.
-/

namespace PatternGraph

/-! ## Symbols -/

/-- What an edge reads: nothing, or one character. -/
inductive Symbol where
  | epsilon
  | char (c : Char)
deriving Repr, DecidableEq

namespace Symbol

/-- The place of a symbol in the order: ε first, then the characters by code point. -/
def order : Symbol → Nat
  | epsilon => 0
  | char c => c.toNat + 1

instance : Ranked Symbol where
  rank := order
  rank_injective {a b} h := by
    cases a <;> cases b
    · rfl
    · simp [order] at h
    · simp [order] at h
    · next c d => rw [rank_injective (Nat.succ.inj h : rank c = rank d)]

/-- The character of a symbol; ε has none. -/
def char? : Symbol → Option Char
  | epsilon => none
  | char c => some c

/-- The label of an edge in a drawing, where ε shows no label. -/
def label : Symbol → String
  | epsilon => ""
  | char c => c.toString

/-- A symbol in running text. -/
def name : Symbol → String
  | epsilon => "ε"
  | char c => c.toString

end Symbol

/-! ## States -/

/-- A state is known by its place in the row of states. -/
abbrev StateId := Nat

namespace StateId

/-- The name of a state in every output. -/
def name (id : StateId) : String :=
  "q" ++ id.repr

end StateId

/-- The edges that leave a state by one symbol. -/
structure Row where
  symbol : Symbol
  targets : OrderedSet StateId
deriving DecidableEq

/-- The rows with one edge more; the row of a new symbol goes to its place in the order. -/
def Row.insertEdge (symbol : Symbol) (target : StateId) : List Row → List Row
  | [] => [⟨symbol, OrderedSet.ofList [target]⟩]
  | row :: rows =>
    if rank symbol < rank row.symbol then
      ⟨symbol, OrderedSet.ofList [target]⟩ :: row :: rows
    else if symbol = row.symbol then
      { row with targets := row.targets.insert target } :: rows
    else
      row :: insertEdge symbol target rows

/-- A state: its identifier, the edges that leave it, and whether a word may end in it. -/
structure State where
  id : StateId
  rows : List Row
  isFinal : Bool
deriving DecidableEq

namespace State

/-- A state without edges that is not final. -/
def fresh (id : StateId) : State where
  id := id
  rows := []
  isFinal := false

/-- The name of a state. -/
def name (state : State) : String :=
  state.id.name

/-- The states that a symbol leads to. -/
def targets (state : State) (symbol : Symbol) : OrderedSet StateId :=
  match state.rows.find? (·.symbol = symbol) with
  | some row => row.targets
  | none => ∅

/-- Whether an edge leaves the state. -/
def hasEdges (state : State) : Bool :=
  !state.rows.isEmpty

/-- The state with one edge more. -/
def insertEdge (state : State) (symbol : Symbol) (target : StateId) : State :=
  { state with rows := Row.insertEdge symbol target state.rows }

/-- The state with a final mark. -/
def setFinal (state : State) : State :=
  { state with isFinal := true }

end State

/-! ## Automata -/

/-- An edge of an automaton. -/
structure Edge where
  source : StateId
  symbol : Symbol
  target : StateId
deriving Repr, DecidableEq

/-- An operation named a state that the automaton does not have. -/
structure UnknownState where
  id : StateId
deriving Repr, DecidableEq

/-- The defect in words. -/
def UnknownState.message (error : UnknownState) : String :=
  "transition references unknown state " ++ error.id.name

/-- An automaton: its states by identifier, the state where a word starts, and the identifier of
the next state to be made. -/
structure Automaton where
  states : Array State
  initial : StateId
  nextId : StateId
deriving DecidableEq

namespace Automaton

/-- The automaton with no states. -/
def empty : Automaton where
  states := #[]
  initial := 0
  nextId := 0

instance : EmptyCollection Automaton := ⟨empty⟩

instance : Inhabited Automaton := ⟨empty⟩

/-! ### Growing an automaton -/

/-- A new state, and the automaton that has it. -/
def addState (a : Automaton) : StateId × Automaton :=
  (a.nextId, { a with states := a.states.push (State.fresh a.nextId), nextId := a.nextId + 1 })

/-- The automaton with one edge more. Both ends have to exist, and where neither does, the target
is the one reported. -/
def addEdge (a : Automaton) (source : StateId) (symbol : Symbol) (target : StateId) :
    Except UnknownState Automaton :=
  if target < a.states.size then
    if source < a.states.size then
      .ok { a with states := a.states.modify source (·.insertEdge symbol target) }
    else
      .error ⟨source⟩
  else
    .error ⟨target⟩

/-- The automaton with one state marked final. -/
def setFinal (a : Automaton) (id : StateId) : Except UnknownState Automaton :=
  if id < a.states.size then
    .ok { a with states := a.states.modify id State.setFinal }
  else
    .error ⟨id⟩

/-! ### Looking at an automaton -/

/-- The state with an identifier, if there is one. -/
def state? (a : Automaton) (id : StateId) : Option State :=
  a.states[id]?

/-- The number of states. -/
def size (a : Automaton) : Nat :=
  a.states.size

/-- The states that a symbol leads to from a state; an unknown state leads nowhere. -/
def targets (a : Automaton) (id : StateId) (symbol : Symbol) : OrderedSet StateId :=
  match a.state? id with
  | some state => state.targets symbol
  | none => ∅

/-- Whether an edge leaves a state; none leaves an unknown state. -/
def hasEdges (a : Automaton) (id : StateId) : Bool :=
  (a.state? id).any State.hasEdges

/-- Whether a state exists and is final. -/
def isFinal (a : Automaton) (id : StateId) : Bool :=
  (a.state? id).any State.isFinal

/-- The final states in order. -/
def finals (a : Automaton) : List StateId :=
  (a.states.toList.filter State.isFinal).map State.id

/-- All edges, ordered by source, then symbol, then target. -/
def edges (a : Automaton) : List Edge :=
  a.states.toList.flatMap fun state =>
    state.rows.flatMap fun row =>
      row.targets.toList.map fun target => ⟨state.id, row.symbol, target⟩

/-- The characters that some edge reads. -/
def alphabet (a : Automaton) : OrderedSet Char :=
  OrderedSet.ofList (a.edges.filterMap (·.symbol.char?))

end Automaton

/-! ## Listing -/

/-- The line of an edge. -/
def Edge.line (edge : Edge) : String :=
  "  " ++ edge.source.name ++ " --" ++ edge.symbol.name ++ "--> " ++ edge.target.name ++ "\n"

namespace Automaton

/-- The first line names the initial state and the final states, the others list the edges in
order. -/
def render (a : Automaton) : String :=
  let finals := ", ".intercalate (a.finals.map StateId.name)
  "initial: " ++ a.initial.name ++ "  final: \x7b" ++ finals ++ "\x7d\n"
    ++ String.join (a.edges.map Edge.line)

end Automaton

end PatternGraph
