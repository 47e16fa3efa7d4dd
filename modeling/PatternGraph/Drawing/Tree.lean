import PatternGraph.Drawing.Basic
import PatternGraph.Pattern.Basic

/-!
# Drawing a tree — an automaton from a parsed pattern

Every node is drawn behind an entry state and yields the state where its words end. Three
economies keep the automaton small. A loop turns on its entry itself where that state is
*exclusive*: nothing but this node and what follows it will ever leave the entry, so no other
branch can stray into the loop. The last literal of a branch leads straight to the state where the
branches meet. And a looped literal is one edge from the loop state to itself.
-/

namespace PatternGraph.Drawing

/-- The state for a loop behind `entry`: the entry itself where it is exclusive and nothing leaves
it yet, else a new state behind it. -/
def loopState (entry : StateId) (exclusive : Bool) : Drawing StateId := do
  if exclusive && !(← hasEdges entry) then
    pure entry
  else do
    let loop ← newState
    link entry loop
    pure loop

/-- Lets an item turn on the state `loop` any number of times. The item is a lone literal or else
is drawn by `body`, which gets the loop state, shared by its nature. -/
def turn (literal? : Option Char) (body : StateId → Bool → Drawing StateId) (loop : StateId) :
    Drawing StateId := do
  match literal? with
  | some c => addEdge loop (.char c) loop
  | none =>
    let exit ← body loop false
    if exit ≠ loop then
      link exit loop
  pure loop

/-- Zero or more repetitions behind `entry`, ending in the state on which the loop turns. -/
def star (literal? : Option Char) (body : StateId → Bool → Drawing StateId) (entry : StateId)
    (exclusive : Bool) : Drawing StateId := do
  let loop ← loopState entry exclusive
  turn literal? body loop

mutual

/-- A pattern behind `entry`; yields the state where its words end. `exclusive` tells that nothing
else will leave the entry besides this pattern and what follows it. -/
def tree (strictPlus : Bool) : Pattern → StateId → Bool → Drawing StateId
  | .empty, entry, _ => pure entry
  | .literal c, entry, _ => do
    let next ← newState
    addEdge entry (.char c) next
    pure next
  | .concat items, entry, exclusive => sequence strictPlus items entry exclusive
  | .alternation alternatives, entry, _ => do
    let join ← newState
    branches strictPlus alternatives entry join
    pure join
  | .closure item .zeroOrMore, entry, exclusive =>
    star item.literal? (tree strictPlus item) entry exclusive
  | .closure item .oneOrMore, entry, exclusive =>
    if strictPlus then do
      let once ← tree strictPlus item entry exclusive
      star item.literal? (tree strictPlus item) once (exclusive || once ≠ entry)
    else
      star item.literal? (tree strictPlus item) entry exclusive
  | .group inner, entry, exclusive => tree strictPlus inner entry exclusive

/-- Items one behind the other. Once an item has moved on from the entry, the state it ended in
belongs to the sequence alone. -/
def sequence (strictPlus : Bool) : List Pattern → StateId → Bool → Drawing StateId
  | [], current, _ => pure current
  | item :: items, current, exclusive => do
    let next ← tree strictPlus item current exclusive
    sequence strictPlus items next (exclusive || next ≠ current)

/-- The branches of an alternation, each from the shared entry to the state where they meet. -/
def branches (strictPlus : Bool) : List Pattern → StateId → StateId → Drawing Unit
  | [], _, _ => pure ()
  | .literal c :: rest, entry, join => do
    addEdge entry (.char c) join
    branches strictPlus rest entry join
  | .concat items :: rest, entry, join => do
    sequenceInto strictPlus items entry false join
    branches strictPlus rest entry join
  | branch :: rest, entry, join => do
    let exit ← tree strictPlus branch entry false
    link exit join
    branches strictPlus rest entry join

/-- Items one behind the other that end in `join`: by the last item itself where it is a literal,
else by an ε edge. -/
def sequenceInto (strictPlus : Bool) : List Pattern → StateId → Bool → StateId → Drawing Unit
  | [], current, _, join => link current join
  | [.literal c], current, _, join => addEdge current (.char c) join
  | item :: items, current, exclusive, join => do
    let next ← tree strictPlus item current exclusive
    sequenceInto strictPlus items next (exclusive || next ≠ current) join

end

/-- The automaton of a tree. -/
def ofPattern (strictPlus : Bool) (p : Pattern) : Except CompileError Automaton :=
  automaton fun initial => tree strictPlus p initial true

end PatternGraph.Drawing
