import PatternGraph.Automaton.Basic
import PatternGraph.Pattern.Error

/-!
# Drawings — steps that grow one automaton

A drawing is a computation that grows an automaton state by state and edge by edge and stops at
the first failure. The failures of a whole compilation are collected here: a pattern that cannot
be read, a limit that is exceeded, and an edge to a state that does not exist.
-/

namespace PatternGraph

/-! ## Failures of a compilation -/

/-- Why a pattern has no automaton. -/
inductive CompileError where
  /-- The pattern cannot be read. -/
  | malformed (cause : PatternError)
  /-- More groups are open at once than the limit allows. -/
  | tooDeep (limit : Nat)
  /-- The pattern has more characters than the limit allows. -/
  | tooLong (length : Nat) (limit : Nat)
  /-- A drawing named a state that it had not made. -/
  | unknownState (id : StateId)
deriving Repr, DecidableEq

namespace CompileError

/-- A defect of a pattern as a failure of its compilation: an exceeded limit is no malformation. -/
def ofPatternError : PatternError → CompileError
  | .tooDeep limit _ => tooDeep limit
  | .tooLong length limit => tooLong length limit
  | cause => malformed cause

/-- A refused operation as a failure of the compilation that asked for it. -/
def ofUnknownState (error : UnknownState) : CompileError :=
  unknownState error.id

/-- The defect that makes a pattern malformed, if that is what failed. -/
def cause? : CompileError → Option PatternError
  | malformed cause => some cause
  | _ => none

/-- The failure in words. -/
def message : CompileError → String
  | malformed cause => "malformed pattern: " ++ cause.message
  | tooDeep limit => "groups nested deeper than " ++ limit.repr
  | tooLong length limit =>
    "pattern is " ++ length.repr ++ " characters long, the limit is " ++ limit.repr
  | unknownState id => "internal error: " ++ (UnknownState.mk id).message

/-- A malformed pattern is reported with its defect, any other failure by its message alone. -/
def report (error : CompileError) (style : Style) (pattern : String) : String :=
  match error with
  | malformed cause => cause.report style pattern
  | error => style.tag "error" ++ " " ++ error.message

end CompileError

/-! ## Steps of a drawing -/

/-- A computation on the automaton that is being drawn. -/
abbrev Drawing (α : Type) := StateT Automaton (Except CompileError) α

namespace Drawing

/-- A new state. -/
def newState : Drawing StateId :=
  fun a => .ok a.addState

/-- An edge by a symbol. -/
def addEdge (source : StateId) (symbol : Symbol) (target : StateId) : Drawing Unit :=
  fun a =>
    match a.addEdge source symbol target with
    | .ok a => .ok ((), a)
    | .error e => .error (.ofUnknownState e)

/-- An ε edge. -/
def link (source target : StateId) : Drawing Unit :=
  addEdge source .epsilon target

/-- A final mark. -/
def setFinal (id : StateId) : Drawing Unit :=
  fun a =>
    match a.setFinal id with
    | .ok a => .ok ((), a)
    | .error e => .error (.ofUnknownState e)

/-- Whether an edge leaves a state so far. -/
def hasEdges (id : StateId) : Drawing Bool :=
  fun a => .ok (a.hasEdges id, a)

/-- The automaton that a drawing makes from nothing: a first state, which is the initial one, then
all that the drawing adds behind it, and a final mark on the state where the drawing ends. -/
def automaton (draw : StateId → Drawing StateId) : Except CompileError Automaton :=
  let whole : Drawing Unit := do
    let initial ← newState
    let exit ← draw initial
    setFinal exit
  match whole ∅ with
  | .ok (_, a) => .ok a
  | .error e => .error e

end Drawing

end PatternGraph
