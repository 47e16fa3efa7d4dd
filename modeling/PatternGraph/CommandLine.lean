import PatternGraph.Automaton.Acceptance
import PatternGraph.Compile
import PatternGraph.Graph
import PatternGraph.Text.Quoted

/-!
# Command line — the graph of a pattern and the verdicts on strings

The first argument is a pattern, the others are strings to try. The graph of the pattern goes to
the standard output in the DOT language, one verdict for each string goes to the standard error.
Two variables of the environment choose among the options.
-/

namespace PatternGraph.CommandLine

/-- The two variables that the program looks at, where they are set. -/
structure Environment where
  legacy : Option String
  laxPlus : Option String
deriving Repr, DecidableEq

/-- What a run leaves behind. -/
structure Outcome where
  exitCode : UInt8
  stdout : String
  stderr : String
deriving Repr, DecidableEq

namespace Environment

/-- The variable that chooses textual descent. -/
def legacyName : String :=
  "REG_AUTOMATON_LEGACY"

/-- The variable that lets a plus stand for no repetition at all. -/
def laxPlusName : String :=
  "REG_AUTOMATON_LAX_PLUS"

/-- A variable is switched on by these two values and by no other. -/
def isOn (value : Option String) : Bool :=
  value = some "1" || value = some "true"

/-- The options that an environment chooses. -/
def options (env : Environment) : Options :=
  let base := if isOn env.legacy then Options.legacy else Options.standard
  if isOn env.laxPlus then
    { base with flags := base.flags.remove ⟨false, true, false⟩ }
  else
    base

end Environment

/-- The line that a run without arguments writes. -/
def usage : String :=
  "usage: reg_automaton PATTERN [STRING...]\n"

/-- The line that tells whether an automaton accepts a string. -/
def verdictLine (a : Automaton) (text : String) : String :=
  Text.quote text ++ ": " ++ (if a.accepts text then "accepted" else "rejected") ++ "\n"

/-- A run of the program. A pattern that does not compile is reported without its outer blanks. -/
def run (env : Environment) : List String → Outcome
  | [] => ⟨1, "", usage⟩
  | pattern :: texts =>
    match compile env.options pattern with
    | .ok a => ⟨0, (Graph.ofAutomaton a).toDot, String.join (texts.map (verdictLine a))⟩
    | .error e => ⟨2, "", e.report .plain (Text.trim pattern) ++ "\n"⟩

end PatternGraph.CommandLine
