import PatternGraph.Drawing.Textual
import PatternGraph.Drawing.Tree
import PatternGraph.Pattern.Parser
import PatternGraph.Text.Blank

/-!
# Compilation — from a pattern to its automaton
-/

namespace PatternGraph

namespace Options

/-- The text that a compilation looks at: the pattern, without the blanks around it where the
options ask for that. -/
def text (options : Options) (pattern : String) : String :=
  if options.flags.trim then Text.trim pattern else pattern

end Options

/-- The automaton of a pattern: by textual descent, or from the parsed tree. Positions in an error
count from the start of the text that is looked at. -/
def compile (options : Options) (pattern : String) : Except CompileError Automaton :=
  let text := options.text pattern
  if options.flags.legacy then
    Drawing.ofText options text.toList
  else
    match Pattern.parse options text with
    | .error e => .error (.ofPatternError e)
    | .ok p => Drawing.ofPattern options.flags.strictPlus p

end PatternGraph
