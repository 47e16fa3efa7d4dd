import PatternGraph.Automaton.Basic

/-!
# Graphs — what a drawing tool is told about an automaton

A graph names its vertices, the vertex where a word starts, and its arrows with their labels. An
arrow with an empty label reads nothing.

Its text is written for Graphviz, in the DOT language. The graph runs from left to right. Final
vertices are double circles, arrows that read nothing are dashed, and an arrow without a label
points from an invisible entry to the initial vertex. Labels stand between double quotes, so quotes
and backslashes in them are preceded by a backslash.
-/

namespace PatternGraph

namespace Graph

/-- A vertex of a graph. -/
structure Vertex where
  id : String
  isFinal : Bool
deriving Repr, DecidableEq

/-- An arrow of a graph. -/
structure Arrow where
  source : String
  target : String
  label : String
deriving Repr, DecidableEq

end Graph

/-- A graph as a drawing tool sees it. -/
structure Graph where
  vertices : List Graph.Vertex
  arrows : List Graph.Arrow
  initial : String
deriving Repr, DecidableEq

namespace Graph

/-- The graph of an automaton: states and edges under their names, in the automaton's order. -/
def ofAutomaton (a : Automaton) : Graph where
  vertices := a.states.toList.map fun state => ⟨state.name, state.isFinal⟩
  arrows := a.edges.map fun edge => ⟨edge.source.name, edge.target.name, edge.symbol.label⟩
  initial := a.initial.name

/-! ## DOT -/

/-- The characters of a label as they stand between double quotes. -/
def escapeLabel (label : List Char) : List Char :=
  label.flatMap fun c => if c = '"' ∨ c = '\\' then ['\\', c] else [c]

/-- A label as it stands between double quotes. -/
def escape (label : String) : String :=
  String.ofList (escapeLabel label.toList)

/-- The line of a vertex. -/
def Vertex.line (vertex : Vertex) : String :=
  "  " ++ vertex.id ++ "[label=\"" ++ vertex.id ++ "\" shape="
    ++ (if vertex.isFinal then "doublecircle" else "circle") ++ "]"

/-- The line of an arrow. -/
def Arrow.line (arrow : Arrow) : String :=
  "  " ++ arrow.source ++ " -> " ++ arrow.target
    ++ (if arrow.label.isEmpty then "[style=dashed]"
        else "[label=\"" ++ escape arrow.label ++ "\"]")

/-- The name of the invisible vertex from which the initial arrow comes. -/
def entryId : String :=
  "__entry"

/-- The lines before the first vertex: the layout, the fonts and the invisible entry. -/
def preamble : String :=
  "digraph G \x7b\n  rankdir=\"LR\"\n  node [fontname = \"verdana\"];\n"
    ++ "  edge [fontname = \"verdana\"];\n  " ++ entryId ++ "[label=\"\" shape=none]\n"

/-- The text of a graph: the preamble, the vertices, the initial arrow, the other arrows. -/
def toDot (g : Graph) : String :=
  preamble ++ "\n".intercalate (g.vertices.map Vertex.line) ++ "\n  " ++ entryId ++ " -> "
    ++ g.initial ++ "\n" ++ "\n".intercalate (g.arrows.map Arrow.line) ++ "\n\x7d\n"

end Graph

end PatternGraph
