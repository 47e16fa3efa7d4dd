import PatternGraph.Main
import PatternGraph.PatternList
import PatternGraph.Proofs.Automaton.Simulation
import PatternGraph.Proofs.Pattern.Defects
import PatternGraph.Proofs.Compile
import PatternGraph.Proofs.Rejection
import PatternGraph.Proofs.Construction
import PatternGraph.Proofs.Refinement
import PatternGraph.Proofs.CommonCore
import PatternGraph.Proofs.Pattern.Collapse
import PatternGraph.Proofs.Usefulness
import PatternGraph.Proofs.PatternList
import PatternGraph.Proofs.Limits
import PatternGraph.Proofs.Size
import PatternGraph.Proofs.LaxPlus
import PatternGraph.Proofs.Interchange
import PatternGraph.Proofs.Automaton.Store
import PatternGraph.Proofs.Automaton.Closure
import PatternGraph.Proofs.Automaton.Insertion
import PatternGraph.Proofs.Graph.Dot
import PatternGraph.Proofs.CommandLine
import PatternGraph.Proofs.Caret
import PatternGraph.Proofs.Drawing.Frame
import PatternGraph.Proofs.Pattern.Calls
import PatternGraph.Proofs.Pattern.Pairing
