import PatternGraph.CommandLine

/-!
# The program — arguments and environment in, two streams and an exit code out
-/

open PatternGraph

/-- Runs the command line on the process's own arguments and environment. -/
def main (args : List String) : IO UInt32 := do
  let env : CommandLine.Environment := {
    legacy := ← IO.getEnv CommandLine.Environment.legacyName
    laxPlus := ← IO.getEnv CommandLine.Environment.laxPlusName
  }
  let outcome := CommandLine.run env args
  (← IO.getStdout).putStr outcome.stdout
  (← IO.getStderr).putStr outcome.stderr
  return outcome.exitCode.toUInt32
