import MutationFinite.CommandLine.Program

/-!
# The executable

Hands the arguments to the program, and its output to the streams.
-/

open MutationFinite in
/-- The command `quiver`. -/
def main (args : List String) : IO UInt32 := do
  let entropy ← IO.rand 0 (1 <<< 62)
  let output := CommandLine.program 4 (UInt64.ofNat entropy) args
  IO.print output.stdout
  IO.eprint output.stderr
  return UInt32.ofNat output.exitCode
