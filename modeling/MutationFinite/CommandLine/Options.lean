import MutationFinite.Classification.Finiteness
import MutationFinite.Dynkin.Basic
import MutationFinite.Matrix.Layout.Reader

/-!
# Command-line options

The options are read from left to right, and the first one that cannot be read decides.
-/

namespace MutationFinite

namespace CommandLine

/-- What the command line asks for. -/
structure Options where
  config : ClassifierConfig
  validateOnly : Bool
  minimalOnly : Bool
  extensions : Bool
  matrix : Option ExchangeMatrix

/-- How a command line reads. -/
inductive Invocation where
  | run (options : Options)
  /-- Only show the usage, and end with an exit code. -/
  | usage (exitCode : Nat)
  | failure (cause : Error)

namespace Options

/-- The options of an empty command line. -/
def standard (workers : Nat) (entropy : UInt64) : Options :=
  ⟨.standard workers entropy, false, false, false, none⟩

/-- The options with other settings of the random walks. -/
def withHeuristic (o : Options) (change : HeuristicConfig → HeuristicConfig) : Options :=
  { o with config := { o.config with heuristic := change o.config.heuristic } }

/-- The options with a number of workers and as many random walks. -/
def withWorkers (o : Options) (n : Nat) : Options :=
  let o := o.withHeuristic fun h => { h with chains := max n 1 }
  { o with config := { o.config with pipeline := .withWorkers n } }

end Options

/-- The number that an argument denotes. -/
def readNumber? (s : String) : Option Nat := Text.word64? s.toList

/-- The weight that an argument denotes. -/
def readWeight? (s : String) : Option Entry := (Text.signed? s.toList).bind Entry.ofInt?

/-- The matrix of the Dynkin type that an argument names. -/
def readDiagram (s : String) : Except Error ExchangeMatrix := do (← DynkinType.ofString s).matrix

/-- Reads the arguments that are left, on top of the options read so far. -/
def read (o : Options) : List String → Invocation
  | [] => .run o
  | "--test" :: rest | "--validate" :: rest => read { o with validateOnly := true } rest
  | "--collapsed" :: rest =>
    read { o with config := { o.config with mode := .upToEquivalence } } rest
  | "--minimal" :: rest => read { o with minimalOnly := true } rest
  | "--extensions" :: rest => read { o with extensions := true } rest
  | "--matrix" :: value :: rest =>
    match ExchangeMatrix.ofString value with
    | .ok m => read { o with matrix := some m } rest
    | .error e => .failure e
  | "--type" :: value :: rest =>
    match readDiagram value with
    | .ok m => read { o with matrix := some m } rest
    | .error e => .failure e
  | "--max-weight" :: value :: rest =>
    match readWeight? value with
    | some w => read { o with config := { o.config with extensionWeight := w } } rest
    | none => .usage 2
  | "--workers" :: value :: rest | "--chains" :: value :: rest =>
    match readNumber? value with
    | some n => read (o.withWorkers n) rest
    | none => .usage 2
  | "--steps" :: value :: rest =>
    match readNumber? value with
    | some n => read (o.withHeuristic fun h => { h with maxSteps := n }) rest
    | none => .usage 2
  | "--seed" :: value :: rest =>
    match readNumber? value with
    | some n => read (o.withHeuristic fun h => { h with seed := some (UInt64.ofNat n) }) rest
    | none => .usage 2
  | "--help" :: _ | "-h" :: _ => .usage 0
  | _ :: _ => .usage 2

end CommandLine

end MutationFinite
