import MutationFinite.Classification.Minimality
import MutationFinite.Classification.Survey
import MutationFinite.CommandLine.Options
import MutationFinite.Dynkin.Catalogue
import MutationFinite.Matrix.Layout.Printer
import MutationFinite.RandomWalk.Xoshiro

/-!
# The command-line program

Classifies one matrix and reports what it finds, as a function from the arguments to the exit code
and the texts on the two output streams.
-/

namespace MutationFinite

namespace CommandLine

/-- What a run of the program leaves behind. -/
structure Output where
  exitCode : Nat
  stdout : String
  /-- The texts on the error stream, without the log. -/
  stderr : String
deriving DecidableEq

/-- How to call the program. -/
def usageText : String :=
  "\n".intercalate
    ["Usage:",
      "  quiver (--matrix ROWS | --type NAME) [--collapsed] [--minimal] [--extensions]",
      "         [--max-weight W] [--workers N] [--steps S] [--seed SEED]",
      "  quiver --test",
      "",
      "Options:",
      "  --matrix ROWS            Exchange matrix, rows separated by ';' " ++
        "(e.g. \"0,1,0;-1,0,1;0,-1,0\")",
      "  --type NAME              Dynkin type from the catalogue (A1.., D4.., E6..E8)",
      "  --collapsed              Count matrices up to relabelling of the vertices",
      "  --minimal                Only decide minimal mutation-infiniteness",
      "  --extensions             Survey one-vertex extensions and decide maximal finiteness",
      "  --max-weight W           Arrow weights [-W, W] for extensions (default: 2)",
      "  --workers/--chains N     Worker threads and random-walk chains (default: auto-detect)",
      "  --steps S                Random-walk length (default: 3000)",
      "  --seed SEED              Deterministic base seed (optional)",
      "  --test/--validate        Validate bundled catalogue class sizes",
      "",
      "Logging is controlled by RUST_LOG (default: info).",
      "",
      ""]

/-- The output of a run that only shows the usage. -/
def usage (exitCode : Nat) : Output := ⟨exitCode, "", usageText⟩

/-- A line between two parts of a report. -/
def ruler : String := "--------------------------------------------------\n"

/-- The output of a run that fails after it has written `written`. -/
def failure (written : String) (cause : Error) : Output :=
  ⟨1, written, "Error: " ++ cause.message ++ "\n"⟩

/-- The report of a survey of the extensions by weights up to `weight`. -/
def surveyReport (weight : Entry) (finite : Option Bool) (survey : ExtensionSurvey) : String :=
  let w := toString weight
  ruler ++ "extensions (weights in [-" ++ w ++ ", " ++ w ++ "]): " ++
    toString survey.checked ++ " checked, " ++ toString survey.finite ++ " finite, " ++
    toString survey.infinite ++ " infinite, " ++ toString survey.unknown ++ " unknown\n" ++
    "maximally mutation-finite: " ++ yesNo (maximalVerdict? finite survey) ++ "\n"

/-- Checks the catalogue up to six vertices. -/
def validation (s : Session) : Output :=
  match (s.ask (Catalogue.validate 6)).1 with
  | .ok _ => ⟨0, "Validation OK: bundled class sizes are correct.\n", ""⟩
  | .error e => ⟨1, "", "Validation FAILED: " ++ e.message ++ "\n"⟩

section Execution

variable [Generator]

/-- Decides only whether `m` is minimally mutation-infinite. -/
def minimality (cfg : ClassifierConfig) (s : Session) (header : String) (m : ExchangeMatrix) :
    Output :=
  match (s.ask (isMinimallyInfinite? cfg m)).1 with
  | .error e => failure header e
  | .ok verdict => ⟨0, header ++ "minimally mutation-infinite: " ++ yesNo verdict ++ "\n", ""⟩

/-- Classifies `m`, and surveys its extensions if that is asked for. -/
def classification (o : Options) (s : Session) (header : String) (m : ExchangeMatrix) : Output :=
  match s.ask (classify o.config m) with
  | (.error e, _) => failure header e
  | (.ok result, s) =>
    let report := header ++ result.text ++ "\n"
    if o.extensions then
      let weight := o.config.extensionWeight
      -- the classification has checked the matrix and at most its deletions
      match (s.ask (surveyExtensions (o.config.later (m.rank + 1)) m weight)).1 with
      | .error e => failure report e
      | .ok survey => ⟨0, report ++ surveyReport weight result.finite survey, ""⟩
    else ⟨0, report, ""⟩

/-- Does what the options ask for. -/
def execute (o : Options) : Output :=
  let session := Session.new o.config.equivalence .running
  if o.validateOnly then validation session
  else
    match o.matrix with
    | none => usage 2
    | some m =>
      let header := m.render ++ "\n" ++ ruler
      if o.minimalOnly then minimality o.config session header m
      else classification o session header m

end Execution

/-- Runs the program on its arguments; random walks without a seed start from `entropy`. -/
def program (workers : Nat) (entropy : UInt64) (args : List String) : Output :=
  match read (.standard workers entropy) args with
  | .run o => execute o
  | .usage exitCode => usage exitCode
  | .failure cause => failure "" cause

end CommandLine

end MutationFinite
