import MutationFinite.Classification.Checks
import MutationFinite.Matrix.Extension

/-!
# Surveys of extensions

A square matrix is maximally mutation-finite when its class is finite while the classes of all of
its one-vertex extensions, by weights up to a bound, are infinite.

* `SurveyFold`: counts the verdicts on the extensions.
* `surveyExtensions`: the survey of all extensions.
* `isMaximallyFinite?`: the answer for a matrix, from a survey that stops at a finite extension.
-/

namespace MutationFinite

/-- The counts of a survey. -/
structure ExtensionSurvey where
  checked : Nat
  finite : Nat
  infinite : Nat
  unknown : Nat
  /-- The finite extension whose verdict came first. -/
  firstFinite : Option ExchangeMatrix
  /-- Every extension was checked. -/
  complete : Bool
deriving DecidableEq

/-- The counts of the verdicts folded so far, of the `expected` ones. -/
structure SurveyFold where
  survey : ExtensionSurvey
  expected : Nat
  stopAtFirstFinite : Bool
  error : Option Error
deriving DecidableEq

namespace SurveyFold

/-- No verdict is folded yet. -/
def start (expected : Nat) (stopAtFirstFinite : Bool) : SurveyFold :=
  ⟨⟨0, 0, 0, 0, none, false⟩, expected, stopAtFirstFinite, none⟩

/-- Folds the verdict on an extension. -/
def fold (f : SurveyFold) (m : ExchangeMatrix) (verdict : Except Error Finiteness) :
    Flow × SurveyFold :=
  match verdict with
  | .error e => (.stop, { f with error := some e })
  | .ok verdict =>
    let survey := { f.survey with checked := f.survey.checked + 1 }
    match verdict with
    | .finite _ =>
      let survey := { survey with
        finite := survey.finite + 1, firstFinite := survey.firstFinite <|> some m }
      (if f.stopAtFirstFinite then .stop else .proceed, { f with survey })
    | .infinite => (.proceed, { f with survey := { survey with infinite := survey.infinite + 1 } })
    | .unknown => (.proceed, { f with survey := { survey with unknown := survey.unknown + 1 } })

/-- The survey, as far as the folded verdicts go. -/
def finish (f : SurveyFold) : Except Error ExtensionSurvey :=
  match f.error with
  | some e => .error e
  | none => .ok { f.survey with complete := f.survey.checked == f.expected }

end SurveyFold

/-- The checks of extensions. -/
def extensionChecks (cfg : ClassifierConfig) (extensions : Extensions) (stopAtFirstFinite : Bool) :
    Checks SurveyFold :=
  { cfg, count := extensions.count, matrix := extensions.get,
    fold := fun f result => f.fold result.1 result.2,
    start := .start extensions.total stopAtFirstFinite }

/-- Whether the classes of all extensions in a survey are infinite. -/
def ExtensionSurvey.allInfinite? (s : ExtensionSurvey) : Option Bool :=
  if 0 < s.finite then some false
  else if s.complete && s.unknown == 0 then some true
  else none

section Survey

variable [Generator]

/-- Checks the extensions of `m` by weights up to `maxWeight`. -/
def runSurvey (cfg : ClassifierConfig) (m : ExchangeMatrix) (maxWeight : Entry)
    (stopAtFirstFinite : Bool) : SessionM ExtensionSurvey := do
  let extensions ← MonadExcept.ofExcept (m.extensions maxWeight)
  let verdicts ← (extensionChecks cfg extensions stopAtFirstFinite).run
  MonadExcept.ofExcept verdicts.finish

/-- The survey of the extensions of `m` by weights up to `maxWeight`. -/
def surveyExtensions (cfg : ClassifierConfig) (m : ExchangeMatrix) (maxWeight : Entry) :
    SessionM ExtensionSurvey :=
  runSurvey cfg m maxWeight false

/-- Whether `m` is maximally mutation-finite. -/
def isMaximallyFinite? (cfg : ClassifierConfig) (m : ExchangeMatrix) :
    SessionM (Option Bool) := do
  if !m.isSquare then throw (.notSquare m.rows m.cols)
  match ← checkFinite cfg m with
  | .infinite => return some false
  | .unknown => return none
  | .finite _ => return (← runSurvey cfg m cfg.extensionWeight true).allInfinite?

end Survey

/-- Whether a matrix is maximally mutation-finite, from what is known of its own class and a survey
of all extensions. -/
def maximalVerdict? (finite : Option Bool) (survey : ExtensionSurvey) : Option Bool :=
  match finite, survey.complete with
  | some false, _ => some false
  | some true, complete =>
    if complete && survey.unknown == 0 then some (survey.finite == 0)
    else if 0 < survey.finite then some false
    else none
  | none, _ => none

end MutationFinite
