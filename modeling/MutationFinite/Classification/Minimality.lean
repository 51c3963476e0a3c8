import MutationFinite.Classification.Checks
import MutationFinite.Classification.Result
import MutationFinite.Dynkin.Recognition
import MutationFinite.Matrix.Minor

/-!
# Minimally mutation-infinite matrices

A matrix is minimally mutation-infinite when its class is infinite while the classes of all of its
one-vertex deletions are finite.

* `MinimalityFold`: folds the verdicts on the deletions, in any order, into an answer.
* `isMinimallyInfinite?`: the answer for a matrix.
* `classify`: all that can be found out about a matrix.
-/

namespace MutationFinite

/-- What the verdicts folded so far say, of the `expected` ones. -/
structure MinimalityFold where
  expected : Nat
  folded : Nat
  infiniteFound : Bool
  unknownFound : Bool
  error : Option Error
deriving DecidableEq

namespace MinimalityFold

/-- No verdict is folded yet. -/
def start (expected : Nat) : MinimalityFold := ⟨expected, 0, false, false, none⟩

/-- Folds a verdict; an infinite deletion and an error decide. -/
def fold (f : MinimalityFold) (verdict : Except Error Finiteness) : Flow × MinimalityFold :=
  let f := { f with folded := f.folded + 1 }
  match verdict with
  | .ok (.finite _) => (.proceed, f)
  | .ok .unknown => (.proceed, { f with unknownFound := true })
  | .ok .infinite => (.stop, { f with infiniteFound := true })
  | .error e => (.stop, { f with error := some e })

/-- Whether all deletions are finite, as far as the folded verdicts tell. -/
def finish (f : MinimalityFold) : Except Error (Option Bool) :=
  match f.error with
  | some e => .error e
  | none =>
    .ok <|
      if f.infiniteFound then some false
      else if f.unknownFound || decide (f.folded < f.expected) then none
      else some true

end MinimalityFold

/-- The checks of the one-vertex deletions of `m`. -/
def deletionChecks (cfg : ClassifierConfig) (m : ExchangeMatrix) : Checks MinimalityFold :=
  let deletions := m.vertexDeletions.toArray
  { cfg, count := deletions.size, matrix := fun i => deletions.getD i m,
    fold := fun f result => f.fold result.2, start := .start deletions.size }

section Minimality

variable [Generator]

/-- Whether the classes of all one-vertex deletions of `m` are finite. -/
def deletionsAllFinite? (cfg : ClassifierConfig) (m : ExchangeMatrix) :
    SessionM (Option Bool) := do
  let verdicts ← (deletionChecks cfg m).run
  MonadExcept.ofExcept verdicts.finish

/-- Whether `m` is minimally mutation-infinite. -/
def isMinimallyInfinite? (cfg : ClassifierConfig) (m : ExchangeMatrix) :
    SessionM (Option Bool) := do
  match ← checkFinite cfg m with
  | .finite _ => return some false
  | .unknown => return none
  | .infinite => deletionsAllFinite? cfg m

/-- Finiteness, size, Dynkin type and minimality of the mutation class of `m`. -/
def classify (cfg : ClassifierConfig) (m : ExchangeMatrix) : SessionM ClassificationResult := do
  match ← checkFinite cfg m with
  | .finite size =>
    let result := ClassificationResult.unknown.setSize size
    match ← DynkinType.recognize m with
    | some t => return result.setDynkinType t
    | none => return result
  | .infinite =>
    let result := ClassificationResult.unknown.setFinite false
    match ← deletionsAllFinite? cfg m with
    | some minimal => return result.setMinimallyInfinite minimal
    | none => return result
  | .unknown => return .unknown

end Minimality

end MutationFinite
