import MutationFinite.MutationClass.Enumeration
import MutationFinite.Pipeline.Interleaving
import MutationFinite.RandomWalk.Basic

/-!
# Finiteness of a mutation class

* `checkFinite`: decides whether a mutation class is finite, by the certificate, then by random
  walks, then by enumeration.
* `classSize?`: the size of a finite class.
-/

namespace MutationFinite

/-- Whether a mutation class is finite. -/
inductive Finiteness where
  | finite (size : Nat)
  | infinite
  /-- The token was stopped before there was an answer. -/
  | unknown
deriving DecidableEq

namespace Finiteness

/-- The text of a verdict. -/
def text : Finiteness → String
  | finite size => s!"finite ({size})"
  | infinite => "infinite"
  | unknown => "unknown"

/-- The size of a finite class. -/
def size? : Finiteness → Option Nat
  | finite size => some size
  | _ => none

/-- The verdict that an enumeration gives. -/
def ofSize : ClassSize → Finiteness
  | .finite size => finite size
  | .infinite => infinite
  | .cancelled => unknown

end Finiteness

/-- The settings of a classifier, with the words and the schedules that nobody sets: they stand for
whatever happens. -/
structure ClassifierConfig where
  mode : EnumerationMode
  heuristic : HeuristicConfig
  pipeline : PipelineConfig
  equivalence : EquivalenceConfig
  /-- The greatest weight that surveys of extensions try. -/
  extensionWeight : Entry
  /-- The base seeds of random walks when their settings name none, one for each check. -/
  entropy : Nat → UInt64
  /-- The moves of the parties of a pool, for one pool after another. -/
  schedules : Nat → List Pipeline.Move

namespace ClassifierConfig

/-- The standard settings, for a number of workers, where the base seeds are mixed from one word. -/
def standard (workers : Nat) (entropy : UInt64) : ClassifierConfig :=
  ⟨.exact, .standard, .withWorkers workers, .standard, .ofInt 2,
    fun i => mix64 (entropy + UInt64.ofNat i), fun _ => []⟩

/-- The base seed of the next check. -/
def baseSeed (cfg : ClassifierConfig) : UInt64 := cfg.heuristic.seed.getD (cfg.entropy 0)

/-- The same settings, `count` checks later. -/
def later (cfg : ClassifierConfig) (count : Nat) : ClassifierConfig :=
  { cfg with
    entropy := fun i => cfg.entropy (count + i), schedules := fun i => cfg.schedules (count + i) }

end ClassifierConfig

/-- Square matrices of rank at most 2 have finite mutation classes. -/
def ExchangeMatrix.isSmall (m : ExchangeMatrix) : Bool := m.isSquare && decide (m.rank ≤ 2)

section Checking

variable [Generator]

/-- Walks at random from `m` in search of a proof that its class is infinite. -/
def walkToInfinity (cfg : ClassifierConfig) (m : ExchangeMatrix) : SessionM Bool :=
  Session.withToken fun token =>
    let (outcome, token) := proveInfinite cfg.heuristic cfg.baseSeed m token
    (outcome.isInfinite, token)

/-- Decides whether the mutation class of `m` is finite. -/
def checkFinite (cfg : ClassifierConfig) (m : ExchangeMatrix) : SessionM Finiteness := do
  let enumeration := EnumerationConfig.withMode cfg.mode
  if m.isSmall then
    return .ofSize (← enumerate enumeration m).outcome
  else if m.certifiesInfinite then
    return .infinite
  else if ← walkToInfinity cfg m then
    return .infinite
  else
    return .ofSize (← enumerate enumeration.stoppingOnCertificate m).outcome

/-- The size of the mutation class of `m`, if it is finite and was exhausted. -/
def classSize? (cfg : ClassifierConfig) (m : ExchangeMatrix) : SessionM (Option Nat) :=
  return (← checkFinite cfg m).size?

end Checking

end MutationFinite
