/-!
# What an enumeration reports

The identity under which matrices are counted, the settings of an enumeration, the size it finds
and the counters it collects.
-/

namespace MutationFinite

/-- Which matrices count as the same. -/
inductive EnumerationMode where
  /-- Equal matrices. -/
  | exact
  /-- Matrices equal up to relabelling of the mutable vertices. -/
  | upToEquivalence
deriving DecidableEq

/-- The name of a mode. -/
def EnumerationMode.name : EnumerationMode → String
  | exact => "exact"
  | upToEquivalence => "up-to-equivalence"

/-- The settings of an enumeration. -/
structure EnumerationConfig where
  mode : EnumerationMode
  /-- Stop at the first matrix that certifies infinite type. -/
  stopOnCertificate : Bool
  /-- The number of explored edges between two polls of the cancel token. -/
  cancelPollEvery : Nat
  /-- The number of discovered matrices between two progress reports. -/
  progressEvery : Nat
deriving DecidableEq

namespace EnumerationConfig

/-- The standard settings in mode `mode`. -/
def withMode (mode : EnumerationMode) : EnumerationConfig := ⟨mode, false, 256, 100000⟩

/-- The same settings, stopping at the first certificate. -/
def stoppingOnCertificate (c : EnumerationConfig) : EnumerationConfig :=
  { c with stopOnCertificate := true }

end EnumerationConfig

/-- The size of a mutation class. -/
inductive ClassSize where
  /-- The class was exhausted. -/
  | finite (size : Nat)
  /-- A matrix certified infinite type, or an entry overflowed. -/
  | infinite
  /-- The token was stopped first. -/
  | cancelled
deriving DecidableEq

namespace ClassSize

/-- The size, if the class was exhausted. -/
def finite? : ClassSize → Option Nat
  | finite n => some n
  | _ => none

/-- Whether the class is finite, if that was decided. -/
def isFinite? : ClassSize → Option Bool
  | finite _ => some true
  | infinite => some false
  | cancelled => none

/-- The text of a size. -/
def text : ClassSize → String
  | finite n => toString n
  | infinite => "infinite"
  | cancelled => "cancelled"

end ClassSize

/-- The counters of a walk. -/
structure WalkStats where
  /-- Matrices or classes found, the seed included. -/
  discovered : Nat
  /-- Mutation edges followed. -/
  exploredEdges : Nat
  /-- Records given up because all their edges were explored. -/
  evicted : Nat
  /-- The greatest number of records kept at one time. -/
  peakVisited : Nat
  /-- The greatest length of the frontier. -/
  peakFrontier : Nat
deriving DecidableEq

/-- The result of an enumeration. -/
structure Enumeration where
  outcome : ClassSize
  stats : WalkStats
deriving DecidableEq

end MutationFinite
