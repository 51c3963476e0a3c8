import MutationFinite.Dynkin.Basic
import MutationFinite.MutationClass.Enumeration

/-!
# Recognition of Dynkin types

A connected square matrix has Dynkin type `t` when its mutation class holds a relabelling of the
matrix of `t`.
-/

namespace MutationFinite

namespace DynkinType

/-- The first of the candidates whose mutation class holds a relabelling of `m`. -/
def firstMatch (m : ExchangeMatrix) : List DynkinType → SessionM (Option DynkinType)
  | [] => return none
  | t :: rest => do
    let diagram ← MonadExcept.ofExcept t.matrix
    if (← areMutationEquivalent? diagram m) = some true then return some t
    else firstMatch m rest

/-- The matrix can have a Dynkin type: it is square and connected, and certifies nothing. -/
def isCandidate (m : ExchangeMatrix) : Bool :=
  m.isSquare && !m.isEmpty && !m.certifiesInfinite && m.components.length == 1

/-- The Dynkin type of `m`, if it has one. -/
def recognize (m : ExchangeMatrix) : SessionM (Option DynkinType) :=
  if isCandidate m then firstMatch m (ofRank m.rank) else return none

end DynkinType

end MutationFinite
