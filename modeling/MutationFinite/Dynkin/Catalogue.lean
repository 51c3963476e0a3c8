import MutationFinite.Dynkin.Basic
import MutationFinite.Matrix.Layout.Reader
import MutationFinite.MutationClass.Enumeration

/-!
# The catalogue

Matrices that are minimally mutation-infinite, and the check of the known class sizes against
enumeration.
-/

namespace MutationFinite

namespace Catalogue

/-- The acyclic orientation of the complete graph on four vertices.  Each of its deletions has
affine type A(2,1). -/
def acyclicTournament : String := "0 1 1 1; -1 0 1 1; -1 -1 0 1; -1 -1 -1 0"

/-- A path of three vertices whose first arrow is triple. -/
def tripleArrowPath : String := "0 3 0; -3 0 1; 0 -1 0"

/-- Matrices that are mutation-infinite while each of their deletions is mutation-finite. -/
def minimallyInfinite : Except Error (List (String × ExchangeMatrix)) :=
  [("acyclic_tournament_4", acyclicTournament), ("triple_arrow_path", tripleArrowPath)].mapM
    fun (name, text) => (ExchangeMatrix.ofString text).map (name, ·)

/-- Enumerates the class of `t` in one mode and compares its size with the known one. -/
def checkSize (t : DynkinType) (m : ExchangeMatrix) (mode : EnumerationMode) (expected : Nat) :
    SessionM Unit := do
  let got := (← enumerate (.withMode mode) m).outcome
  if got ≠ .finite expected then
    throw <| .catalogueMismatch <|
      t.name ++ " (" ++ mode.name ++ "): expected " ++ toString expected ++ ", got " ++ got.text

/-- Enumerates the class of `t` in both modes and compares the sizes with the known ones. -/
def checkSizes (t : DynkinType) (sizes : KnownSizes) : SessionM Unit := do
  let m ← MonadExcept.ofExcept t.matrix
  checkSize t m .exact sizes.exact
  checkSize t m .upToEquivalence sizes.collapsed

/-- Checks the known sizes of the diagrams with at most `maxRank` vertices, and that the bundled
matrices are skew-symmetric. -/
def validate (maxRank : Nat) : SessionM Unit := do
  for (t, sizes) in DynkinType.sizeTable do
    if t.rank ≤ maxRank then checkSizes t sizes
  for (name, m) in ← MonadExcept.ofExcept minimallyInfinite do
    if !m.isSkewSymmetric then throw (.catalogueMismatch (name ++ ": not skew-symmetric"))

end Catalogue

end MutationFinite
