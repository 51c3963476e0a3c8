import MutationFinite.Matrix.Basic

/-!
# Fingerprints

A summary of a matrix that relabelling of the mutable vertices does not change.  Matrices with
different fingerprints are not equivalent.

* `of`: the fingerprint of a matrix.
* `words`: a fingerprint written as one list of 32-bit numbers.
-/

namespace MutationFinite

/-- The shape of a matrix, what each mutable vertex sees, and what the frozen rows and columns see,
with every list over the mutable vertices sorted. -/
@[ext] structure Fingerprint where
  rows : Nat
  cols : Nat
  vertices : List (List Int)
  frozenRows : List (List Int)
  frozenCols : List (List Int)
deriving DecidableEq, Hashable

namespace Fingerprint

/-- The numbers of `xs` in increasing order. -/
def sorted (xs : List Int) : List Int := xs.mergeSort

/-- The lists of `keys` in lexicographic order. -/
def sortedKeys (keys : List (List Int)) : List (List Int) :=
  keys.mergeSort fun a b => (List.compareLex compare a b).isLE

/-- The entries of `m` at row `i` and the columns `cs`. -/
def rowPart (m : ExchangeMatrix) (i : Nat) (cs : List Nat) : List Int :=
  cs.map fun j => (m.cell i j).val

/-- The entries of `m` at the rows `rs` and column `j`. -/
def colPart (m : ExchangeMatrix) (rs : List Nat) (j : Nat) : List Int :=
  rs.map fun i => (m.cell i j).val

/-- The fingerprint of `m`. -/
def of (m : ExchangeMatrix) : Fingerprint :=
  let vertices := List.range m.rank
  let frozenRows := List.range' m.rank (m.rows - m.rank)
  let frozenCols := List.range' m.rank (m.cols - m.rank)
  { rows := m.rows
    cols := m.cols
    vertices := sortedKeys <| vertices.map fun i =>
      sorted (rowPart m i vertices) ++ rowPart m i frozenCols ++ colPart m frozenRows i
    frozenRows := frozenRows.map fun f => sorted (rowPart m f vertices)
    frozenCols := frozenCols.map fun f => sorted (colPart m vertices f) }

/-- The lists that make up the fingerprint, one after another. -/
def parts (f : Fingerprint) : List (List Int) := f.vertices ++ f.frozenRows ++ f.frozenCols

/-- The number behind each part, which is the least that an entry can be. -/
def separator : Int := -2147483648

/-- The fingerprint as one list of numbers, the shape first and cut down to 32 bits. -/
def words (f : Fingerprint) : List Int :=
  Int.bmod f.rows 4294967296 :: Int.bmod f.cols 4294967296 ::
    f.parts.flatMap fun part => part ++ [separator]

end Fingerprint

end MutationFinite
