import MutationFinite.Matrix.Basic

/-!
# Minors and vertex deletion

* `minor`: the matrix without one row and one column.
* `deleteVertex`: the quiver without a mutable vertex, and without the mutable vertices that are
  then left without arrows.
* `rank_minor_lt`: a minor at a mutable vertex has smaller rank, so that deletion ends.
-/

namespace MutationFinite

namespace ExchangeMatrix

/-- The index before the removal of `k` of what has index `i` after it. -/
def skip (k i : Nat) : Nat := if i < k then i else i + 1

/-- The matrix without row `i` and column `j`. -/
def minor (m : ExchangeMatrix) (i j : Nat) : ExchangeMatrix :=
  ofFn (m.rows - 1) (m.cols - 1) fun r c => m.cell (skip i r) (skip j c)

/-- The matrix without row `i` and column `j`, which must exist. -/
def submatrix (m : ExchangeMatrix) (i j : Nat) : Except Error ExchangeMatrix :=
  if m.rows ≤ i then .error (m.outOfRange i)
  else if m.cols ≤ j then .error (m.outOfRange j)
  else .ok (m.minor i j)

/-- Vertex `v` has no arrows, neither to mutable nor to frozen vertices. -/
def isIsolated (m : ExchangeMatrix) (v : Nat) : Bool :=
  (m.row v).all (· == 0) && (m.col v).all (· == 0)

/-- The least mutable vertex without arrows. -/
def firstIsolated? (m : ExchangeMatrix) : Option Nat :=
  (List.range m.rank).find? m.isIsolated

theorem rank_minor_lt (m : ExchangeMatrix) {v : Nat} (h : v < m.rank) :
    (m.minor v v).rank < m.rank := by
  simp only [rank, minor, rows_ofFn, cols_ofFn] at *
  omega

theorem lt_rank_of_firstIsolated? {m : ExchangeMatrix} {v : Nat}
    (h : m.firstIsolated? = some v) : v < m.rank :=
  List.mem_range.mp (List.mem_of_find?_eq_some h)

/-- The quiver without its mutable vertices that have no arrows. -/
def dropIsolated (m : ExchangeMatrix) : ExchangeMatrix :=
  match _h : m.firstIsolated? with
  | none => m
  | some v => (m.minor v v).dropIsolated
termination_by m.rank
decreasing_by exact m.rank_minor_lt (lt_rank_of_firstIsolated? _h)

/-- The quiver without mutable vertex `k` and without the mutable vertices that are then left
without arrows. -/
def deleteVertex (m : ExchangeMatrix) (k : Nat) : Except Error ExchangeMatrix :=
  if m.rank ≤ k then .error (m.outOfRange k) else .ok (m.minor k k).dropIsolated

/-- The deletions of the mutable vertices, in vertex order. -/
def vertexDeletions (m : ExchangeMatrix) : List ExchangeMatrix :=
  (List.range m.rank).map fun k => (m.minor k k).dropIsolated

end ExchangeMatrix

end MutationFinite
