import MutationFinite.Matrix.Basic
import MutationFinite.VertexSet

/-!
# Components and the certificate of infinite type

The first 64 mutable vertices fall into the connected components of the quiver, where two vertices
are neighbours when one of their two entries is not `0`.  A quiver certifies infinite mutation type
when a pair of vertices `i`, `j` with `|b_ij * b_ji| ≥ 5` lies in a component of at least three
vertices.

* `component`, `components`: the component of a vertex, and all of them by least vertex.
* `certifiesInfinite`: the certificate.
* `isInfiniteLocally`: some entry, but for the least one, has absolute value at least 3.
-/

namespace MutationFinite

namespace ExchangeMatrix

/-- The number of mutable vertices that a vertex set can hold. -/
def trackedRank (m : ExchangeMatrix) : Nat := min m.rank 64

/-- Vertices `i` and `j` are joined by an arrow. -/
def adjacent (m : ExchangeMatrix) (i j : Nat) : Bool := m.cell i j != 0 || m.cell j i != 0

/-- The tracked vertices joined to `v` by an arrow. -/
def neighbours (m : ExchangeMatrix) (v : Nat) : VertexSet :=
  VertexSet.filterBelow m.trackedRank (m.adjacent v)

/-- The neighbours of the members of `s`. -/
def neighbourhood (m : ExchangeMatrix) (s : VertexSet) : VertexSet :=
  s.toList.foldl (fun t v => t ∪ m.neighbours v) ∅

/-- `seen` with the vertices at most `steps` arrows away from its members `fresh`. -/
def spread (m : ExchangeMatrix) : Nat → VertexSet → VertexSet → VertexSet
  | 0, seen, _ => seen
  | steps + 1, seen, fresh =>
    let next := m.neighbourhood fresh \ seen
    if next = ∅ then seen else m.spread steps (seen ∪ next) next

/-- The component of tracked vertex `v`. -/
def component (m : ExchangeMatrix) (v : Nat) : VertexSet := m.spread m.trackedRank {v} {v}

/-- The components, by least vertex. -/
def components (m : ExchangeMatrix) : List VertexSet :=
  ((List.range m.trackedRank).foldl (fun (found, seen) v =>
    if v ∈ seen then (found, seen)
    else
      let c := m.component v
      (c :: found, seen ∪ c)) (([] : List VertexSet), (∅ : VertexSet))).1.reverse

/-- Vertex `i` has a product `b_ij * b_ji` of absolute value at least 5. -/
def isHeavy (m : ExchangeMatrix) (i : Nat) : Bool :=
  Nat.any m.trackedRank fun j _ => decide (5 ≤ ((m.cell i j).val * (m.cell j i).val).natAbs)

/-- A heavy pair lies in a component of at least three vertices. -/
def certifiesInfinite (m : ExchangeMatrix) : Bool :=
  decide (3 ≤ m.trackedRank) &&
    Nat.any m.trackedRank fun i _ => m.isHeavy i && decide (3 ≤ (m.component i).card)

/-- Some entry has absolute value at least 3, where the least entry, which has none, is left out. -/
def isInfiniteLocally (m : ExchangeMatrix) : Bool :=
  m.entries.any fun e => decide (3 ≤ e.abs.val)

end ExchangeMatrix

end MutationFinite
