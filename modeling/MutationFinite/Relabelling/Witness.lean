import MutationFinite.Matrix.Basic
import MutationFinite.Relabelling.Arrangement
import MutationFinite.Relabelling.Permutation
import MutationFinite.VertexSet

/-!
# Relabelling

A permutation of the mutable vertices relabels a matrix; frozen vertices keep their places.  A
witness that `a` and `b` are equivalent is a permutation that carries `a` to `b`.

* `relabel`: the matrix `b` with `b (p i) (p j) = m i j`.
* `mapsTo`: the images carry `a` to `b`.
* `findWitness?`: the first witness in lexicographic order, by a search that chooses the images of
  `0`, `1`, `2`, … in turn and gives up a choice as soon as two chosen vertices disagree.
* `PermutationSet.findWitness?`: the same by a scan of all permutations.
* `automorphismOrbits`: the vertices to which the automorphisms of a matrix carry each vertex.
-/

namespace MutationFinite

namespace ExchangeMatrix

/-- The matrix whose cell at `(p i, p j)` is the cell of `m` at `(i, j)`. -/
def relabel (m : ExchangeMatrix) (p : Permutation) : ExchangeMatrix :=
  let q := p.inverse
  ofFn m.rows m.cols fun i j => m.cell (q.apply i) (q.apply j)

/-- The cell of `b` at the images of `(i, j)` is the cell of `a` at `(i, j)`, for every cell of
`a`; indices without an image stand for themselves. -/
def mapsTo (a b : ExchangeMatrix) (images : Array Nat) : Bool :=
  Nat.all a.rows fun i _ => Nat.all a.cols fun j _ =>
    b.cell (images.getD i i) (images.getD j j) == a.cell i j

/-- The arrows of `a` between vertex `i = chosen.size`, the vertices before it and the frozen
vertices are those of `b` between `v`, the chosen images and the frozen vertices. -/
def agreesAt (a b : ExchangeMatrix) (chosen : Array Nat) (v : Nat) : Bool :=
  let i := chosen.size
  a.cell i i == b.cell v v &&
    (Nat.all i fun j _ =>
      a.cell i j == b.cell v (chosen.getD j j) && a.cell j i == b.cell (chosen.getD j j) v) &&
    (Nat.all (a.cols - a.rank) fun f _ => a.cell i (a.rank + f) == b.cell v (a.rank + f)) &&
    (Nat.all (a.rows - a.rank) fun f _ => a.cell (a.rank + f) i == b.cell (a.rank + f) v)

/-- The lexicographically first way to choose `k` more images out of `rest`, each allowed at its
vertex, such that all choices agree. -/
def complete? (a b : ExchangeMatrix) (allowed : Nat → Nat → Bool) :
    (k : Nat) → (rest : List Nat) → (chosen : Array Nat) → Option (Array Nat)
  | 0, _, chosen => some chosen
  | k + 1, rest, chosen => rest.findSome? fun v =>
    if allowed chosen.size v && a.agreesAt b chosen v then
      complete? a b allowed k (rest.erase v) (chosen.push v)
    else none

/-- The images of the first permutation, among those that send vertices to allowed ones, that
carries `a` to `b`, a matrix of the shape of `a`. -/
def search? (a b : ExchangeMatrix) (allowed : Nat → Nat → Bool) : Option (Array Nat) :=
  complete? a b allowed a.rank (List.range a.rank) #[]

/-- The first permutation of the mutable vertices that carries `a` to `b`. -/
def findWitness? (a b : ExchangeMatrix) : Option Permutation :=
  if SameShape a b then (search? a b fun _ _ => true).bind Permutation.ofImages? else none

/-- Some automorphism of `m` sends vertex `k` to vertex `w`. -/
def isAutomorphic (m : ExchangeMatrix) (k w : Nat) : Bool :=
  (search? m m fun i v => (i == k) == (v == w)).isSome

/-- For each mutable vertex the vertices to which automorphisms of `m` send it. -/
def automorphismOrbits (m : ExchangeMatrix) : List VertexSet :=
  (List.range m.rank).map fun k => VertexSet.filterBelow m.rank (m.isAutomorphic k)

end ExchangeMatrix

namespace PermutationSet

/-- The first permutation of the set that carries `a` to `b`. -/
def findWitness? (s : PermutationSet) (a b : ExchangeMatrix) : Option Permutation :=
  if ExchangeMatrix.SameShape a b ∧ a.rank = s.degree then
    (s.toList.find? fun images => a.mapsTo b images.toArray).bind fun images =>
      Permutation.ofImages? images.toArray
  else none

/-- The orbit of each vertex, with its image. -/
def joinImages (orbits : List VertexSet) (images : List Nat) : List VertexSet :=
  orbits.zipWith (fun orbit w => orbit ∪ {w}) images

/-- For each mutable vertex of `m` its images under the automorphisms of `m` in the set. -/
def automorphismOrbits (s : PermutationSet) (m : ExchangeMatrix) : List VertexSet :=
  (s.toList.filter fun images => m.mapsTo m images.toArray).foldl joinImages
    ((List.range s.degree).map fun k => {k})

end PermutationSet

end MutationFinite
