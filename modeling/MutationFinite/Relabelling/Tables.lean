import MutationFinite.Relabelling.Witness

/-!
# Tables written by image

Permutations and relabelled matrices as tables that are filled one position after another, where the
image of an index says which position comes next, and automorphism orbits as masks of 64 bits, where
each automorphism in a list of permutations joins each vertex with its image.

* `writeAll?`: a table after several writes.
* `allNew`, `Permutation.checkImages`: the check of images by a table of the numbers already seen.
* `Permutation.writeInverse?`, `readCompose?`: the inverse of a permutation, written by image, and
  the composition of two, read by image.
* `ExchangeMatrix.writeRelabelled?`: the relabelled matrix.
* `VertexSet.toWord`: a set of vertices below 64 as a mask.
* `joinMasks`, `ExchangeMatrix.orbitMasks`: the masks after one automorphism, and after all of them.
-/

namespace MutationFinite

/-- The table after the writes of values at positions, one after another, all of them inside. -/
def writeAll? {α : Type} : (table : Array α) → List (Nat × α) → Option (Array α)
  | table, [] => some table
  | table, (position, x) :: writes =>
    if h : position < table.size then writeAll? (table.set position x) writes else none

/-- The numbers have a place in the table of seen ones each, and none of them was seen before. -/
def allNew : (seen : Array Bool) → List Nat → Bool
  | _, [] => true
  | seen, v :: vs => if h : v < seen.size then !seen[v] && allNew (seen.set v true) vs else false

namespace Permutation

/-- The images are below their number, and none comes twice. -/
def checkImages (images : Array Nat) : Bool :=
  allNew (Array.replicate images.size false) images.toList

/-- The images of the inverse, each written at the image of its point. -/
def writeInverse? (p : Permutation) : Option (Array Nat) :=
  writeAll? (Array.replicate p.size 0) p.images.toList.zipIdx

/-- The images of `p` after `q`, each read at an image of `q`. -/
def readCompose? (p q : Permutation) : Option (List Nat) :=
  q.images.toList.mapM fun i => p.images[i]?

end Permutation

namespace ExchangeMatrix

/-- The cells of `m`, each with its position after relabelling. -/
def relabelledCells (m : ExchangeMatrix) (p : Permutation) : List (Nat × Entry) :=
  (List.range m.rows).flatMap fun i =>
    (List.range m.cols).map fun j => (p.apply i * m.cols + p.apply j, m.cell i j)

/-- The relabelled matrix, each of whose entries is written at the images of its row and column; `m`
itself, should the number of entries not fit. -/
def writeRelabelled? (m : ExchangeMatrix) (p : Permutation) : Option ExchangeMatrix :=
  (writeAll? (Array.replicate (m.rows * m.cols) 0) (m.relabelledCells p)).map fun entries =>
    match ofEntries m.rows m.cols entries with
    | .ok b => b
    | .error _ => m

end ExchangeMatrix

/-- The set as a mask of 64 bits. -/
def VertexSet.toWord (s : VertexSet) : UInt64 := UInt64.ofNat s.bits

/-- The mask of each vertex, with the bit of its image set. -/
def joinMasks (masks : List UInt64) (images : List Nat) : List UInt64 :=
  masks.zipWith (fun mask w => mask ||| 1 <<< UInt64.ofNat w) images

/-- For each mutable vertex of `m` the mask of its images under the automorphisms among `items`, and
of the vertex itself. -/
def ExchangeMatrix.orbitMasks (m : ExchangeMatrix) (items : List (List Nat)) : List UInt64 :=
  (items.filter fun images => m.mapsTo m images.toArray).foldl joinMasks
    ((List.range m.rank).map fun k => 1 <<< UInt64.ofNat k)

end MutationFinite
