import MutationFinite.VertexSet

/-!
# Link records

The mutation edges of a visited matrix, of which some are marked as explored.  The vertices fall
into orbits, and marking an edge marks the edges of its whole orbit.

* `mark`: marks the orbit of a vertex, and says whether the vertex was unmarked.
* `nextUnmarked?`: the least vertex still unmarked.
* `isComplete`: every edge is marked.
* `markAll`, `markNext?`: marks at the vertices of a list, and at the least unmarked one.
-/

namespace MutationFinite

/-- The edges that a 64-bit record can track for `n` vertices. -/
def allLinks (n : Nat) : VertexSet := .below (min n 64)

/-- The marks on the mutation edges of one matrix of rank `size`. -/
structure LinkRecord where
  marked : VertexSet
  size : Nat
  /-- The orbit of each vertex; none are listed when every orbit is a single vertex. -/
  orbits : List VertexSet
deriving DecidableEq

namespace LinkRecord

/-- The record of `n` unmarked edges, each its own orbit. -/
def new (n : Nat) : LinkRecord := ⟨∅, n, []⟩

/-- The record of `n` unmarked edges with the given orbits. -/
def withOrbits (n : Nat) (orbits : List VertexSet) : LinkRecord := ⟨∅, n, orbits⟩

/-- The orbit of vertex `k`. -/
def orbit (r : LinkRecord) (k : Nat) : VertexSet := r.orbits[k]?.getD {k}

/-- The edge at `k` is marked. -/
def isMarked (r : LinkRecord) (k : Nat) : Bool := k ∈ r.marked

/-- Marks the orbit of `k`, and says whether `k` was unmarked. -/
def mark (r : LinkRecord) (k : Nat) : Bool × LinkRecord :=
  (!r.isMarked k, { r with marked := r.marked ∪ r.orbit k })

/-- The least vertex whose edge is not marked. -/
def nextUnmarked? (r : LinkRecord) : Option Nat :=
  (List.range r.size).find? fun k => !r.isMarked k

/-- The number of edges not marked. -/
def openCount (r : LinkRecord) : Nat :=
  (List.range r.size).countP fun k => !r.isMarked k

/-- Every edge is marked. -/
def isComplete (r : LinkRecord) : Bool :=
  (List.range r.size).all r.isMarked

/-- The record after marks at the vertices of a list, one after another. -/
def markAll (r : LinkRecord) (ks : List Nat) : LinkRecord :=
  ks.foldl (fun r k => (r.mark k).2) r

/-- Marks at the least vertex whose edge is not marked. -/
def markNext? (r : LinkRecord) : Option (Nat × LinkRecord) :=
  r.nextUnmarked?.map fun k => (k, (r.mark k).2)

end LinkRecord

end MutationFinite
