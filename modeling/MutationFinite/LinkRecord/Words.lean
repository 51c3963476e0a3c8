import MutationFinite.LinkRecord

/-!
# Link records in words

A link record of at most 64 vertices kept in words of 64 bits: the marks in one word, and each orbit
in one.  The questions are answered by operations on whole words.

* `VertexSet.ofWord`: the set for which a word stands.
* `allLinksWord`: the word of all edges.
* `LinkWords`: the record, with the operations of `LinkRecord`.
* `LinkWords.toRecord`: the record of sets for which it stands.
-/

namespace MutationFinite

/-- The set of the bits of a word. -/
def VertexSet.ofWord (word : UInt64) : VertexSet := ⟨word.toNat⟩

/-- The word whose only bit is `v`, for `v` below 64. -/
def linkBit (v : Nat) : UInt64 := 1 <<< UInt64.ofNat v

/-- The edges that a word can track for `n` vertices.  The bit of vertex 64 would lie outside the
word. -/
def allLinksWord (n : Nat) : UInt64 :=
  if 64 ≤ n then 0xFFFFFFFFFFFFFFFF else linkBit n - 1

/-- The marks on the mutation edges of one matrix of rank `size`. -/
structure LinkWords where
  links : UInt64
  size : Nat
  /-- The orbit of each vertex; none are listed when every orbit is a single vertex. -/
  orbits : List UInt64
deriving DecidableEq

namespace LinkWords

/-- The record of `n` unmarked edges, each its own orbit. -/
def new (n : Nat) : LinkWords := ⟨0, n, []⟩

/-- The record of `n` unmarked edges with the given orbits. -/
def withOrbits (n : Nat) (orbits : List UInt64) : LinkWords := ⟨0, n, orbits⟩

/-- The record of sets. -/
def toRecord (w : LinkWords) : LinkRecord :=
  ⟨.ofWord w.links, w.size, w.orbits.map .ofWord⟩

/-- The orbit of vertex `k`. -/
def orbit (w : LinkWords) (k : Nat) : UInt64 := w.orbits[k]?.getD (linkBit k)

/-- The edge at `k` is marked. -/
def isMarked (w : LinkWords) (k : Nat) : Bool := w.links &&& linkBit k != 0

/-- Marks the orbit of `k`, and says whether `k` was unmarked. -/
def mark (w : LinkWords) (k : Nat) : Bool × LinkWords :=
  (!w.isMarked k, { w with links := w.links ||| w.orbit k })

/-- The edges not marked. -/
def openLinks (w : LinkWords) : UInt64 := ~~~w.links &&& allLinksWord w.size

/-- The least vertex whose edge is not marked: the number of zeros below the lowest bit. -/
def nextUnmarked? (w : LinkWords) : Option Nat :=
  if w.openLinks ≠ 0 then some w.openLinks.toBitVec.ctz.toNat else none

/-- The number of edges not marked: the number of bits. -/
def openCount (w : LinkWords) : Nat := w.openLinks.toBitVec.cpop.toNat

/-- Every edge is marked. -/
def isComplete (w : LinkWords) : Bool :=
  w.links &&& allLinksWord w.size == allLinksWord w.size

/-- The record after marks at the vertices of a list, one after another. -/
def markAll (w : LinkWords) (ks : List Nat) : LinkWords :=
  ks.foldl (fun w k => (w.mark k).2) w

/-- Marks at the least vertex whose edge is not marked. -/
def markNext? (w : LinkWords) : Option (Nat × LinkWords) :=
  w.nextUnmarked?.map fun k => (k, (w.mark k).2)

end LinkWords

end MutationFinite
