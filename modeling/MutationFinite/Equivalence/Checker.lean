import MutationFinite.Equivalence.Fingerprint
import MutationFinite.Relabelling.Witness
import Std.Data.HashMap

/-!
# Equivalence checkers

A checker answers, for matrices of one rank, whether a permutation of the mutable vertices carries
one to the other.  It remembers the witnesses it searched for, one for each unordered pair: the
witness from the smaller matrix to the greater one, whose inverse serves the reversed question.

* `pairs_sound`: what a checker remembers is what a search would find, whatever it was asked before.
* `witness`: the answer to a question, and the checker afterwards.
* `orbits`: the automorphism orbits of a matrix.
-/

namespace MutationFinite

/-- What a checker has been asked. -/
structure PairCacheStats where
  hits : Nat
  misses : Nat
  entries : Nat
deriving DecidableEq

/-- A checker for matrices of rank `degree`, which remembers `maxPairs` pairs. -/
structure EquivalenceChecker where
  degree : Nat
  maxPairs : Nat
  pairs : Std.HashMap (ExchangeMatrix × ExchangeMatrix) (Option Permutation)
  hits : Nat
  misses : Nat
  /-- A remembered answer is the answer of a search. -/
  pairs_sound : ∀ (lo hi : ExchangeMatrix) (found : Option Permutation),
    pairs[(lo, hi)]? = some found → found = lo.findWitness? hi

namespace EquivalenceChecker

/-- A checker that has not been asked anything; it remembers at least one pair. -/
def new (degree maxPairs : Nat) : EquivalenceChecker :=
  ⟨degree, max maxPairs 1, ∅, 0, 0, by simp⟩

/-- The checker after a search found `found` as the answer for `lo` and `hi`; a full one forgets
first what it remembers. -/
def remember (c : EquivalenceChecker) (lo hi : ExchangeMatrix) (found : Option Permutation)
    (sound : found = lo.findWitness? hi) : EquivalenceChecker :=
  { c with
    pairs := (if c.maxPairs ≤ c.pairs.size then ∅ else c.pairs).insert (lo, hi) found
    misses := c.misses + 1
    pairs_sound := by
      intro a b answer h
      rw [Std.HashMap.getElem?_insert] at h
      split at h
      · next heq =>
        obtain ⟨rfl, rfl⟩ := Prod.mk.inj (eq_of_beq heq)
        exact (Option.some.inj h).symm.trans sound
      · split at h
        · simp at h
        · exact c.pairs_sound a b answer h }

/-- The witness from `lo` to `hi`, remembered or searched for. -/
def lookup (c : EquivalenceChecker) (lo hi : ExchangeMatrix) :
    Option Permutation × EquivalenceChecker :=
  match c.pairs[(lo, hi)]? with
  | some found => (found, { c with hits := c.hits + 1 })
  | none =>
    let found := lo.findWitness? hi
    (found, c.remember lo hi found rfl)

/-- A permutation of the mutable vertices that carries `a` to `b`. -/
def witness (c : EquivalenceChecker) (a b : ExchangeMatrix) :
    Option Permutation × EquivalenceChecker :=
  if ¬ ExchangeMatrix.SameShape a b ∨ a.rank ≠ c.degree then (none, c)
  else if a = b then (some (.identity c.degree), c)
  else if Fingerprint.of a ≠ Fingerprint.of b then (none, c)
  else if compare a b = .gt then
    let (found, c) := c.lookup b a
    (found.map Permutation.inverse, c)
  else c.lookup a b

/-- `a` and `b` differ by a relabelling only. -/
def areEquivalent (c : EquivalenceChecker) (a b : ExchangeMatrix) : Bool × EquivalenceChecker :=
  let (found, c) := c.witness a b
  (found.isSome, c)

/-- The automorphism orbits of the mutable vertices of `m`. -/
def orbits (_ : EquivalenceChecker) (m : ExchangeMatrix) : List VertexSet := m.automorphismOrbits

/-- The counters and the number of pairs remembered. -/
def stats (c : EquivalenceChecker) : PairCacheStats := ⟨c.hits, c.misses, c.pairs.size⟩

end EquivalenceChecker

end MutationFinite
