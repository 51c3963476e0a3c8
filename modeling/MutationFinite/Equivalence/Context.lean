import MutationFinite.Equivalence.Checker

/-!
# Equivalence contexts

A context owns the checkers, one for each rank, and keeps their total weight within a limit by
giving up those whose last use lies longest back.

* `acquire`: makes sure that the context holds the checker of a rank.
* `withChecker`: asks the checker of a rank.
* `cachedSizes`: the ranks whose checkers are held, least recently used first.
-/

namespace MutationFinite

/-- The limits of a context. -/
structure EquivalenceConfig where
  maxInstanceWeight : Nat
  maxCachedPairs : Nat
deriving DecidableEq

/-- Room for two checkers of rank 8, and for 2²⁰ pairs in each. -/
def EquivalenceConfig.standard : EquivalenceConfig := ⟨40320 * 64 * 2, 1048576⟩

/-- The checkers held, and their ranks in the order of last use. -/
structure EquivalenceContext where
  config : EquivalenceConfig
  checkers : Std.HashMap Nat EquivalenceChecker
  /-- Least recently used first. -/
  recency : List Nat
  totalWeight : Nat
  /-- The checker held for a rank is one for that rank. -/
  degree_checkers : ∀ (n : Nat) (c : EquivalenceChecker), checkers[n]? = some c → c.degree = n

namespace EquivalenceContext

/-- A context without checkers. -/
def new (config : EquivalenceConfig) : EquivalenceContext := ⟨config, ∅, [], 0, by simp⟩

/-- The ranks whose checkers are held, least recently used first. -/
def cachedSizes (x : EquivalenceContext) : List Nat := x.recency

/-- The context without the checker of rank `n`. -/
def drop (x : EquivalenceContext) (n : Nat) : EquivalenceContext :=
  { x with
    checkers := x.checkers.erase n
    degree_checkers := by
      intro k c h
      rw [Std.HashMap.getElem?_erase] at h
      split at h
      · simp at h
      · exact x.degree_checkers k c h }

/-- The context that holds `c` as the checker of its rank. -/
def putChecker (x : EquivalenceContext) (c : EquivalenceChecker) : EquivalenceContext :=
  { x with
    checkers := x.checkers.insert c.degree c
    degree_checkers := by
      intro k d h
      rw [Std.HashMap.getElem?_insert] at h
      split at h
      · next heq =>
        obtain rfl := Option.some.inj h
        exact eq_of_beq heq
      · exact x.degree_checkers k d h }

/-- The context after checkers are given up, the least recently used first, until the weight is
within the limit or one is left. -/
def trim (x : EquivalenceContext) : EquivalenceContext :=
  match _h : x.recency with
  | victim :: next :: rest =>
    if x.config.maxInstanceWeight < x.totalWeight then
      trim { x.drop victim with
        recency := next :: rest
        totalWeight := x.totalWeight - (PermutationSet.weight? victim).getD 0 }
    else x
  | _ => x
termination_by x.recency.length
decreasing_by simp [_h]

/-- The context with the checker of rank `n`, made if it is missing, as the one used last. -/
def hold (x : EquivalenceContext) (n weight : Nat) : EquivalenceContext :=
  let recency := x.recency.erase n ++ [n]
  if n ∈ x.checkers then { x with recency }
  else
    { x.putChecker (.new n x.config.maxCachedPairs) with
      recency
      totalWeight := x.totalWeight + weight }

/-- The context with the checker of rank `n` as the one used last, if its weight is within the
limit. -/
def acquire (x : EquivalenceContext) (n : Nat) : Except Error EquivalenceContext :=
  let limit := x.config.maxInstanceWeight
  match PermutationSet.weight? n with
  | none => .error (.permutationSetTooLarge n (UInt64.size - 1) limit)
  | some weight =>
    if weight ≤ limit then .ok (x.hold n weight).trim
    else .error (.permutationSetTooLarge n weight limit)

/-- The checker of rank `n`. -/
def checker (x : EquivalenceContext) (n : Nat) : EquivalenceChecker :=
  x.checkers.getD n (.new n x.config.maxCachedPairs)

/-- Asks the checker of rank `n`. -/
def withChecker {α : Type} (x : EquivalenceContext) (n : Nat)
    (ask : EquivalenceChecker → α × EquivalenceChecker) : Except Error α × EquivalenceContext :=
  match x.acquire n with
  | .error e => (.error e, x)
  | .ok x =>
    let (answer, c) := ask (x.checker n)
    (.ok answer, x.putChecker c)

/-- A permutation of the mutable vertices that carries `a` to `b`. -/
def witness (x : EquivalenceContext) (a b : ExchangeMatrix) :
    Except Error (Option Permutation) × EquivalenceContext :=
  if ExchangeMatrix.SameShape a b then x.withChecker a.rank fun c => c.witness a b
  else (.ok none, x)

/-- `a` and `b` differ by a relabelling only. -/
def areEquivalent (x : EquivalenceContext) (a b : ExchangeMatrix) :
    Except Error Bool × EquivalenceContext :=
  let (found, x) := x.witness a b
  (found.map Option.isSome, x)

/-- The automorphism orbits of the mutable vertices of `m`. -/
def orbits (x : EquivalenceContext) (m : ExchangeMatrix) :
    Except Error (List VertexSet) × EquivalenceContext :=
  x.withChecker m.rank fun c => (c.orbits m, c)

end EquivalenceContext

end MutationFinite
