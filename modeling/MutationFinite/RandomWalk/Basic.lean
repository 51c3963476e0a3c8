import MutationFinite.Cancel.Token
import MutationFinite.Matrix.Component
import MutationFinite.Matrix.Mutation
import MutationFinite.RandomWalk.Generator

/-!
# Random walks to a certificate

A random walk mutates at one vertex after another, never twice in a row at the same one, until a
matrix certifies infinite type or a mutation overflows.  It can prove a mutation class infinite,
and never finite.

* `randomWalk`: one walk, over any source of bounded draws.
* `proveInfinite`: several walks, each with draws of its own.
-/

namespace MutationFinite

/-- A vertex below `n` other than `last`: the draw runs over the vertices that are left. -/
def pickVertex {σ : Type} (draw : Nat → σ → Nat × σ) (n : Nat) (last : Option Nat) (s : σ) :
    Nat × σ :=
  match last with
  | none => draw n s
  | some l =>
    let (k, s) := draw (n - 1) s
    (if l ≤ k then k + 1 else k, s)

/-- The number of steps between two polls. -/
def walkPollEvery : Nat := 64

/-- The steps of a random walk, of which `remaining` are left after `done`.  The matrix `spare` is
a buffer for the next matrix. -/
def walkSteps {σ : Type} (draw : Nat → σ → Nat × σ) (n : Nat) :
    (remaining done : Nat) → (current spare : ExchangeMatrix) → (last : Option Nat) → σ → Token →
      Option Nat × σ × Token
  | 0, _, _, _, _, s, token => (none, s, token)
  | remaining + 1, done, current, spare, last, s, token =>
    let index := done + 1
    let (stopped, token) := if index % walkPollEvery = 0 then token.poll else (false, token)
    if stopped then (none, s, token)
    else
      let (k, s) := pickVertex draw n last s
      match current.overwriteMutated k spare with
      | (_, false) => (some index, s, token)
      | (next, true) =>
        if next.certifiesInfinite then (some index, s, token)
        else walkSteps draw n remaining index next current (some k) s token

/-- At most `maxSteps` random mutations from `seed`: the number of steps after which a matrix
certifies infinite type or a mutation overflows.  A walk that looks at the flag of other walks as
well as at the token of its caller has the one token that `Token.either` makes of both. -/
def randomWalk {σ : Type} (draw : Nat → σ → Nat × σ) (seed : ExchangeMatrix) (maxSteps : Nat)
    (s : σ) (token : Token) : Option Nat × σ × Token :=
  if seed.rank < 2 then (none, s, token)
  else
    walkSteps draw seed.rank maxSteps 0 seed (.zeros seed.rows seed.cols) none s token

/-- The settings of the random walks. -/
structure HeuristicConfig where
  maxSteps : Nat
  chains : Nat
  /-- The base seed, when it is fixed. -/
  seed : Option UInt64
deriving DecidableEq

/-- One walk of 3000 steps with an arbitrary seed. -/
def HeuristicConfig.standard : HeuristicConfig := ⟨3000, 1, none⟩

/-- The outcome of the random walks. -/
inductive Heuristic where
  /-- Walk `chain` proved the class infinite after `steps` steps. -/
  | infinite (steps chain : Nat)
  | unknown
deriving DecidableEq

/-- The outcome proves the class infinite. -/
def Heuristic.isInfinite : Heuristic → Bool
  | infinite _ _ => true
  | unknown => false

variable [Generator]

/-- The walk numbered `chain` from `seed`. -/
def runChain (base : UInt64) (seed : ExchangeMatrix) (maxSteps chain : Nat) (token : Token) :
    Option Nat × Token :=
  let (found, _, token) :=
    randomWalk Generator.draw seed maxSteps (chainGenerator base chain) token
  (found, token)

/-- The first success among the walks numbered `chain` to `chain + count - 1`. -/
def runChains (base : UInt64) (seed : ExchangeMatrix) (maxSteps : Nat) :
    (count chain : Nat) → Token → Heuristic × Token
  | 0, _, token => (.unknown, token)
  | count + 1, chain, token =>
    match runChain base seed maxSteps chain token with
    | (some steps, token) => (.infinite steps chain, token)
    | (none, token) => runChains base seed maxSteps count (chain + 1) token

/-- Tries to prove the mutation class of `seed` infinite.  Square matrices of rank at most 2, and
matrices of rank at most 1, are not walked from. -/
def proveInfinite (cfg : HeuristicConfig) (base : UInt64) (seed : ExchangeMatrix) (token : Token) :
    Heuristic × Token :=
  if seed.certifiesInfinite then (.infinite 0 0, token)
  else if seed.rank < 2 || (seed.isSquare && decide (seed.rank < 3)) then (.unknown, token)
  else runChains base seed cfg.maxSteps (max cfg.chains 1) 0 token

end MutationFinite
