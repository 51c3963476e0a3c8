import MutationFinite.RandomWalk.Basic
import MutationFinite.Schedule

/-!
# Random walks side by side

Several walks may run at the same time, each with a generator of its own.  They share a flag, which
a walk raises when it has a proof, and the token of the caller; a walk that finds the flag up or the
token stopped gives up.  A walk that has not begun may be skipped when another one has come back
with a proof.

A step of the system is one atomic action of one walk, or the stop of the caller's token.

* `Walker`: a walk on its way.
* `Chain`: where a walk is, from before its start to after its end.
* `Race`: the walks and what they share; `Race.step` is one step.
* `MayReport`: what `proveInfinite` may answer when its walks run side by side.
-/

namespace MutationFinite

variable [Generator]

/-- A walk on its way: the steps left and done, the matrix it is at, the buffer for the next one,
the vertex last picked, and the state of the generator. -/
structure Walker where
  remaining : Nat
  done : Nat
  current : ExchangeMatrix
  spare : ExchangeMatrix
  last : Option Nat
  generator : Generator.State

namespace Walker

/-- A walk from `seed` before its first step. -/
def start (seed : ExchangeMatrix) (maxSteps : Nat) (generator : Generator.State) : Walker :=
  ⟨maxSteps, 0, seed, .zeros seed.rows seed.cols, none, generator⟩

/-- One step of a walk over `n` vertices: the number of steps after which it has a proof, or the
walk after the step. -/
def advance (n : Nat) (w : Walker) : Nat ⊕ Walker :=
  let index := w.done + 1
  let (k, generator) := pickVertex Generator.draw n w.last w.generator
  match w.current.overwriteMutated k w.spare with
  | (_, false) => .inl index
  | (next, true) =>
    if next.certifiesInfinite then .inl index
    else .inr ⟨w.remaining, index, next, w.current, some k, generator⟩

end Walker

/-- Where a walk is. -/
inductive Chain where
  /-- Not begun. -/
  | waiting
  /-- About to take its next step, if there is one left and nothing tells it to give up. -/
  | polling (w : Walker)
  /-- In a step, which is not among those left any more. -/
  | stepping (w : Walker)
  /-- With a proof after some steps, about to raise the flag. -/
  | proved (steps : Nat)
  /-- With a proof and the flag raised, about to come back. -/
  | announced (steps : Nat)
  /-- Come back with a proof after some steps, or with nothing. -/
  | returned (found : Option Nat)
  /-- Never begun, since another walk had come back with a proof. -/
  | skipped

namespace Chain

/-- The walk is about to raise the flag. -/
def raises : Chain → Bool
  | proved _ => true
  | _ => false

/-- The walk has come back with a proof. -/
def isWinner : Chain → Bool
  | returned (some _) => true
  | _ => false

/-- The walk has come back or never begins. -/
def isOver : Chain → Bool
  | returned _ | skipped => true
  | _ => false

/-- Where a walk from `seed` goes on, if it does. -/
def advance? (seed : ExchangeMatrix) (maxSteps : Nat) (generator : Generator.State)
    (giveUp : Bool) : Chain → Option Chain
  | waiting =>
    some (if seed.rank < 2 then returned none else polling (.start seed maxSteps generator))
  | polling w =>
    match w.remaining with
    | 0 => some (returned none)
    | remaining + 1 =>
      if (w.done + 1) % walkPollEvery = 0 ∧ giveUp = true then some (returned none)
      else some (stepping { w with remaining })
  | stepping w =>
    match w.advance seed.rank with
    | .inl steps => some (proved steps)
    | .inr w => some (polling w)
  | proved steps => some (announced steps)
  | announced steps => some (returned (some steps))
  | returned _ | skipped => none

end Chain

/-- A state of the system. -/
structure Race where
  /-- A walk has raised the flag. -/
  found : Bool
  /-- The token of the caller is stopped. -/
  callerStopped : Bool
  walks : List Chain

namespace Race

/-- Who takes a step.  The number is that of the walk. -/
inductive Move where
  /-- Somebody stops the token of the caller. -/
  | stopCaller
  | advance (i : Nat)
  | skip (i : Nat)
deriving DecidableEq

/-- The state before the first step. -/
def initial (count : Nat) : Race := ⟨false, false, List.replicate count .waiting⟩

/-- What tells a walk to give up. -/
def giveUp (s : Race) : Bool := s.found || s.callerStopped

/-- A walk has come back with a proof. -/
def hasWinner (s : Race) : Bool := s.walks.any Chain.isWinner

/-- All walks are over. -/
def isOver (s : Race) : Bool := s.walks.all Chain.isOver

/-- The answers to a race that is over: any proof that a walk has come back with, or that there is
none. -/
def Answers (s : Race) : Heuristic → Prop
  | .infinite steps chain => s.walks[chain]? = some (.returned (some steps))
  | .unknown => s.hasWinner = false

variable (base : UInt64) (seed : ExchangeMatrix) (maxSteps : Nat)

/-- A step of the system, if there is one to take. -/
def step (s : Race) : Move → Option Race
  | .stopCaller => some { s with callerStopped := true }
  | .advance i =>
    s.walks[i]?.bind fun c =>
      (c.advance? seed maxSteps (chainGenerator base i) s.giveUp).map fun c' =>
        { s with found := s.found || c.raises, walks := s.walks.set i c' }
  | .skip i =>
    match s.walks[i]? with
    | some .waiting => if s.hasWinner then some { s with walks := s.walks.set i .skipped } else none
    | _ => none

end Race

/-- The outcomes that `proveInfinite` may have when its walks run side by side, with a token that
nobody stops. -/
def MayReport (cfg : HeuristicConfig) (base : UInt64) (seed : ExchangeMatrix)
    (outcome : Heuristic) : Prop :=
  if seed.certifiesInfinite then outcome = .infinite 0 0
  else if seed.rank < 2 || (seed.isSquare && decide (seed.rank < 3)) then outcome = .unknown
  else ∃ schedule s,
    followSchedule (Race.step base seed cfg.maxSteps) schedule (.initial (max cfg.chains 1)) =
        some s ∧
      s.callerStopped = false ∧ s.isOver = true ∧ s.Answers outcome

end MutationFinite
