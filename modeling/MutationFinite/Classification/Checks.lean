import MutationFinite.Classification.Finiteness
import MutationFinite.Schedule

/-!
# Many checks at once

A pool of workers checks matrices for finiteness, and the aggregator folds the verdicts in the order
in which they come in.  The parties share one session: each of their steps may find the token of the
session stopped, and a check goes on from what the checks before it have left there.

* `Checks`: the matrices, and what is folded from their verdicts.
* `Checks.step`: a step of the pool; `Checks.onPool?` is what the moves of a schedule come to.
* `Checks.job`: the checks one after another.
* `Checks.run`: the fold of the verdicts, in the order that the settings bring along.
-/

namespace MutationFinite

open Pipeline

/-- Matrices to check for finiteness, and the fold of their verdicts. -/
structure Checks (α : Type) where
  cfg : ClassifierConfig
  /-- The number of matrices. -/
  count : Nat
  /-- The matrices, by number. -/
  matrix : Nat → ExchangeMatrix
  fold : α → ExchangeMatrix × Except Error Finiteness → Flow × α
  start : α

/-- The parties of a pool, and the session that they share. -/
structure Pool (α : Type) where
  system : System Nat (ExchangeMatrix × Except Error Finiteness) α
  session : Session

/-- Polls the token of the session. -/
def Session.poll (s : Session) : Bool × Session :=
  let (stopped, token) := s.token.poll
  (stopped, { s with token })

namespace Checks

variable [Generator] {α : Type} (c : Checks α)

/-- The verdict on matrix `i`, and the session afterwards.  The check before all others is that of
the matrix from which these were made. -/
def check (i : Nat) (s : Session) : (ExchangeMatrix × Except Error Finiteness) × Session :=
  let (verdict, s) := s.ask (checkFinite (c.cfg.later (i + 1)) (c.matrix i))
  ((c.matrix i, verdict), s)

/-! ### On a pool -/

/-- The checks as a plan, for workers who find the session as it is. -/
def plan (s : Session) : Plan Nat (ExchangeMatrix × Except Error Finiteness) α where
  config := c.cfg.pipeline
  tasks := List.range c.count
  work i := (c.check i s).1
  fold := c.fold
  start := c.start

/-- The session after a move: worker `i` may be at a check.  A check that begins after the
aggregator has told the workers to stop is made like the others, as nobody reads its verdict. -/
def sessionAfter (p : Pool α) : Move → Session
  | .work i =>
    match p.system.workers[i]? with
    | some (.working n) => (c.check n p.session).2
    | _ => p.session
  | _ => p.session

/-- A step of the pool, if there is one to take, where only the token of the session stops the
caller. -/
def step (p : Pool α) (move : Move) : Option (Pool α) :=
  if move = .stopCaller then none
  else
    let (stopped, session) := p.session.poll
    let p : Pool α :=
      ⟨{ p.system with callerStopped := p.system.callerStopped || stopped }, session⟩
    ((c.plan p.session).step p.system move).map fun system => ⟨system, c.sessionAfter p move⟩

/-- What the moves of a schedule come to, if the run has returned then: the value of the fold, and
the session afterwards. -/
def onPool? (schedule : List Move) (s : Session) : Option (α × Session) :=
  if schedule.isEmpty then none
  else
    (followSchedule c.step schedule ⟨(c.plan s).initial false, s⟩).bind fun p =>
      if p.system.aggregator = .returned then some (p.system.value, p.session) else none

/-! ### One after another -/

/-- The checks as a job. -/
def job : Job Session Nat (ExchangeMatrix × Except Error Finiteness) α where
  count := c.count
  task i := i
  poll := Session.poll
  work := c.check
  workersStopped _ := false
  fold acc result s :=
    let (flow, acc) := c.fold acc result
    (flow, acc, s)

/-- The fold of the verdicts.  The pool makes the moves of its schedule; if the run does not end
with them, the checks are made one after another. -/
def run : SessionM α := do
  let s ← getThe Session
  match c.onPool? (c.cfg.schedules 0) s with
  | some (value, s) =>
    set s
    return value
  | none =>
    let report := c.job.run c.start s
    set report.world
    return report.value

end Checks

end MutationFinite
