import MutationFinite.Pipeline.Interleaving
import MutationFinite.Schedule

/-!
# Workers and folds that stop tokens

A worker is handed the token that the parties share.  While it works on a task it may look at the
token and stop it, and it may keep things in a store from one task to the next; the fold may stop
the token of the caller.

* `Errand`: what a worker does for one task, one atomic action after another.
* `Errand.run`: what comes of it when nobody else stops the token meanwhile.
* `ErrandPlan`, `ErrandSystem`: what a run is to do, and where it is; `ErrandPlan.step` is one step.
* `ErrandPlan.job`: the same as a job that takes one task after another.
-/

namespace MutationFinite

namespace Pipeline

/-- What a worker does for one task. -/
inductive Errand (ω ρ : Type) where
  /-- Comes to a result. -/
  | done (r : ρ)
  /-- Looks at the token. -/
  | look (next : Bool → Errand ω ρ)
  /-- Stops the token. -/
  | stop (next : Errand ω ρ)
  /-- Reads the store and writes it. -/
  | use (next : ω → Errand ω ρ) (write : ω → ω)

/-- What has come of an errand. -/
structure Errand.Outcome (ω ρ : Type) where
  result : ρ
  /-- The token is stopped. -/
  stopped : Bool
  store : ω

/-- Does an errand alone, with the token stopped or not at its start. -/
def Errand.run {ω ρ : Type} : Errand ω ρ → (stopped : Bool) → (store : ω) → Outcome ω ρ
  | done r, stopped, store => ⟨r, stopped, store⟩
  | look next, stopped, store => (next stopped).run stopped store
  | stop next, _, store => next.run true store
  | use next write, stopped, store => (next store).run stopped (write store)

/-- A state of the parties and the store of the workers. -/
structure ErrandSystem (ω ρ α : Type) where
  system : System (Errand ω ρ) ρ α
  store : ω

end Pipeline

open Pipeline

/-- Tasks, a worker with its store, and a fold with its start. -/
structure ErrandPlan (ω τ ρ α : Type) where
  config : PipelineConfig
  tasks : List τ
  work : τ → Errand ω ρ
  store : ω
  fold : α → ρ → Flow × α
  /-- The fold of a result stops the token of the caller. -/
  stopsCaller : α → ρ → Bool
  start : α

/-- The tokens and the store, as a run sees them that takes one task after another. -/
structure ErrandWorld (ω : Type) where
  callerStopped : Bool
  /-- The token of the workers, a child of the caller's, was stopped itself. -/
  stopRequested : Bool
  store : ω

namespace ErrandPlan

variable {ω τ ρ α : Type} (p : ErrandPlan ω τ ρ α) (s : ErrandSystem ω ρ α)

/-- The plan in which the errands are the tasks, each done in one action as if it were the first. -/
def plan : Plan (Errand ω ρ) ρ α where
  config := p.config
  tasks := p.tasks.map p.work
  work errand := (errand.run false p.store).result
  fold := p.fold
  start := p.start

/-- The state before the first step, with the token of the caller as it is. -/
def initial (callerStopped : Bool) : ErrandSystem ω ρ α := ⟨p.plan.initial callerStopped, p.store⟩

/-- An action of worker `i` for its errand. -/
def act (i : Nat) : Errand ω ρ → ErrandSystem ω ρ α
  | .done r => { s with system := s.system.withWorker i (.sending r) }
  | .look next => { s with system := s.system.withWorker i (.working (next s.system.stopSeen)) }
  | .stop next =>
    { s with system := { s.system with stopRequested := true }.withWorker i (.working next) }
  | .use next write => ⟨s.system.withWorker i (.working (next s.store)), write s.store⟩

/-- The fold of the next result stops the token of the caller. -/
def foldStops (s : System (Errand ω ρ) ρ α) : Bool :=
  match s.aggregator, s.results with
  | .receiving, r :: _ => p.stopsCaller s.value r
  | _, _ => false

/-- A step of the system, if there is one to take, where nobody but the fold stops the token of the
caller. -/
def step (move : Move) : Option (ErrandSystem ω ρ α) :=
  match move with
  | .stopCaller => none
  | .work i =>
    s.system.workers[i]?.bind fun w =>
      match w with
      | .working errand => some (act s i errand)
      | w => (p.plan.workOn s.system i w).map fun next => { s with system := next }
  | .aggregate =>
    (p.plan.aggregate s.system).map fun next =>
      { s with system := { next with
          callerStopped := next.callerStopped || p.foldStops s.system } }
  | move => (p.plan.step s.system move).map fun next => { s with system := next }

/-- The plan as a job. -/
def job [Inhabited τ] : Job (ErrandWorld ω) τ ρ α where
  count := p.tasks.length
  task i := p.tasks.getD i default
  poll world := (world.callerStopped, world)
  work t world :=
    let outcome := (p.work t).run (world.stopRequested || world.callerStopped) world.store
    (outcome.result, { world with stopRequested := outcome.stopped, store := outcome.store })
  workersStopped world := world.stopRequested || world.callerStopped
  fold acc r world :=
    let (flow, acc') := p.fold acc r
    (flow, acc', { world with callerStopped := world.callerStopped || p.stopsCaller acc r })

end ErrandPlan

end MutationFinite
