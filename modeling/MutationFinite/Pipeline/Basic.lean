/-!
# Pipelines

A pipeline hands tasks one after another to a pool of workers and folds their results into one
answer.  The run ends when every result is folded, when the fold has its answer, or when the token
of the caller is stopped.

* `Job`: the tasks, the worker and the fold, over a world in which tokens and caches live.
* `Job.run`: the run in which each task is worked on and folded before the next one is taken.
-/

namespace MutationFinite

/-- The sizes of a pipeline. -/
structure PipelineConfig where
  workers : Nat
  queueCapacity : Nat
  /-- How long a blocked thread waits before it looks at its token again, in milliseconds. -/
  pollMillis : Nat
deriving DecidableEq

/-- The usual sizes for a number of workers, at least one. -/
def PipelineConfig.withWorkers (workers : Nat) : PipelineConfig :=
  let workers := max workers 1
  ⟨workers, workers * 2, 50⟩

/-- Whether a fold needs more results. -/
inductive Flow where
  | proceed
  | stop
deriving DecidableEq

/-- The phases of a run. -/
inductive Phase where
  /-- Tasks are still handed out. -/
  | running
  /-- All tasks are handed out, and results are still folded. -/
  | draining
  /-- The answer is there. -/
  | done
deriving DecidableEq

/-- The name of a phase. -/
def Phase.name : Phase → String
  | running => "Running"
  | draining => "Draining"
  | done => "Done"

/-- Why a run ended. -/
inductive Ending where
  /-- Every result of the workers was folded. -/
  | drained
  /-- The fold had its answer. -/
  | decided
  /-- The token of the caller was stopped. -/
  | cancelled
deriving DecidableEq

/-- Tasks of type `τ`, results of type `ρ`, and an accumulator of type `α`, over a world `ω`. -/
structure Job (ω τ ρ α : Type) where
  /-- The number of tasks. -/
  count : Nat
  /-- The tasks, by number. -/
  task : Nat → τ
  /-- Polls the token of the caller. -/
  poll : ω → Bool × ω
  /-- Works on a task. -/
  work : τ → ω → ρ × ω
  /-- The workers were told to stop. -/
  workersStopped : ω → Bool
  /-- Folds a result. -/
  fold : α → ρ → ω → Flow × α × ω

/-- What a run leaves behind. -/
structure RunReport (ω α : Type) where
  value : α
  world : ω
  ending : Ending
  /-- The number of results folded. -/
  completed : Nat

namespace RunReport

variable {ω α : Type}

/-- The fold ended the run. -/
def stoppedEarly (r : RunReport ω α) : Bool := r.ending = .decided

/-- The token of the caller ended the run. -/
def cancelled (r : RunReport ω α) : Bool := r.ending = .cancelled

/-- The phases that the run went through. -/
def phases (r : RunReport ω α) : List Phase :=
  if r.ending = .drained then [.running, .draining, .done] else [.running, .done]

end RunReport

namespace Job

variable {ω τ ρ α : Type}

/-- Works on the tasks from number `next` on, `remaining` of them. -/
def runFrom (job : Job ω τ ρ α) : (remaining next : Nat) → α → ω → RunReport ω α
  | remaining, next, acc, world =>
    match job.poll world with
    | (true, world) => ⟨acc, world, .cancelled, next⟩
    | (false, world) =>
      match remaining with
      | 0 => ⟨acc, world, .drained, next⟩
      | remaining + 1 =>
        if job.workersStopped world then ⟨acc, world, .drained, next⟩
        else
          let (result, world) := job.work (job.task next) world
          match job.fold acc result world with
          | (.stop, acc, world) => ⟨acc, world, .decided, next + 1⟩
          | (.proceed, acc, world) => job.runFrom remaining (next + 1) acc world

/-- Works on all tasks. -/
def run (job : Job ω τ ρ α) (acc : α) (world : ω) : RunReport ω α :=
  job.runFrom job.count 0 acc world

end Job

end MutationFinite
