import MutationFinite.Pipeline.Basic

/-!
# The parties of a pipeline

A run is the work of a producer, of some workers and of the aggregator, side by side.  They share a
queue of tasks with room for a fixed number of them, a queue of results without a bound, two tokens,
and a flag by which the producer says that it is done.  A queue is first in, first out; those who
wait for it find out when nobody is left at its other end.

A step of the system is one atomic action of one party, or the stop of the caller's token.  A wait
may run into its time limit at any moment.

* `Plan`: what a run is to do.
* `System`: where everybody is and what they share.
* `Plan.step`: one step.
-/

namespace MutationFinite

/-- Tasks, a worker without side effects, and a fold with its start. -/
structure Plan (τ ρ α : Type) where
  config : PipelineConfig
  tasks : List τ
  work : τ → ρ
  fold : α → ρ → Flow × α
  start : α

namespace Pipeline

variable {τ ρ α : Type}

/-- Where the producer is. -/
inductive Producer (τ : Type) where
  /-- About to take the next task. -/
  | fetching
  /-- With a task in hand, about to look at the token. -/
  | polling (t : τ)
  /-- Waiting for room in the queue of tasks. -/
  | sending (t : τ)
  /-- About to count the task that is in the queue. -/
  | counting
  /-- About to give up its end of the queue. -/
  | closing
  /-- About to say that it is done. -/
  | signalling
  | finished
deriving DecidableEq

/-- The producer holds on to its end of the queue of tasks. -/
def Producer.isOpen : Producer τ → Bool
  | signalling | finished => false
  | _ => true

/-- Where a worker is. -/
inductive Worker (τ ρ : Type) where
  /-- About to look at the token. -/
  | polling
  /-- Waiting for a task. -/
  | receiving
  /-- With a task in hand, about to look at the token again. -/
  | holding (t : τ)
  | working (t : τ)
  /-- With a result in hand, about to send it. -/
  | sending (r : ρ)
  /-- On its way out, still holding on to its ends of the two queues or not. -/
  | leaving (tasks results : Bool)
deriving DecidableEq

namespace Worker

/-- The worker holds on to its end of the queue of tasks. -/
def holdsTasks : Worker τ ρ → Bool
  | leaving tasks _ => tasks
  | _ => true

/-- The worker holds on to its end of the queue of results. -/
def holdsResults : Worker τ ρ → Bool
  | leaving _ results => results
  | _ => true

/-- The worker that lets go of its end of the queue of tasks on its way out. -/
def dropTasks? : Worker τ ρ → Option (Worker τ ρ)
  | leaving true results => some (leaving false results)
  | _ => none

/-- The worker that lets go of its end of the queue of results on its way out. -/
def dropResults? : Worker τ ρ → Option (Worker τ ρ)
  | leaving tasks true => some (leaving tasks false)
  | _ => none

/-- The worker that has waited for a task long enough. -/
def timeOut? : Worker τ ρ → Option (Worker τ ρ)
  | receiving => some polling
  | _ => none

end Worker

/-- Where the aggregator is. -/
inductive Aggregator where
  /-- Still holding on to the ends of the queues from which those of the workers were copied. -/
  | starting
  /-- About to look at the token of the caller. -/
  | polling
  /-- About to look whether the producer is done. -/
  | noting
  /-- Waiting for a result. -/
  | receiving
  /-- About to tell all others to stop. -/
  | stopping
  /-- About to give up its end of the queue of results. -/
  | hangingUp
  /-- Waiting for all others to be gone. -/
  | joining
  | returned
deriving DecidableEq

/-- The aggregator holds on to its end of the queue of results. -/
def Aggregator.listens : Aggregator → Bool
  | joining | returned => false
  | _ => true

/-- A state of the system.  The histories `sent` and `folded` are read by nobody. -/
structure System (τ ρ α : Type) where
  /-- The token of the caller is stopped. -/
  callerStopped : Bool
  /-- The token that the parties share, a child of the caller's, was stopped itself. -/
  stopRequested : Bool
  /-- The producer has said that it is done. -/
  producerDone : Bool
  producer : Producer τ
  /-- The tasks still to be taken. -/
  unsent : List τ
  submitted : Nat
  queue : List τ
  workers : List (Worker τ ρ)
  results : List ρ
  aggregator : Aggregator
  value : α
  completed : Nat
  stoppedEarly : Bool
  cancelled : Bool
  phase : Phase
  /-- The phases that the run has reported. -/
  phases : List Phase
  /-- The tasks that were put into the queue. -/
  sent : List τ
  /-- The results that were folded. -/
  folded : List ρ
deriving DecidableEq

namespace System

variable (s : System τ ρ α)

/-- What the producer and the workers see when they look at the token. -/
def stopSeen : Bool := s.stopRequested || s.callerStopped

/-- Somebody is left at the receiving end of the queue of tasks. -/
def hasReceiver : Bool := s.aggregator = .starting || s.workers.any Worker.holdsTasks

/-- Somebody is left at the sending end of the queue of results. -/
def hasSender : Bool := s.workers.any Worker.holdsResults

/-- The state in which worker `i` has gone on to `w`. -/
def withWorker (i : Nat) (w : Worker τ ρ) : System τ ρ α := { s with workers := s.workers.set i w }

/-- The producer and the workers are gone. -/
def isDeserted : Bool :=
  s.producer matches .finished && s.workers.all fun w => w matches .leaving false false

end System

/-- Who takes a step.  The number is that of the worker. -/
inductive Move where
  /-- Somebody stops the token of the caller. -/
  | stopCaller
  | produce
  /-- The producer has waited for room long enough. -/
  | produceTimeOut
  | work (i : Nat)
  | workTimeOut (i : Nat)
  | dropTasks (i : Nat)
  | dropResults (i : Nat)
  | aggregate
  /-- The aggregator has waited for a result long enough. -/
  | aggregateTimeOut
deriving DecidableEq

end Pipeline

namespace Plan

open Pipeline

variable {τ ρ α : Type} (p : Plan τ ρ α) (s : System τ ρ α)

/-- The number of tasks that the queue has room for. -/
def room : Nat := max p.config.queueCapacity 1

/-- The state before the first step, with the token of the caller as it is. -/
def initial (callerStopped : Bool) : System τ ρ α where
  callerStopped := callerStopped
  stopRequested := false
  producerDone := false
  producer := .fetching
  unsent := p.tasks
  submitted := 0
  queue := []
  workers := List.replicate (max p.config.workers 1) .polling
  results := []
  aggregator := .starting
  value := p.start
  completed := 0
  stoppedEarly := false
  cancelled := false
  phase := .running
  phases := [.running]
  sent := []
  folded := []

/-- A step of the producer. -/
def produce : Option (System τ ρ α) :=
  match s.producer with
  | .fetching =>
    match s.unsent with
    | [] => some { s with producer := .closing }
    | t :: rest => some { s with producer := .polling t, unsent := rest }
  | .polling t => some { s with producer := if s.stopSeen then .closing else .sending t }
  | .sending t =>
    if !s.hasReceiver then some { s with producer := .closing }
    else if s.queue.length < p.room then
      some { s with producer := .counting, queue := s.queue ++ [t], sent := s.sent ++ [t] }
    else none
  | .counting => some { s with producer := .fetching, submitted := s.submitted + 1 }
  | .closing => some { s with producer := .signalling }
  | .signalling => some { s with producer := .finished, producerDone := true }
  | .finished => none

/-- A step of worker `i`, who is at `w`. -/
def workOn (i : Nat) (w : Worker τ ρ) : Option (System τ ρ α) :=
  match w with
  | .polling => some (s.withWorker i (if s.stopSeen then .leaving true true else .receiving))
  | .receiving =>
    match s.queue with
    | t :: rest => some ({ s with queue := rest }.withWorker i (.holding t))
    | [] => if s.producer.isOpen then none else some (s.withWorker i (.leaving true true))
  | .holding t => some (s.withWorker i (if s.stopSeen then .leaving true true else .working t))
  | .working t => some (s.withWorker i (.sending (p.work t)))
  | .sending r =>
    if s.aggregator.listens then some ({ s with results := s.results ++ [r] }.withWorker i .polling)
    else some (s.withWorker i (.leaving true true))
  | .leaving _ _ => none

/-- A step of the aggregator. -/
def aggregate : Option (System τ ρ α) :=
  match s.aggregator with
  | .starting => some { s with aggregator := .polling }
  | .polling =>
    if s.callerStopped then some { s with cancelled := true, aggregator := .stopping }
    else some { s with aggregator := .noting }
  | .noting =>
    if s.phase = .running ∧ s.producerDone then
      some { s with phase := .draining, phases := s.phases ++ [.draining],
                    aggregator := .receiving }
    else some { s with aggregator := .receiving }
  | .receiving =>
    match s.results with
    | r :: rest =>
      let (flow, value) := p.fold s.value r
      let s := { s with results := rest, completed := s.completed + 1, value,
                        folded := s.folded ++ [r] }
      match flow with
      | .stop => some { s with stoppedEarly := true, aggregator := .stopping }
      | .proceed => some { s with aggregator := .polling }
    | [] =>
      if s.hasSender then none
      else if s.phase = .running then
        some { s with phases := s.phases ++ [.draining], aggregator := .stopping }
      else some { s with aggregator := .stopping }
  | .stopping => some { s with stopRequested := true, aggregator := .hangingUp }
  | .hangingUp => some { s with aggregator := .joining }
  | .joining =>
    if s.isDeserted then some { s with phases := s.phases ++ [.done], aggregator := .returned }
    else none
  | .returned => none

/-- A step of the system, if there is one to take. -/
def step : Move → Option (System τ ρ α)
  | .stopCaller => some { s with callerStopped := true }
  | .produce => p.produce s
  | .produceTimeOut =>
    match s.producer with
    | .sending t => some { s with producer := .polling t }
    | _ => none
  | .work i => s.workers[i]?.bind (p.workOn s i)
  | .workTimeOut i => (s.workers[i]?.bind Worker.timeOut?).map (s.withWorker i)
  | .dropTasks i => (s.workers[i]?.bind Worker.dropTasks?).map (s.withWorker i)
  | .dropResults i => (s.workers[i]?.bind Worker.dropResults?).map (s.withWorker i)
  | .aggregate => p.aggregate s
  | .aggregateTimeOut =>
    match s.aggregator with
    | .receiving => some { s with aggregator := .polling }
    | _ => none

end Plan

end MutationFinite
