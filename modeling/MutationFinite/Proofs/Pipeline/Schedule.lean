import MutationFinite.Pipeline.Interleaving
import MutationFinite.Proofs.Pipeline.Folding
import MutationFinite.Schedule

/-!
# One task after another

A run may hand out each task, work on it and fold its result before it takes the next one.  This is
one order of the steps among many, and it leads to the report of `Job.run`.

* `leads_enqueued`, `leads_delivered`, `leads_folded`, `leads_decided`: one task on its way.
* `AtRest.leads_returned`, `AtRest.leads_drained`: the end of a run.
* `Performs`, `exists_schedule_of_run`: the run of a job is one of the runs of the system.
-/

namespace MutationFinite

open Plan

namespace Pipeline

variable {τ ρ α ω : Type} {p : Plan τ ρ α} {s s' s'' : System τ ρ α}

/-! ### One task -/

theorem room_pos (p : Plan τ ρ α) : 0 < p.room := by
  rw [room]
  omega

/-- The producer puts the next task into an empty queue. -/
theorem leads_enqueued {t : τ} {rest : List τ} {others : List (Worker τ ρ)}
    (hat : s.producer = .fetching) (hnext : s.unsent = t :: rest) (hstop : s.stopRequested = false)
    (hquiet : s.callerStopped = false) (hworkers : s.workers = .polling :: others)
    (hqueue : s.queue = []) :
    LeadsTo p.step s { s with producer := .fetching, unsent := rest, submitted := s.submitted + 1,
                              queue := [t], sent := s.sent ++ [t] } := by
  refine ⟨[.produce, .produce, .produce, .produce], ?_⟩
  simp [followSchedule, step, produce, System.stopSeen, System.hasReceiver, Worker.holdsTasks, hat,
    hnext, hstop, hquiet, hworkers, hqueue, room_pos]

/-- The first worker takes the task in the queue, works on it, and sends the result. -/
theorem leads_delivered {t : τ} {others : List (Worker τ ρ)}
    (hworkers : s.workers = .polling :: others) (hqueue : s.queue = [t])
    (hstop : s.stopRequested = false) (hquiet : s.callerStopped = false)
    (hlistens : s.aggregator.listens = true) :
    LeadsTo p.step s { s with workers := .polling :: others, queue := [],
                              results := s.results ++ [p.work t] } := by
  refine ⟨[.work 0, .work 0, .work 0, .work 0, .work 0], ?_⟩
  simp [followSchedule, step, workOn, System.stopSeen, System.withWorker, hworkers, hqueue, hstop,
    hquiet, hlistens]

/-- The aggregator looks around, and waits for a result. -/
theorem leads_waiting (hat : s.aggregator = .polling) (hquiet : s.callerStopped = false)
    (hdone : s.producerDone = false) : LeadsTo p.step s { s with aggregator := .receiving } := by
  refine ⟨[.aggregate, .aggregate], ?_⟩
  simp [followSchedule, step, aggregate, hat, hquiet, hdone]

theorem leads_folded {r : ρ} {rest : List ρ} {value : α} (hat : s.aggregator = .receiving)
    (hresults : s.results = r :: rest) (hfold : p.fold s.value r = (.proceed, value)) :
    LeadsTo p.step s { s with results := rest, completed := s.completed + 1, value,
                              folded := s.folded ++ [r], aggregator := .polling } := by
  refine .one .aggregate ?_
  simp [step, aggregate, hat, hresults, hfold]

theorem leads_decided {r : ρ} {rest : List ρ} {value : α} (hat : s.aggregator = .receiving)
    (hresults : s.results = r :: rest) (hfold : p.fold s.value r = (.stop, value)) :
    LeadsTo p.step s { s with results := rest, completed := s.completed + 1, value,
                              folded := s.folded ++ [r], stoppedEarly := true,
                              aggregator := .stopping } := by
  refine .one .aggregate ?_
  simp [step, aggregate, hat, hresults, hfold]

/-! ### The end -/

/-- The producer finds no task or a stopped token. -/
theorem leads_finished (hat : s.producer = .fetching)
    (hreason : s.stopSeen = true ∨ s.unsent = []) :
    LeadsTo p.step s
      { s with producer := .finished, producerDone := true, unsent := s.unsent.tail } := by
  cases hunsent : s.unsent with
  | nil =>
      refine ⟨[.produce, .produce, .produce], ?_⟩
      simp [followSchedule, step, produce, hat, hunsent]
  | cons t rest =>
      have hseen : s.stopRequested = true ∨ s.callerStopped = true :=
        Bool.or_eq_true_iff.mp (hreason.resolve_right (hunsent ▸ List.cons_ne_nil t rest))
      refine ⟨[.produce, .produce, .produce, .produce], ?_⟩
      simp [followSchedule, step, produce, System.stopSeen, hat, hunsent, hseen]

/-- A worker at the top of its loop finds a stopped token, or a queue that is empty for good. -/
theorem leads_gone {before after : List (Worker τ ρ)}
    (hat : s.workers = before ++ .polling :: after)
    (hreason : s.stopSeen = true ∨ s.queue = [] ∧ s.producer.isOpen = false) :
    LeadsTo p.step s { s with workers := before ++ .leaving false false :: after } := by
  let i := before.length
  cases hseen : s.stopRequested || s.callerStopped with
  | true =>
      refine ⟨[.work i, .dropTasks i, .dropResults i], ?_⟩
      simp [i, followSchedule, step, workOn, System.stopSeen, System.withWorker, Worker.dropTasks?,
        Worker.dropResults?, hat, hseen]
  | false =>
      obtain ⟨hqueue, hclosed⟩ := hreason.resolve_left fun h => by cases hseen.symm.trans h
      refine ⟨[.work i, .work i, .dropTasks i, .dropResults i], ?_⟩
      simp [i, followSchedule, step, workOn, System.stopSeen, System.withWorker, Worker.dropTasks?,
        Worker.dropResults?, hat, hseen, hqueue, hclosed]

/-- The state that the others leave to the aggregator. -/
def System.abandoned (s : System τ ρ α) : System τ ρ α :=
  { s with producer := .finished, producerDone := true, unsent := s.unsent.tail,
           workers := s.workers.map fun _ => .leaving false false }

theorem isDeserted_abandoned (s : System τ ρ α) : s.abandoned.isDeserted = true := by
  simp [System.isDeserted, System.abandoned]

/-- The workers go, one after another. -/
theorem leads_allGone (before : List (Worker τ ρ)) {after : List (Worker τ ρ)}
    (hat : s.workers = before ++ after) (hafter : ∀ w ∈ after, w = .polling)
    (hreason : s.stopSeen = true ∨ s.queue = [] ∧ s.producer.isOpen = false) :
    LeadsTo p.step s { s with workers := before ++ after.map fun _ => .leaving false false } := by
  induction after generalizing before s with
  | nil => exact ⟨[], by simp [followSchedule, ← hat]⟩
  | cons w rest ih =>
      obtain ⟨rfl, hrest⟩ := List.forall_mem_cons.mp hafter
      refine (leads_gone hat hreason).trans ?_
      have hgone := ih (s := { s with workers := before ++ .leaving false false :: rest })
        (before ++ [.leaving false false]) (by simp) hrest hreason
      simpa using hgone

/-- Everybody but the aggregator is at the top of its loop, and the queue of tasks is empty. -/
structure AtRest (s : System τ ρ α) : Prop where
  producer : s.producer = .fetching
  workers : ∀ w ∈ s.workers, w = .polling
  queue : s.queue = []

theorem AtRest.leads_abandoned (h : AtRest s) (hreason : s.stopSeen = true ∨ s.unsent = []) :
    LeadsTo p.step s s.abandoned := by
  refine (leads_finished h.producer hreason).trans ?_
  exact leads_allGone [] rfl h.workers (.inr ⟨h.queue, rfl⟩)

/-- The aggregator tells all others to stop, and waits for them. -/
theorem AtRest.leads_returned (h : AtRest s) (hat : s.aggregator = .stopping) :
    LeadsTo p.step s { s.abandoned with stopRequested := true, phases := s.phases ++ [.done],
                                        aggregator := .returned } := by
  have hhangs : LeadsTo p.step s { s with stopRequested := true, aggregator := .joining } :=
    ⟨[.aggregate, .aggregate], by simp [followSchedule, step, aggregate, hat]⟩
  have hrest : AtRest { s with stopRequested := true, aggregator := .joining } :=
    ⟨h.producer, h.workers, h.queue⟩
  refine (hhangs.trans (hrest.leads_abandoned (.inl rfl))).trans (.one .aggregate ?_)
  change (if _ then _ else _) = _
  rw [isDeserted_abandoned]
  rfl

/-- The others go, and the aggregator finds nobody who could send a result. -/
theorem AtRest.leads_drained (h : AtRest s) (hreason : s.stopSeen = true ∨ s.unsent = [])
    (hat : s.aggregator = .receiving) (hresults : s.results = []) (hphase : s.phase = .running) :
    LeadsTo p.step s
      { s.abandoned with stopRequested := true, phases := s.phases ++ [.draining, .done],
                         aggregator := .returned } := by
  refine (h.leads_abandoned hreason).trans ⟨[.aggregate, .aggregate, .aggregate, .aggregate], ?_⟩
  simp [followSchedule, step, aggregate, System.abandoned, System.hasSender, System.isDeserted,
    Worker.holdsResults, hat, hresults, hphase]

/-! ### Jobs -/

/-- The run has returned with what a report says. -/
structure Reports (s : System τ ρ α) (report : RunReport ω α) : Prop where
  returned : s.aggregator = .returned
  value : s.value = report.value
  completed : s.completed = report.completed
  stoppedEarly : s.stoppedEarly = report.stoppedEarly
  cancelled : s.cancelled = report.cancelled
  phases : s.phases = report.phases

/-- The job is what the plan says in all worlds with the property `Good`, and keeps to them: only
its tokens may tell them apart. -/
structure Performs (Good : ω → Prop) (job : Job ω τ ρ α) (p : Plan τ ρ α) : Prop where
  count : job.count = p.tasks.length
  task : ∀ i t, p.tasks[i]? = some t → job.task i = t
  poll : ∀ world, Good world → Good (job.poll world).2
  work : ∀ t world, Good world → (job.work t world).1 = p.work t ∧ Good (job.work t world).2
  fold : ∀ acc r world, Good world → (job.fold acc r world).1 = (p.fold acc r).1 ∧
    (job.fold acc r world).2.1 = (p.fold acc r).2 ∧ Good (job.fold acc r world).2.2

/-- In some world with the property `Good` a token is stopped. -/
def IsStopped (Good : ω → Prop) (job : Job ω τ ρ α) : Prop :=
  ∃ world, Good world ∧ ((job.poll world).1 = true ∨ job.workersStopped world = true)

namespace Performs

variable {Good : ω → Prop} {job : Job ω τ ρ α} {world world' : ω} {acc acc' : α} {t : τ} {r : ρ}
  {flow : Flow} {stopped : Bool}

theorem good_poll (hjob : Performs Good job p) (hgood : Good world)
    (hpoll : job.poll world = (stopped, world')) : Good world' := by
  have hkeeps := hjob.poll world hgood
  rwa [hpoll] at hkeeps

theorem work_eq (hjob : Performs Good job p) (hgood : Good world)
    (hwork : job.work t world = (r, world')) : p.work t = r ∧ Good world' := by
  have hkeeps := hjob.work t world hgood
  rw [hwork] at hkeeps
  exact ⟨hkeeps.1.symm, hkeeps.2⟩

theorem fold_eq (hjob : Performs Good job p) (hgood : Good world)
    (hfold : job.fold acc r world = (flow, acc', world')) :
    p.fold acc r = (flow, acc') ∧ Good world' := by
  have h := hjob.fold acc r world hgood
  rw [hfold] at h
  exact ⟨(Prod.ext h.1 h.2.1).symm, h.2.2⟩

/-- A run keeps to the worlds that its steps keep to. -/
theorem good_runFrom (hjob : Performs Good job p) (remaining next : Nat) (acc : α)
    (hgood : Good world) : Good (job.runFrom remaining next acc world).world := by
  induction remaining generalizing next acc world with
  | zero =>
      rcases hpoll : job.poll world with ⟨_ | _, polled⟩
      · rw [Job.runFrom_zero hpoll]
        exact hjob.good_poll hgood hpoll
      · rw [Job.runFrom_stopped hpoll]
        exact hjob.good_poll hgood hpoll
  | succ remaining ih =>
      rcases hpoll : job.poll world with ⟨_ | _, polled⟩
      · have hpolled := hjob.good_poll hgood hpoll
        cases hstopped : job.workersStopped polled with
        | true =>
            rw [Job.runFrom_unstaffed hpoll hstopped]
            exact hpolled
        | false =>
            rcases hwork : job.work (job.task next) polled with ⟨r, worked⟩
            rcases hfold : job.fold acc r worked with ⟨flow, acc', folded⟩
            have hworked := (hjob.work_eq hpolled hwork).2
            have hfolded := (hjob.fold_eq hworked hfold).2
            rw [Job.runFrom_succ hpoll hstopped hwork hfold]
            split
            · exact hfolded
            · exact ih (next + 1) acc' hfolded
      · rw [Job.runFrom_stopped hpoll]
        exact hjob.good_poll hgood hpoll

end Performs

/-- The system between two tasks, in a run that nobody has stopped so far. -/
structure Between (s : System τ ρ α) (unsent : List τ) (value : α) (completed : Nat) : Prop
    extends AtRest s where
  unsent_eq : s.unsent = unsent
  staffed : s.workers ≠ []
  results : s.results = []
  aggregator : s.aggregator = .polling
  quiet : s.callerStopped = false ∧ s.stopRequested = false
  producing : s.producerDone = false
  phase : s.phase = .running ∧ s.phases = [.running]
  going : s.stoppedEarly = false ∧ s.cancelled = false
  value_eq : s.value = value
  completed_eq : s.completed = completed

/-- The state in which the result of the next task waits for the aggregator. -/
def System.withResult (p : Plan τ ρ α) (s : System τ ρ α) (t : τ) (rest : List τ) :
    System τ ρ α :=
  { s with producer := .fetching, unsent := rest, submitted := s.submitted + 1, queue := [],
           sent := s.sent ++ [t], results := [p.work t], aggregator := .receiving }

namespace Between

variable {unsent rest : List τ} {t : τ} {value value' : α} {completed : Nat}

/-- The caller's token is stopped before the aggregator looks at it. -/
theorem leads_cancelled (h : Between s unsent value completed) (world : ω) :
    ∃ s', LeadsTo p.step s s' ∧
      Reports s' (⟨value, world, .cancelled, completed⟩ : RunReport ω α) := by
  have hcancel : LeadsTo p.step s { s with callerStopped := true, cancelled := true,
                                           aggregator := .stopping } :=
    ⟨[.stopCaller, .aggregate], by simp [followSchedule, step, aggregate, h.aggregator]⟩
  have hrest : AtRest { s with callerStopped := true, cancelled := true,
                               aggregator := .stopping } := ⟨h.producer, h.workers, h.queue⟩
  refine ⟨_, hcancel.trans (hrest.leads_returned rfl), rfl, h.value_eq, h.completed_eq,
    h.going.1, rfl, ?_⟩
  change s.phases ++ [.done] = _
  rw [h.phase.2]
  rfl

/-- The aggregator waits for a result, and the others find no task or a token that was stopped
meanwhile. -/
theorem leads_drained (h : Between s unsent value completed) (stopped : Bool)
    (hreason : stopped = true ∨ unsent = []) (world : ω) :
    ∃ s', LeadsTo p.step s s' ∧
      Reports s' (⟨value, world, .drained, completed⟩ : RunReport ω α) ∧
      s'.callerStopped = stopped := by
  let waiting := { s with aggregator := .receiving, callerStopped := stopped }
  have hwaits : LeadsTo p.step s waiting := by
    refine (leads_waiting h.aggregator h.quiet.1 h.producing).trans ?_
    cases stopped with
    | true => exact .one .stopCaller rfl
    | false => exact ⟨[], by simp [waiting, followSchedule, h.quiet.1]⟩
  have hrest : AtRest waiting := ⟨h.producer, h.workers, h.queue⟩
  have hleaves : waiting.stopSeen = true ∨ waiting.unsent = [] := by
    refine hreason.imp (fun hstopped => ?_) h.unsent_eq.trans
    change (s.stopRequested || stopped) = true
    rw [hstopped, Bool.or_true]
  have hdrains := hrest.leads_drained (p := p) hleaves rfl h.results h.phase.1
  refine ⟨_, hwaits.trans hdrains,
    ⟨rfl, h.value_eq, h.completed_eq, h.going.1, h.going.2, ?_⟩, rfl⟩
  change s.phases ++ [.draining, .done] = _
  rw [h.phase.2]
  rfl

/-- The next task is worked on, and its result waits for the aggregator. -/
theorem leads_withResult (h : Between s (t :: rest) value completed) :
    LeadsTo p.step s (s.withResult p t rest) := by
  obtain ⟨w, others, hworkers⟩ := List.exists_cons_of_ne_nil h.staffed
  obtain rfl : w = .polling := h.workers w (by rw [hworkers]; exact List.mem_cons_self)
  refine (leads_waiting h.aggregator h.quiet.1 h.producing).trans ?_
  refine (leads_enqueued (s := { s with aggregator := .receiving }) h.producer h.unsent_eq
    h.quiet.2 h.quiet.1 hworkers h.queue).trans ?_
  have hdelivers := leads_delivered (p := p)
    (s := { s with aggregator := .receiving, producer := .fetching, unsent := rest,
                   submitted := s.submitted + 1, queue := [t], sent := s.sent ++ [t] })
    hworkers rfl h.quiet.2 h.quiet.1 rfl
  simpa only [System.withResult, h.results, hworkers, List.nil_append] using hdelivers

/-- The fold has its answer after the next task. -/
theorem leads_decided (h : Between s (t :: rest) value completed)
    (hfold : p.fold value (p.work t) = (.stop, value')) (world : ω) :
    ∃ s', LeadsTo p.step s s' ∧
      Reports s' (⟨value', world, .decided, completed + 1⟩ : RunReport ω α) ∧
      s'.callerStopped = false := by
  have hdecides := Pipeline.leads_decided (p := p) (s := s.withResult p t rest) rfl rfl
    (h.value_eq ▸ hfold)
  have hends := AtRest.leads_returned (p := p)
    (s := { s.withResult p t rest with
      results := [], value := value', completed := s.completed + 1,
      folded := s.folded ++ [p.work t], stoppedEarly := true, aggregator := .stopping })
    ⟨rfl, h.workers, rfl⟩ rfl
  refine ⟨_, (h.leads_withResult.trans hdecides).trans hends,
    ⟨rfl, rfl, congrArg (· + 1) h.completed_eq, rfl, h.going.2, ?_⟩, h.quiet.1⟩
  change s.phases ++ [.done] = _
  rw [h.phase.2]
  rfl

/-- The fold goes on after the next task. -/
theorem leads_between (h : Between s (t :: rest) value completed)
    (hfold : p.fold value (p.work t) = (.proceed, value')) :
    ∃ s', LeadsTo p.step s s' ∧ Between s' rest value' (completed + 1) := by
  have hfolds := leads_folded (p := p) (s := s.withResult p t rest) rfl rfl (h.value_eq ▸ hfold)
  exact ⟨_, h.leads_withResult.trans hfolds, ⟨rfl, h.workers, rfl⟩, rfl, h.staffed, rfl, rfl,
    h.quiet, h.producing, h.phase, h.going, rfl, congrArg (· + 1) h.completed_eq⟩

/-- What is left of the job's run is a run of the system, in which nobody stops the caller unless a
token of the job is stopped. -/
theorem exists_reports {Good : ω → Prop} {job : Job ω τ ρ α} (hjob : Performs Good job p)
    {next : Nat} (htask : ∀ i t, unsent[i]? = some t → job.task (next + i) = t)
    (h : Between s unsent value next) (world : ω) (hgood : Good world) :
    ∃ s', LeadsTo p.step s s' ∧ Reports s' (job.runFrom unsent.length next value world) ∧
      (s'.callerStopped = true → IsStopped Good job) := by
  induction unsent generalizing s value next world with
  | nil =>
      rcases hpoll : job.poll world with ⟨_ | _, polled⟩
      · rw [List.length_nil, Job.runFrom_zero hpoll]
        obtain ⟨s', hleads, hreports, hquiet⟩ := h.leads_drained (p := p) false (.inr rfl) polled
        exact ⟨s', hleads, hreports, fun hcaller => nomatch hquiet.symm.trans hcaller⟩
      · rw [Job.runFrom_stopped hpoll]
        obtain ⟨s', hleads, hreports⟩ := h.leads_cancelled (p := p) polled
        exact ⟨s', hleads, hreports, fun _ => ⟨world, hgood, .inl (congrArg Prod.fst hpoll)⟩⟩
  | cons t rest ih =>
      rcases hpoll : job.poll world with ⟨_ | _, polled⟩
      · have hpolled := hjob.good_poll hgood hpoll
        cases hstopped : job.workersStopped polled with
        | true =>
            rw [List.length_cons, Job.runFrom_unstaffed hpoll hstopped]
            obtain ⟨s', hleads, hreports, -⟩ := h.leads_drained (p := p) true (.inl rfl) polled
            exact ⟨s', hleads, hreports, fun _ => ⟨polled, hpolled, .inr hstopped⟩⟩
        | false =>
            have ht : job.task next = t := htask 0 t rfl
            rcases hwork : job.work (job.task next) polled with ⟨r, worked⟩
            obtain ⟨hresult, hworked⟩ := hjob.work_eq hpolled hwork
            rcases hfold : job.fold value r worked with ⟨flow, value', folded⟩
            obtain ⟨hplan, hfolded⟩ := hjob.fold_eq hworked hfold
            rw [← hresult, ht] at hplan
            rw [List.length_cons, Job.runFrom_succ hpoll hstopped hwork hfold]
            cases flow with
            | stop =>
                obtain ⟨s', hleads, hreports, hquiet⟩ := h.leads_decided hplan folded
                exact ⟨s', hleads, hreports, fun hcaller => nomatch hquiet.symm.trans hcaller⟩
            | proceed =>
                obtain ⟨s₁, hleads, hbetween⟩ := h.leads_between hplan
                have hrest : ∀ i t', rest[i]? = some t' → job.task (next + 1 + i) = t' := by
                  intro i t' hi
                  rw [Nat.add_assoc, Nat.add_comm 1 i]
                  exact htask (i + 1) t' hi
                obtain ⟨s₂, hleads', hreports⟩ := ih hrest hbetween folded hfolded
                exact ⟨s₂, hleads.trans hleads', hreports⟩
      · rw [Job.runFrom_stopped hpoll]
        obtain ⟨s', hleads, hreports⟩ := h.leads_cancelled (p := p) polled
        exact ⟨s', hleads, hreports, fun _ => ⟨world, hgood, .inl (congrArg Prod.fst hpoll)⟩⟩

end Between

/-- **The run of a job is one of the runs of the system.**  Some schedule of the parties ends with
the report of the run that takes one task after another, and nobody stops the caller in it unless a
token of the job is stopped. -/
theorem exists_schedule_of_run {Good : ω → Prop} {job : Job ω τ ρ α} (hjob : Performs Good job p)
    (world : ω) (hgood : Good world) :
    ∃ schedule s, followSchedule p.step schedule (p.initial false) = some s ∧
      Reports s (job.run p.start world) ∧ (s.callerStopped = true → IsStopped Good job) := by
  have hstart : LeadsTo p.step (p.initial false) { p.initial false with aggregator := .polling } :=
    LeadsTo.one Move.aggregate rfl
  have hbetween : Between { p.initial false with aggregator := .polling } p.tasks p.start 0 :=
    { producer := rfl
      workers := fun _ => List.eq_of_mem_replicate
      queue := rfl
      unsent_eq := rfl
      staffed := List.ne_nil_of_length_pos (by
        simp only [Plan.initial, List.length_replicate]
        omega)
      results := rfl
      aggregator := rfl
      quiet := ⟨rfl, rfl⟩
      producing := rfl
      phase := ⟨rfl, rfl⟩
      going := ⟨rfl, rfl⟩
      value_eq := rfl
      completed_eq := rfl }
  obtain ⟨s, hleads, hreports⟩ := hbetween.exists_reports hjob
    (fun i t ht => by rw [Nat.zero_add]; exact hjob.task i t ht) world hgood
  obtain ⟨schedule, hfollow⟩ := hstart.trans hleads
  refine ⟨schedule, s, hfollow, ?_⟩
  rwa [Job.run, hjob.count]

end Pipeline

end MutationFinite
