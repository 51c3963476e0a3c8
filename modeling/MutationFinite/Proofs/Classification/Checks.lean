import MutationFinite.Classification.Checks
import MutationFinite.Proofs.Classification.Verdict
import MutationFinite.Proofs.Pipeline.Errands
import MutationFinite.Proofs.Pipeline.Schedule

/-!
# What many checks come to

In a session that nobody stops the matrices have verdicts, whatever the checks before them have left
in the session.  So the pool takes the steps of a plan whose workers know the verdicts, and what it
folds are the verdicts in some order.

* `Checks.Decided`, `Checks.planOf`: the verdicts, and the plan for workers who know them.
* `Checks.step_eq`: a step of the pool; `follow_of_pool` and `pool_of_follow` are about all steps of
  a schedule.
* `Checks.performs_job`: the checks one after another are one of the runs of the pool.
* `Checks.run_returns`: what is folded; `Checks.exists_schedule`: there are schedules that end.
-/

namespace MutationFinite

open Pipeline

/-- A session that nobody stops is polled in vain. -/
theorem Session.poll_eq {s : Session} (ht : s.token.NeverStops) :
    s.poll = (false, ⟨s.context, s.token.poll.2⟩) := by
  show (s.token.poll.1, Session.mk s.context s.token.poll.2) = _
  rw [ht.poll.1]

namespace Checks

variable {α : Type}

/-- The checks as a plan, for workers who know the verdicts. -/
def planOf (c : Checks α) (verdict : Nat → Finiteness) :
    Plan Nat (ExchangeMatrix × Except Error Finiteness) α where
  config := c.cfg.pipeline
  tasks := List.range c.count
  work i := (c.matrix i, .ok (verdict i))
  fold := c.fold
  start := c.start

/-- The fold of the verdicts in some order of the matrices. -/
def folded (c : Checks α) (verdict : Nat → Finiteness) (order : List Nat) : α :=
  foldUntilStop c.fold c.start (order.map fun i => (c.matrix i, .ok (verdict i)))

variable [Generator] {c : Checks α} {verdict : Nat → Finiteness} {s : Session}
  {system system' : System Nat (ExchangeMatrix × Except Error Finiteness) α} {p p' : Pool α}
  {schedule : List Move}

/-- Each matrix has its verdict when its turn comes. -/
def Decided (c : Checks α) (verdict : Nat → Finiteness) : Prop :=
  ∀ i, HasVerdict (c.cfg.later (i + 1)) (c.matrix i) (verdict i)

theorem Decided.check (h : c.Decided verdict) (i : Nat) (ht : s.token.NeverStops) :
    ∃ s', c.check i s = ((c.matrix i, .ok (verdict i)), s') ∧ s'.token.NeverStops := by
  obtain ⟨_, s', hrun, ht', rfl⟩ := h i s ht
  refine ⟨s', ?_, ht'⟩
  show (let (answer, s') := (checkFinite (c.cfg.later (i + 1)) (c.matrix i)).run s
    ((c.matrix i, answer), s')) = _
  rw [hrun]

/-! ### On a pool -/

/-- Workers who check in a session that nobody stops know the verdicts. -/
theorem Decided.plan_eq (h : c.Decided verdict) (ht : s.token.NeverStops) :
    c.plan s = c.planOf verdict := by
  have hwork : (fun i => (c.check i s).1) = fun i => (c.matrix i, .ok (verdict i)) := by
    funext i
    obtain ⟨s', hcheck, -⟩ := h.check i ht
    rw [hcheck]
  rw [plan, hwork, planOf]

theorem Decided.sessionAfter (h : c.Decided verdict) (ht : p.session.token.NeverStops)
    (move : Move) : (c.sessionAfter p move).token.NeverStops := by
  unfold Checks.sessionAfter
  repeat' split
  · next n _ =>
    obtain ⟨s', hcheck, ht'⟩ := h.check n ht
    rw [hcheck]
    exact ht'
  all_goals exact ht

/-- **In a session that nobody stops a step of the pool is one of the plan of verdicts.** -/
theorem Decided.step_eq (h : c.Decided verdict) (ht : p.session.token.NeverStops) {move : Move}
    (hmove : move ≠ .stopCaller) :
    ∃ s', s'.token.NeverStops ∧
      c.step p move = ((c.planOf verdict).step p.system move).map fun next => ⟨next, s'⟩ := by
  let polled : Pool α := ⟨p.system, ⟨p.session.context, p.session.token.poll.2⟩⟩
  have hpolled : polled.session.token.NeverStops := ht.poll.2
  have hsame : { p.system with callerStopped := p.system.callerStopped || false } = p.system := by
    rw [Bool.or_false]
  refine ⟨c.sessionAfter polled move, h.sessionAfter hpolled move, ?_⟩
  simp only [Checks.step, hmove, if_false, Session.poll_eq ht, hsame]
  rw [h.plan_eq hpolled]

/-- What the pool comes to, the plan of verdicts comes to. -/
theorem Decided.follow_of_pool (h : c.Decided verdict) (ht : p.session.token.NeverStops)
    (hquiet : p.system.callerStopped = false)
    (hfollow : followSchedule c.step schedule p = some p') :
    followSchedule (c.planOf verdict).step schedule p.system = some p'.system ∧
      p'.session.token.NeverStops ∧ p'.system.callerStopped = false := by
  induction schedule generalizing p with
  | nil =>
      cases hfollow
      exact ⟨rfl, ht, hquiet⟩
  | cons move rest ih =>
      obtain ⟨next, hstep, hrest⟩ := Option.bind_eq_some_iff.mp hfollow
      have hmove : move ≠ .stopCaller := by
        rintro rfl
        cases hstep
      obtain ⟨s', ht', hplan⟩ := h.step_eq ht hmove
      obtain ⟨system, hsystem, rfl⟩ := Option.map_eq_some_iff.mp (hplan.symm.trans hstep)
      have hquiet' : system.callerStopped = false := by
        rw [callerStopped_of_step hsystem, hquiet, decide_eq_false hmove]
        rfl
      rw [followSchedule, hsystem]
      exact ih ht' hquiet' hrest

/-- What the plan of verdicts comes to when nobody stops the caller, the pool comes to. -/
theorem Decided.pool_of_follow (h : c.Decided verdict) (ht : s.token.NeverStops)
    (hquiet : system'.callerStopped = false)
    (hfollow : followSchedule (c.planOf verdict).step schedule system = some system') :
    system.callerStopped = false ∧
      ∃ s', followSchedule c.step schedule ⟨system, s⟩ = some ⟨system', s'⟩ := by
  induction schedule generalizing system s with
  | nil =>
      cases hfollow
      exact ⟨hquiet, s, rfl⟩
  | cons move rest ih =>
      obtain ⟨next, hstep, hrest⟩ := Option.bind_eq_some_iff.mp hfollow
      -- the token is not stopped later on, so it is not stopped now
      have hboth := (ih ht hrest).1
      rw [callerStopped_of_step hstep, Bool.or_eq_false_iff, decide_eq_false_iff_not] at hboth
      obtain ⟨s₁, ht₁, hplan⟩ := h.step_eq (p := ⟨system, s⟩) ht hboth.2
      obtain ⟨-, s', hpool⟩ := ih ht₁ hrest
      refine ⟨hboth.1, s', ?_⟩
      rw [followSchedule, hplan, hstep]
      exact hpool

/-- Where the plan of verdicts has returned, the pool has an answer. -/
theorem Decided.onPool?_of_follow (h : c.Decided verdict) (ht : s.token.NeverStops)
    (hfollow : followSchedule (c.planOf verdict).step schedule
      ((c.planOf verdict).initial false) = some system)
    (hreturned : system.aggregator = .returned) (hquiet : system.callerStopped = false) :
    ∃ s', c.onPool? schedule s = some (system.value, s') := by
  obtain ⟨-, s', hpool⟩ := h.pool_of_follow ht hquiet hfollow
  refine ⟨s', ?_⟩
  have hmoves : schedule.isEmpty = false := by
    cases schedule with
    | nil =>
        cases hfollow
        cases hreturned
    | cons => rfl
  rw [onPool?, hmoves, h.plan_eq ht, hpool]
  simp only [Bool.false_eq_true, if_false, Option.bind_some, hreturned, if_true]

/-- **Whatever the order of the steps, the pool folds the verdicts in some order.** -/
theorem Decided.exists_order_of_onPool? (h : c.Decided verdict) (ht : s.token.NeverStops)
    {value : α} {s' : Session} (hpool : c.onPool? schedule s = some (value, s')) :
    s'.token.NeverStops ∧
      ∃ order : List Nat, order.Perm (List.range c.count) ∧ value = c.folded verdict order := by
  unfold onPool? at hpool
  split at hpool
  · cases hpool
  · obtain ⟨p, hfollow, hends⟩ := Option.bind_eq_some_iff.mp hpool
    split at hends
    · next hreturned =>
      cases hends
      obtain ⟨hplan, ht', hquiet⟩ := h.follow_of_pool ht rfl hfollow
      rw [h.plan_eq ht] at hplan
      exact ⟨ht', exists_order_of_returned hplan hreturned hquiet⟩
    · cases hends

/-! ### One after another -/

/-- The checks one after another are those of the plan of verdicts. -/
theorem Decided.performs_job (h : c.Decided verdict) :
    Performs (fun s : Session => s.token.NeverStops) c.job (c.planOf verdict) where
  count := (List.length_range (n := c.count)).symm
  task i t ht := (List.getElem?_eq_some_iff.mp ht).2 ▸ (List.getElem_range _).symm
  poll s ht := by
    show s.poll.2.token.NeverStops
    rw [Session.poll_eq ht]
    exact ht.poll.2
  work i s ht := by
    obtain ⟨s', hcheck, ht'⟩ := h.check i ht
    show (c.check i s).1 = _ ∧ (c.check i s).2.token.NeverStops
    rw [hcheck]
    exact ⟨rfl, ht'⟩
  fold _ _ _ ht := ⟨rfl, rfl, ht⟩

/-- A session that nobody stops has no token that is stopped. -/
theorem not_isStopped_job (c : Checks α) :
    ¬ IsStopped (fun s : Session => s.token.NeverStops) c.job := by
  rintro ⟨s, ht, hpoll | hworkers⟩
  · have hnot : (c.job.poll s).1 = false := congrArg Prod.fst (Session.poll_eq ht)
    cases hnot.symm.trans hpoll
  · cases hworkers

/-- Some moves of the parties come to the checks one after another. -/
theorem Decided.exists_schedule_of_job (h : c.Decided verdict) (ht : s.token.NeverStops) :
    ∃ schedule system, followSchedule (c.planOf verdict).step schedule
        ((c.planOf verdict).initial false) = some system ∧
      Reports system (c.job.run c.start s) ∧ system.callerStopped = false := by
  obtain ⟨schedule, system, hfollow, hreports, hstops⟩ :=
    exists_schedule_of_run h.performs_job s ht
  exact ⟨schedule, system, hfollow, hreports,
    Bool.eq_false_of_not_eq_true fun hcaller => c.not_isStopped_job (hstops hcaller)⟩

/-- **Each pool has a schedule that ends**, with the value of the checks one after another. -/
theorem Decided.exists_schedule (h : c.Decided verdict) (ht : s.token.NeverStops) :
    ∃ schedule s', c.onPool? schedule s = some ((c.job.run c.start s).value, s') := by
  obtain ⟨schedule, system, hfollow, hreports, hquiet⟩ := h.exists_schedule_of_job ht
  obtain ⟨s', hpool⟩ := h.onPool?_of_follow ht hfollow hreports.returned hquiet
  exact ⟨schedule, s', hreports.value ▸ hpool⟩

/-- **What is folded are the verdicts in some order**, in sessions that nobody stops. -/
theorem Decided.run_returns (h : c.Decided verdict) :
    Session.Returns c.run fun value =>
      ∃ order : List Nat, order.Perm (List.range c.count) ∧ value = c.folded verdict order := by
  intro s ht
  cases hpool : c.onPool? (c.cfg.schedules 0) s with
  | some result =>
      obtain ⟨value, s'⟩ := result
      obtain ⟨ht', horder⟩ := h.exists_order_of_onPool? ht hpool
      refine ⟨value, s', ?_, ht', horder⟩
      unfold run
      rw [Session.run_bind (Session.run_getThe s), hpool]
      rfl
  | none =>
      obtain ⟨schedule, system, hfollow, hreports, hquiet⟩ := h.exists_schedule_of_job ht
      obtain ⟨order, hperm, hvalue⟩ := exists_order_of_returned hfollow hreports.returned hquiet
      refine ⟨(c.job.run c.start s).value, (c.job.run c.start s).world, ?_,
        h.performs_job.good_runFrom c.count 0 c.start ht, order, hperm,
        hreports.value.symm.trans hvalue⟩
      unfold run
      rw [Session.run_bind (Session.run_getThe s), hpool]
      rfl

end Checks

end MutationFinite
