import MutationFinite.Proofs.Pipeline.Errands
import MutationFinite.Proofs.Pipeline.Interleaving
import MutationFinite.Schedule
import Mathlib.Algebra.GroupWithZero.Nat

/-!
# A run with one worker can always go on

Where the aggregator waits for a result, the worker has something to do, or it waits for a task that
the producer can hand over.  Each stretch of steps that is taken here brings the run nearer to its
end.

* `System.left`: an upper bound for the stretches that are left.
* `exists_aggregate`, `exists_produce`, `exists_serve`: who can go on.
* `ErrandPlan.exists_returned`: every run with one worker can be brought to its end.
-/

namespace MutationFinite

namespace Pipeline

open Plan

section Parties

variable {τ ρ α : Type}

/-- The share of the producer in what is left, with the task in its hand. -/
def Producer.left : Producer τ → Nat
  | polling _ => 22
  | sending _ => 21
  | counting => 4
  | fetching => 3
  | closing => 2
  | signalling => 1
  | finished => 0

/-- The share of a worker, with the task or the result in its hand. -/
def Worker.left : Worker τ ρ → Nat
  | holding _ => 14
  | working _ => 13
  | sending _ => 12
  | polling => 4
  | receiving => 3
  | leaving tasks results => tasks.toNat + results.toNat

/-- The share of the aggregator. -/
def Aggregator.left : Aggregator → Nat
  | starting => 8
  | polling => 7
  | noting => 6
  | receiving => 5
  | stopping => 3
  | hangingUp => 2
  | joining => 1
  | returned => 0

/-- An upper bound for the stretches of steps that are left. -/
def System.left (s : System τ ρ α) : Nat :=
  20 * s.unsent.length + s.producer.left + 12 * s.queue.length +
    (s.workers.map Worker.left).sum + 5 * s.results.length + s.aggregator.left

variable {p : Plan τ ρ α} {s : System τ ρ α}

/-- The aggregator can go on unless it waits. -/
theorem exists_aggregate (hreturned : s.aggregator ≠ .returned)
    (hreceiving : s.aggregator = .receiving → s.results = [] → s.hasSender = false)
    (hjoining : s.aggregator = .joining → s.isDeserted = true) :
    ∃ next, p.aggregate s = some next ∧ next.workers = s.workers ∧ next.left < s.left := by
  cases hat : s.aggregator with
  | starting | stopping | hangingUp =>
      simp only [aggregate, hat]
      refine ⟨_, rfl, rfl, ?_⟩
      simp [System.left, hat, Aggregator.left]
  | polling =>
      simp only [aggregate, hat]
      split <;> refine ⟨_, rfl, rfl, ?_⟩ <;> simp [System.left, hat, Aggregator.left]
  | noting =>
      simp only [aggregate, hat]
      split <;> refine ⟨_, rfl, rfl, ?_⟩ <;> simp [System.left, hat, Aggregator.left]
  | receiving =>
      cases hresults : s.results with
      | nil =>
          simp only [aggregate, hat, hresults, hreceiving hat hresults, Bool.false_eq_true,
            if_false]
          split <;> refine ⟨_, rfl, rfl, ?_⟩ <;> simp [System.left, hat, Aggregator.left, hresults]
      | cons r rest =>
          simp only [aggregate, hat, hresults]
          split <;> refine ⟨_, rfl, rfl, ?_⟩ <;>
            simp only [System.left, hat, Aggregator.left, hresults, List.length_cons] <;> omega
  | joining =>
      simp only [aggregate, hat, hjoining hat]
      refine ⟨_, rfl, rfl, ?_⟩
      simp [System.left, hat, Aggregator.left]
  | returned => exact absurd hat hreturned

/-- The producer can go on unless it waits for room. -/
theorem exists_produce (hfinished : s.producer ≠ .finished)
    (hroom : s.hasReceiver = true → s.queue.length < p.room) :
    ∃ next, p.produce s = some next ∧ next.workers = s.workers ∧ next.left < s.left := by
  cases hat : s.producer with
  | fetching =>
      cases hnext : s.unsent with
      | nil =>
          simp only [produce, hat, hnext]
          refine ⟨_, rfl, rfl, ?_⟩
          simp [System.left, hat, Producer.left]
      | cons t rest =>
          simp only [produce, hat, hnext]
          refine ⟨_, rfl, rfl, ?_⟩
          simp only [System.left, hat, Producer.left, hnext, List.length_cons]
          omega
  | polling t =>
      simp only [produce, hat]
      refine ⟨_, rfl, rfl, ?_⟩
      split <;> simp [System.left, hat, Producer.left]
  | sending t =>
      cases hreceiver : s.hasReceiver with
      | false =>
          simp only [produce, hat, hreceiver]
          refine ⟨_, rfl, rfl, ?_⟩
          simp [System.left, hat, Producer.left]
      | true =>
          simp only [produce, hat, hreceiver, hroom hreceiver]
          refine ⟨_, rfl, rfl, ?_⟩
          simp only [System.left, hat, Producer.left, List.length_append, List.length_singleton]
          omega
  | counting | closing | signalling =>
      simp only [produce, hat]
      refine ⟨_, rfl, rfl, ?_⟩
      simp [System.left, hat, Producer.left]
  | finished => exact absurd hat hfinished

/-- What is left when the only worker is another one now. -/
theorem left_withWorker {w : Worker τ ρ} (hw : s.workers = [w]) (w' : Worker τ ρ) :
    (s.withWorker 0 w').workers = [w'] ∧
      (s.withWorker 0 w').left + w.left = s.left + w'.left := by
  have hset : (s.withWorker 0 w').workers = [w'] := by rw [System.withWorker, hw]; rfl
  refine ⟨hset, ?_⟩
  rw [System.left, System.left, hset, hw]
  simp only [System.withWorker, List.map_cons, List.map_nil, List.sum_cons, List.sum_nil]
  omega

/-- The only worker can go on when it is between two tasks, unless it waits for one. -/
theorem exists_workOn {w : Worker τ ρ} (hw : s.workers = [w]) (hidle : ∀ t, w ≠ .working t)
    (hstays : w.isLeaving = false)
    (hreceiving : w = .receiving → s.queue = [] → s.producer.isOpen = false) :
    ∃ next w', p.workOn s 0 w = some next ∧ next.workers = [w'] ∧ next.left < s.left := by
  have hgoes (w' : Worker τ ρ) (hlt : w'.left < w.left) :
      (s.withWorker 0 w').workers = [w'] ∧ (s.withWorker 0 w').left < s.left := by
    obtain ⟨hset, hleft⟩ := left_withWorker hw w'
    exact ⟨hset, by omega⟩
  cases w with
  | polling | holding t =>
      simp only [workOn]
      refine ⟨_, _, rfl, hgoes _ ?_⟩
      split <;> simp [Worker.left]
  | receiving =>
      cases hqueue : s.queue with
      | nil =>
          simp only [workOn, hqueue, hreceiving rfl hqueue, Bool.false_eq_true, if_false]
          exact ⟨_, _, rfl, hgoes _ (by simp [Worker.left])⟩
      | cons t rest =>
          simp only [workOn, hqueue]
          have htaken : ({ s with queue := rest } : System τ ρ α).left + 12 = s.left := by
            simp only [System.left, hqueue, List.length_cons]
            omega
          obtain ⟨hset, hleft⟩ := left_withWorker (s := { s with queue := rest }) hw (.holding t)
          simp only [Worker.left] at hleft
          exact ⟨_, _, rfl, hset, by omega⟩
  | working t => exact absurd rfl (hidle t)
  | sending r =>
      cases hlistens : s.aggregator.listens with
      | true =>
          simp only [workOn, hlistens, if_true]
          have hsent : ({ s with results := s.results ++ [r] } : System τ ρ α).left =
              s.left + 5 := by
            simp only [System.left, List.length_append, List.length_singleton]
            omega
          obtain ⟨hset, hleft⟩ :=
            left_withWorker (s := { s with results := s.results ++ [r] }) hw .polling
          simp only [Worker.left] at hleft
          exact ⟨_, _, rfl, hset, by omega⟩
      | false =>
          simp only [workOn, hlistens, Bool.false_eq_true, if_false]
          exact ⟨_, _, rfl, hgoes _ (by simp [Worker.left])⟩
  | leaving => cases hstays

end Parties

/-! ### Errands -/

variable {ω τ ρ α : Type} {p : ErrandPlan ω τ ρ α} {s : ErrandSystem ω ρ α}

/-- The only worker takes an action for its errand. -/
theorem step_act {errand : Errand ω ρ} (hw : s.system.workers = [.working errand]) :
    p.step s (.work 0) = some (ErrandPlan.act s 0 errand) := by
  simp [ErrandPlan.step, hw]

/-- The only worker takes a step between two tasks. -/
theorem step_workOn {w : Worker (Errand ω ρ) ρ} (hw : s.system.workers = [w])
    (hidle : ∀ errand, w ≠ .working errand) {next : System (Errand ω ρ) ρ α}
    (h : p.plan.workOn s.system 0 w = some next) :
    p.step s (.work 0) = some { s with system := next } := by
  cases w with
  | working errand => exact absurd rfl (hidle errand)
  | polling | receiving | holding | sending | leaving =>
      simp only [ErrandPlan.step, hw, List.getElem?_cons_zero, Option.bind_some, h, Option.map_some]

/-- An errand that is begun can be done. -/
theorem leadsTo_sending {errand : Errand ω ρ} (hw : s.system.workers = [.working errand]) :
    ∃ r stopRequested store, LeadsTo p.step s
      ⟨{ s.system with workers := [.sending r], stopRequested := stopRequested }, store⟩ := by
  induction errand generalizing s with
  | done r =>
      refine ⟨r, s.system.stopRequested, s.store, .one (.work 0) ((step_act hw).trans ?_)⟩
      simp [ErrandPlan.act, System.withWorker, hw]
  | look next ih =>
      obtain ⟨r, requested, store, hleads⟩ := ih s.system.stopSeen
        (s := ErrandPlan.act s 0 (.look next)) (by simp [ErrandPlan.act, System.withWorker, hw])
      exact ⟨r, requested, store, .more _ (step_act hw) hleads⟩
  | stop next ih =>
      obtain ⟨r, requested, store, hleads⟩ := ih (s := ErrandPlan.act s 0 (.stop next))
        (by simp [ErrandPlan.act, System.withWorker, hw])
      exact ⟨r, requested, store, .more _ (step_act hw) hleads⟩
  | use next write ih =>
      obtain ⟨r, requested, store, hleads⟩ := ih s.store
        (s := ErrandPlan.act s 0 (.use next write))
        (by simp [ErrandPlan.act, System.withWorker, hw])
      exact ⟨r, requested, store, .more _ (step_act hw) hleads⟩

/-- The only worker lets go of what it still holds on its way out. -/
theorem exists_leave {tasks results : Bool} (hw : s.system.workers = [.leaving tasks results])
    (hholds : tasks = true ∨ results = true) :
    ∃ w', w'.left < (Worker.leaving tasks results : Worker (Errand ω ρ) ρ).left ∧
      LeadsTo p.step s { s with system := s.system.withWorker 0 w' } := by
  cases tasks with
  | true =>
      refine ⟨.leaving false results, by simp [Worker.left], .one (.dropTasks 0) ?_⟩
      simp [ErrandPlan.step, step, hw, Worker.dropTasks?]
  | false =>
      obtain rfl := hholds.resolve_left Bool.false_ne_true
      refine ⟨.leaving false false, by simp [Worker.left], .one (.dropResults 0) ?_⟩
      simp [ErrandPlan.step, step, hw, Worker.dropResults?]

/-- The only worker can do something, unless it waits for a task or is gone. -/
theorem exists_serve {w : Worker (Errand ω ρ) ρ} (hw : s.system.workers = [w])
    (hgone : w ≠ .leaving false false)
    (hreceiving : w = .receiving → s.system.queue = [] → s.system.producer.isOpen = false) :
    ∃ s', LeadsTo p.step s s' ∧ (∃ w', s'.system.workers = [w']) ∧
      s'.system.left < s.system.left := by
  cases w with
  | working errand =>
      obtain ⟨r, requested, store, hleads⟩ := leadsTo_sending (p := p) hw
      refine ⟨_, hleads, ⟨_, rfl⟩, ?_⟩
      simp [System.left, hw, Worker.left]
  | leaving tasks results =>
      have hholds : tasks = true ∨ results = true := by
        cases tasks <;> cases results <;> simp at hgone ⊢
      obtain ⟨w', hlt, hleads⟩ := exists_leave (p := p) hw hholds
      obtain ⟨hset, hleft⟩ := left_withWorker hw w'
      exact ⟨_, hleads, ⟨w', hset⟩, show (s.system.withWorker 0 w').left < _ by omega⟩
  | polling | receiving | holding | sending =>
      obtain ⟨next, w', hnext, hset, hleft⟩ := exists_workOn (p := p.plan) hw nofun rfl hreceiving
      exact ⟨_, .one (.work 0) (step_workOn hw nofun hnext), ⟨w', hset⟩, hleft⟩

/-- The producer takes a step. -/
theorem exists_fetch {w : Worker (Errand ω ρ) ρ} (hw : s.system.workers = [w])
    (hfinished : s.system.producer ≠ .finished)
    (hroom : s.system.hasReceiver = true → s.system.queue = []) :
    ∃ s', LeadsTo p.step s s' ∧ (∃ w', s'.system.workers = [w']) ∧
      s'.system.left < s.system.left := by
  have hfits : s.system.hasReceiver = true → s.system.queue.length < p.plan.room := by
    intro hreceiver
    rw [hroom hreceiver, List.length_nil, room]
    omega
  obtain ⟨next, hnext, hworkers, hleft⟩ := exists_produce hfinished hfits
  refine ⟨{ s with system := next }, .one .produce ?_, ⟨w, hworkers.trans hw⟩, hleft⟩
  simp only [ErrandPlan.step, step, hnext, Option.map_some]

/-- **A run with one worker can go on** until it has returned. -/
theorem exists_nearer {w : Worker (Errand ω ρ) ρ} (hw : s.system.workers = [w])
    (hreturned : s.system.aggregator ≠ .returned) :
    ∃ s', LeadsTo p.step s s' ∧ (∃ w', s'.system.workers = [w']) ∧
      s'.system.left < s.system.left := by
  by_cases hwaits : s.system.aggregator = .receiving ∧ s.system.results = [] ∧
      s.system.hasSender = true ∨ s.system.aggregator = .joining ∧ s.system.isDeserted = false
  · -- the aggregator waits for the worker or the producer
    by_cases hgone : w = .leaving false false
    · have hjoins : s.system.aggregator = .joining ∧ s.system.isDeserted = false := by
        refine hwaits.resolve_left fun h => ?_
        have hsenders := h.2.2
        rw [System.hasSender, hw, hgone] at hsenders
        cases hsenders
      refine exists_fetch hw (fun hfinished => ?_) fun hreceiver => ?_
      · have hdeserted := hjoins.2
        rw [System.isDeserted, hfinished, hw, hgone] at hdeserted
        cases hdeserted
      · rw [System.hasReceiver, hjoins.1, hw, hgone] at hreceiver
        cases hreceiver
    · by_cases hstarves : w = .receiving ∧ s.system.queue = [] ∧ s.system.producer.isOpen = true
      · obtain ⟨-, hqueue, hopen⟩ := hstarves
        refine exists_fetch hw (fun hfinished => ?_) fun _ => hqueue
        rw [hfinished] at hopen
        cases hopen
      · refine exists_serve hw hgone fun hat hqueue => ?_
        by_contra hopen
        exact hstarves ⟨hat, hqueue, Bool.eq_true_of_not_eq_false hopen⟩
  · have hreceiving : s.system.aggregator = .receiving → s.system.results = [] →
        s.system.hasSender = false := fun hat hresults =>
      Bool.eq_false_of_not_eq_true fun hsenders => hwaits (.inl ⟨hat, hresults, hsenders⟩)
    have hjoining : s.system.aggregator = .joining → s.system.isDeserted = true := fun hat =>
      Bool.eq_true_of_not_eq_false fun hdeserted => hwaits (.inr ⟨hat, hdeserted⟩)
    obtain ⟨next, hnext, hworkers, hleft⟩ :=
      exists_aggregate (p := p.plan) hreturned hreceiving hjoining
    refine ⟨{ s with system := { next with
      callerStopped := next.callerStopped || p.foldStops s.system } }, .one .aggregate ?_,
      ⟨w, hworkers.trans hw⟩, hleft⟩
    simp only [ErrandPlan.step, hnext, Option.map_some]

end Pipeline

open Pipeline

/-- **Every run with one worker can be brought to its end.** -/
theorem ErrandPlan.exists_returned {ω τ ρ α : Type} (p : ErrandPlan ω τ ρ α)
    {s : ErrandSystem ω ρ α} {w : Worker (Errand ω ρ) ρ} (hw : s.system.workers = [w]) :
    ∃ s', LeadsTo p.step s s' ∧ s'.system.aggregator = .returned := by
  have hends : ∃ s', LeadsTo p.step s s' ∧ (∃ w, s'.system.workers = [w]) ∧
      s'.system.aggregator = .returned :=
    exists_leadsTo_of_decreasing (fun s => s.system.left)
      (fun _ hs hnot => hs.elim fun _ hw => exists_nearer hw hnot) s ⟨w, hw⟩
  obtain ⟨s', hleads, -, hreturned⟩ := hends
  exact ⟨s', hleads, hreturned⟩

end MutationFinite
