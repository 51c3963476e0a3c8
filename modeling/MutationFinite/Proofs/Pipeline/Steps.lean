import MutationFinite.Pipeline.Interleaving
import MutationFinite.Schedule

/-!
# What a step of a pipeline can do

The steps of the system, sorted by what they change.  Most steps only move one party on; the others
hand a task or a result over, note something down, or give something up.

* `Producer.Quits`, `Worker.Advances`, `Worker.Leaves`, `Aggregator.Turns`: the steps of one party
  that leave the queues as they are.
* `Goes`: all steps; `goes_of_step` says that there are no others.
* `follow_induction`: what all steps keep holds after every schedule.
-/

namespace MutationFinite

open Plan

namespace Pipeline

variable {τ ρ α : Type} {p : Plan τ ρ α} {s s' : System τ ρ α} {i : Nat}

/-- Why the producer gives up its end of the queue. -/
inductive Producer.Quits (s : System τ ρ α) : Producer τ → Prop where
  | exhausted (h : s.unsent = []) : Quits s .fetching
  | stopped (t : τ) (h : s.stopSeen = true) : Quits s (.polling t)
  | refused (t : τ) (h : s.hasReceiver = false) : Quits s (.sending t)

/-- A worker goes on, with what it holds. -/
inductive Worker.Advances (stopSeen : Bool) (work : τ → ρ) : Worker τ ρ → Worker τ ρ → Prop where
  | wait (h : stopSeen = false) : Advances stopSeen work .polling .receiving
  | timeOut : Advances stopSeen work .receiving .polling
  | begin (t : τ) (h : stopSeen = false) : Advances stopSeen work (.holding t) (.working t)
  | finish (t : τ) : Advances stopSeen work (.working t) (.sending (work t))
  | dropTasks (results : Bool) :
      Advances stopSeen work (.leaving true results) (.leaving false results)
  | dropResults (tasks : Bool) :
      Advances stopSeen work (.leaving tasks true) (.leaving tasks false)

/-- Why a worker leaves its loop, with whatever it holds. -/
inductive Worker.Leaves (s : System τ ρ α) : Worker τ ρ → Prop where
  | stopped (h : s.stopSeen = true) : Leaves s .polling
  | giveUp (t : τ) (h : s.stopSeen = true) : Leaves s (.holding t)
  | drained (hqueue : s.queue = []) (hclosed : s.producer.isOpen = false) : Leaves s .receiving
  | unheard (r : ρ) (h : s.aggregator.listens = false) : Leaves s (.sending r)

/-- The aggregator goes on in its loop. -/
inductive Aggregator.Turns (callerStopped : Bool) : Aggregator → Aggregator → Prop where
  | start : Turns callerStopped .starting .polling
  | look (h : callerStopped = false) : Turns callerStopped .polling .noting
  | wait : Turns callerStopped .noting .receiving
  | timeOut : Turns callerStopped .receiving .polling

/-- A step of the system. -/
inductive Goes (p : Plan τ ρ α) (s : System τ ρ α) : System τ ρ α → Prop where
  | stopCaller : Goes p s { s with callerStopped := true }
  | fetch {t : τ} {rest : List τ} (hat : s.producer = .fetching) (hnext : s.unsent = t :: rest) :
      Goes p s { s with producer := .polling t, unsent := rest }
  | offer {t : τ} (hat : s.producer = .polling t) : Goes p s { s with producer := .sending t }
  | retry {t : τ} (hat : s.producer = .sending t) : Goes p s { s with producer := .polling t }
  | enqueue {t : τ} (hat : s.producer = .sending t) (hroom : s.queue.length < p.room) :
      Goes p s { s with producer := .counting, queue := s.queue ++ [t], sent := s.sent ++ [t] }
  | count (hat : s.producer = .counting) :
      Goes p s { s with producer := .fetching, submitted := s.submitted + 1 }
  | quit {a : Producer τ} (hat : s.producer = a) (hquits : Producer.Quits s a) :
      Goes p s { s with producer := .closing }
  | close (hat : s.producer = .closing) : Goes p s { s with producer := .signalling }
  | signal (hat : s.producer = .signalling) :
      Goes p s { s with producer := .finished, producerDone := true }
  | advance {before after : List (Worker τ ρ)} {w w' : Worker τ ρ}
      (hat : s.workers = before ++ w :: after)
      (hadvances : Worker.Advances s.stopSeen p.work w w') :
      Goes p s { s with workers := before ++ w' :: after }
  | receive {before after : List (Worker τ ρ)} {t : τ} {rest : List τ}
      (hat : s.workers = before ++ .receiving :: after) (hqueue : s.queue = t :: rest) :
      Goes p s { s with queue := rest, workers := before ++ .holding t :: after }
  | deliver {before after : List (Worker τ ρ)} {r : ρ}
      (hat : s.workers = before ++ .sending r :: after) (hlistens : s.aggregator.listens = true) :
      Goes p s { s with results := s.results ++ [r], workers := before ++ .polling :: after }
  | leave {before after : List (Worker τ ρ)} {w : Worker τ ρ}
      (hat : s.workers = before ++ w :: after) (hleaves : Worker.Leaves s w) :
      Goes p s { s with workers := before ++ .leaving true true :: after }
  | turn {a b : Aggregator} (hat : s.aggregator = a)
      (hturns : Aggregator.Turns s.callerStopped a b) :
      Goes p s { s with aggregator := b }
  | note (hat : s.aggregator = .noting) (hphase : s.phase = .running) :
      Goes p s { s with phase := .draining, phases := s.phases ++ [.draining],
                        aggregator := .receiving }
  | fold {r : ρ} {rest : List ρ} {value : α} (hat : s.aggregator = .receiving)
      (hresults : s.results = r :: rest) (hfold : p.fold s.value r = (.proceed, value)) :
      Goes p s { s with results := rest, completed := s.completed + 1, value,
                        folded := s.folded ++ [r], aggregator := .polling }
  | decide {r : ρ} {rest : List ρ} {value : α} (hat : s.aggregator = .receiving)
      (hresults : s.results = r :: rest) (hfold : p.fold s.value r = (.stop, value)) :
      Goes p s { s with results := rest, completed := s.completed + 1, value,
                        folded := s.folded ++ [r], stoppedEarly := true, aggregator := .stopping }
  | cancel (hat : s.aggregator = .polling) (hstopped : s.callerStopped = true) :
      Goes p s { s with cancelled := true, aggregator := .stopping }
  | drain (hat : s.aggregator = .receiving) (hresults : s.results = [])
      (hsenders : s.hasSender = false) :
      Goes p s { s with phases := if s.phase = .running then s.phases ++ [.draining] else s.phases,
                        aggregator := .stopping }
  | requestStop (hat : s.aggregator = .stopping) :
      Goes p s { s with stopRequested := true, aggregator := .hangingUp }
  | hangUp (hat : s.aggregator = .hangingUp) : Goes p s { s with aggregator := .joining }
  | join (hat : s.aggregator = .joining) (hdeserted : s.isDeserted = true) :
      Goes p s { s with phases := s.phases ++ [.done], aggregator := .returned }

/-! ### There are no other steps -/

theorem goes_of_produce (h : p.produce s = some s') : Goes p s s' := by
  unfold produce at h
  split at h
  · next hat =>
    split at h
    · next hnone =>
      cases h
      exact .quit hat (.exhausted hnone)
    · next t rest hnext =>
      cases h
      exact .fetch hat hnext
  · next t hat =>
    cases h
    cases hstop : s.stopSeen with
    | true => exact .quit hat (.stopped t hstop)
    | false => exact .offer hat
  · next t hat =>
    cases hreceiver : s.hasReceiver with
    | false =>
        simp only [hreceiver, Bool.not_false, if_true] at h
        cases h
        exact .quit hat (.refused t hreceiver)
    | true =>
        simp only [hreceiver, Bool.not_true, Bool.false_eq_true, if_false] at h
        split at h
        · next hroom =>
          cases h
          exact .enqueue hat hroom
        · cases h
  · next hat =>
    cases h
    exact .count hat
  · next hat =>
    cases h
    exact .close hat
  · next hat =>
    cases h
    exact .signal hat
  · cases h

/-- A worker has its place among the others. -/
theorem exists_split {workers : List (Worker τ ρ)} {w : Worker τ ρ} (h : workers[i]? = some w) :
    ∃ before after, workers = before ++ w :: after ∧
      ∀ w', workers.set i w' = before ++ w' :: after := by
  obtain ⟨hi, rfl⟩ := List.getElem?_eq_some_iff.mp h
  refine ⟨workers.take i, workers.drop (i + 1), ?_, fun w' => ?_⟩
  · rw [List.getElem_cons_drop, List.take_append_drop]
  · rw [List.set_eq_take_append_cons_drop, if_pos hi]

theorem goes_of_advances {w w' : Worker τ ρ} (hw : s.workers[i]? = some w)
    (hadvances : Worker.Advances s.stopSeen p.work w w') : Goes p s (s.withWorker i w') := by
  obtain ⟨before, after, hat, hset⟩ := exists_split hw
  rw [System.withWorker, hset]
  exact .advance hat hadvances

/-- A move that concerns one worker alone. -/
theorem goes_of_local {f : Worker τ ρ → Option (Worker τ ρ)}
    (hf : ∀ w w', f w = some w' → Worker.Advances s.stopSeen p.work w w')
    (h : (s.workers[i]?.bind f).map (s.withWorker i) = some s') : Goes p s s' := by
  obtain ⟨w', hnext, rfl⟩ := Option.map_eq_some_iff.mp h
  obtain ⟨w, hw, hnext⟩ := Option.bind_eq_some_iff.mp hnext
  exact goes_of_advances hw (hf w w' hnext)

theorem goes_of_leaves {w : Worker τ ρ} (hw : s.workers[i]? = some w)
    (hleaves : Worker.Leaves s w) : Goes p s (s.withWorker i (.leaving true true)) := by
  obtain ⟨before, after, hat, hset⟩ := exists_split hw
  rw [System.withWorker, hset]
  exact .leave hat hleaves

theorem goes_of_workOn {w : Worker τ ρ} (hw : s.workers[i]? = some w)
    (h : p.workOn s i w = some s') : Goes p s s' := by
  cases w with
  | polling =>
      cases h
      cases hstop : s.stopSeen with
      | true => exact goes_of_leaves hw (.stopped hstop)
      | false => exact goes_of_advances hw (.wait hstop)
  | receiving =>
      simp only [workOn] at h
      split at h
      · next t rest hqueue =>
        cases h
        obtain ⟨before, after, hat, hset⟩ := exists_split hw
        simp only [System.withWorker, hset]
        exact .receive hat hqueue
      · next hqueue =>
        cases hopen : s.producer.isOpen with
        | true =>
            rw [hopen] at h
            cases h
        | false =>
            rw [hopen] at h
            cases h
            exact goes_of_leaves hw (.drained hqueue hopen)
  | holding t =>
      cases h
      cases hstop : s.stopSeen with
      | true => exact goes_of_leaves hw (.giveUp t hstop)
      | false => exact goes_of_advances hw (.begin t hstop)
  | working t =>
      cases h
      exact goes_of_advances hw (.finish t)
  | sending r =>
      simp only [workOn] at h
      cases hlistens : s.aggregator.listens with
      | true =>
          rw [hlistens] at h
          cases h
          obtain ⟨before, after, hat, hset⟩ := exists_split hw
          simp only [System.withWorker, hset]
          exact .deliver hat hlistens
      | false =>
          rw [hlistens] at h
          cases h
          exact goes_of_leaves hw (.unheard r hlistens)
  | leaving tasks results => cases h

theorem goes_of_aggregate (h : p.aggregate s = some s') : Goes p s s' := by
  unfold aggregate at h
  split at h
  · next hat =>
    cases h
    exact .turn hat .start
  · next hat =>
    split at h
    · next hstopped =>
      cases h
      exact .cancel hat hstopped
    · next hquiet =>
      cases h
      exact .turn hat (.look (Bool.eq_false_iff.mpr hquiet))
  · next hat =>
    split at h
    · next hdone =>
      cases h
      exact .note hat hdone.1
    · cases h
      exact .turn hat .wait
  · next hat =>
    split at h
    · next r rest hresults =>
      rcases hfold : p.fold s.value r with ⟨flow, value⟩
      rw [hfold] at h
      cases flow with
      | stop =>
          cases h
          exact .decide hat hresults hfold
      | proceed =>
          cases h
          exact .fold hat hresults hfold
    · next hresults =>
      cases hsenders : s.hasSender with
      | true =>
          rw [hsenders] at h
          cases h
      | false =>
          have hdrain := Goes.drain (p := p) hat hresults hsenders
          rw [hsenders] at h
          split at h
          · next hphase => cases h
          · next hphase =>
            split at h
            · next hphase =>
              cases h
              rwa [if_pos hphase] at hdrain
            · next hphase =>
              cases h
              rwa [if_neg hphase] at hdrain
  · next hat =>
    cases h
    exact .requestStop hat
  · next hat =>
    cases h
    exact .hangUp hat
  · next hat =>
    split at h
    · next hdeserted =>
      cases h
      exact .join hat hdeserted
    · cases h
  · cases h

/-- **There are no other steps.** -/
theorem goes_of_step {move : Move} (h : p.step s move = some s') : Goes p s s' := by
  cases move with
  | stopCaller =>
      cases h
      exact .stopCaller
  | produce => exact goes_of_produce h
  | produceTimeOut =>
      simp only [step] at h
      split at h
      · next t hat =>
        cases h
        exact .retry hat
      · cases h
  | work i =>
      obtain ⟨w, hw, h⟩ := Option.bind_eq_some_iff.mp h
      exact goes_of_workOn hw h
  | workTimeOut i =>
      refine goes_of_local (fun w w' hw => ?_) h
      cases w <;> cases hw
      exact .timeOut
  | dropTasks i =>
      refine goes_of_local (fun w w' hw => ?_) h
      rcases w with _ | _ | _ | _ | _ | ⟨_ | _, results⟩ <;> cases hw
      exact .dropTasks results
  | dropResults i =>
      refine goes_of_local (fun w w' hw => ?_) h
      rcases w with _ | _ | _ | _ | _ | ⟨tasks, _ | _⟩ <;> cases hw
      exact .dropResults tasks
  | aggregate => exact goes_of_aggregate h
  | aggregateTimeOut =>
      simp only [step] at h
      split at h
      · next hat =>
        cases h
        exact .turn hat .timeOut
      · cases h

/-- **What all steps keep holds after every schedule.** -/
theorem follow_induction {P : System τ ρ α → Prop}
    (hstep : ∀ s s', Goes p s s' → P s → P s') {schedule : List Move} (hs : P s)
    (h : followSchedule p.step schedule s = some s') : P s' :=
  followSchedule_induction (fun s _ s' hmove => hstep s s' (goes_of_step hmove)) hs h

end Pipeline

end MutationFinite
