import MutationFinite.Proofs.Pipeline.Errands
import MutationFinite.Proofs.Pipeline.Interleaving
import MutationFinite.Schedule

/-!
# One worker serves the tasks in order

With one worker the queues hand everything on in order, so what was folded, what waits, and what the
worker will still deliver are together the results of the tasks up to the first one that stops the
worker.  A fold that stops the token of the caller is the last one.

* `serve`: what one worker delivers when nobody else stops it.
* `Serving`: what was folded, what waits and what will come is what one worker delivers.
* `Halting`: the token of the caller is stopped by the last fold, or was from the start.
* `Steady`: both; each step keeps them, so that they hold after every schedule.
-/

namespace MutationFinite

namespace Pipeline

open Plan

variable {ω τ ρ α : Type} {p : ErrandPlan ω τ ρ α} {s s' : ErrandSystem ω ρ α}

/-! ### What one worker delivers -/

/-- What comes of errands, one after another, up to the first that leaves the token stopped. -/
def serve : (stopped : Bool) → ω → List (Errand ω ρ) → List (Errand.Outcome ω ρ)
  | true, _, _ | false, _, [] => []
  | false, store, errand :: rest =>
    errand.run false store ::
      serve (errand.run false store).stopped (errand.run false store).store rest

@[simp] theorem serve_stopped (store : ω) (errands : List (Errand ω ρ)) :
    serve true store errands = [] := by
  cases errands <;> rfl

@[simp] theorem serve_nil (stopped : Bool) (store : ω) :
    serve stopped store ([] : List (Errand ω ρ)) = [] := by
  cases stopped <;> rfl

/-- A token that is stopped stays stopped. -/
theorem Errand.stopped_run (errand : Errand ω ρ) (store : ω) :
    (errand.run true store).stopped = true := by
  induction errand generalizing store with
  | done => rfl
  | look next ih => exact ih true store
  | stop next ih => exact ih store
  | use next write ih => exact ih store (write store)

/-- The results that a worker at `w` will deliver, with some errands waiting for it. -/
def Worker.upcoming (stopped : Bool) (store : ω) (waiting : List (Errand ω ρ)) :
    Worker (Errand ω ρ) ρ → List ρ
  | polling | receiving => (serve stopped store waiting).map Errand.Outcome.result
  | holding errand => (serve stopped store (errand :: waiting)).map Errand.Outcome.result
  | working errand =>
    (errand.run stopped store).result ::
      (serve (errand.run stopped store).stopped (errand.run stopped store).store waiting).map
        Errand.Outcome.result
  | sending r => r :: (serve stopped store waiting).map Errand.Outcome.result
  | leaving _ _ => []

/-- Nothing that waits is taken once the token is stopped. -/
theorem Worker.upcoming_of_stopped (w : Worker (Errand ω ρ) ρ) (store : ω)
    (waiting waiting' : List (Errand ω ρ)) :
    w.upcoming true store waiting = w.upcoming true store waiting' := by
  cases w with
  | working errand => simp only [upcoming, errand.stopped_run, serve_stopped]
  | polling | receiving | holding | sending | leaving => simp only [upcoming, serve_stopped]

/-- The errands in the queue, and those that the producer will put into it. -/
def System.waiting (s : System (Errand ω ρ) ρ α) : List (Errand ω ρ) :=
  s.queue ++ (s.producer.pending? s.unsent).getD []

theorem System.waiting_eq (s : System (Errand ω ρ) ρ α) {errand : Errand ω ρ}
    {rest : List (Errand ω ρ)} (h : s.queue = errand :: rest) :
    s.waiting = errand :: (rest ++ (s.producer.pending? s.unsent).getD []) := by
  rw [waiting, h]
  rfl

/-- The outcomes of the tasks, up to the first that stops the worker. -/
def served (p : ErrandPlan ω τ ρ α) : List (Errand.Outcome ω ρ) :=
  serve false p.store (p.tasks.map p.work)

/-- The only worker is at `w`, and what was folded, what waits to be folded, and what the worker
will deliver is what one worker delivers. -/
structure Serving (p : ErrandPlan ω τ ρ α) (s : ErrandSystem ω ρ α)
    (w : Worker (Errand ω ρ) ρ) : Prop where
  workers : s.system.workers = [w]
  goods : s.system.folded ++ s.system.results ++
      w.upcoming s.system.stopSeen s.store s.system.waiting =
    (served p).map Errand.Outcome.result

namespace Serving

variable {w : Worker (Errand ω ρ) ρ} {next : System (Errand ω ρ) ρ α}

theorem initial (hworkers : p.config.workers ≤ 1) :
    Serving p (p.initial false) .polling where
  workers := by
    show List.replicate (max p.config.workers 1) _ = _
    rw [max_eq_right hworkers]
    rfl
  goods := rfl

/-- A step of the producer or of the aggregator that keeps what waits. -/
theorem of_eq (h : Serving p s w) (hworkers : next.workers = s.system.workers)
    (hfolded : next.folded = s.system.folded) (hresults : next.results = s.system.results)
    (hseen : next.stopSeen = s.system.stopSeen)
    (hwaiting : s.system.stopSeen = false → w.isLeaving = false →
      next.waiting = s.system.waiting) :
    Serving p { s with system := next } w where
  workers := hworkers.trans h.workers
  goods := by
    rw [← h.goods]
    show next.folded ++ next.results ++ w.upcoming next.stopSeen s.store next.waiting = _
    rw [hfolded, hresults, hseen]
    congr 1
    -- what waits does not count for a worker that has left or will take nothing more
    cases hstop : s.system.stopSeen with
    | true => exact w.upcoming_of_stopped _ _ _
    | false =>
        cases hleaving : w.isLeaving with
        | true => cases w <;> first | rfl | cases hleaving
        | false => rw [hwaiting hstop hleaving]

/-- The only worker is the one that takes a step. -/
theorem split (h : Serving p s w) {before after : List (Worker (Errand ω ρ) ρ)}
    {v : Worker (Errand ω ρ) ρ} (hat : s.system.workers = before ++ v :: after) :
    before = [] ∧ after = [] ∧ v = w := by
  have hsplit := hat.symm.trans h.workers
  obtain ⟨rfl, hrest⟩ | ⟨rest, rfl, hnil⟩ := List.append_eq_cons_iff.mp hsplit
  · cases hrest
    exact ⟨rfl, rfl, rfl⟩
  · cases (List.append_eq_nil_iff.mp hnil.symm).2

/-- The only worker goes on. -/
theorem goes_worker (h : Serving p s w) {before after : List (Worker (Errand ω ρ) ρ)}
    {v v' : Worker (Errand ω ρ) ρ} (hat : s.system.workers = before ++ v :: after)
    (hworkers : next.workers = before ++ v' :: after)
    (hgoods : next.folded ++ next.results ++
        v'.upcoming next.stopSeen s.store next.waiting =
      s.system.folded ++ s.system.results ++
        v.upcoming s.system.stopSeen s.store s.system.waiting) :
    Serving p { s with system := next } v' := by
  obtain ⟨rfl, rfl, rfl⟩ := h.split hat
  exact ⟨hworkers, hgoods.trans h.goods⟩

theorem goes (h : Serving p s w) (hloop : s.system.aggregator.inLoop = true)
    (hquiet : s.system.callerStopped = false) (hgoes : Goes p.plan s.system next)
    (hcaller : SameCaller s.system next) (hworking : SameWorking s.system next) :
    ∃ w', Serving p { s with system := next } w' := by
  cases hgoes with
  | stopCaller => cases hcaller.callerStopped.trans hquiet
  | fetch hat hnext =>
      refine ⟨w, h.of_eq rfl rfl rfl rfl fun _ _ => ?_⟩
      simp [System.waiting, hat, hnext, Producer.pending?]
  | offer hat | retry hat | count hat | close hat | signal hat =>
      refine ⟨w, h.of_eq rfl rfl rfl rfl fun _ _ => ?_⟩
      simp [System.waiting, hat, Producer.pending?]
  | enqueue hat =>
      refine ⟨w, h.of_eq rfl rfl rfl rfl fun _ _ => ?_⟩
      simp [System.waiting, hat, Producer.pending?]
  | quit hat hquits =>
      refine ⟨w, h.of_eq rfl rfl rfl rfl fun hstop hleaving => ?_⟩
      cases hquits with
      | exhausted hnone => simp [System.waiting, hat, hnone, Producer.pending?]
      | stopped t hseen => cases hstop.symm.trans hseen
      | refused t hrefused =>
          -- a task is refused only after the worker has left
          simp only [System.hasReceiver, h.workers, Bool.or_eq_false_iff, List.any_cons] at hrefused
          cases (Worker.isLeaving_of_not_holdsTasks hrefused.2.1).symm.trans hleaving
  | advance hat hadvances =>
      refine ⟨_, h.goes_worker hat rfl ?_⟩
      cases hadvances with
      | wait | timeOut | dropTasks | dropResults => rfl
      | begin t hstop =>
          change _ ++ Worker.upcoming s.system.stopSeen s.store s.system.waiting (.working t) = _
          rw [hstop]
          rfl
      | finish t =>
          -- a worker that works takes its actions one after another
          obtain ⟨rfl, rfl, rfl⟩ := h.split hat
          have hstays := hworking t (hat ▸ List.mem_singleton_self _)
          cases List.mem_singleton.mp hstays
  | @receive before after t rest hat hqueue =>
      refine ⟨_, h.goes_worker hat rfl ?_⟩
      rw [s.system.waiting_eq hqueue]
      rfl
  | @deliver before after r hat =>
      refine ⟨_, h.goes_worker hat rfl ?_⟩
      show s.system.folded ++ (s.system.results ++ [r]) ++
        (serve s.system.stopSeen s.store s.system.waiting).map Errand.Outcome.result = _
      simp [Worker.upcoming]
  | leave hat hleaves =>
      refine ⟨_, h.goes_worker hat rfl ?_⟩
      congr 1
      cases hleaves with
      | stopped hseen | giveUp t hseen => simp [Worker.upcoming, hseen]
      | drained hqueue hclosed =>
          have hnone : s.system.producer.pending? s.system.unsent = none :=
            Producer.pending?_eq_none_of_closed hclosed
          simp [Worker.upcoming, System.waiting, hqueue, hnone]
      | unheard r hdeaf =>
          -- the aggregator listens as long as it is in its loop
          have hstopped := Aggregator.hasStopped_of_deaf hdeaf
          cases hstopped.symm.trans (Aggregator.hasStopped_of_inLoop hloop)
  | turn | note | cancel | drain => exact ⟨w, h.of_eq rfl rfl rfl rfl fun _ _ => rfl⟩
  | fold | decide => exact absurd hcaller.folded (by simp)
  | requestStop hat | hangUp hat | join hat =>
      rw [hat] at hloop
      cases hloop

/-- The only worker takes an action for its errand. -/
theorem act (h : Serving p s w) {i : Nat} {errand : Errand ω ρ}
    (hat : s.system.workers[i]? = some (.working errand)) :
    ∃ w', Serving p (ErrandPlan.act s i errand) w' := by
  obtain ⟨before, after, hsplit, hset⟩ := exists_split hat
  obtain ⟨rfl, rfl, rfl⟩ := h.split hsplit
  have hgoods := h.goods
  cases errand with
  | done | look | stop | use => exact ⟨_, hset _, hgoods⟩

/-- A result is folded, and the token of the caller is left alone. -/
theorem withFolded (h : Serving p s w) {r : ρ} {rest : List ρ} (value : α)
    (hresults : s.system.results = r :: rest) (hstops : p.stopsCaller s.system.value r = false) :
    Serving p (s.withFolded p r rest value) w where
  workers := h.workers
  goods := by
    have hcaller : (s.withFolded p r rest value).system.callerStopped = s.system.callerStopped := by
      show (_ || _) = _
      rw [hstops, Bool.or_false]
    have hseen : (s.withFolded p r rest value).system.stopSeen = s.system.stopSeen := by
      rw [System.stopSeen, hcaller]
      rfl
    rw [← h.goods, hseen, hresults]
    show s.system.folded ++ [r] ++ rest ++ _ = _
    rw [List.append_assoc s.system.folded]
    rfl

/-- What was folded comes first, and then what waits. -/
theorem folded_append_prefix (h : Serving p s w) {r : ρ} {rest : List ρ}
    (hresults : s.system.results = r :: rest) :
    s.system.folded ++ [r] <+: (served p).map Errand.Outcome.result := by
  refine ⟨rest ++ w.upcoming s.system.stopSeen s.store s.system.waiting, ?_⟩
  rw [← h.goods, hresults]
  simp

/-- When nothing waits and the worker is gone, all was folded. -/
theorem folded_eq (h : Serving p s w) (hresults : s.system.results = [])
    (hsenders : s.system.hasSender = false) :
    s.system.folded = (served p).map Errand.Outcome.result := by
  rw [System.hasSender, h.workers, List.any_cons, Bool.or_eq_false_iff] at hsenders
  have hleaving := Worker.isLeaving_of_not_holdsResults hsenders.1
  have hgoods := h.goods
  cases w with
  | leaving => rwa [hresults, Worker.upcoming, List.append_nil, List.append_nil] at hgoods
  | polling | receiving | holding | working | sending => cases hleaving

end Serving

/-! ### The token of the caller -/

/-- The token of the caller was stopped from the start and nothing is folded, or the last fold has
stopped it; then the aggregator leaves its loop before it folds anything else. -/
structure Halting (p : ErrandPlan ω τ ρ α) (callerStopped : Bool)
    (s : System (Errand ω ρ) ρ α) : Prop where
  last : ∀ before r after, s.folded = before ++ r :: after →
    p.stopsCaller (p.plan.valueAfter before) r = true → after = [] ∧ s.callerStopped = true
  caller : s.callerStopped = true → (callerStopped = true ∧ s.folded = []) ∨
    ∃ before r, s.folded = before ++ [r] ∧ p.stopsCaller (p.plan.valueAfter before) r = true
  start : callerStopped = true → s.callerStopped = true ∧ s.folded = []
  waiting : s.callerStopped = true → s.aggregator ≠ .noting ∧ s.aggregator ≠ .receiving
  looping : s.aggregator.inLoop = true → s.cancelled = false
  cancelled : s.cancelled = true → s.callerStopped = true ∧ s.stoppedEarly = false
  settled : s.callerStopped = true →
    s.aggregator.inLoop = true ∨ s.cancelled = true ∨ s.stoppedEarly = true

namespace Halting

variable {callerStopped : Bool} {t t' : System (Errand ω ρ) ρ α}

theorem initial (p : ErrandPlan ω τ ρ α) (callerStopped : Bool) :
    Halting p callerStopped (p.plan.initial callerStopped) where
  last before r after h := absurd h.symm (by simp [Plan.initial])
  caller h := .inl ⟨h, rfl⟩
  start h := ⟨h, rfl⟩
  waiting _ := ⟨nofun, nofun⟩
  looping _ := rfl
  cancelled h := by cases h
  settled _ := .inl rfl

/-- The aggregator waits for a result only while the token of the caller is not stopped. -/
theorem quiet (h : Halting p callerStopped t) (hat : t.aggregator = .receiving) :
    t.callerStopped = false := by
  by_contra hstopped
  exact (h.waiting (Bool.eq_true_of_not_eq_false hstopped)).2 hat

theorem goes (h : Halting p callerStopped t) (hfolding : Folding p.plan t)
    (hgoes : Goes p.plan t t') (hcaller : SameCaller t t') : Halting p callerStopped t' := by
  cases hgoes with
  | stopCaller =>
      have hstopped : t.callerStopped = true := hcaller.callerStopped.symm
      exact ⟨fun before r after hsplit hstops => ⟨(h.last before r after hsplit hstops).1, rfl⟩,
        fun _ => h.caller hstopped, fun hstart => ⟨rfl, (h.start hstart).2⟩,
        fun _ => h.waiting hstopped, h.looping,
        fun hcancelled => ⟨rfl, (h.cancelled hcancelled).2⟩, fun _ => h.settled hstopped⟩
  | turn hat hturns =>
      obtain ⟨hloop, hloop'⟩ := hturns.inLoop
      refine ⟨h.last, h.caller, h.start, fun hstopped => ?_, fun _ => h.looping (hat ▸ hloop),
        h.cancelled, fun _ => .inl hloop'⟩
      cases hturns with
      | start | timeOut => exact ⟨nofun, nofun⟩
      | look hquiet => cases hquiet.symm.trans hstopped
      | wait => exact absurd hat (h.waiting hstopped).1
  | note hat =>
      exact ⟨h.last, h.caller, h.start, fun hstopped => absurd hat (h.waiting hstopped).1,
        fun _ => h.looping (by rw [hat]; rfl), h.cancelled, fun _ => .inl rfl⟩
  | fold | decide => exact absurd hcaller.folded (by simp)
  | cancel hat hstopped =>
      have hearly := hfolding.stoppedEarly_of_inLoop (by rw [hat]; rfl)
      exact ⟨h.last, h.caller, h.start, fun _ => ⟨nofun, nofun⟩, nofun,
        fun _ => ⟨hstopped, hearly⟩, fun _ => .inr (.inl rfl)⟩
  | drain hat =>
      exact ⟨h.last, h.caller, h.start, fun _ => ⟨nofun, nofun⟩, nofun, h.cancelled,
        fun hstopped => absurd hat (h.waiting hstopped).2⟩
  | requestStop hat | hangUp hat | join hat =>
      refine ⟨h.last, h.caller, h.start, fun _ => ⟨nofun, nofun⟩, nofun, h.cancelled,
        fun hstopped => .inr ((h.settled hstopped).resolve_left ?_)⟩
      rw [hat]
      nofun
  | fetch | offer | retry | enqueue | count | quit | close | signal | advance | receive | deliver
  | leave => exact ⟨h.last, h.caller, h.start, h.waiting, h.looping, h.cancelled, h.settled⟩

/-- The next result is folded. -/
theorem withFolded (h : Halting p callerStopped s.system) (hfolding : Folding p.plan s.system)
    (hat : s.system.aggregator = .receiving) (r : ρ) (rest : List ρ) (value : α) {a : Aggregator}
    {early : Bool} (hafter : a = .polling ∨ a = .stopping ∧ early = true) :
    Halting p callerStopped { (s.withFolded p r rest value).system with
      stoppedEarly := early, aggregator := a } where
  last before r' after hsplit hstops := by
    rcases append_singleton_eq_split hsplit with ⟨rfl, rfl, rfl⟩ | ⟨rest', hfolded, -⟩
    · rw [← hfolding.value] at hstops
      exact ⟨rfl, Bool.or_eq_true_iff.mpr (.inr hstops)⟩
    · cases (h.quiet hat).symm.trans (h.last before r' rest' hfolded hstops).2
  caller hstopped := by
    refine .inr ⟨s.system.folded, r, rfl, ?_⟩
    rw [← hfolding.value]
    exact (Bool.or_eq_true_iff.mp hstopped).resolve_left (by rw [h.quiet hat]; nofun)
  start hstart := by cases (h.quiet hat).symm.trans (h.start hstart).1
  waiting _ := by
    rcases hafter with rfl | ⟨rfl, -⟩ <;> exact ⟨nofun, nofun⟩
  looping _ := h.looping (by rw [hat]; rfl)
  cancelled hcancelled := by cases (h.looping (by rw [hat]; rfl)).symm.trans hcancelled
  settled _ := by
    rcases hafter with rfl | ⟨-, rfl⟩
    · exact .inl rfl
    · exact .inr (.inr rfl)

end Halting

/-! ### Runs -/

/-- The aggregator's loop has ended for want of senders, or ends so now. -/
theorem Goes.hasDrained {q : Plan (Errand ω ρ) ρ α} {t t' : System (Errand ω ρ) ρ α}
    (h : Goes q t t') (hdrained : t'.HasDrained) :
    t.HasDrained ∨ t.aggregator = .receiving ∧ t.results = [] ∧ t.hasSender = false := by
  obtain ⟨hout, hcancelled, hearly⟩ := hdrained
  cases h with
  | turn hat hturns => cases hout.symm.trans hturns.inLoop.2
  | note | fold => cases hout
  | decide => cases hearly
  | cancel => cases hcancelled
  | drain hat hresults hsenders => exact .inr ⟨hat, hresults, hsenders⟩
  | requestStop hat | hangUp hat | join hat =>
      exact .inl ⟨by rw [hat]; rfl, hcancelled, hearly⟩
  | stopCaller | fetch | offer | retry | enqueue | count | quit | close | signal | advance
  | receive | deliver | leave => exact .inl ⟨hout, hcancelled, hearly⟩

/-- The aggregator does not come back to its loop. -/
theorem Goes.inLoop {q : Plan (Errand ω ρ) ρ α} {t t' : System (Errand ω ρ) ρ α}
    (h : Goes q t t') (hloop : t'.aggregator.inLoop = true) : t.aggregator.inLoop = true := by
  cases h with
  | turn hat hturns => rw [hat]; exact hturns.inLoop.1
  | note hat | fold hat => rw [hat]; rfl
  | decide | cancel | drain | requestStop | hangUp | join => cases hloop
  | stopCaller | fetch | offer | retry | enqueue | count | quit | close | signal | advance
  | receive | deliver | leave => exact hloop

/-- Nobody is hired or dismissed. -/
theorem Goes.length_workers {q : Plan (Errand ω ρ) ρ α} {t t' : System (Errand ω ρ) ρ α}
    (h : Goes q t t') : t'.workers.length = t.workers.length := by
  cases h with
  | advance hat | receive hat | deliver hat | leave hat => simp [hat]
  | stopCaller | fetch | offer | retry | enqueue | count | quit | close | signal | turn | note
  | fold | decide | cancel | drain | requestStop | hangUp | join => rfl

/-- An action for an errand concerns the worker, the token of the workers, and the store. -/
theorem exists_act_eq (s : ErrandSystem ω ρ α) (i : Nat) (errand : Errand ω ρ) :
    ∃ workers stopRequested store, workers.length = s.system.workers.length ∧
      ErrandPlan.act s i errand =
        ⟨{ s.system with workers := workers, stopRequested := stopRequested }, store⟩ := by
  cases errand <;> exact ⟨_, _, _, List.length_set, rfl⟩

/-- What holds after each step of a run with one worker. -/
structure Steady (p : ErrandPlan ω τ ρ α) (callerStopped : Bool) (s : ErrandSystem ω ρ α) :
    Prop where
  staffed : s.system.workers.length = 1
  folding : Folding p.plan s.system
  halting : Halting p callerStopped s.system
  serving : s.system.aggregator.inLoop = true → s.system.callerStopped = false →
    ∃ w, Serving p s w
  folded : s.system.folded <+: (served p).map Errand.Outcome.result
  drained : s.system.HasDrained → s.system.callerStopped = false →
    s.system.folded = (served p).map Errand.Outcome.result

namespace Steady

variable {callerStopped : Bool}

theorem initial (hworkers : p.config.workers ≤ 1) (callerStopped : Bool) :
    Steady p callerStopped (p.initial callerStopped) where
  staffed := List.length_replicate.trans (max_eq_right hworkers)
  folding := .initial p.plan callerStopped
  halting := .initial p callerStopped
  serving _ hquiet := by
    cases (show callerStopped = false from hquiet)
    exact ⟨_, .initial hworkers⟩
  folded := List.nil_prefix
  drained h := by cases h.1

theorem takes (h : Steady p callerStopped s) (htakes : Takes p s s') :
    Steady p callerStopped s' := by
  cases htakes with
  | @goes next hgoes hcaller hworking =>
      refine ⟨hgoes.length_workers.trans h.staffed, h.folding.goes hgoes,
        h.halting.goes h.folding hgoes hcaller, fun hloop hquiet => ?_, ?_,
        fun hdrained hquiet => ?_⟩
      · rw [hcaller.callerStopped] at hquiet
        obtain ⟨w, hserving⟩ := h.serving (hgoes.inLoop hloop) hquiet
        exact hserving.goes (hgoes.inLoop hloop) hquiet hgoes hcaller hworking
      · exact hcaller.folded ▸ h.folded
      · rw [hcaller.callerStopped] at hquiet
        refine hcaller.folded.trans ?_
        rcases hgoes.hasDrained hdrained with hbefore | ⟨hat, hresults, hsenders⟩
        · exact h.drained hbefore hquiet
        · obtain ⟨w, hserving⟩ := h.serving (by rw [hat]; rfl) hquiet
          exact hserving.folded_eq hresults hsenders
  | @act i errand hat =>
      have hserving := fun hloop hquiet => (h.serving hloop hquiet).elim fun _ hw => hw.act hat
      obtain ⟨workers, requested, store, hlength, hact⟩ := exists_act_eq s i errand
      rw [hact] at hserving ⊢
      exact ⟨hlength.trans h.staffed,
        ⟨h.folding.value, h.folding.completed, h.folding.last, h.folding.early⟩,
        ⟨h.halting.last, h.halting.caller, h.halting.start, h.halting.waiting, h.halting.looping,
          h.halting.cancelled, h.halting.settled⟩,
        hserving, h.folded, h.drained⟩
  | @fold r rest value hat hresults hfold =>
      have hfolding := h.folding.goes (.fold (p := p.plan) hat hresults hfold)
      have hquiet := h.halting.quiet hat
      obtain ⟨w, hserving⟩ := h.serving (by rw [hat]; rfl) hquiet
      refine ⟨h.staffed, ⟨hfolding.value, hfolding.completed, hfolding.last, hfolding.early⟩,
        h.halting.withFolded h.folding hat r rest value (.inl rfl), fun _ hquiet' => ?_,
        hserving.folded_append_prefix hresults, fun hdrained => by cases hdrained.1⟩
      have hstops := (Bool.or_eq_false_iff.mp hquiet').2
      have hserving' := hserving.withFolded value hresults hstops
      exact ⟨w, hserving'.workers, hserving'.goods⟩
  | @decide r rest value hat hresults hfold =>
      have hfolding := h.folding.goes (.decide (p := p.plan) hat hresults hfold)
      obtain ⟨w, hserving⟩ := h.serving (by rw [hat]; rfl) (h.halting.quiet hat)
      exact ⟨h.staffed, ⟨hfolding.value, hfolding.completed, hfolding.last, hfolding.early⟩,
        h.halting.withFolded h.folding hat r rest value (.inr ⟨rfl, rfl⟩), nofun,
        hserving.folded_append_prefix hresults, fun hdrained => by cases hdrained.2.2⟩

end Steady

/-- What every schedule comes to. -/
theorem followSchedule_steady (hworkers : p.config.workers ≤ 1) {callerStopped : Bool}
    {schedule : List Move}
    (h : followSchedule p.step schedule (p.initial callerStopped) = some s) :
    Steady p callerStopped s :=
  followSchedule_induction (fun _ _ _ hmove hs => hs.takes (takes_of_step hmove))
    (.initial hworkers callerStopped) h

end Pipeline

end MutationFinite
