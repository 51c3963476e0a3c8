import MutationFinite.Proofs.Pipeline.Steps
import Mathlib.Algebra.BigOperators.Group.List.Basic
import Mathlib.Algebra.Order.Group.Multiset

/-!
# Pipelines lose and duplicate nothing

Whatever the order of the steps of the parties, a result is folded for different tasks that were
sent, and, when nobody stops the run, for each of them once.

* `Staffed`: a worker leaves a run that nobody stops only when no task is left or will come.
* `Producing`: the tasks sent are the first ones, in order, and all of them are counted.
* `Accounted`: results that are folded, waiting or in hand and tasks in the queue come from
  different tasks that were sent.
* `Folding`: what is folded, and that nothing is folded after the answer is there.
* `Concluding`: how the aggregator's loop has ended.
* `Sound`: all of these; each step keeps them, so that they hold after every schedule.
* `follow_loses_nothing`: what a schedule has come to.
-/

namespace MutationFinite

namespace Plan

variable {τ ρ α : Type} (p : Plan τ ρ α)

/-- The accumulator after some results. -/
def valueAfter (results : List ρ) : α := results.foldl (fun acc r => (p.fold acc r).2) p.start

/-- What the fold answers to `r` after the results `before`. -/
def answer (before : List ρ) (r : ρ) : Flow := (p.fold (p.valueAfter before) r).1

theorem valueAfter_append_singleton (results : List ρ) (r : ρ) :
    p.valueAfter (results ++ [r]) = (p.fold (p.valueAfter results) r).2 := by
  rw [valueAfter, List.foldl_append]
  rfl

end Plan

namespace Pipeline

open Plan

variable {τ ρ α : Type} {p : Plan τ ρ α} {s s' : System τ ρ α}

/-! ### Stops -/

/-- The aggregator has told all others to stop. -/
def Aggregator.hasStopped : Aggregator → Bool
  | hangingUp | joining | returned => true
  | _ => false

/-- The aggregator is in its loop, or about to enter it. -/
def Aggregator.inLoop : Aggregator → Bool
  | starting | polling | noting | receiving => true
  | _ => false

theorem Aggregator.Turns.inLoop {callerStopped : Bool} {a b : Aggregator}
    (h : a.Turns callerStopped b) :
    a.inLoop = true ∧ b.inLoop = true := by
  cases h <;> exact ⟨rfl, rfl⟩

theorem Aggregator.hasStopped_of_inLoop {a : Aggregator} (h : a.inLoop = true) :
    a.hasStopped = false := by
  cases a <;> first | rfl | cases h

theorem Aggregator.hasStopped_of_deaf {a : Aggregator} (h : a.listens = false) :
    a.hasStopped = true := by
  cases a <;> first | rfl | cases h

/-- A token that is stopped stays stopped. -/
theorem Goes.stopSeen_mono (h : Goes p s s') (hq : s'.stopSeen = false) : s.stopSeen = false := by
  cases h with
  | stopCaller | requestStop => exact absurd hq (by simp [System.stopSeen])
  | fetch | offer | retry | enqueue | count | quit | close | signal | advance | receive | deliver
  | leave | turn | note | fold | decide | cancel | drain | hangUp | join => exact hq

/-- Nobody but the aggregator stops the token that the parties share. -/
theorem Goes.stopRequested_eq (h : Goes p s s')
    (hs : s.stopRequested = s.aggregator.hasStopped) :
    s'.stopRequested = s'.aggregator.hasStopped := by
  cases h with
  | turn hat hturns =>
      obtain ⟨ha, hb⟩ := hturns.inLoop
      rw [hat, Aggregator.hasStopped_of_inLoop ha] at hs
      exact hs.trans (Aggregator.hasStopped_of_inLoop hb).symm
  | requestStop => rfl
  | note hat | fold hat | decide hat | cancel hat | drain hat | hangUp hat | join hat =>
      rw [hat] at hs
      exact hs
  | stopCaller | fetch | offer | retry | enqueue | count | quit | close | signal | advance
  | receive | deliver | leave => exact hs

/-! ### The workers -/

/-- The worker is on its way out. -/
def Worker.isLeaving : Worker τ ρ → Bool
  | leaving _ _ => true
  | _ => false

theorem Worker.isLeaving_of_not_holdsTasks {w : Worker τ ρ} (h : w.holdsTasks = false) :
    w.isLeaving = true := by
  cases w <;> first | rfl | cases h

theorem Worker.isLeaving_of_not_holdsResults {w : Worker τ ρ} (h : w.holdsResults = false) :
    w.isLeaving = true := by
  cases w <;> first | rfl | cases h

theorem Worker.Advances.isLeaving_eq {stopSeen : Bool} {work : τ → ρ} {w w' : Worker τ ρ}
    (h : w.Advances stopSeen work w') :
    w'.isLeaving = w.isLeaving := by
  cases h <;> rfl

/-- No task is left in the queue, and none will come. -/
def System.IsDry (s : System τ ρ α) : Prop := s.producer.isOpen = false ∧ s.queue = []

/-- A worker leaves a run that nobody stops with empty hands, when the queue is dry: the aggregator
hangs up only after it has told all others to stop. -/
theorem Worker.Leaves.of_quiet {w : Worker τ ρ} (h : Worker.Leaves s w)
    (hstop : s.stopRequested = s.aggregator.hasStopped) (hq : s.stopSeen = false) :
    w = .receiving ∧ s.IsDry := by
  cases h with
  | stopped hseen | giveUp t hseen => cases hq.symm.trans hseen
  | drained hqueue hclosed => exact ⟨rfl, hclosed, hqueue⟩
  | unheard r hdeaf =>
      have hrequested := hstop.trans (Aggregator.hasStopped_of_deaf hdeaf)
      cases hrequested.symm.trans (Bool.or_eq_false_iff.mp hq).1

/-- Each of several workers, when one of them is another one now. -/
theorem forall_mem_replace {P : Worker τ ρ → Prop} {before after : List (Worker τ ρ)}
    {w w' : Worker τ ρ} (h : ∀ v ∈ before ++ w :: after, P v) (hw : P w → P w') :
    ∀ v ∈ before ++ w' :: after, P v := by
  simp only [List.mem_append, List.mem_cons] at h ⊢
  rintro v (hv | rfl | hv)
  · exact h v (.inl hv)
  · exact hw (h w (.inr (.inl rfl)))
  · exact h v (.inr (.inr hv))

/-- A queue that is dry stays dry. -/
theorem Goes.isDry_mono (h : Goes p s s') (hs : s.IsDry) : s'.IsDry := by
  obtain ⟨hclosed, hqueue⟩ := hs
  cases h with
  | fetch hat | offer hat | retry hat | enqueue hat | count hat | close hat =>
      rw [hat] at hclosed
      cases hclosed
  | quit hat hquits =>
      rw [hat] at hclosed
      cases hquits <;> cases hclosed
  | signal => exact ⟨rfl, hqueue⟩
  | receive _ hnext =>
      rw [hqueue] at hnext
      cases hnext
  | stopCaller | advance | deliver | leave | turn | note | fold | decide | cancel | drain
  | requestStop | hangUp | join => exact ⟨hclosed, hqueue⟩

/-- The workers are there, and leave a run that nobody stops only when the queue is dry. -/
structure Staffed (p : Plan τ ρ α) (s : System τ ρ α) : Prop where
  count : s.workers.length = max p.config.workers 1
  leaving : s.stopSeen = false → ∀ w ∈ s.workers, w.isLeaving = true → s.IsDry

namespace Staffed

theorem initial (p : Plan τ ρ α) (callerStopped : Bool) : Staffed p (p.initial callerStopped) where
  count := List.length_replicate
  leaving _ w hw hleaving := by
    rw [List.eq_of_mem_replicate hw] at hleaving
    cases hleaving

theorem goes (h : Staffed p s) (hstop : s.stopRequested = s.aggregator.hasStopped)
    (hg : Goes p s s') : Staffed p s' := by
  have hdry : s'.stopSeen = false → ∀ w ∈ s.workers, w.isLeaving = true → s'.IsDry :=
    fun hq w hw hleaving => hg.isDry_mono (h.leaving (hg.stopSeen_mono hq) w hw hleaving)
  have hlength {before after : List (Worker τ ρ)} {w w' : Worker τ ρ}
      (hat : s.workers = before ++ w :: after) :
      (before ++ w' :: after).length = max p.config.workers 1 := by
    rw [← h.count, hat, List.length_append, List.length_append]
    rfl
  cases hg with
  | advance hat hadvances =>
      refine ⟨hlength hat, fun hq => forall_mem_replace (hat ▸ hdry hq) fun hw hleaving => ?_⟩
      exact hw (hadvances.isLeaving_eq ▸ hleaving)
  | receive hat =>
      refine ⟨hlength hat, fun hq => forall_mem_replace (hat ▸ hdry hq) fun _ hleaving => ?_⟩
      cases hleaving
  | deliver hat =>
      refine ⟨hlength hat, fun hq => forall_mem_replace (hat ▸ hdry hq) fun _ hleaving => ?_⟩
      cases hleaving
  | leave hat hleaves =>
      refine ⟨hlength hat, fun hq => forall_mem_replace (hat ▸ hdry hq) fun _ _ => ?_⟩
      exact (hleaves.of_quiet hstop hq).2
  | stopCaller | fetch | offer | retry | enqueue | count | quit | close | signal | turn | note
  | fold | decide | cancel | drain | requestStop | hangUp | join => exact ⟨h.count, hdry⟩

/-- When all workers of a run that nobody stops are on their way out, the queue is dry. -/
theorem isDry (h : Staffed p s) (hq : s.stopSeen = false)
    (hall : ∀ w ∈ s.workers, w.isLeaving = true) : s.IsDry := by
  have hpos : 0 < s.workers.length := by rw [h.count]; omega
  have hmem := List.getElem_mem hpos
  exact h.leaving hq _ hmem (hall _ hmem)

/-- In a run that nobody stops, the queue of tasks keeps its receivers while the producer has
tasks. -/
theorem hasReceiver (h : Staffed p s) (hq : s.stopSeen = false)
    (hopen : s.producer.isOpen = true) : s.hasReceiver = true := by
  by_contra hnone
  simp only [System.hasReceiver, Bool.or_eq_true, not_or, List.any_eq_true, not_exists, not_and,
    Bool.not_eq_true] at hnone
  have hdry := h.isDry hq fun w hw => Worker.isLeaving_of_not_holdsTasks (hnone.2 w hw)
  cases hdry.1.symm.trans hopen

end Staffed

/-! ### The producer -/

/-- The tasks that the producer has still to send, as long as it goes on. -/
def Producer.pending? (unsent : List τ) : Producer τ → Option (List τ)
  | fetching | counting => some unsent
  | polling t | sending t => some (t :: unsent)
  | closing | signalling | finished => none

/-- The number of tasks in the queue that the producer has not counted. -/
def Producer.uncounted : Producer τ → Nat
  | counting => 1
  | _ => 0

theorem Producer.pending?_eq_none_of_closed {a : Producer τ} {unsent : List τ}
    (h : a.isOpen = false) : a.pending? unsent = none := by
  cases a <;> first | rfl | cases h

/-- The tasks sent are the first ones, in order; all of them are counted, and in a run that nobody
stops none is left out. -/
structure Producing (p : Plan τ ρ α) (s : System τ ρ α) : Prop where
  sent : s.sent <+: p.tasks
  pending : ∀ rest, s.producer.pending? s.unsent = some rest → s.sent ++ rest = p.tasks
  counted : s.submitted + s.producer.uncounted = s.sent.length
  complete : s.producer.pending? s.unsent = none → s.stopSeen = false → s.sent = p.tasks

namespace Producing

theorem initial (p : Plan τ ρ α) (callerStopped : Bool) :
    Producing p (p.initial callerStopped) where
  sent := List.nil_prefix
  pending rest h := by
    cases h
    rfl
  counted := rfl
  complete h := by cases h

/-- The producer goes on with the tasks that it has still to send. -/
theorem of_pending (h : Producing p s) {a : Producer τ} {unsent rest : List τ}
    (hbefore : s.producer.pending? s.unsent = some rest) (hafter : a.pending? unsent = some rest)
    (hcount : a.uncounted = s.producer.uncounted) :
    Producing p { s with producer := a, unsent := unsent } where
  sent := h.sent
  pending rest' h' := h.pending rest' (hbefore.trans (hafter.symm.trans h'))
  counted := by rw [← h.counted, hcount]
  complete hnone := by cases hafter.symm.trans hnone

/-- The producer is on its way out. -/
theorem of_none (h : Producing p s) {a : Producer τ} {done : Bool}
    (hnone : s.producer.pending? s.unsent = none) (hafter : a.pending? s.unsent = none)
    (hcount : a.uncounted = s.producer.uncounted) :
    Producing p { s with producer := a, producerDone := done } where
  sent := h.sent
  pending rest h' := by cases hafter.symm.trans h'
  counted := by rw [← h.counted, hcount]
  complete _ hq := h.complete hnone hq

theorem goes (h : Producing p s) (hstaffed : Staffed p s) (hg : Goes p s s') :
    Producing p s' := by
  cases hg with
  | fetch hat hnext =>
      exact h.of_pending (by rw [hat, hnext]; rfl) rfl (by rw [hat]; rfl)
  | offer hat | retry hat => exact h.of_pending (by rw [hat]; rfl) rfl (by rw [hat]; rfl)
  | @enqueue t hat =>
      have hpending := h.pending (t :: s.unsent) (by rw [hat]; rfl)
      have hcounted := h.counted
      rw [hat] at hcounted
      refine ⟨⟨s.unsent, ?_⟩, fun rest hrest => ?_, ?_, fun hnone => by cases hnone⟩
      · rw [List.append_assoc]
        exact hpending
      · cases hrest
        rw [List.append_assoc]
        exact hpending
      · rw [List.length_append, ← hcounted]
        rfl
  | count hat =>
      have hcounted := h.counted
      have hpending := h.pending s.unsent (by rw [hat]; rfl)
      rw [hat] at hcounted
      refine ⟨h.sent, fun rest hrest => ?_, hcounted, fun hnone => by cases hnone⟩
      cases hrest
      exact hpending
  | quit hat hquits =>
      have hcounted := h.counted
      refine ⟨h.sent, fun rest hrest => (by cases hrest), ?_, fun _ hq => ?_⟩
      · rw [← hcounted, hat]
        cases hquits <;> rfl
      · cases hquits with
        | exhausted hnone =>
            have hpending := h.pending [] (by rw [hat, hnone]; rfl)
            rwa [List.append_nil] at hpending
        | stopped t hseen => cases hq.symm.trans hseen
        | refused t hrefused =>
            have hreceiver := hstaffed.hasReceiver hq (by rw [hat]; rfl)
            cases hrefused.symm.trans hreceiver
  | close hat | signal hat =>
      exact h.of_none (by rw [hat]; rfl) rfl (by rw [hat]; rfl)
  | stopCaller | requestStop =>
      exact ⟨h.sent, h.pending, h.counted, fun _ hq => absurd hq (by simp [System.stopSeen])⟩
  | advance | receive | deliver | leave | turn | note | fold | decide | cancel | drain | hangUp
  | join => exact ⟨h.sent, h.pending, h.counted, h.complete⟩

end Producing

/-! ### Results -/

/-- The result that a worker has in hand, or will have. -/
def Worker.held (work : τ → ρ) : Worker τ ρ → Multiset ρ
  | holding t | working t => {work t}
  | sending r => {r}
  | polling | receiving | leaving _ _ => 0

theorem Worker.Advances.held_eq {stopSeen : Bool} {work : τ → ρ} {w w' : Worker τ ρ}
    (h : w.Advances stopSeen work w') :
    w'.held work = w.held work := by
  cases h <;> rfl

theorem Worker.held_of_isLeaving {work : τ → ρ} {w : Worker τ ρ} (h : w.isLeaving = true) :
    w.held work = 0 := by
  cases w <;> first | rfl | cases h

/-- The results that were folded, wait, or are in hand, with those of the tasks in the queue. -/
def System.goods (p : Plan τ ρ α) (s : System τ ρ α) : Multiset ρ :=
  ↑s.folded + ↑s.results + (s.workers.map (Worker.held p.work)).sum + ↑(s.queue.map p.work)

/-- What the workers have in hand, with one of them apart. -/
theorem sum_held_split (work : τ → ρ) (before after : List (Worker τ ρ)) (w : Worker τ ρ) :
    ((before ++ w :: after).map (Worker.held work)).sum =
      w.held work + ((before ++ after).map (Worker.held work)).sum := by
  simp only [List.map_append, List.map_cons, List.sum_append, List.sum_cons]
  exact add_left_comm _ _ _

/-- Workers with empty hands. -/
theorem sum_held_eq_zero {work : τ → ρ} {workers : List (Worker τ ρ)}
    (h : ∀ w ∈ workers, w.held work = 0) : (workers.map (Worker.held work)).sum = 0 := by
  refine List.sum_eq_zero fun goods hgoods => ?_
  obtain ⟨w, hw, rfl⟩ := List.mem_map.mp hgoods
  exact h w hw

/-- The goods come from different tasks that were sent; the others are lost to a stop. -/
def Accounted (p : Plan τ ρ α) (s : System τ ρ α) : Prop :=
  ∃ lost : Multiset ρ,
    s.goods p + lost = ↑(s.sent.map p.work) ∧ (s.stopSeen = false → lost = 0)

namespace Accounted

theorem initial (p : Plan τ ρ α) (callerStopped : Bool) :
    Accounted p (p.initial callerStopped) := by
  have hheld : ((p.initial callerStopped).workers.map (Worker.held p.work)).sum = 0 :=
    sum_held_eq_zero fun w hw => List.eq_of_mem_replicate hw ▸ rfl
  refine ⟨0, ?_, fun _ => rfl⟩
  rw [System.goods, hheld]
  rfl

/-- A step that hands goods over, or does not touch them. -/
theorem of_eq (h : Accounted p s) (hgoods : s'.goods p = s.goods p) (hsent : s'.sent = s.sent)
    (hseen : s'.stopSeen = false → s.stopSeen = false) : Accounted p s' := by
  obtain ⟨lost, hbalance, hlost⟩ := h
  exact ⟨lost, by rw [hgoods, hbalance, hsent], fun hq => hlost (hseen hq)⟩

theorem goes (h : Accounted p s) (hstop : s.stopRequested = s.aggregator.hasStopped)
    (hg : Goes p s s') : Accounted p s' := by
  have hseen := hg.stopSeen_mono
  cases hg with
  | @enqueue t =>
      obtain ⟨lost, hbalance, hlost⟩ := h
      refine ⟨lost, ?_, fun hq => hlost (hseen hq)⟩
      simp only [System.goods, List.map_append, List.map_cons, List.map_nil,
        ← Multiset.coe_add, ← hbalance]
      ac_rfl
  | advance hat hadvances =>
      refine h.of_eq ?_ rfl hseen
      simp only [System.goods, hat, sum_held_split, hadvances.held_eq]
  | @receive before after t rest hat hqueue =>
      refine h.of_eq ?_ rfl hseen
      simp only [System.goods, hat, hqueue, sum_held_split, Worker.held, List.map_cons,
        ← Multiset.cons_coe, ← Multiset.singleton_add]
      ac_rfl
  | @deliver before after r hat =>
      refine h.of_eq ?_ rfl hseen
      simp only [System.goods, hat, sum_held_split, Worker.held, ← Multiset.coe_add,
        Multiset.coe_singleton]
      ac_rfl
  | @leave before after w hat hleaves =>
      obtain ⟨lost, hbalance, hlost⟩ := h
      refine ⟨lost + w.held p.work, ?_, fun hq => ?_⟩
      · rw [← hbalance]
        simp only [System.goods, hat, sum_held_split, Worker.held]
        ac_rfl
      · obtain ⟨rfl, -⟩ := hleaves.of_quiet hstop hq
        exact (add_zero lost).trans (hlost hq)
  | @fold r rest value _ hresults | @decide r rest value _ hresults =>
      refine h.of_eq ?_ rfl hseen
      simp only [System.goods, hresults, ← Multiset.coe_add, ← Multiset.cons_coe,
        ← Multiset.singleton_add]
      ac_rfl
  | stopCaller | fetch | offer | retry | count | quit | close | signal | turn | note | cancel
  | drain | requestStop | hangUp | join => exact h.of_eq rfl rfl hseen

theorem folded_subperm (h : Accounted p s) : s.folded.Subperm (s.sent.map p.work) := by
  obtain ⟨lost, hbalance, -⟩ := h
  rw [← Multiset.coe_le, ← hbalance, System.goods, add_assoc, add_assoc, add_assoc]
  exact Multiset.le_add_right _ _

/-- When everybody is gone from a run that nobody stopped, each task that was sent has its result
folded. -/
theorem folded_perm (h : Accounted p s) (hq : s.stopSeen = false) (hresults : s.results = [])
    (hall : ∀ w ∈ s.workers, w.isLeaving = true) (hqueue : s.queue = []) :
    s.folded.Perm (s.sent.map p.work) := by
  obtain ⟨lost, hbalance, hlost⟩ := h
  have hheld : (s.workers.map (Worker.held p.work)).sum = 0 :=
    sum_held_eq_zero fun w hw => Worker.held_of_isLeaving (hall w hw)
  rw [hlost hq, System.goods, hheld, hresults, hqueue] at hbalance
  exact Multiset.coe_eq_coe.mp (by simpa using hbalance)

end Accounted

/-! ### Folding -/

/-- The last of some results, or one before it. -/
theorem append_singleton_eq_split {results before after : List ρ} {last r : ρ}
    (h : results ++ [last] = before ++ r :: after) :
    (before = results ∧ r = last ∧ after = []) ∨
      ∃ rest, results = before ++ r :: rest ∧ after = rest ++ [last] := by
  rcases List.eq_nil_or_concat' after with rfl | ⟨rest, final, rfl⟩
  · obtain ⟨hresults, hlast⟩ := List.append_inj' h rfl
    cases hlast
    exact .inl ⟨hresults.symm, rfl, rfl⟩
  · rw [← List.cons_append, ← List.append_assoc] at h
    obtain ⟨hresults, hlast⟩ := List.append_inj' h rfl
    cases hlast
    exact .inr ⟨rest, hresults, rfl⟩

/-- The accumulator and the counter are those of the results folded, and a result to which the fold
has answered that it needs no more is the last one. -/
structure Folding (p : Plan τ ρ α) (s : System τ ρ α) : Prop where
  value : s.value = p.valueAfter s.folded
  completed : s.completed = s.folded.length
  last : ∀ before r after, s.folded = before ++ r :: after → p.answer before r = .stop →
    after = [] ∧ s.stoppedEarly = true
  early : s.stoppedEarly = true → s.aggregator.inLoop = false ∧
    ∃ before r, s.folded = before ++ [r] ∧ p.answer before r = .stop

namespace Folding

theorem initial (p : Plan τ ρ α) (callerStopped : Bool) :
    Folding p (p.initial callerStopped) where
  value := rfl
  completed := rfl
  last before r after h :=
    absurd h.symm (List.append_ne_nil_of_right_ne_nil before (List.cons_ne_nil r after))
  early h := by cases h

theorem stoppedEarly_of_inLoop (h : Folding p s) (hloop : s.aggregator.inLoop = true) :
    s.stoppedEarly = false := by
  by_contra hearly
  cases (h.early (Bool.eq_true_of_not_eq_false hearly)).1.symm.trans hloop

/-- In the loop nothing that was folded has ended the run. -/
theorem answer_ne_stop (h : Folding p s) (hloop : s.aggregator.inLoop = true)
    {before after : List ρ} {r : ρ} (hfolded : s.folded = before ++ r :: after) :
    p.answer before r ≠ .stop := by
  intro hstop
  obtain ⟨-, hearly⟩ := h.last before r after hfolded hstop
  cases (h.stoppedEarly_of_inLoop hloop).symm.trans hearly

theorem answer_eq (h : Folding p s) {r : ρ} {flow : Flow} {value : α}
    (hfold : p.fold s.value r = (flow, value)) :
    p.answer s.folded r = flow ∧ p.valueAfter (s.folded ++ [r]) = value := by
  rw [valueAfter_append_singleton, answer, ← h.value, hfold]
  exact ⟨rfl, rfl⟩

theorem goes (h : Folding p s) (hg : Goes p s s') : Folding p s' := by
  cases hg with
  | @fold r rest value hat hresults hfold =>
      obtain ⟨hanswer, hvalue⟩ := h.answer_eq hfold
      have hloop : s.aggregator.inLoop = true := by rw [hat]; rfl
      refine ⟨hvalue.symm, ?_, fun before r' after hsplit hstop => ?_, fun hearly => ?_⟩
      · rw [h.completed, List.length_append]
        rfl
      · rcases append_singleton_eq_split hsplit with ⟨rfl, rfl, -⟩ | ⟨rest, hfolded, -⟩
        · cases hanswer.symm.trans hstop
        · exact absurd hstop (h.answer_ne_stop hloop hfolded)
      · cases (h.stoppedEarly_of_inLoop hloop).symm.trans hearly
  | @decide r rest value hat hresults hfold =>
      obtain ⟨hanswer, hvalue⟩ := h.answer_eq hfold
      have hloop : s.aggregator.inLoop = true := by rw [hat]; rfl
      refine ⟨hvalue.symm, ?_, fun before r' after hsplit hstop => ?_,
        fun _ => ⟨rfl, s.folded, r, rfl, hanswer⟩⟩
      · rw [h.completed, List.length_append]
        rfl
      · rcases append_singleton_eq_split hsplit with ⟨-, -, hlast⟩ | ⟨rest, hfolded, -⟩
        · exact ⟨hlast, rfl⟩
        · exact absurd hstop (h.answer_ne_stop hloop hfolded)
  | turn hat hturns =>
      refine ⟨h.value, h.completed, h.last, fun hearly => ?_⟩
      cases (h.stoppedEarly_of_inLoop (hat ▸ hturns.inLoop.1)).symm.trans hearly
  | note hat =>
      refine ⟨h.value, h.completed, h.last, fun hearly => ?_⟩
      cases (h.stoppedEarly_of_inLoop (by rw [hat]; rfl)).symm.trans hearly
  | cancel | drain | requestStop | hangUp | join =>
      exact ⟨h.value, h.completed, h.last, fun hearly => ⟨rfl, (h.early hearly).2⟩⟩
  | stopCaller | fetch | offer | retry | enqueue | count | quit | close | signal | advance
  | receive | deliver | leave => exact ⟨h.value, h.completed, h.last, h.early⟩

end Folding

/-! ### The end -/

/-- The loop ended because nobody was left who could send a result. -/
def System.HasDrained (s : System τ ρ α) : Prop :=
  s.aggregator.inLoop = false ∧ s.cancelled = false ∧ s.stoppedEarly = false

/-- How the aggregator's loop has ended, and which phases it has reported. -/
structure Concluding (p : Plan τ ρ α) (s : System τ ρ α) : Prop where
  looping : s.aggregator.inLoop = true → s.cancelled = false ∧
    s.phases = if s.phase = .running then [.running] else [.running, .draining]
  phases : s.HasDrained → s.phases =
    [.running, .draining] ++ if s.aggregator = .returned then [.done] else []
  folded : s.HasDrained → s.callerStopped = false → s.folded.Perm (p.tasks.map p.work)
  cancelled : s.cancelled = true → s.callerStopped = true
  finished : s.aggregator = .returned → s.producer = .finished

namespace Concluding

theorem initial (p : Plan τ ρ α) (callerStopped : Bool) :
    Concluding p (p.initial callerStopped) where
  looping _ := ⟨rfl, rfl⟩
  phases h := by cases h.1
  folded h := by cases h.1
  cancelled h := by cases h
  finished h := by cases h

/-- The aggregator stays in its loop. -/
theorem of_inLoop (hphases : s.phases = if s.phase = .running then [.running]
    else [.running, .draining]) (hcancelled : s.cancelled = false)
    (hloop : s.aggregator.inLoop = true) : Concluding p s where
  looping _ := ⟨hcancelled, hphases⟩
  phases h := by cases h.1.symm.trans hloop
  folded h := by cases h.1.symm.trans hloop
  cancelled h := by cases hcancelled.symm.trans h
  finished h := by
    rw [h] at hloop
    cases hloop

/-- The aggregator leaves its loop before nobody is left who could send a result. -/
theorem of_stopping (hat : s.aggregator = .stopping) (hnot : ¬ s.HasDrained)
    (hcancelled : s.cancelled = true → s.callerStopped = true) : Concluding p s where
  looping h := by
    rw [hat] at h
    cases h
  phases h := absurd h hnot
  folded h := absurd h hnot
  cancelled := hcancelled
  finished h := by cases hat.symm.trans h

/-- The loop ends in a run that nobody stops when the results of all tasks are folded. -/
theorem folded_of_drained (hproducing : Producing p s) (hstaffed : Staffed p s)
    (haccounted : Accounted p s) (hq : s.stopSeen = false) (hresults : s.results = [])
    (hsenders : s.hasSender = false) : s.folded.Perm (p.tasks.map p.work) := by
  have hall : ∀ w ∈ s.workers, w.isLeaving = true := by
    intro w hw
    rw [System.hasSender, List.any_eq_false] at hsenders
    exact Worker.isLeaving_of_not_holdsResults (Bool.eq_false_of_not_eq_true (hsenders w hw))
  obtain ⟨hclosed, hqueue⟩ := hstaffed.isDry hq hall
  rw [← hproducing.complete (Producer.pending?_eq_none_of_closed hclosed) hq]
  exact haccounted.folded_perm hq hresults hall hqueue

theorem goes (h : Concluding p s) (hproducing : Producing p s) (hstaffed : Staffed p s)
    (haccounted : Accounted p s) (hstop : s.stopRequested = s.aggregator.hasStopped)
    (hg : Goes p s s') : Concluding p s' := by
  cases hg with
  | stopCaller =>
      exact ⟨h.looping, h.phases, fun _ hquiet => (by cases hquiet), fun _ => rfl, h.finished⟩
  | fetch hat | offer hat | retry hat | enqueue hat | count hat | close hat =>
      refine ⟨h.looping, h.phases, h.folded, h.cancelled, fun hreturned => ?_⟩
      cases hat.symm.trans (h.finished hreturned)
  | quit hat hquits =>
      refine ⟨h.looping, h.phases, h.folded, h.cancelled, fun hreturned => ?_⟩
      cases hat.symm.trans (h.finished hreturned)
      cases hquits
  | signal => exact ⟨h.looping, h.phases, h.folded, h.cancelled, fun _ => rfl⟩
  | advance | receive | deliver | leave =>
      exact ⟨h.looping, h.phases, h.folded, h.cancelled, h.finished⟩
  | turn hat hturns =>
      obtain ⟨hloop, hloop'⟩ := hturns.inLoop
      obtain ⟨hcancelled, hphases⟩ := h.looping (hat ▸ hloop)
      exact of_inLoop hphases hcancelled hloop'
  | note hat hphase =>
      obtain ⟨hcancelled, hphases⟩ := h.looping (by rw [hat]; rfl)
      rw [if_pos hphase] at hphases
      exact of_inLoop (by rw [hphases]; rfl) hcancelled rfl
  | fold hat =>
      obtain ⟨hcancelled, hphases⟩ := h.looping (by rw [hat]; rfl)
      exact of_inLoop hphases hcancelled rfl
  | decide hat => exact of_stopping rfl (fun hdrained => by cases hdrained.2.2) h.cancelled
  | cancel hat hcaller =>
      exact of_stopping rfl (fun hdrained => by cases hdrained.2.1) fun _ => hcaller
  | drain hat hresults hsenders =>
      obtain ⟨hcancelled, hphases⟩ := h.looping (by rw [hat]; rfl)
      refine ⟨fun hloop => (by cases hloop), fun _ => ?_, fun _ hquiet => ?_, h.cancelled,
        fun hreturned => by cases hreturned⟩
      · change (if s.phase = .running then s.phases ++ [.draining] else s.phases) = _
        rw [hphases]
        split <;> rfl
      · rw [hat] at hstop
        have hq : s.stopSeen = false := Bool.or_eq_false_iff.mpr ⟨hstop, hquiet⟩
        have hfolded := folded_of_drained hproducing hstaffed haccounted hq hresults hsenders
        exact hfolded
  | requestStop hat | hangUp hat =>
      have hout : s.aggregator.inLoop = false := by rw [hat]; rfl
      refine ⟨fun hloop => (by cases hloop), fun hdrained => ?_,
        fun hdrained => h.folded ⟨hout, hdrained.2⟩, h.cancelled,
        fun hreturned => by cases hreturned⟩
      have hphases := h.phases ⟨hout, hdrained.2⟩
      rwa [hat] at hphases
  | join hat hdeserted =>
      have hout : s.aggregator.inLoop = false := by rw [hat]; rfl
      refine ⟨fun hloop => (by cases hloop), fun hdrained => ?_,
        fun hdrained => h.folded ⟨hout, hdrained.2⟩, h.cancelled, fun _ => ?_⟩
      · change s.phases ++ [.done] = _
        rw [h.phases ⟨hout, hdrained.2⟩, hat]
        rfl
      · have hproducer := (Bool.and_eq_true_iff.mp hdeserted).1
        change s.producer = .finished
        cases hat : s.producer <;> rw [hat] at hproducer <;> first | rfl | cases hproducer

end Concluding

/-! ### Runs -/

/-- What holds after each step of a run. -/
structure Sound (p : Plan τ ρ α) (s : System τ ρ α) : Prop where
  stop : s.stopRequested = s.aggregator.hasStopped
  staffed : Staffed p s
  producing : Producing p s
  accounted : Accounted p s
  folding : Folding p s
  concluding : Concluding p s

namespace Sound

theorem initial (p : Plan τ ρ α) (callerStopped : Bool) : Sound p (p.initial callerStopped) where
  stop := rfl
  staffed := .initial p callerStopped
  producing := .initial p callerStopped
  accounted := .initial p callerStopped
  folding := .initial p callerStopped
  concluding := .initial p callerStopped

theorem goes (h : Sound p s) (hg : Goes p s s') : Sound p s' where
  stop := hg.stopRequested_eq h.stop
  staffed := h.staffed.goes h.stop hg
  producing := h.producing.goes h.staffed hg
  accounted := h.accounted.goes h.stop hg
  folding := h.folding.goes hg
  concluding := h.concluding.goes h.producing h.staffed h.accounted h.stop hg

theorem submitted_of_returned (h : Sound p s) (hreturned : s.aggregator = .returned) :
    s.submitted = s.sent.length := by
  have hcounted := h.producing.counted
  rwa [h.concluding.finished hreturned] at hcounted

theorem completed_le (h : Sound p s) : s.completed ≤ s.sent.length := by
  rw [h.folding.completed]
  simpa using h.accounted.folded_subperm.length_le

/-- A run that nobody stops has folded the result of each task. -/
theorem complete (h : Sound p s)
    (hproceeds : ∀ before r after, s.folded = before ++ r :: after → p.answer before r = .proceed)
    (hquiet : s.callerStopped = false) (hreturned : s.aggregator = .returned) :
    s.folded.Perm (p.tasks.map p.work) ∧ s.completed = p.tasks.length ∧
      s.submitted = p.tasks.length ∧ s.stoppedEarly = false ∧ s.cancelled = false ∧
      s.phases = [.running, .draining, .done] := by
  have hearly : s.stoppedEarly = false := by
    by_contra hearly
    obtain ⟨-, before, r, hlast, hstop⟩ :=
      h.folding.early (Bool.eq_true_of_not_eq_false hearly)
    cases (hproceeds before r [] hlast).symm.trans hstop
  have hcancelled : s.cancelled = false := by
    by_contra hcancelled
    have hcaller := h.concluding.cancelled (Bool.eq_true_of_not_eq_false hcancelled)
    cases hquiet.symm.trans hcaller
  have hdrained : s.HasDrained := ⟨by rw [hreturned]; rfl, hcancelled, hearly⟩
  have hfolded := h.concluding.folded hdrained hquiet
  have hcompleted : s.completed = p.tasks.length := by
    rw [h.folding.completed, hfolded.length_eq, List.length_map]
  have hsubmitted : s.submitted = p.tasks.length := by
    have hle := h.producing.sent.length_le
    have hge := h.completed_le
    rw [h.submitted_of_returned hreturned]
    omega
  have hphases := h.concluding.phases hdrained
  rw [if_pos hreturned] at hphases
  exact ⟨hfolded, hcompleted, hsubmitted, hearly, hcancelled, hphases⟩

end Sound

/-- What every schedule comes to. -/
theorem follow_sound {callerStopped : Bool} {schedule : List Move}
    (h : followSchedule p.step schedule (p.initial callerStopped) = some s) : Sound p s :=
  follow_induction (fun _ _ hg hs => hs.goes hg) (.initial p callerStopped) h

/-- **Pipelines lose and duplicate nothing.**  Whatever the order of the steps, the results folded
are those of different tasks that were sent, and nothing is folded after the fold has its answer.  A
run that has returned has folded at most as many results as tasks were sent.  When the fold has
always gone on and nobody has stopped the token of the caller, it has folded the result of each task
once, and has reported all phases. -/
theorem follow_loses_nothing (p : Plan τ ρ α) (callerStopped : Bool) (schedule : List Move)
    (s : System τ ρ α)
    (h : followSchedule p.step schedule (p.initial callerStopped) = some s) :
    (s.value = p.valueAfter s.folded ∧ s.completed = s.folded.length) ∧
    (s.sent <+: p.tasks ∧ s.folded.Subperm (s.sent.map p.work)) ∧
    (∀ before r after, s.folded = before ++ r :: after → p.answer before r = .stop →
      after = []) ∧
    (s.aggregator = .returned → s.submitted = s.sent.length ∧ s.completed ≤ s.submitted) ∧
    ((∀ before r after, s.folded = before ++ r :: after → p.answer before r = .proceed) →
      s.callerStopped = false → s.aggregator = .returned →
      s.folded.Perm (p.tasks.map p.work) ∧ s.completed = p.tasks.length ∧
        s.submitted = p.tasks.length ∧ s.stoppedEarly = false ∧ s.cancelled = false ∧
        s.phases = [.running, .draining, .done]) := by
  have hsound := follow_sound h
  refine ⟨⟨hsound.folding.value, hsound.folding.completed⟩,
    ⟨hsound.producing.sent, hsound.accounted.folded_subperm⟩,
    fun before r after hsplit hstop => (hsound.folding.last before r after hsplit hstop).1,
    fun hreturned => ?_, hsound.complete⟩
  have hsubmitted := hsound.submitted_of_returned hreturned
  exact ⟨hsubmitted, hsubmitted ▸ hsound.completed_le⟩

/-- Two workers square three numbers, with room for one of them in the queue. -/
def squares : Plan Nat Nat Nat where
  config := ⟨2, 1, 50⟩
  tasks := [3, 1, 2]
  work t := t * t
  fold acc r := (.proceed, 10 * acc + r)
  start := 0

/-- A schedule in which worker 1 is done with the second task before worker 0 is with the first. -/
def overtaking : List Move :=
  List.flatten [
    [.aggregate, .produce, .produce, .produce, .produce, .work 0, .work 0, .work 0],
    -- The queue is full with the second task, and the producer waits in vain once.
    [.produce, .produce, .produce, .produce, .produce, .produce, .produceTimeOut, .produce],
    [.work 1, .work 1, .work 1, .work 1, .work 1, .produce, .produce],
    [.aggregate, .aggregate, .aggregate, .work 0, .work 0, .work 1, .work 1, .work 1, .work 1,
      .work 1],
    -- The producer is done, and worker 0 leaves, while two results are still to be folded.
    [.produce, .produce, .produce, .work 0, .work 0, .dropTasks 0, .dropResults 0],
    [.aggregate, .aggregate, .aggregate, .aggregate, .aggregate, .aggregate],
    [.work 1, .workTimeOut 1, .work 1, .work 1, .dropResults 1, .dropTasks 1],
    [.aggregate, .aggregate, .aggregateTimeOut, .aggregate, .aggregate, .aggregate, .aggregate,
      .aggregate, .aggregate]]

theorem follow_loses_nothing_overtaking :
    ∃ s, followSchedule squares.step overtaking (squares.initial false) = some s ∧
      s.folded = [1, 9, 4] ∧ s.folded.Perm [9, 1, 4] ∧ s.completed = 3 ∧ s.submitted = 3 ∧
        s.stoppedEarly = false ∧ s.cancelled = false ∧
        s.phases = [.running, .draining, .done] := by
  have hrun : (followSchedule squares.step overtaking (squares.initial false)).map
      (fun s => (s.folded, s.callerStopped, s.aggregator)) =
        some ([1, 9, 4], false, .returned) := by decide +kernel
  obtain ⟨s, hs, hend⟩ := Option.map_eq_some_iff.mp hrun
  simp only [Prod.mk.injEq] at hend
  obtain ⟨hfolded, hquiet, hreturned⟩ := hend
  have h := follow_loses_nothing squares false overtaking s hs
  exact ⟨s, hs, hfolded, h.2.2.2.2 (fun _ _ _ _ => rfl) hquiet hreturned⟩

end Pipeline

end MutationFinite
