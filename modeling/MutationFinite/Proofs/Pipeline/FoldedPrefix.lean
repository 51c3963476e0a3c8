import MutationFinite.Proofs.Pipeline.Folding
import MutationFinite.Proofs.Pipeline.OneWorker
import MutationFinite.Proofs.Pipeline.Progress
import Mathlib.Data.List.Induction

/-!
# One worker, a definite prefix

With one worker a run folds the results of the tasks in order, up to the first one that stops the
worker, or at which the fold has its answer or stops the token of the caller; that is also what the
job does that takes one task after another.

* `ErrandPlan.outcomes`: what comes of the tasks.
* `ErrandPlan.Ends`: nothing is folded after an outcome.
* `Steady.ends`, `Steady.last`: which prefix of the outcomes is folded.
* `runFrom_job`, `Steady.concludes`: the job and the system come to the same report.
* `oneWorker_folds_prefix`: what a run has folded.
-/

namespace MutationFinite

namespace Pipeline

open Plan

variable {ω τ ρ α : Type} {p : ErrandPlan ω τ ρ α} {s : ErrandSystem ω ρ α}

/-- What comes of errands, one after another. -/
def outcomes : ω → List (Errand ω ρ) → List (Errand.Outcome ω ρ)
  | _, [] => []
  | store, errand :: rest =>
    errand.run false store :: outcomes (errand.run false store).store rest

/-- The worker serves a prefix of the errands: all of them, or up to one that stops the token. -/
theorem serve_isPrefix (store : ω) (errands : List (Errand ω ρ)) :
    serve false store errands <+: outcomes store errands ∧
      (serve false store errands = outcomes store errands ∨
        ∃ before last, serve false store errands = before ++ [last] ∧ last.stopped = true) := by
  induction errands generalizing store with
  | nil => exact ⟨List.nil_prefix, .inl rfl⟩
  | cons errand rest ih =>
      rw [serve, outcomes]
      cases hstops : (errand.run false store).stopped with
      | true =>
          rw [serve_stopped]
          exact ⟨List.prefix_append [_] _, .inr ⟨[], _, rfl, hstops⟩⟩
      | false =>
          obtain ⟨hrest, hends⟩ := ih (errand.run false store).store
          refine ⟨List.cons_prefix_cons.mpr ⟨rfl, hrest⟩, hends.imp (congrArg _) ?_⟩
          rintro ⟨before, last, hlast, hstopped⟩
          exact ⟨_ :: before, last, by rw [hlast]; rfl, hstopped⟩

/-- Nothing is served after an errand that stops the token. -/
theorem serve_last {stopped : Bool} {store : ω} {errands : List (Errand ω ρ)}
    {before after : List (Errand.Outcome ω ρ)} {outcome : Errand.Outcome ω ρ}
    (h : serve stopped store errands = before ++ outcome :: after)
    (hstops : outcome.stopped = true) : after = [] := by
  induction errands generalizing stopped store before with
  | nil =>
      rw [serve_nil] at h
      exact absurd h.symm (by simp)
  | cons errand rest ih =>
      cases stopped with
      | true =>
          rw [serve_stopped] at h
          exact absurd h.symm (by simp)
      | false =>
          rw [serve] at h
          cases before with
          | nil =>
              obtain ⟨rfl, hrest⟩ := List.cons.inj h
              rw [← hrest, hstops, serve_stopped]
          | cons first before => exact ih (List.cons.inj h).2

end Pipeline

open Pipeline

namespace ErrandPlan

variable {ω τ ρ α : Type}

/-- What comes of the tasks, one after another. -/
def outcomes (p : ErrandPlan ω τ ρ α) : List (Errand.Outcome ω ρ) :=
  Pipeline.outcomes p.store (p.tasks.map p.work)

/-- The fold answers the result of `last` with a stop, after those of `before`. -/
def Decides (p : ErrandPlan ω τ ρ α) (before : List (Errand.Outcome ω ρ))
    (last : Errand.Outcome ω ρ) : Prop :=
  p.plan.answer (before.map Errand.Outcome.result) last.result = .stop

/-- The fold of the result of `last` stops the token of the caller, after those of `before`. -/
def Cancels (p : ErrandPlan ω τ ρ α) (before : List (Errand.Outcome ω ρ))
    (last : Errand.Outcome ω ρ) : Prop :=
  p.stopsCaller (p.plan.valueAfter (before.map Errand.Outcome.result)) last.result = true

/-- Nothing is folded after the result of `last`. -/
def Ends (p : ErrandPlan ω τ ρ α) (before : List (Errand.Outcome ω ρ))
    (last : Errand.Outcome ω ρ) : Prop :=
  last.stopped = true ∨ p.Decides before last ∨ p.Cancels before last

end ErrandPlan

namespace Pipeline

open Plan

variable {ω τ ρ α : Type} {p : ErrandPlan ω τ ρ α} {s : ErrandSystem ω ρ α}

/-- The last of some results is that of the last outcome. -/
theorem exists_last_eq {folded : List (Errand.Outcome ω ρ)} {before : List ρ} {r : ρ}
    (h : folded.map Errand.Outcome.result = before ++ [r]) :
    ∃ first last, folded = first ++ [last] ∧ first.map Errand.Outcome.result = before ∧
      last.result = r := by
  obtain ⟨first, rest, rfl, hbefore, hrest⟩ := List.map_eq_append_iff.mp h
  obtain ⟨last, rfl, hlast⟩ := List.map_eq_singleton_iff.mp hrest
  exact ⟨first, last, rfl, hbefore, hlast⟩

namespace Steady

variable {callerStopped : Bool} {folded : List (Errand.Outcome ω ρ)}

/-- What was folded is the results of the first outcomes. -/
theorem exists_folded_eq (h : Steady p callerStopped s) :
    ∃ folded rest, served p = folded ++ rest ∧
      s.system.folded = folded.map Errand.Outcome.result := by
  obtain ⟨rest, hrest⟩ := h.folded
  obtain ⟨folded, rest, hserved, hfolded, -⟩ := List.map_eq_append_iff.mp hrest.symm
  exact ⟨folded, rest, hserved, hfolded.symm⟩

/-- Where the fold answers with a stop, the run ends. -/
theorem decides (h : Steady p callerStopped s)
    (hfolded : s.system.folded = folded.map Errand.Outcome.result)
    {before after : List (Errand.Outcome ω ρ)} {last : Errand.Outcome ω ρ}
    (hsplit : folded = before ++ last :: after) (hdecides : p.Decides before last) :
    after = [] ∧ s.system.stoppedEarly = true := by
  rw [hsplit, List.map_append, List.map_cons] at hfolded
  obtain ⟨hafter, hearly⟩ := h.folding.last _ _ _ hfolded hdecides
  exact ⟨List.map_eq_nil_iff.mp hafter, hearly⟩

/-- Where the fold stops the token of the caller, the run ends. -/
theorem cancels (h : Steady p callerStopped s)
    (hfolded : s.system.folded = folded.map Errand.Outcome.result)
    {before after : List (Errand.Outcome ω ρ)} {last : Errand.Outcome ω ρ}
    (hsplit : folded = before ++ last :: after) (hcancels : p.Cancels before last) :
    after = [] ∧ s.system.callerStopped = true := by
  rw [hsplit, List.map_append, List.map_cons] at hfolded
  obtain ⟨hafter, hstopped⟩ := h.halting.last _ _ _ hfolded hcancels
  exact ⟨List.map_eq_nil_iff.mp hafter, hstopped⟩

theorem stoppedEarly_iff (h : Steady p callerStopped s)
    (hfolded : s.system.folded = folded.map Errand.Outcome.result) :
    s.system.stoppedEarly = true ↔
      ∃ before last, folded = before ++ [last] ∧ p.Decides before last := by
  refine ⟨fun hearly => ?_, ?_⟩
  · obtain ⟨-, before, r, hlast, hstop⟩ := h.folding.early hearly
    obtain ⟨before, last, rfl, rfl, rfl⟩ := exists_last_eq (hfolded.symm.trans hlast)
    exact ⟨before, last, rfl, hstop⟩
  · rintro ⟨before, last, hsplit, hdecides⟩
    exact (h.decides hfolded hsplit hdecides).2

/-- A run that returns has been cancelled when its last fold stopped the token of the caller and did
not have the answer. -/
theorem cancelled_iff (h : Steady p false s) (hreturned : s.system.aggregator = .returned)
    (hfolded : s.system.folded = folded.map Errand.Outcome.result) :
    s.system.cancelled = true ↔
      ∃ before last, folded = before ++ [last] ∧ p.Cancels before last ∧
        ¬ p.Decides before last := by
  refine ⟨fun hcancelled => ?_, ?_⟩
  · obtain ⟨hstopped, hearly⟩ := h.halting.cancelled hcancelled
    obtain ⟨hstart, -⟩ | ⟨before, r, hlast, hstops⟩ := h.halting.caller hstopped
    · cases hstart
    · obtain ⟨before, last, rfl, rfl, rfl⟩ := exists_last_eq (hfolded.symm.trans hlast)
      refine ⟨before, last, rfl, hstops, fun hdecides => ?_⟩
      cases hearly.symm.trans (h.decides hfolded rfl hdecides).2
  · rintro ⟨before, last, hsplit, hcancels, hproceeds⟩
    have hsettled := h.halting.settled (h.cancels hfolded hsplit hcancels).2
    rw [hreturned] at hsettled
    refine (hsettled.resolve_left nofun).resolve_right fun hearly => hproceeds ?_
    obtain ⟨before', last', hsplit', hdecides⟩ := (h.stoppedEarly_iff hfolded).mp hearly
    obtain ⟨rfl, hlast⟩ := List.append_inj' (hsplit.symm.trans hsplit') rfl
    cases hlast
    exact hdecides

/-- A run that returns for want of senders has folded all that one worker delivers. -/
theorem drained_of_returned (h : Steady p callerStopped s)
    (hreturned : s.system.aggregator = .returned) (hearly : s.system.stoppedEarly = false)
    (hcancelled : s.system.cancelled = false) :
    s.system.callerStopped = false ∧
      s.system.folded = (served p).map Errand.Outcome.result := by
  have hquiet : s.system.callerStopped = false := by
    by_contra hstopped
    have hsettled := h.halting.settled (Bool.eq_true_of_not_eq_false hstopped)
    rw [hreturned, hcancelled, hearly] at hsettled
    rcases hsettled with hloop | hloop | hloop <;> cases hloop
  exact ⟨hquiet, h.drained ⟨by rw [hreturned]; rfl, hcancelled, hearly⟩ hquiet⟩

/-- Then nothing is left. -/
theorem rest_eq_nil {rest : List (Errand.Outcome ω ρ)} (hserved : served p = folded ++ rest)
    (hfolded : s.system.folded = folded.map Errand.Outcome.result)
    (hall : s.system.folded = (served p).map Errand.Outcome.result) : rest = [] := by
  have hlength := congrArg List.length (hfolded.symm.trans hall)
  rw [hserved, List.length_map, List.length_map, List.length_append] at hlength
  exact List.eq_nil_of_length_eq_zero (by omega)

/-- A run that returns has folded the results of all tasks, or up to one after which nothing is
folded. -/
theorem ends (h : Steady p false s) (hreturned : s.system.aggregator = .returned)
    (hfolded : s.system.folded = folded.map Errand.Outcome.result)
    {rest : List (Errand.Outcome ω ρ)} (hserved : served p = folded ++ rest) :
    folded = p.outcomes ∨ ∃ before last, folded = before ++ [last] ∧ p.Ends before last := by
  cases hearly : s.system.stoppedEarly with
  | true =>
      obtain ⟨before, last, hsplit, hdecides⟩ := (h.stoppedEarly_iff hfolded).mp hearly
      exact .inr ⟨before, last, hsplit, .inr (.inl hdecides)⟩
  | false =>
      cases hcancelled : s.system.cancelled with
      | true =>
          obtain ⟨before, last, hsplit, hcancels, -⟩ :=
            (h.cancelled_iff hreturned hfolded).mp hcancelled
          exact .inr ⟨before, last, hsplit, .inr (.inr hcancels)⟩
      | false =>
          obtain ⟨-, hall⟩ := h.drained_of_returned hreturned hearly hcancelled
          rw [rest_eq_nil hserved hfolded hall, List.append_nil] at hserved
          refine (serve_isPrefix p.store (p.tasks.map p.work)).2.imp hserved.symm.trans ?_
          rintro ⟨before, last, hsplit, hstopped⟩
          exact ⟨before, last, hserved.symm.trans hsplit, .inl hstopped⟩

/-- Nothing is folded after the result of an outcome that ends the run. -/
theorem last (h : Steady p callerStopped s)
    (hfolded : s.system.folded = folded.map Errand.Outcome.result)
    {rest before after : List (Errand.Outcome ω ρ)} {last : Errand.Outcome ω ρ}
    (hserved : served p = folded ++ rest) (hsplit : folded = before ++ last :: after)
    (hends : p.Ends before last) : after = [] := by
  rcases hends with hstopped | hdecides | hcancels
  · rw [hsplit, List.append_assoc, List.cons_append] at hserved
    exact (List.append_eq_nil_iff.mp (serve_last hserved hstopped)).1
  · exact (h.decides hfolded hsplit hdecides).1
  · exact (h.cancels hfolded hsplit hcancels).1

end Steady

/-! ### Jobs -/

/-- None of the results ends the run. -/
def Proceed (p : ErrandPlan ω τ ρ α) (results : List ρ) : Prop :=
  ∀ before r after, results = before ++ r :: after →
    p.plan.answer before r ≠ .stop ∧ p.stopsCaller (p.plan.valueAfter before) r = false

/-- The accumulator, the number of results folded, and the ending, when results are folded one after
another. -/
def conclude (p : ErrandPlan ω τ ρ α) : α → Nat → List ρ → α × Nat × Ending
  | acc, completed, [] => (acc, completed, .drained)
  | acc, completed, r :: rest =>
    match p.fold acc r with
    | (.stop, acc') => (acc', completed + 1, .decided)
    | (.proceed, acc') =>
      if p.stopsCaller acc r then (acc', completed + 1, .cancelled)
      else conclude p acc' (completed + 1) rest

theorem fold_valueAfter (p : ErrandPlan ω τ ρ α) (results : List ρ) (r : ρ) :
    p.fold (p.plan.valueAfter results) r =
      (p.plan.answer results r, p.plan.valueAfter (results ++ [r])) := by
  rw [valueAfter_append_singleton]
  rfl

theorem eq_proceed_of_ne_stop {flow : Flow} (h : flow ≠ .stop) : flow = .proceed := by
  cases flow with
  | proceed => rfl
  | stop => exact absurd rfl h

section Conclude

variable {acc acc' : α} {completed : Nat} {r : ρ} {rest : List ρ}

theorem conclude_of_stop (hfold : p.fold acc r = (.stop, acc')) :
    conclude p acc completed (r :: rest) = (acc', completed + 1, .decided) := by
  rw [conclude, hfold]

theorem conclude_of_proceed (hfold : p.fold acc r = (.proceed, acc')) :
    conclude p acc completed (r :: rest) =
      if p.stopsCaller acc r then (acc', completed + 1, .cancelled)
      else conclude p acc' (completed + 1) rest := by
  rw [conclude, hfold]

/-- Results that do not end the run are folded before the others. -/
theorem conclude_append (results rest : List ρ) (hproceeds : Proceed p results) :
    conclude p p.start 0 (results ++ rest) =
      conclude p (p.plan.valueAfter results) results.length rest := by
  -- from the back, since the accumulator is that after all results before
  induction results using List.reverseRecOn generalizing rest with
  | nil => rfl
  | append_singleton results r ih =>
      obtain ⟨hanswer, hstops⟩ := hproceeds results r [] rfl
      have hfold := fold_valueAfter p results r
      rw [eq_proceed_of_ne_stop hanswer] at hfold
      rw [List.append_assoc, List.singleton_append, ih _ fun before r' after hsplit =>
        hproceeds before r' (after ++ [r]) (by rw [hsplit]; simp)]
      rw [conclude_of_proceed hfold, hstops, List.length_append, List.length_singleton]
      rfl

end Conclude

/-- **The job comes to the end of what one worker delivers.** -/
theorem runFrom_job [Inhabited τ] (next : Nat) {rest : List τ} (hrest : p.tasks.drop next = rest)
    (acc : α) (stopped : Bool) (store : ω) :
    let report := p.job.runFrom rest.length next acc ⟨false, stopped, store⟩
    (report.value, report.completed, report.ending) =
      conclude p acc next ((serve stopped store (rest.map p.work)).map Errand.Outcome.result) := by
  induction rest generalizing next acc stopped store with
  | nil =>
      rw [List.length_nil, Job.runFrom_zero rfl, List.map_nil, serve_nil]
      rfl
  | cons t rest ih =>
      have ht : p.job.task next = t := by
        show p.tasks.getD next default = t
        rw [List.getD_eq_getElem?_getD, ← List.head?_drop, hrest]
        rfl
      have hrest' : p.tasks.drop (next + 1) = rest := by
        rw [← List.tail_drop, hrest]
        rfl
      cases stopped with
      | true =>
          rw [serve_stopped]
          rfl
      | false =>
          rcases hfold : p.fold acc ((p.work t).run false store).result with ⟨flow, acc'⟩
          have hfolded : p.job.fold acc ((p.work t).run false store).result
              ⟨false, ((p.work t).run false store).stopped, ((p.work t).run false store).store⟩ =
                (flow, acc', ⟨p.stopsCaller acc ((p.work t).run false store).result,
                  ((p.work t).run false store).stopped,
                  ((p.work t).run false store).store⟩) := by
            simp only [ErrandPlan.job, hfold, Bool.false_or]
          rw [List.length_cons, Job.runFrom_succ rfl rfl (ht ▸ rfl) hfolded, List.map_cons, serve,
            List.map_cons]
          cases flow with
          | stop => rw [if_pos rfl, conclude_of_stop hfold]
          | proceed =>
              rw [if_neg nofun, conclude_of_proceed hfold]
              cases hstops : p.stopsCaller acc ((p.work t).run false store).result with
              | true => rw [Job.runFrom_stopped rfl]; rfl
              | false => exact ih _ hrest' acc' _ _

/-- How a run that has returned has ended. -/
def System.ending {τ : Type} (s : System τ ρ α) : Ending :=
  if s.stoppedEarly then .decided else if s.cancelled then .cancelled else .drained

namespace Steady

/-- A result does not end the run when the fold has gone on after it. -/
theorem proceeds_of_not_last {callerStopped : Bool} (h : Steady p callerStopped s)
    {before after : List ρ} {r : ρ} (hfolded : s.system.folded = before ++ r :: after)
    (hgoes : after ≠ [] ∨ s.system.stoppedEarly = false ∧ s.system.callerStopped = false) :
    p.plan.answer before r ≠ .stop ∧ p.stopsCaller (p.plan.valueAfter before) r = false := by
  refine ⟨fun hstop => ?_, ?_⟩
  · obtain ⟨hlast, hearly⟩ := h.folding.last _ _ _ hfolded hstop
    obtain hafter | ⟨hproceeds, -⟩ := hgoes
    · exact hafter hlast
    · cases hproceeds.symm.trans hearly
  · by_contra hstops
    obtain ⟨hlast, hstopped⟩ := h.halting.last _ _ _ hfolded (Bool.eq_true_of_not_eq_false hstops)
    obtain hafter | ⟨-, hquiet⟩ := hgoes
    · exact hafter hlast
    · cases hquiet.symm.trans hstopped

/-- What is folded before the last result does not end the run. -/
theorem proceed_before {callerStopped : Bool} (h : Steady p callerStopped s) {results : List ρ}
    {r : ρ} (hfolded : s.system.folded = results ++ [r]) : Proceed p results := by
  rintro before r' after rfl
  rw [List.append_assoc, List.cons_append] at hfolded
  exact h.proceeds_of_not_last hfolded (.inl (by simp))

/-- A run that has the answer is not cancelled. -/
theorem cancelled_eq_false {callerStopped : Bool} (h : Steady p callerStopped s)
    (hearly : s.system.stoppedEarly = true) : s.system.cancelled = false := by
  by_contra hcancelled
  have hnot := (h.halting.cancelled (Bool.eq_true_of_not_eq_false hcancelled)).2
  cases hearly.symm.trans hnot

/-- **The system comes to the end of what one worker delivers.** -/
theorem concludes (h : Steady p false s) (hreturned : s.system.aggregator = .returned) :
    (s.system.value, s.system.completed, s.system.ending) =
      conclude p p.start 0 ((served p).map Errand.Outcome.result) := by
  obtain ⟨folded, rest, hserved, hfolded⟩ := h.exists_folded_eq
  rw [h.folding.value, h.folding.completed, hserved, List.map_append, ← hfolded]
  cases hearly : s.system.stoppedEarly with
  | true =>
      obtain ⟨-, before, r, hlast, hstop⟩ := h.folding.early hearly
      have hfold := fold_valueAfter p before r
      rw [hstop] at hfold
      rw [hlast, List.append_assoc, conclude_append before _ (h.proceed_before hlast),
        List.singleton_append, conclude_of_stop hfold, System.ending, hearly, List.length_append]
      rfl
  | false =>
      cases hcancelled : s.system.cancelled with
      | true =>
          obtain ⟨hstopped, -⟩ := h.halting.cancelled hcancelled
          obtain ⟨before, r, hlast, hstops⟩ := (h.halting.caller hstopped).resolve_left nofun
          have hproceeds : p.plan.answer before r ≠ .stop := fun hstop =>
            Bool.false_ne_true (hearly.symm.trans (h.folding.last _ _ _ hlast hstop).2)
          have hfold := fold_valueAfter p before r
          rw [eq_proceed_of_ne_stop hproceeds] at hfold
          rw [hlast, List.append_assoc, conclude_append before _ (h.proceed_before hlast),
            List.singleton_append, conclude_of_proceed hfold, if_pos hstops, System.ending, hearly,
            hcancelled, List.length_append]
          rfl
      | false =>
          obtain ⟨hquiet, hall⟩ := h.drained_of_returned hreturned hearly hcancelled
          -- the fold has not even ended the run with its last result
          have hproceeds : Proceed p s.system.folded := fun _ _ _ hsplit =>
            h.proceeds_of_not_last hsplit (.inr ⟨hearly, hquiet⟩)
          have hnone : rest = [] := rest_eq_nil hserved hfolded hall
          rw [hnone, List.map_nil, conclude_append _ _ hproceeds, System.ending, hearly, hcancelled]
          rfl

/-- When the token of the caller was stopped before the start, nothing is folded. -/
theorem cancelled_of_start (h : Steady p true s) (hreturned : s.system.aggregator = .returned) :
    s.system.folded = [] ∧ s.system.stoppedEarly = false ∧ s.system.cancelled = true := by
  obtain ⟨hcaller, hfolded⟩ := h.halting.start rfl
  have hearly : s.system.stoppedEarly = false := by
    by_contra hearly
    obtain ⟨-, before, r, hlast, -⟩ := h.folding.early (Bool.eq_true_of_not_eq_false hearly)
    exact absurd (hfolded.symm.trans hlast).symm (by simp)
  have hsettled := h.halting.settled hcaller
  rw [hreturned, hearly] at hsettled
  exact ⟨hfolded, hearly, (hsettled.resolve_left nofun).resolve_right nofun⟩

/-- **The system reports what the job reports** that takes one task after another. -/
theorem reports_job [Inhabited τ] {callerStopped : Bool} (h : Steady p callerStopped s)
    (hreturned : s.system.aggregator = .returned) :
    let report := p.job.run p.start ⟨callerStopped, false, p.store⟩
    s.system.value = report.value ∧ s.system.completed = report.completed ∧
      s.system.stoppedEarly = report.stoppedEarly ∧ s.system.cancelled = report.cancelled := by
  intro report
  cases callerStopped with
  | true =>
      obtain ⟨hfolded, hearly, hcancelled⟩ := h.cancelled_of_start hreturned
      have hreport : report = ⟨p.start, ⟨true, false, p.store⟩, .cancelled, 0⟩ :=
        Job.runFrom_stopped rfl
      rw [h.folding.value, h.folding.completed, hfolded, hearly, hcancelled, hreport]
      exact ⟨rfl, rfl, rfl, rfl⟩
  | false =>
      have hjob := runFrom_job (p := p) 0 rfl p.start false p.store
      obtain ⟨hvalue, hrest⟩ := Prod.mk.inj (hjob.trans (h.concludes hreturned).symm)
      obtain ⟨hcompleted, hending⟩ := Prod.mk.inj hrest
      have hending' : report.ending = s.system.ending := hending
      refine ⟨hvalue.symm, hcompleted.symm, ?_⟩
      rw [RunReport.stoppedEarly, RunReport.cancelled, hending', System.ending]
      cases hearly : s.system.stoppedEarly with
      | false => cases s.system.cancelled <;> exact ⟨rfl, rfl⟩
      | true =>
          rw [h.cancelled_eq_false hearly]
          exact ⟨rfl, rfl⟩

end Steady

/-- **With one worker a definite prefix is folded.**  From every state of a run some steps lead to
its end.  A run that has returned has folded nothing if the token of the caller was stopped before
the start.  Otherwise it has folded, in order, the results of the shortest prefix of the tasks whose
last one made the worker stop its token, or whose last result made the fold answer with a stop or
stop the token of the caller, or of all tasks if there is none; it was stopped early if the last
fold answered with a stop, and cancelled if the last fold stopped the token of the caller and did
not answer with a stop.  All runs come to the report of the job that takes one task after
another. -/
theorem oneWorker_folds_prefix (p : ErrandPlan ω τ ρ α) (hworkers : p.config.workers ≤ 1)
    (callerStopped : Bool) (schedule : List Move) (s : ErrandSystem ω ρ α)
    (h : followSchedule p.step schedule (p.initial callerStopped) = some s) :
    (∃ s', LeadsTo p.step s s' ∧ s'.system.aggregator = .returned) ∧
    (s.system.aggregator = .returned →
      (s.system.value = p.plan.valueAfter s.system.folded ∧
        s.system.completed = s.system.folded.length) ∧
      (callerStopped = true →
        s.system.folded = [] ∧ s.system.stoppedEarly = false ∧ s.system.cancelled = true) ∧
      (callerStopped = false → ∃ folded, folded <+: p.outcomes ∧
        s.system.folded = folded.map Errand.Outcome.result ∧
        (folded = p.outcomes ∨ ∃ before last, folded = before ++ [last] ∧ p.Ends before last) ∧
        (∀ before last after, folded = before ++ last :: after → p.Ends before last →
          after = []) ∧
        (s.system.stoppedEarly = true ↔
          ∃ before last, folded = before ++ [last] ∧ p.Decides before last) ∧
        (s.system.cancelled = true ↔
          ∃ before last, folded = before ++ [last] ∧ p.Cancels before last ∧
            ¬ p.Decides before last)) ∧
      ∀ [Inhabited τ],
        let report := p.job.run p.start ⟨callerStopped, false, p.store⟩
        s.system.value = report.value ∧ s.system.completed = report.completed ∧
          s.system.stoppedEarly = report.stoppedEarly ∧ s.system.cancelled = report.cancelled) := by
  have hsteady := followSchedule_steady hworkers h
  refine ⟨?_, fun hreturned => ⟨⟨hsteady.folding.value, hsteady.folding.completed⟩,
    fun hstopped => ?_, fun hquiet => ?_, hsteady.reports_job hreturned⟩⟩
  · obtain ⟨w, hw⟩ := List.length_eq_one_iff.mp hsteady.staffed
    exact p.exists_returned hw
  · subst hstopped
    exact hsteady.cancelled_of_start hreturned
  · subst hquiet
    obtain ⟨folded, rest, hserved, hfolded⟩ := hsteady.exists_folded_eq
    refine ⟨folded, ?_, hfolded, hsteady.ends hreturned hfolded hserved,
      fun before last after => hsteady.last hfolded hserved, hsteady.stoppedEarly_iff hfolded,
      hsteady.cancelled_iff hreturned hfolded⟩
    exact List.IsPrefix.trans ⟨rest, hserved.symm⟩ (serve_isPrefix p.store (p.tasks.map p.work)).1

/-- One worker squares four numbers and adds how many it has squared before.  It stops its token at
2, and where it sees the token stopped it gives up.  The fold stops the token of the caller at 2. -/
def countedSquares : ErrandPlan Nat Nat Nat Nat where
  config := ⟨1, 2, 50⟩
  tasks := [3, 1, 2, 5]
  work t := .use (fun count =>
    if t = 2 then .stop (.done (t * t + count))
    else .look fun stopped => .done (if stopped then 0 else t * t + count)) (· + 1)
  store := 0
  fold acc r := (.proceed, 10 * acc + r)
  stopsCaller _ r := r = 2
  start := 0

/-- A schedule in which the worker has stopped its token before the first result is folded. -/
def runningAhead : List Move :=
  List.flatten [
    -- The queue is full with two tasks, and the producer waits.
    .replicate 10 .produce, .replicate 2 (.work 0), .replicate 4 .produce,
    .replicate 7 (.work 0), .replicate 5 .produce, .replicate 13 (.work 0),
    [.dropTasks 0, .dropResults 0], .replicate 11 .aggregate]

theorem oneWorker_folds_prefix_runningAhead :
    ∃ s, followSchedule countedSquares.step runningAhead (countedSquares.initial false) = some s ∧
      countedSquares.outcomes.map Errand.Outcome.result = [9, 2, 6, 28] ∧
      s.system.folded = [9, 2] ∧ s.system.results = [6] ∧ s.system.value = 92 ∧
      s.system.stoppedEarly = false ∧ s.system.cancelled = true := by
  have hrun : (followSchedule countedSquares.step runningAhead (countedSquares.initial false)).map
      (fun s => (s.system.folded, s.system.results, s.system.aggregator)) =
        some ([9, 2], [6], .returned) := by decide +kernel
  obtain ⟨s, hs, hend⟩ := Option.map_eq_some_iff.mp hrun
  simp only [Prod.mk.injEq] at hend
  obtain ⟨hfolded, hresults, hreturned⟩ := hend
  obtain ⟨-, h⟩ := oneWorker_folds_prefix countedSquares (by decide) false runningAhead s hs
  obtain ⟨hvalue, -, hearly, hcancelled⟩ := (h hreturned).2.2.2
  exact ⟨s, hs, by decide, hfolded, hresults, hvalue, hearly, hcancelled⟩

end Pipeline

end MutationFinite
