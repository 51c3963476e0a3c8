import MutationFinite.Proofs.Pipeline.Interleaving
import Mathlib.Data.List.Forall2
import Mathlib.Data.List.Induction

/-!
# Folding results

A run folds its results until the fold has its answer.  Whatever the order of the steps of the
parties, a run that has returned and that nobody stopped has folded the results of all tasks in some
order, up to the one that has ended the fold.

* `foldUntilStop`: folds a list of results until the fold stops.
* `Job.runFrom_zero`, `Job.runFrom_succ`: what a run does that goes on.
* `exists_order_of_returned`: what a run has folded that has returned.
-/

namespace MutationFinite

/-- Folds the results until the fold stops. -/
def foldUntilStop {α ρ : Type} (fold : α → ρ → Flow × α) : α → List ρ → α
  | acc, [] => acc
  | acc, r :: rest =>
    match fold acc r with
    | (.stop, acc) => acc
    | (.proceed, acc) => foldUntilStop fold acc rest

section Folding

variable {α ρ : Type} {fold : α → ρ → Flow × α} {acc : α} {r : ρ} {rest : List ρ}

theorem foldUntilStop_cons : foldUntilStop fold acc (r :: rest) =
    if (fold acc r).1 = .stop then (fold acc r).2 else foldUntilStop fold (fold acc r).2 rest := by
  rw [foldUntilStop]
  rcases fold acc r with ⟨flow, acc'⟩
  cases flow <;> rfl

/-- Results may be read before the fold or by it. -/
theorem foldUntilStop_map {σ : Type} (fold : α → ρ → Flow × α) (g : σ → ρ) (acc : α)
    (results : List σ) :
    foldUntilStop fold acc (results.map g) =
      foldUntilStop (fun acc r => fold acc (g r)) acc results := by
  induction results generalizing acc with
  | nil => rfl
  | cons r rest ih => rw [List.map_cons, foldUntilStop_cons, foldUntilStop_cons, ih]

end Folding

/-! ### Runs -/

namespace Job

variable {ω τ ρ α : Type} {job : Job ω τ ρ α} {acc acc' : α} {world polled worked folded : ω}
  {result : ρ} {flow : Flow} {next remaining : Nat}

/-- A run without tasks left has its answer. -/
theorem runFrom_zero (hpoll : job.poll world = (false, polled)) :
    job.runFrom 0 next acc world = ⟨acc, polled, .drained, next⟩ := by
  rw [runFrom, hpoll]

/-- A run ends when the token of the caller is stopped. -/
theorem runFrom_stopped (hpoll : job.poll world = (true, polled)) :
    job.runFrom remaining next acc world = ⟨acc, polled, .cancelled, next⟩ := by
  cases remaining <;> rw [runFrom, hpoll]

/-- A run with a task left ends when the workers are told to stop. -/
theorem runFrom_unstaffed (hpoll : job.poll world = (false, polled))
    (hworkers : job.workersStopped polled = true) :
    job.runFrom (remaining + 1) next acc world = ⟨acc, polled, .drained, next⟩ := by
  rw [runFrom, hpoll]
  exact if_pos hworkers

/-- A run with a task left works on it and folds the result. -/
theorem runFrom_succ (hpoll : job.poll world = (false, polled))
    (hworkers : job.workersStopped polled = false)
    (hwork : job.work (job.task next) polled = (result, worked))
    (hfold : job.fold acc result worked = (flow, acc', folded)) :
    job.runFrom (remaining + 1) next acc world =
      if flow = .stop then ⟨acc', folded, .decided, next + 1⟩
      else job.runFrom remaining (next + 1) acc' folded := by
  rw [runFrom, hpoll]
  simp only [hworkers, hwork, hfold, Bool.false_eq_true, if_false]
  cases flow <;> rfl

end Job

/-! ### Runs of the parties -/

namespace Pipeline

variable {τ ρ α : Type} {p : Plan τ ρ α} {s : System τ ρ α}

/-- The fold goes on after each of the results, given those before it. -/
def Proceeds (p : Plan τ ρ α) (results : List ρ) : Prop :=
  ∀ before r after, results = before ++ r :: after → p.answer before r ≠ .stop

/-- Results after which the fold goes on, and others. -/
theorem foldUntilStop_append {results : List ρ} (h : Proceeds p results) (rest : List ρ) :
    foldUntilStop p.fold p.start (results ++ rest) =
      foldUntilStop p.fold (p.valueAfter results) rest := by
  induction results using List.reverseRecOn generalizing rest with
  | nil => rfl
  | append_singleton results r ih =>
      have hproceeds : Proceeds p results := fun before r' after hsplit =>
        h before r' (after ++ [r]) (by rw [hsplit, List.append_assoc, List.cons_append])
      have hgo : (p.fold (p.valueAfter results) r).1 ≠ .stop := h results r [] rfl
      rw [List.append_assoc, List.singleton_append, ih hproceeds, foldUntilStop_cons, if_neg hgo,
        Plan.valueAfter_append_singleton]

/-- What is folded is what a fold of all results reads, when others are put after it. -/
theorem Sound.exists_results (h : Sound p s) (hreturned : s.aggregator = .returned)
    (hquiet : s.callerStopped = false) :
    ∃ results, results.Perm (p.tasks.map p.work) ∧
      s.value = foldUntilStop p.fold p.start results := by
  cases hearly : s.stoppedEarly with
  | false =>
      have hcancelled : s.cancelled = false := by
        by_contra hcancelled
        have hcaller := h.concluding.cancelled (Bool.eq_true_of_not_eq_false hcancelled)
        cases hquiet.symm.trans hcaller
      have hdrained : s.HasDrained := ⟨by rw [hreturned]; rfl, hcancelled, hearly⟩
      have hproceeds : Proceeds p s.folded := by
        intro before r after hsplit hstop
        cases hearly.symm.trans (h.folding.last before r after hsplit hstop).2
      have hfold := foldUntilStop_append hproceeds []
      rw [List.append_nil] at hfold
      refine ⟨s.folded, h.concluding.folded hdrained hquiet, ?_⟩
      rw [hfold, h.folding.value]
      rfl
  | true =>
      obtain ⟨-, before, r, hfolded, hends⟩ := h.folding.early hearly
      replace hends : (p.fold (p.valueAfter before) r).1 = .stop := hends
      -- the results that nobody folds come last
      obtain ⟨results, hperm, hsub⟩ := h.accounted.folded_subperm.trans
        (h.producing.sent.map p.work).sublist.subperm
      obtain ⟨rest, hrest⟩ := hsub.exists_perm_append
      refine ⟨s.folded ++ rest, (hperm.symm.append_right rest).trans hrest.symm, ?_⟩
      have hbefore : Proceeds p before := by
        intro before' r' after hsplit hstop'
        have hlast := (h.folding.last before' r' (after ++ [r])
          (by rw [hfolded, hsplit, List.append_assoc, List.cons_append]) hstop').1
        exact List.append_ne_nil_of_right_ne_nil after (List.cons_ne_nil r []) hlast
      rw [h.folding.value, hfolded, List.append_assoc, List.singleton_append,
        foldUntilStop_append hbefore, foldUntilStop_cons, if_pos hends,
        Plan.valueAfter_append_singleton]

/-- **A run that has returned has folded the results of the tasks in some order**, up to the one
that has ended the fold, unless the caller stopped it. -/
theorem exists_order_of_returned {callerStopped : Bool} {schedule : List Move}
    (h : followSchedule p.step schedule (p.initial callerStopped) = some s)
    (hreturned : s.aggregator = .returned) (hquiet : s.callerStopped = false) :
    ∃ order : List τ, order.Perm p.tasks ∧
      s.value = foldUntilStop p.fold p.start (order.map p.work) := by
  obtain ⟨results, hperm, hvalue⟩ := (follow_sound h).exists_results hreturned hquiet
  have hwork : List.Forall₂ (fun r t => r = p.work t) (p.tasks.map p.work) p.tasks :=
    List.forall₂_map_left_iff.mpr (List.forall₂_same.mpr fun _ _ => rfl)
  obtain ⟨order, horder, htasks⟩ := List.perm_comp_forall₂ hperm hwork
  obtain rfl : results = order.map p.work :=
    List.forall₂_eq_eq_eq ▸ List.forall₂_map_right_iff.mpr horder
  exact ⟨order, htasks, hvalue⟩

end Pipeline

end MutationFinite
