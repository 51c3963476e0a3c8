import MutationFinite.Pipeline.Errands
import MutationFinite.Proofs.Pipeline.Steps

/-!
# What a step of a pipeline with errands can do

A worker takes an action for its errand, the aggregator folds a result and may stop the token of the
caller, or the parties take a step as they do without errands.

* `callerStopped_of_step`: the one move that stops the token of the caller.
* `Takes`: all steps; `takes_of_step` says that there are no others.
-/

namespace MutationFinite

open Plan

namespace Pipeline

/-! ### What steps leave as it is -/

section Frame

variable {τ ρ α : Type} {p : Plan τ ρ α} {s s' : System τ ρ α} {i : Nat} {w : Worker τ ρ}

/-- A step touches neither the token of the caller nor what was folded. -/
structure SameCaller (s s' : System τ ρ α) : Prop where
  callerStopped : s'.callerStopped = s.callerStopped
  folded : s'.folded = s.folded

/-- A worker that is in the middle of a task stays in it. -/
def SameWorking (s s' : System τ ρ α) : Prop :=
  ∀ t, Worker.working t ∈ s.workers → Worker.working t ∈ s'.workers

theorem SameWorking.of_eq (h : s'.workers = s.workers) : SameWorking s s' :=
  fun _ ht => h ▸ ht

/-- One of the others goes on. -/
theorem SameWorking.of_set (hw : s.workers[i]? = some w) (hidle : ∀ t, w ≠ .working t)
    {w' : Worker τ ρ} (h : s'.workers = s.workers.set i w') : SameWorking s s' := by
  intro t ht
  obtain ⟨j, hj⟩ := List.mem_iff_getElem?.mp ht
  have hij : i ≠ j := by
    rintro rfl
    exact hidle t (Option.some.inj (hw.symm.trans hj))
  rw [h]
  exact List.mem_iff_getElem?.mpr ⟨j, by rw [List.getElem?_set_ne hij, hj]⟩

theorem frame_of_produce (h : p.produce s = some s') :
    SameCaller s s' ∧ s'.workers = s.workers := by
  unfold produce at h
  repeat' split at h
  all_goals cases h
  all_goals exact ⟨⟨rfl, rfl⟩, rfl⟩

theorem frame_of_workOn (h : p.workOn s i w = some s') :
    SameCaller s s' ∧ ∃ w', s'.workers = s.workers.set i w' := by
  unfold workOn at h
  repeat' split at h
  all_goals cases h
  all_goals exact ⟨⟨rfl, rfl⟩, _, rfl⟩

theorem frame_of_aggregate (hempty : s.aggregator = .receiving → s.results = [])
    (h : p.aggregate s = some s') : SameCaller s s' ∧ s'.workers = s.workers := by
  cases hat : s.aggregator with
  | receiving =>
      simp only [aggregate, hat, hempty hat] at h
      repeat' split at h
      all_goals cases h
      all_goals exact ⟨⟨rfl, rfl⟩, rfl⟩
  | starting | polling | noting | stopping | hangingUp | joining | returned =>
      simp only [aggregate, hat] at h
      repeat' split at h
      all_goals cases h
      all_goals exact ⟨⟨rfl, rfl⟩, rfl⟩

/-- A move that concerns one worker alone, who is not in the middle of a task. -/
theorem frame_of_local {f : Worker τ ρ → Option (Worker τ ρ)} (hf : ∀ t, f (.working t) = none)
    (h : (s.workers[i]?.bind f).map (s.withWorker i) = some s') :
    SameCaller s s' ∧ SameWorking s s' := by
  obtain ⟨w', hnext, rfl⟩ := Option.map_eq_some_iff.mp h
  obtain ⟨w, hw, hnext⟩ := Option.bind_eq_some_iff.mp hnext
  refine ⟨⟨rfl, rfl⟩, .of_set hw (fun t hworking => ?_) rfl⟩
  rw [hworking, hf] at hnext
  cases hnext

theorem callerStopped_of_aggregate (h : p.aggregate s = some s') :
    s'.callerStopped = s.callerStopped := by
  unfold aggregate at h
  repeat' split at h
  all_goals cases h
  all_goals rfl

/-- The token of the caller is stopped by one move, and stays as it is in all others. -/
theorem callerStopped_of_step {move : Move} (h : p.step s move = some s') :
    s'.callerStopped = (s.callerStopped || decide (move = .stopCaller)) := by
  cases move with
  | stopCaller =>
      cases h
      exact (Bool.or_true _).symm
  | produce =>
      rw [(frame_of_produce h).1.callerStopped]
      exact (Bool.or_false _).symm
  | work i =>
      obtain ⟨w, -, h⟩ := Option.bind_eq_some_iff.mp h
      rw [(frame_of_workOn h).1.callerStopped]
      exact (Bool.or_false _).symm
  | workTimeOut i | dropTasks i | dropResults i =>
      rw [(frame_of_local (fun _ => rfl) h).1.callerStopped]
      exact (Bool.or_false _).symm
  | aggregate =>
      rw [callerStopped_of_aggregate h]
      exact (Bool.or_false _).symm
  | produceTimeOut | aggregateTimeOut =>
      simp only [step] at h
      split at h <;> cases h
      exact (Bool.or_false _).symm

end Frame

/-! ### Steps -/

variable {ω τ ρ α : Type} {p : ErrandPlan ω τ ρ α} {s s' : ErrandSystem ω ρ α}

/-- The state in which the next result is folded. -/
def ErrandSystem.withFolded (p : ErrandPlan ω τ ρ α) (s : ErrandSystem ω ρ α) (r : ρ)
    (rest : List ρ) (value : α) : ErrandSystem ω ρ α :=
  { s with system := { s.system with
      results := rest, completed := s.system.completed + 1, value,
      folded := s.system.folded ++ [r],
      callerStopped := s.system.callerStopped || p.stopsCaller s.system.value r } }

/-- A step of the system. -/
inductive Takes (p : ErrandPlan ω τ ρ α) (s : ErrandSystem ω ρ α) : ErrandSystem ω ρ α → Prop where
  | goes {next : System (Errand ω ρ) ρ α} (hgoes : Goes p.plan s.system next)
      (hcaller : SameCaller s.system next) (hworking : SameWorking s.system next) :
      Takes p s { s with system := next }
  | act {i : Nat} {errand : Errand ω ρ} (hat : s.system.workers[i]? = some (.working errand)) :
      Takes p s (ErrandPlan.act s i errand)
  | fold {r : ρ} {rest : List ρ} {value : α} (hat : s.system.aggregator = .receiving)
      (hresults : s.system.results = r :: rest)
      (hfold : p.fold s.system.value r = (.proceed, value)) :
      Takes p s { s.withFolded p r rest value with
        system := { (s.withFolded p r rest value).system with aggregator := .polling } }
  | decide {r : ρ} {rest : List ρ} {value : α} (hat : s.system.aggregator = .receiving)
      (hresults : s.system.results = r :: rest)
      (hfold : p.fold s.system.value r = (.stop, value)) :
      Takes p s { s.withFolded p r rest value with
        system := { (s.withFolded p r rest value).system with
          stoppedEarly := true, aggregator := .stopping } }

theorem takes_of_aggregate
    (h : (p.plan.aggregate s.system).map (fun next => { s with system := { next with
      callerStopped := next.callerStopped || p.foldStops s.system } }) = some s') :
    Takes p s s' := by
  obtain ⟨next, hnext, rfl⟩ := Option.map_eq_some_iff.mp h
  -- only a step that folds a result may stop the token of the caller
  by_cases hresult : s.system.aggregator = .receiving ∧ s.system.results ≠ []
  · obtain ⟨hat, hresults⟩ := hresult
    obtain ⟨r, rest, hresults⟩ := List.exists_cons_of_ne_nil hresults
    have hstops : p.foldStops s.system = p.stopsCaller s.system.value r := by
      simp only [ErrandPlan.foldStops, hat, hresults]
    rcases hfold : p.fold s.system.value r with ⟨_ | _, value⟩ <;>
      simp only [aggregate, ErrandPlan.plan, hat, hresults, hfold] at hnext <;> cases hnext <;>
      rw [hstops]
    · exact .fold hat hresults hfold
    · exact .decide hat hresults hfold
  · have hempty : s.system.aggregator = .receiving → s.system.results = [] :=
      fun hat => Classical.byContradiction fun hresults => hresult ⟨hat, hresults⟩
    have hquiet : p.foldStops s.system = false := by
      unfold ErrandPlan.foldStops
      split
      · next hat hresults => cases (hempty hat).symm.trans hresults
      · rfl
    obtain ⟨hcaller, hworkers⟩ := frame_of_aggregate hempty hnext
    rw [hquiet, Bool.or_false]
    exact .goes (goes_of_aggregate hnext) hcaller (.of_eq hworkers)

/-- **There are no other steps.** -/
theorem takes_of_step {move : Move} (h : p.step s move = some s') : Takes p s s' := by
  cases move with
  | stopCaller => cases h
  | produce =>
      obtain ⟨next, hnext, rfl⟩ := Option.map_eq_some_iff.mp h
      obtain ⟨hcaller, hworkers⟩ := frame_of_produce hnext
      exact .goes (goes_of_produce hnext) hcaller (.of_eq hworkers)
  | produceTimeOut =>
      obtain ⟨next, hnext, rfl⟩ := Option.map_eq_some_iff.mp h
      refine .goes (goes_of_step hnext) ?_ ?_ <;> simp only [step] at hnext <;> split at hnext <;>
        cases hnext
      · exact ⟨rfl, rfl⟩
      · exact .of_eq rfl
  | work i =>
      obtain ⟨w, hw, h⟩ := Option.bind_eq_some_iff.mp h
      cases w with
      | working errand =>
          cases h
          exact .act hw
      | polling | receiving | holding | sending | leaving =>
          obtain ⟨next, hnext, rfl⟩ := Option.map_eq_some_iff.mp h
          obtain ⟨hcaller, w', hworkers⟩ := frame_of_workOn hnext
          exact .goes (goes_of_workOn hw hnext) hcaller
            (.of_set hw (fun _ hworking => by cases hworking) hworkers)
  | workTimeOut i | dropTasks i | dropResults i =>
      obtain ⟨next, hnext, rfl⟩ := Option.map_eq_some_iff.mp h
      obtain ⟨hcaller, hworking⟩ := frame_of_local (fun _ => rfl) hnext
      exact .goes (goes_of_step hnext) hcaller hworking
  | aggregate => exact takes_of_aggregate h
  | aggregateTimeOut =>
      obtain ⟨next, hnext, rfl⟩ := Option.map_eq_some_iff.mp h
      refine .goes (goes_of_step hnext) ?_ ?_ <;> simp only [step] at hnext <;> split at hnext <;>
        cases hnext
      · exact ⟨rfl, rfl⟩
      · exact .of_eq rfl

end Pipeline

end MutationFinite
