/-!
# Schedules

A system of several parties takes one step after another; a schedule says who takes the next one.

* `followSchedule`: the state to which a schedule leads.
* `followSchedule_induction`: what every step keeps holds after every schedule.
* `LeadsTo`: some schedule leads from one state to another.
* `exists_leadsTo_of_decreasing`: a system that can always come nearer to its end can come to it.
-/

namespace MutationFinite

/-- The state after the moves of a schedule, one after another, if all of them can be made. -/
def followSchedule {μ σ : Type} (step : σ → μ → Option σ) : List μ → σ → Option σ
  | [], s => some s
  | move :: rest, s => (step s move).bind (followSchedule step rest)

variable {μ σ : Type} {step : σ → μ → Option σ} {s s' s'' : σ}

theorem followSchedule_append (first second : List μ) (s : σ) :
    followSchedule step (first ++ second) s =
      (followSchedule step first s).bind (followSchedule step second) := by
  induction first generalizing s with
  | nil => rfl
  | cons move rest ih =>
      simp only [List.cons_append, followSchedule, Option.bind_assoc]
      exact congrArg _ (funext ih)

/-- **What every step keeps holds after every schedule.** -/
theorem followSchedule_induction {P : σ → Prop}
    (hstep : ∀ s move s', step s move = some s' → P s → P s') {schedule : List μ} (hs : P s)
    (h : followSchedule step schedule s = some s') : P s' := by
  induction schedule generalizing s with
  | nil =>
      cases h
      exact hs
  | cons move rest ih =>
      obtain ⟨next, hmove, hrest⟩ := Option.bind_eq_some_iff.mp h
      exact ih (hstep s move next hmove hs) hrest

/-- Some schedule leads from one state to another. -/
def LeadsTo (step : σ → μ → Option σ) (s s' : σ) : Prop :=
  ∃ schedule, followSchedule step schedule s = some s'

namespace LeadsTo

theorem refl (s : σ) : LeadsTo step s s := ⟨[], rfl⟩

theorem one (move : μ) (h : step s move = some s') : LeadsTo step s s' :=
  ⟨[move], by rw [followSchedule, h]; rfl⟩

theorem trans (h : LeadsTo step s s') (h' : LeadsTo step s' s'') : LeadsTo step s s'' := by
  obtain ⟨first, hfirst⟩ := h
  obtain ⟨second, hsecond⟩ := h'
  exact ⟨first ++ second, by rw [followSchedule_append, hfirst]; exact hsecond⟩

theorem more (move : μ) (h : step s move = some s') (h' : LeadsTo step s' s'') :
    LeadsTo step s s'' :=
  (one move h).trans h'

end LeadsTo

/-- **A system that can always come nearer to its end can come to it.** -/
theorem exists_leadsTo_of_decreasing {P Ended : σ → Prop} (left : σ → Nat)
    (hleads : ∀ s, P s → ¬ Ended s → ∃ s', LeadsTo step s s' ∧ P s' ∧ left s' < left s)
    (s : σ) (hs : P s) : ∃ s', LeadsTo step s s' ∧ P s' ∧ Ended s' := by
  by_cases hended : Ended s
  · exact ⟨s, .refl s, hs, hended⟩
  · obtain ⟨next, hfirst, hnext, hlt⟩ := hleads s hs hended
    obtain ⟨s', hrest, hs', hended'⟩ := exists_leadsTo_of_decreasing left hleads next hnext
    exact ⟨s', hfirst.trans hrest, hs', hended'⟩
termination_by left s

end MutationFinite
