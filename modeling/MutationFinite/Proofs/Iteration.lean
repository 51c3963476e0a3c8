/-!
# Iterations that end

An iteration is given by its turn, which answers an item and the state after it, or nothing at the
end.

* `Yields`: the items of an iteration, one turn after another up to its end; `Yields.unique` says
  that a state determines them.
-/

namespace MutationFinite

variable {σ α : Type} {turn? : σ → Option (α × σ)} {s s' : σ} {a : α} {l l' : List α}

/-- From state `s` the iteration yields the items `l` one after another, and then it ends. -/
inductive Yields (turn? : σ → Option (α × σ)) : σ → List α → Prop where
  | ends {s : σ} (h : turn? s = none) : Yields turn? s []
  | item {s s' : σ} {a : α} {l : List α} (h : turn? s = some (a, s')) (rest : Yields turn? s' l) :
      Yields turn? s (a :: l)

namespace Yields

/-- A state determines the items. -/
theorem unique (h : Yields turn? s l) (h' : Yields turn? s l') : l = l' := by
  induction h generalizing l' with
  | ends hnone =>
      cases h' with
      | ends => rfl
      | item hsome => cases hnone.symm.trans hsome
  | item hsome _ ih =>
      cases h' with
      | ends hnone => cases hsome.symm.trans hnone
      | item hsome' hrest =>
          obtain ⟨rfl, rfl⟩ := Prod.mk.inj (Option.some.inj (hsome.symm.trans hsome'))
          rw [ih hrest]

/-- The items depend on the next turn only. -/
theorem of_turn_eq (h : Yields turn? s l) (he : turn? s' = turn? s) : Yields turn? s' l := by
  cases h with
  | ends hnone => exact .ends (he.trans hnone)
  | item hsome hrest => exact .item (he.trans hsome) hrest

end Yields

end MutationFinite
