import MutationFinite.Proofs.Classification.Minimality
import MutationFinite.Proofs.Classification.Refusals

/-!
# Errors among the verdicts on deletions

An error ends the fold of the verdicts, as an infinite deletion does, and each of them has an answer
of its own.  So of the two the one that is folded first counts, and the order matters exactly when
there are both.

* `MinimalityFold.finish_eq_first`: the first result that decides has the answer.
* `decides_checkFinite_of_tooMany`: deletions with more than 64 mutable vertices have such results.
* `finish_order_iff`: when the order does not matter.
-/

namespace MutationFinite

namespace MinimalityFold

variable {e : Error} {order order' results : List (Except Error Finiteness)} {expected : Nat}
  {result : Except Error Finiteness}

/-- The result ends the fold. -/
def decides : Except Error Finiteness → Bool
  | .ok .infinite | .error _ => true
  | .ok (.finite _) | .ok .unknown => false

/-- The answer of a result that ends the fold. -/
def decision : Except Error Finiteness → Except Error (Option Bool)
  | .ok _ => .ok (some false)
  | .error e => .error e

/-- What the fold has found out when no result has ended it. -/
def undecided (f : MinimalityFold) (results : List (Except Error Finiteness)) : Option Bool :=
  if f.unknownFound = true ∨ .ok .unknown ∈ results ∨ f.folded + results.length < f.expected then
    none
  else some true

/-- **The first result that decides has the answer**, when the fold had none before. -/
theorem finish_eq_first (results : List (Except Error Finiteness)) (f : MinimalityFold)
    (herror : f.error = none) (hinfinite : f.infiniteFound = false) :
    (foldUntilStop fold f results).finish =
      (results.find? decides).elim (.ok (f.undecided results)) decision := by
  induction results generalizing f with
  | nil =>
      have hopen : (f.unknownFound || decide (f.folded < f.expected)) = true ↔
          f.unknownFound = true ∨ .ok .unknown ∈ ([] : List (Except Error Finiteness)) ∨
            f.folded + 0 < f.expected := by simp
      simp only [foldUntilStop, finish, herror, hinfinite, Bool.false_eq_true, if_false]
      exact congrArg Except.ok (if_congr hopen rfl rfl)
  | cons result results ih =>
      rcases result with e | (size | _ | _)
      case error => rfl
      case ok.infinite =>
        rw [List.find?_cons_of_pos rfl]
        simp only [foldUntilStop, fold, finish, herror]
        rfl
      case ok.finite =>
        rw [List.find?_cons_of_neg Bool.false_ne_true]
        simp only [foldUntilStop, fold]
        refine (ih { f with folded := f.folded + 1 } herror hinfinite).trans ?_
        simp [undecided, Nat.add_assoc, Nat.add_comm 1]
      case ok.unknown =>
        rw [List.find?_cons_of_neg Bool.false_ne_true]
        simp only [foldUntilStop, fold]
        refine (ih { f with folded := f.folded + 1, unknownFound := true } herror
          hinfinite).trans ?_
        simp [undecided]

theorem decides_iff : decides result = true ↔ result = .ok .infinite ∨ ∃ e, result = .error e := by
  rcases result with e | (_ | _ | _) <;> simp [decides]

/-- The results say the same in any order when none of them decides. -/
theorem undecided_perm (f : MinimalityFold) (h : order.Perm results) :
    f.undecided order = f.undecided results := by
  simp only [undecided, h.mem_iff, h.length_eq]

/-- A result may come first. -/
theorem exists_order_of_mem (hmem : result ∈ results) (hdecides : decides result = true)
    (expected : Nat) : ∃ order, order.Perm results ∧
      (foldUntilStop fold (.start expected) order).finish = decision result := by
  refine ⟨result :: results.erase result, (List.perm_cons_erase hmem).symm, ?_⟩
  rw [finish_eq_first _ _ rfl rfl, List.find?_cons_of_pos hdecides, Option.elim_some]

/-- Results of which no two decide differently have one answer in every order. -/
theorem finish_eq_of_perm (horder : order.Perm results) (horder' : order'.Perm results)
    (hone : ∀ r ∈ results, ∀ r' ∈ results, decides r = true → decides r' = true →
      decision r = decision r') :
    (foldUntilStop fold (.start expected) order).finish =
      (foldUntilStop fold (.start expected) order').finish := by
  have hsame : order.Perm order' := horder.trans horder'.symm
  rw [finish_eq_first _ _ rfl rfl, finish_eq_first _ _ rfl rfl, undecided_perm _ hsame]
  cases hfirst : order.find? decides with
  | none =>
      have hnone : order'.find? decides = none := by
        rw [List.find?_eq_none] at hfirst ⊢
        exact fun r hr => hfirst r (hsame.mem_iff.mpr hr)
      rw [hnone]
  | some r =>
      have hr : r ∈ order' := hsame.mem_iff.mp (List.mem_of_find?_eq_some hfirst)
      obtain ⟨r', hfirst'⟩ := Option.isSome_iff_exists.mp
        (List.find?_isSome.mpr ⟨r, hr, List.find?_some hfirst⟩)
      rw [hfirst', Option.elim_some, Option.elim_some]
      exact hone r (horder'.mem_iff.mp hr) r'
        (horder'.mem_iff.mp (List.mem_of_find?_eq_some hfirst')) (List.find?_some hfirst)
        (List.find?_some hfirst')

end MinimalityFold

/-- A deletion with more than 64 mutable vertices is proved infinite or refused. -/
theorem decides_checkFinite_of_tooMany (cfg : ClassifierConfig) {m : ExchangeMatrix}
    (h : 64 < m.rank) (s : Session) :
    MinimalityFold.decides (s.ask (checkFinite cfg m)).1 = true := by
  rw [checkFinite_of_tooMany cfg h]
  split <;> rfl

/-- **Errors make the answer depend on the order.**  Of results that are finite, infinite, unknown
or one and the same error, folded in any order, the first one that is infinite or the error has the
answer.  So all orders have one answer exactly when there are not both an infinite result and the
error among them; otherwise both answers occur. -/
theorem finish_order_iff (expected : Nat) (e : Error) (results : List (Except Error Finiteness))
    (herrors : ∀ e', .error e' ∈ results → e' = e) :
    let answer order := (foldUntilStop MinimalityFold.fold (.start expected) order).finish
    (∀ order, order.Perm results → answer order =
      (order.find? MinimalityFold.decides).elim
        (.ok (if .ok .unknown ∈ results ∨ results.length < expected then none else some true))
        MinimalityFold.decision) ∧
    ((∀ order order', order.Perm results → order'.Perm results → answer order = answer order') ↔
      ¬ (.ok .infinite ∈ results ∧ .error e ∈ results)) ∧
    (.ok .infinite ∈ results → .error e ∈ results →
      (∃ order, order.Perm results ∧ answer order = .ok (some false)) ∧
      ∃ order, order.Perm results ∧ answer order = .error e) := by
  intro answer
  have hboth : .ok .infinite ∈ results → .error e ∈ results →
      (∃ order, order.Perm results ∧ answer order = .ok (some false)) ∧
      ∃ order, order.Perm results ∧ answer order = .error e := fun hinfinite herror =>
    ⟨MinimalityFold.exists_order_of_mem hinfinite rfl expected,
      MinimalityFold.exists_order_of_mem herror rfl expected⟩
  refine ⟨fun order horder => ?_, ⟨?_, fun hnot order order' horder horder' => ?_⟩, hboth⟩
  · simp only [answer]
    rw [MinimalityFold.finish_eq_first _ _ rfl rfl, MinimalityFold.undecided_perm _ horder]
    simp [MinimalityFold.undecided, MinimalityFold.start]
  · rintro hsame ⟨hinfinite, herror⟩
    obtain ⟨⟨order, horder, hno⟩, ⟨order', horder', hfails⟩⟩ := hboth hinfinite herror
    cases (hno.symm.trans (hsame order order' horder horder')).trans hfails
  · refine MinimalityFold.finish_eq_of_perm horder horder' fun r hr r' hr' hdecides hdecides' => ?_
    rcases MinimalityFold.decides_iff.mp hdecides with rfl | ⟨e₁, rfl⟩ <;>
      rcases MinimalityFold.decides_iff.mp hdecides' with rfl | ⟨e₂, rfl⟩
    · rfl
    · exact absurd ⟨hr, herrors e₂ hr' ▸ hr'⟩ hnot
    · exact absurd ⟨hr', herrors e₁ hr ▸ hr⟩ hnot
    · rw [herrors e₁ hr, herrors e₂ hr']

/-- Of a finite deletion and one that is refused either may be folded first. -/
theorem finish_order_iff_refused :
    let refused : Except Error Finiteness := .error (.tooManyMutableVertices 65)
    let answer order := (foldUntilStop MinimalityFold.fold (.start 2) order).finish
    (∀ e', .error e' ∈ [refused, .ok (.finite 4)] → e' = .tooManyMutableVertices 65) ∧
      answer [refused, .ok (.finite 4)] = answer [.ok (.finite 4), refused] := by
  intro refused answer
  have herrors : ∀ e', .error e' ∈ [refused, .ok (.finite 4)] →
      e' = .tooManyMutableVertices 65 := by
    simp [refused]
  refine ⟨herrors, ?_⟩
  obtain ⟨-, hiff, -⟩ := finish_order_iff 2 (.tooManyMutableVertices 65) [refused, .ok (.finite 4)]
    herrors
  exact hiff.mpr (by simp [refused]) _ _ (.refl _) (.swap _ _ _)

/-- Of an infinite deletion and one that is refused the first has the answer. -/
theorem finish_depends_on_order :
    let refused : Except Error Finiteness := .error (.tooManyMutableVertices 65)
    let answer order := (foldUntilStop MinimalityFold.fold (.start 2) order).finish
    [refused, .ok .infinite].Perm [.ok .infinite, refused] ∧
      answer [refused, .ok .infinite] = .error (.tooManyMutableVertices 65) ∧
      answer [.ok .infinite, refused] = .ok (some false) :=
  ⟨.swap _ _ _, rfl, rfl⟩

end MutationFinite
