import MutationFinite.Proofs.Classification.Minimality
import MutationFinite.Proofs.Dynkin.Recognition

/-!
# What a classification finds

The verdict decides which facts are looked for: the Dynkin type of a finite class, and the deletions
of an infinite one.

* `classify_returns_of_finite`, `classify_returns_of_infinite`: the result by the verdict.
* `classify_returns`: so each matrix has a result, which says what the verdict is.
-/

namespace MutationFinite

/-- Whether a class is finite, if that was decided. -/
def Finiteness.isFinite? : Finiteness → Option Bool
  | finite _ => some true
  | infinite => some false
  | unknown => none

variable [Generator] {cfg : ClassifierConfig} {m : ExchangeMatrix}

/-- A finite class has a size, and what recognition finds is its type. -/
theorem classify_returns_of_finite {size : Nat} {P : Option DynkinType → Prop}
    (h : HasVerdict cfg m (.finite size))
    (hrecognize : Session.Returns (DynkinType.recognize m) P) :
    Session.Returns (classify cfg m) fun result =>
      ∃ found, P found ∧ result = ⟨some true, some size, some false, found⟩ := by
  refine h.bind_eq (hrecognize.bind fun found hfound => ?_)
  cases found with
  | none => exact .pure ⟨none, hfound, rfl⟩
  | some t => exact .pure ⟨some t, hfound, rfl⟩

/-- An infinite class is minimal when its deletions are all finite. -/
theorem classify_returns_of_infinite {minimal : Bool} (h : HasVerdict cfg m .infinite)
    (hdeletions : Session.Returns (deletionsAllFinite? cfg m) (· = some minimal)) :
    Session.Returns (classify cfg m) (· = ⟨some false, none, some minimal, none⟩) := by
  refine h.bind_eq (hdeletions.bind_eq ?_)
  cases minimal with
  | false => exact .pure rfl
  | true => exact .pure rfl

/-- **Each matrix has a result**, which says whether the verdict is finite. -/
theorem classify_returns {v : Finiteness} (h : HasVerdict cfg m v) (hrank : m.rank ≤ 64) :
    Session.Returns (classify cfg m) fun result => result.finite = v.isFinite? := by
  cases v with
  | finite size =>
      refine (classify_returns_of_finite h (DynkinType.recognize_returns hrank)).mono ?_
      rintro _ ⟨found, -, rfl⟩
      rfl
  | infinite =>
      obtain ⟨minimal, hreturns, -⟩ := deletionsAllFinite?_returns cfg hrank
      refine (classify_returns_of_infinite h hreturns).mono ?_
      rintro _ rfl
      rfl
  | unknown => exact h.bind_eq (.pure rfl)

end MutationFinite
