import MutationFinite.Equivalence.Context
import MutationFinite.MutationClass.Visited
import MutationFinite.Proofs.Equivalence.Fingerprint
import MutationFinite.Proofs.Relabelling.Search

/-!
# Answers of checkers and oracles

* `IsAnswer`: the answer to the question for a permutation that carries one matrix to another.
* `EquivalenceChecker.witness_isAnswer`: a checker of the right rank answers, whatever it was asked
  before.
* `Oracle.Serves`: an oracle that may be asked about matrices of a rank; `Oracle.witness_isAnswer`
  says that it answers and may be asked again.
* `EquivalenceContext.degree_checker`: the checker that a context holds for a rank is one for that
  rank.
-/

namespace MutationFinite

open ExchangeMatrix

/-- A permutation that carries `a` to `b`, or none when there is no such permutation. -/
def IsAnswer (a b : ExchangeMatrix) : Option Permutation → Prop
  | some p => Carries p a b
  | none => ∀ p, ¬ Carries p a b

section IsAnswer

variable {a b : ExchangeMatrix} {found : Option Permutation}

theorem isAnswer_findWitness? (a b : ExchangeMatrix) : IsAnswer a b (a.findWitness? b) := by
  cases h : a.findWitness? b with
  | some p => exact findWitness?_eq_some h
  | none => exact findWitness?_eq_none_iff.mp h

/-- An answer is a permutation where there is one. -/
theorem IsAnswer.isSome {p : Permutation} (h : IsAnswer a b found) (hc : Carries p a b) :
    found.isSome = true := by
  cases found with
  | some q => rfl
  | none => exact absurd hc (h p)

/-- The inverse answers the reversed question. -/
theorem IsAnswer.inverse (h : IsAnswer a b found) : IsAnswer b a (found.map .inverse) := by
  cases found with
  | some p => exact Carries.inverse h
  | none => exact fun p hp => h _ hp.inverse

end IsAnswer

namespace EquivalenceChecker

variable {c : EquivalenceChecker} {a b : ExchangeMatrix}

/-- What is looked up is what a search finds. -/
theorem lookup_fst (c : EquivalenceChecker) (lo hi : ExchangeMatrix) :
    (c.lookup lo hi).1 = lo.findWitness? hi := by
  unfold lookup
  split
  · next found h => exact c.pairs_sound lo hi found h
  · rfl

theorem degree_lookup (c : EquivalenceChecker) (lo hi : ExchangeMatrix) :
    (c.lookup lo hi).2.degree = c.degree := by
  unfold lookup
  split <;> rfl

theorem degree_witness (c : EquivalenceChecker) (a b : ExchangeMatrix) :
    (c.witness a b).2.degree = c.degree := by
  unfold witness
  split_ifs
  · rfl
  · rfl
  · rfl
  · exact degree_lookup c b a
  · exact degree_lookup c a b

/-- **A checker answers questions about matrices of its rank.** -/
theorem witness_isAnswer (c : EquivalenceChecker) (hrank : a.rank = c.degree) :
    IsAnswer a b (c.witness a b).1 := by
  unfold witness
  split_ifs with hshape heq hkey horder
  · intro p hc
    exact hshape.elim (fun h => h hc.shape) (fun h => h hrank)
  · subst heq
    exact hrank ▸ carries_identity a
  · exact fun p hc => hkey hc.fingerprint_eq
  -- a pair is looked up with its smaller member first
  · have h := isAnswer_findWitness? b a
    rw [← c.lookup_fst] at h
    exact h.inverse
  · have h := isAnswer_findWitness? a b
    rw [← c.lookup_fst] at h
    exact h

end EquivalenceChecker

namespace Oracle

/-- The oracle may be asked about matrices of rank `n`. -/
def Serves (n : Nat) : Oracle → Prop
  | .cached checker => checker.degree = n
  | .direct => True

variable {o : Oracle} {n : Nat} {a b : ExchangeMatrix}

/-- An oracle serves the same rank after a question, whatever it was asked about. -/
theorem serves_witness (ho : o.Serves n) (a b : ExchangeMatrix) : (o.witness a b).2.Serves n := by
  cases o with
  | direct => trivial
  | cached checker => exact (checker.degree_witness a b).trans ho

/-- **An oracle answers questions about matrices of its rank**, and may be asked again. -/
theorem witness_isAnswer (ho : o.Serves n) (ha : a.rank = n) :
    IsAnswer a b (o.witness a b).1 ∧ (o.witness a b).2.Serves n := by
  refine ⟨?_, serves_witness ho a b⟩
  cases o with
  | direct => exact isAnswer_findWitness? a b
  | cached checker =>
      have hdegree : checker.degree = n := ho
      exact checker.witness_isAnswer (ha.trans hdegree.symm)

end Oracle

/-! ### The checkers of a context -/

theorem EquivalenceContext.degree_checker (x : EquivalenceContext) (n : Nat) :
    (x.checker n).degree = n := by
  unfold checker
  rw [Std.HashMap.getD_eq_getD_getElem?]
  cases h : x.checkers[n]? with
  | some c => exact x.degree_checkers n c h
  | none => rfl

end MutationFinite
