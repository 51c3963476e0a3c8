import MutationFinite.Proofs.Mutation.Overflow
import MutationFinite.Proofs.Vertices

/-!
# Mutating twice

Exact mutation at a vertex undoes itself.  Checked mutation does so as far as it is defined: the
steps on the way back are those on the way there with their signs changed, and the range of entries
is not symmetric, so that the way back may overflow where the way there did not.

* `two_mul_values_sub`: what a defined mutation adds to a cell is half of an even number.
* `MutatesTo.valuesFit_back`: the entries fit on the way back.
* `SkewSymmetric`: opposite cells have opposite values; `isSkewSymmetric_iff` says how far the test
  for it goes.
* `ThroughFits.back`: the steps of a skew-symmetric matrix fit on the way back, since those of the
  mirrored cell did on the way there.
* `mutate?_involutive`: mutating twice gives the matrix back or overflows.
-/

namespace MutationFinite

open IntegerMatrix (through)

/-- Two weights through the pivot add the same in either order. -/
theorem IntegerMatrix.through_comm (x y : Int) : through x y = through y x := by
  rw [through, through, Int.mul_comm (|x|) y, Int.mul_comm x (|y|), Int.add_comm]

namespace ExchangeMatrix

variable {m m' : ExchangeMatrix} {k i j : Nat}

/-- What a mutation adds to a cell away from the pivot is half of an even number. -/
theorem MutatesTo.two_mul_values_sub (h : MutatesTo m k m') (hi : i ≠ k) (hj : j ≠ k) :
    2 * (m'.values i j - m.values i j) =
      |m.values i k| * m.values k j + m.values i k * |m.values k j| := by
  rw [h.values, IntegerMatrix.mutate_of_ne _ hi hj, ← IntegerMatrix.two_mul_through]
  omega

/-- The entries fit on the way back: they are those of a matrix. -/
theorem MutatesTo.valuesFit_back (h : MutatesTo m k m') : m'.ValuesFit k := by
  intro i _ j _
  rw [← h.symm.values]
  exact (m.cell i j).inRange_val

/-- Opposite cells of the mutable part have opposite values. -/
def SkewSymmetric (m : ExchangeMatrix) : Prop :=
  ∀ i < m.rank, ∀ j < m.rank, m.values i j = -m.values j i

/-- The test for skew-symmetry takes the least value, which has no opposite, for its own one. -/
theorem isSkewSymmetric_iff : m.isSkewSymmetric = true ↔ ∀ i < m.rank, ∀ j < m.rank,
    m.values i j = if m.values j i = -2147483648 then m.values j i else -m.values j i := by
  simp only [isSkewSymmetric, all_iff, beq_iff_eq, Entry.ext_iff, Entry.val_neg]
  rfl

theorem values_inRange (m : ExchangeMatrix) (i j : Nat) :
    -2147483648 ≤ m.values i j ∧ m.values i j ≤ 2147483647 := (m.cell i j).inRange_val

/-- **Skew-symmetric matrices are those that pass the test and do not hold the least entry.** -/
theorem skewSymmetric_iff : m.SkewSymmetric ↔
    m.isSkewSymmetric = true ∧ ∀ i < m.rank, ∀ j < m.rank, m.values i j ≠ -2147483648 := by
  rw [isSkewSymmetric_iff]
  constructor
  · intro h
    have hleast : ∀ i < m.rank, ∀ j < m.rank, m.values i j ≠ -2147483648 := by
      intro i hi j hj
      have := h j hj i hi
      have := m.values_inRange j i
      omega
    exact ⟨fun i hi j hj => by rw [if_neg (hleast j hj i hi)]; exact h i hi j hj, hleast⟩
  · rintro ⟨h, hleast⟩ i hi j hj
    have := h i hi j hj
    rwa [if_neg (hleast j hj i hi)] at this

/-- The least entry is no obstacle at the pivot of a defined mutation, which turns it around. -/
theorem MutatesTo.values_pivot_eq_neg (hto : MutatesTo m k m') (hskew : m.isSkewSymmetric = true) :
    ∀ i < m.rank, m.values i k = -m.values k i := by
  intro i hi
  have htest := isSkewSymmetric_iff.mp hskew i hi k hto.pivot
  have hturned : m'.values k i = -m.values k i := by
    rw [hto.values, IntegerMatrix.mutate_pivot_row]
  have := m'.values_inRange k i
  rwa [if_neg (by omega)] at htest

/-- In a square matrix all rows and columns are mutable. -/
theorem lt_rank_of_isSquare (hsquare : m.isSquare = true) :
    (i < m.rows → i < m.rank) ∧ (i < m.cols → i < m.rank) := by
  have : m.rows = m.cols := eq_of_beq hsquare
  unfold rank
  constructor <;> omega

/-- The steps to the cell `(i, j)` on the way back are those to `(j, i)` on the way there. -/
theorem ThroughFits.back (h : m.ThroughFits k) (hto : MutatesTo m k m')
    (hsquare : m.isSquare = true) (hskew : ∀ i < m.rank, m.values i k = -m.values k i) :
    m'.ThroughFits k := by
  intro i hi hik j hj hjk
  have hi' : i < m.rank := (lt_rank_of_isSquare hsquare).1 (hto.shape.1 ▸ hi)
  have hj' : j < m.rank := (lt_rank_of_isSquare hsquare).2 (hto.shape.2 ▸ hj)
  have hmirror := h j (hj'.trans_le (Nat.min_le_left _ _)) hjk i
    (hi'.trans_le (Nat.min_le_right _ _)) hik
  rw [hskew j hj', ← Int.neg_eq_comm.mp (hskew i hi').symm, Int.neg_mul_neg, Int.mul_comm,
    IntegerMatrix.through_comm] at hmirror
  rw [hto.values, IntegerMatrix.mutate_pivot_col, IntegerMatrix.mutate_pivot_row, Int.neg_mul_neg]
  exact hmirror

/-- A mutation of a square matrix that is skew-symmetric at the pivot can be undone. -/
theorem mutate?_back_of_skewSymmetric (h : m.mutate? k = .ok m') (hsquare : m.isSquare = true)
    (hskew : ∀ i < m.rank, m.values i k = -m.values k i) : m'.mutate? k = .ok m := by
  have hto := mutatesTo_of_mutate? h
  have hfits := (exists_mutate?_iff hto.pivot).mp ⟨m', h⟩
  obtain ⟨m'', hback⟩ := (exists_mutate?_iff hto.symm.pivot).mpr
    ⟨hto.valuesFit_back, hfits.2.back hto hsquare hskew⟩
  rw [hback, (mutatesTo_of_mutate? hback).unique hto.symm]

/-- **Mutation is an involution wherever it is defined.**  A defined mutation is the exact one, in
which nothing is lost by halving.  Mutating again at the same vertex gives the matrix back or
overflows, and gives it back if it is square and skew-symmetric. -/
theorem mutate?_involutive (m m' : ExchangeMatrix) (k : Nat) (h : m.mutate? k = .ok m') :
    MutatesTo m k m' ∧
      (∀ i j, i ≠ k → j ≠ k → 2 * (m'.values i j - m.values i j) =
        |m.values i k| * m.values k j + m.values i k * |m.values k j|) ∧
      (m'.mutate? k = .ok m ∨ m'.mutate? k = .error (.entryOverflow k)) ∧
      (m.isSquare = true → m.isSkewSymmetric = true → m'.mutate? k = .ok m) := by
  have hto := mutatesTo_of_mutate? h
  refine ⟨hto, fun i j hi hj => hto.two_mul_values_sub hi hj, hto.symm.mutate?_eq, ?_⟩
  exact fun hsquare hskew =>
    mutate?_back_of_skewSymmetric h hsquare (hto.values_pivot_eq_neg hskew)

/-- Arrows of weights `x` and `y` from vertex 0 to 1 and from 1 to 2, and one of weight `z` from 0
to 2. -/
def weightedPath (x y z : Int) : ExchangeMatrix :=
  .ofFn 3 3 fun i j =>
    let rows : List (List Int) := [[0, x, z], [-x, 0, y], [-z, -y, 0]]
    .ofInt ((rows.getD i []).getD j 0)

/-- Twice the product of the weights is just below the greatest entry: the path can be mutated at
its middle and back.  Weights of `-32768` in both directions can be mutated, but not back. -/
theorem mutate?_involutive_weightedPath :
    (weightedPath 32767 32768 0).mutate? 1 =
        .ok (weightedPath (-32767) (-32768) 1073709056) ∧
      (weightedPath (-32767) (-32768) 1073709056).mutate? 1 = .ok (weightedPath 32767 32768 0) ∧
      (mutualArrows (-32768) 0).mutate? 0 = .ok (mutualArrows 32768 (-1073741824)) ∧
      (mutualArrows 32768 (-1073741824)).mutate? 0 = .error (.entryOverflow 0) := by
  have hpath : (weightedPath 32767 32768 0).mutate? 1 =
      .ok (weightedPath (-32767) (-32768) 1073709056) :=
    mutate?_eq_ok_iff.mpr (by decide)
  have harrows : (mutualArrows (-32768) 0).mutate? 0 = .ok (mutualArrows 32768 (-1073741824)) :=
    mutate?_eq_ok_iff.mpr (by decide)
  refine ⟨hpath, (mutate?_involutive _ _ 1 hpath).2.2.2 (by decide) (by decide), harrows, ?_⟩
  refine (mutate?_involutive _ _ 0 harrows).2.2.1.resolve_left fun hback => ?_
  have hfits := ((exists_mutate?_iff (by decide)).mp ⟨_, hback⟩).2
  exact absurd hfits (by decide)

end ExchangeMatrix

end MutationFinite
