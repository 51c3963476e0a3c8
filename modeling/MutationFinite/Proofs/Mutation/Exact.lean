import MutationFinite.Matrix.Mutation
import Mathlib.Algebra.Order.Ring.Abs
import Mathlib.Data.Set.Finite.Basic
import Mathlib.Tactic.Linarith
import Mathlib.Tactic.Ring

/-!
# Mutation of integer matrices

Mutation without a bound on the entries.  An integer matrix is a function of the row and the
column that is `0` outside the shape of the matrix it stands for, so that one function type serves
all shapes.

* `IntegerMatrix.mutate`: exact mutation; `mutate_mutate` says that mutating twice at one vertex
  gives the matrix back, and `neg_mutate` that mutation commutes with the change of all signs.
* `IntegerMatrix.Reaches`, `exactClass`: what mutations at the vertices below `n` lead to.
* `IntegerMatrix.SymmetrizedBy`: the mutable part is made skew-symmetric by positive factors of
  its rows; mutation keeps the factors (`SymmetrizedBy.mutate`).
-/

namespace MutationFinite

/-- The entries of a matrix, without a bound on their size. -/
abbrev IntegerMatrix := Nat → Nat → Int

namespace IntegerMatrix

/-- What two arrows of weights `x` and `y` through the pivot add to the weight between their outer
ends: half of `|x| * y + x * |y|`. -/
def through (x y : Int) : Int := (|x| * y + x * |y|) / 2

/-- Mutation at `k`. -/
def mutate (b : IntegerMatrix) (k : Nat) : IntegerMatrix := fun i j =>
  if i = k ∨ j = k then -b i j else b i j + through (b i k) (b k j)

/-! ### Arrows through the pivot -/

theorem through_of_nonneg {x y : Int} (hx : 0 ≤ x) (hy : 0 ≤ y) : through x y = x * y := by
  rw [through, abs_of_nonneg hx, abs_of_nonneg hy]
  omega

theorem through_of_nonpos {x y : Int} (hx : x ≤ 0) (hy : y ≤ 0) : through x y = -(x * y) := by
  rw [through, abs_of_nonpos hx, abs_of_nonpos hy, Int.neg_mul, Int.mul_neg]
  omega

theorem through_of_nonneg_of_nonpos {x y : Int} (hx : 0 ≤ x) (hy : y ≤ 0) : through x y = 0 := by
  rw [through, abs_of_nonneg hx, abs_of_nonpos hy, Int.mul_neg]
  omega

theorem through_of_nonpos_of_nonneg {x y : Int} (hx : x ≤ 0) (hy : 0 ≤ y) : through x y = 0 := by
  rw [through, abs_of_nonpos hx, abs_of_nonneg hy, Int.neg_mul]
  omega

@[simp] theorem through_zero_left (y : Int) : through 0 y = 0 := by simp [through]

@[simp] theorem through_zero_right (x : Int) : through x 0 = 0 := by simp [through]

/-- The sum `|x| * y + x * |y|` is even. -/
theorem two_mul_through (x y : Int) : 2 * through x y = |x| * y + x * |y| := by
  rcases le_total 0 x with hx | hx <;> rcases le_total 0 y with hy | hy
  · rw [through_of_nonneg hx hy, abs_of_nonneg hx, abs_of_nonneg hy]; ring
  · rw [through_of_nonneg_of_nonpos hx hy, abs_of_nonneg hx, abs_of_nonpos hy]; ring
  · rw [through_of_nonpos_of_nonneg hx hy, abs_of_nonpos hx, abs_of_nonneg hy]; ring
  · rw [through_of_nonpos hx hy, abs_of_nonpos hx, abs_of_nonpos hy]; ring

theorem through_neg_neg (x y : Int) : through (-x) (-y) = -through x y := by
  have h₁ := two_mul_through (-x) (-y)
  have h₂ := two_mul_through x y
  rw [abs_neg, abs_neg, Int.mul_neg, Int.neg_mul] at h₁
  omega

theorem abs_through_le (x y : Int) : |through x y| ≤ |x| * |y| := by
  rcases le_total 0 x with hx | hx <;> rcases le_total 0 y with hy | hy
  · rw [through_of_nonneg hx hy, abs_mul]
  · rw [through_of_nonneg_of_nonpos hx hy, abs_zero, ← abs_mul]; exact abs_nonneg _
  · rw [through_of_nonpos_of_nonneg hx hy, abs_zero, ← abs_mul]; exact abs_nonneg _
  · rw [through_of_nonpos hx hy, abs_neg, abs_mul]

/-! ### Mutation -/

theorem mutate_pivot_row (b : IntegerMatrix) (k j : Nat) : b.mutate k k j = -b k j := by
  simp [mutate]

theorem mutate_pivot_col (b : IntegerMatrix) (i k : Nat) : b.mutate k i k = -b i k := by
  simp [mutate]

theorem mutate_of_ne (b : IntegerMatrix) {i j k : Nat} (hi : i ≠ k) (hj : j ≠ k) :
    b.mutate k i j = b i j + through (b i k) (b k j) := by
  simp [mutate, hi, hj]

/-- Mutation is an involution. -/
theorem mutate_mutate (b : IntegerMatrix) (k : Nat) : (b.mutate k).mutate k = b := by
  funext i j
  by_cases h : i = k ∨ j = k
  · simp [mutate, h]
  · rw [not_or] at h
    rw [mutate_of_ne _ h.1 h.2, mutate_of_ne _ h.1 h.2, mutate_pivot_col, mutate_pivot_row,
      through_neg_neg]
    omega

theorem neg_mutate (b : IntegerMatrix) (k : Nat) : (-b).mutate k = -b.mutate k := by
  funext i j
  by_cases h : i = k ∨ j = k
  · simp [mutate, h]
  · rw [not_or] at h
    simp only [Pi.neg_apply, mutate_of_ne _ h.1 h.2, through_neg_neg]
    omega

/-! ### Reachable matrices -/

/-- Mutations at vertices below `n` lead from one matrix to another. -/
inductive Reaches (n : Nat) : IntegerMatrix → IntegerMatrix → Prop where
  | refl (b : IntegerMatrix) : Reaches n b b
  | step {b c : IntegerMatrix} {k : Nat} (h : Reaches n b c) (hk : k < n) :
      Reaches n b (c.mutate k)

/-- The matrices that mutations at the vertices below `n` lead to. -/
def exactClass (n : Nat) (b : IntegerMatrix) : Set IntegerMatrix := {c | Reaches n b c}

variable {n : Nat} {a b c : IntegerMatrix}

theorem Reaches.trans (h₁ : Reaches n a b) (h₂ : Reaches n b c) : Reaches n a c := by
  induction h₂ with
  | refl => exact h₁
  | step _ hk ih => exact .step ih hk

theorem Reaches.one {k : Nat} (hk : k < n) : Reaches n b (b.mutate k) := .step (.refl b) hk

theorem Reaches.neg (h : Reaches n b c) : Reaches n (-b) (-c) := by
  induction h with
  | refl => exact .refl _
  | step _ hk ih =>
      rw [← neg_mutate]
      exact .step ih hk

/-- When every mutation leads from one matrix to another and back, the class is the two of them. -/
theorem exactClass_eq_pair (hn : 0 < n) (h : ∀ k < n, b.mutate k = c ∧ c.mutate k = b) :
    exactClass n b = {b, c} := by
  refine Set.Subset.antisymm (fun d hd => ?_) ?_
  · induction hd with
    | refl => exact .inl rfl
    | @step d k _ hk ih =>
        rcases ih with rfl | rfl
        · exact .inr (h k hk).1
        · exact .inl (h k hk).2
  · rintro _ (rfl | rfl)
    · exact .refl _
    · rw [← (h 0 hn).1]
      exact .one hn

theorem exactClass_infinite_of_reaches (h : Reaches n a b) (hb : (exactClass n b).Infinite) :
    (exactClass n a).Infinite :=
  hb.mono fun _ hc => h.trans hc

theorem exactClass_infinite_of_neg (h : (exactClass n (-b)).Infinite) :
    (exactClass n b).Infinite := by
  refine (h.image neg_injective.injOn).mono ?_
  rintro _ ⟨c, hc, rfl⟩
  show Reaches n b (-c)
  rw [← neg_neg b]
  exact Reaches.neg hc

/-! ### Symmetrizable matrices -/

/-- The factors `d` of the rows are positive and make the part below `n` skew-symmetric. -/
structure SymmetrizedBy (n : Nat) (d : Nat → Int) (b : IntegerMatrix) : Prop where
  pos : ∀ i < n, 0 < d i
  skew : ∀ i < n, ∀ j < n, d i * b i j = -(d j * b j i)

namespace SymmetrizedBy

variable {d : Nat → Int}

theorem neg (h : SymmetrizedBy n d b) : SymmetrizedBy n d (-b) :=
  ⟨h.pos, fun i hi j hj => by
    have := h.skew i hi j hj
    simp only [Pi.neg_apply, Int.mul_neg]
    omega⟩

/-- The factor of a row carries over to absolute values. -/
theorem mul_abs (h : SymmetrizedBy n d b) {i j : Nat} (hi : i < n) (hj : j < n) :
    d i * |b i j| = d j * |b j i| := by
  have e := congrArg abs (h.skew i hi j hj)
  rwa [abs_neg, abs_mul, abs_mul, abs_of_pos (h.pos i hi), abs_of_pos (h.pos j hj)] at e

theorem through (h : SymmetrizedBy n d b) {i j k : Nat} (hi : i < n) (hj : j < n) (hk : k < n) :
    d i * through (b i k) (b k j) = -(d j * IntegerMatrix.through (b j k) (b k i)) := by
  have hik := h.skew i hi k hk
  have hjk := h.skew j hj k hk
  have aik := h.mul_abs hi hk
  have ajk := h.mul_abs hj hk
  have key : d i * (|b i k| * b k j + b i k * |b k j|) =
      -(d j * (|b j k| * b k i + b j k * |b k i|)) := by
    calc d i * (|b i k| * b k j + b i k * |b k j|)
        = (d i * |b i k|) * b k j + (d i * b i k) * |b k j| := by ring
      _ = |b k i| * (d k * b k j) - b k i * (d k * |b k j|) := by rw [aik, hik]; ring
      _ = -(d j * b j k) * |b k i| - (d j * |b j k|) * b k i := by rw [hjk, ajk]; ring
      _ = -(d j * (|b j k| * b k i + b j k * |b k i|)) := by ring
  rw [← two_mul_through, ← two_mul_through] at key
  linarith

/-- Mutation keeps the factors. -/
theorem mutate (h : SymmetrizedBy n d b) {k : Nat} (hk : k < n) :
    SymmetrizedBy n d (b.mutate k) := by
  refine ⟨h.pos, fun i hi j hj => ?_⟩
  have hij := h.skew i hi j hj
  by_cases hp : i = k ∨ j = k
  · have hp' : j = k ∨ i = k := hp.symm
    simp only [IntegerMatrix.mutate, if_pos hp, if_pos hp', Int.mul_neg]
    omega
  · rw [not_or] at hp
    have := h.through hi hj hk
    rw [mutate_of_ne _ hp.1 hp.2, mutate_of_ne _ hp.2 hp.1]
    linarith

/-- An entry vanishes with the opposite one. -/
theorem eq_zero_iff (h : SymmetrizedBy n d b) {i j : Nat} (hi : i < n) (hj : j < n) :
    b i j = 0 ↔ b j i = 0 := by
  have hij := h.skew i hi j hj
  have pi := h.pos i hi
  have pj := h.pos j hj
  constructor
  · intro h0
    rw [h0, Int.mul_zero, eq_comm, Int.neg_eq_zero, Int.mul_eq_zero] at hij
    omega
  · intro h0
    rw [h0, Int.mul_zero, Int.neg_zero, Int.mul_eq_zero] at hij
    omega

/-- Opposite entries have opposite signs. -/
theorem neg_of_pos (h : SymmetrizedBy n d b) {i j : Nat} (hi : i < n) (hj : j < n)
    (hpos : 0 < b i j) : b j i < 0 := by
  have hij := h.skew i hi j hj
  have hlt : 0 < d i * b i j := Int.mul_pos (h.pos i hi) hpos
  by_contra hge
  have : 0 ≤ d j * b j i := Int.mul_nonneg (h.pos j hj).le (Int.not_lt.mp hge)
  omega

theorem diagonal (h : SymmetrizedBy n d b) {i : Nat} (hi : i < n) : b i i = 0 := by
  have hii := h.skew i hi i hi
  have := h.pos i hi
  have : d i * b i i = 0 := by omega
  rcases Int.mul_eq_zero.mp this with h0 | h0
  · omega
  · exact h0

end SymmetrizedBy

end IntegerMatrix

end MutationFinite
