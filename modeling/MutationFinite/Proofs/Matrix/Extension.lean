import MutationFinite.Matrix.Extension
import MutationFinite.Proofs.Mutation.Checked
import Mathlib.Algebra.Order.Ring.Abs
import Mathlib.Tactic.Ring

/-!
# Extensions by weight vectors

The readings of an odometer are the weight vectors, and the one in the middle is the zero vector.
So the extensions that are numbered are those by the other weight vectors.

* `number`: the reading that shows a weight vector; `weightAt_number` says that it does.
* `eq_of_weightAt`: a weight vector is shown by one reading only.
* `Extends`: a matrix extends another one by a weight vector.
* `extends_get`, `exists_get_eq`, `forall_get_iff`: the extensions numbered are those by weight
  vectors in range that are not zero.
-/

namespace MutationFinite

namespace Extensions

variable {x : Extensions} {w : Nat → Int} {n i p q t : Nat}

/-! ### Readings of the odometer -/

/-- The reading of `n` wheels that shows the weights `w`. -/
def number (x : Extensions) (w : Nat → Int) : Nat → Nat
  | 0 => 0
  | n + 1 => (w 0 + x.weight).toNat + x.radix * x.number (fun i => w (i + 1)) n

theorem radix_pos (x : Extensions) : 0 < x.radix := Nat.succ_pos _

/-- A weight in range is a digit. -/
theorem digit_lt (h : |w i| ≤ x.weight) : (w i + x.weight).toNat < x.radix := by
  have := abs_le.mp h
  unfold radix
  omega

theorem number_lt (h : ∀ i < n, |w i| ≤ x.weight) : x.number w n < x.radix ^ n := by
  induction n generalizing w with
  | zero => exact Nat.one_pos
  | succ n ih =>
      have hdigit := digit_lt (h 0 (by omega))
      have hrest : x.number (fun i => w (i + 1)) n + 1 ≤ x.radix ^ n :=
        ih fun i hi => h (i + 1) (by omega)
      calc (w 0 + x.weight).toNat + x.radix * x.number (fun i => w (i + 1)) n
          < x.radix * (x.number (fun i => w (i + 1)) n + 1) := by
            rw [Nat.mul_add, Nat.mul_one]
            omega
        _ ≤ x.radix * x.radix ^ n := Nat.mul_le_mul_left _ hrest
        _ = x.radix ^ (n + 1) := by rw [Nat.pow_succ, Nat.mul_comm]

/-- The wheels after the first show the reading without it. -/
theorem weightAt_succ (x : Extensions) (p i : Nat) :
    x.weightAt p (i + 1) = x.weightAt (p / x.radix) i := by
  simp only [weightAt, Nat.pow_eq]
  rw [Nat.div_div_eq_div_mul, Nat.pow_succ, Nat.mul_comm x.radix]

theorem weightAt_zero (x : Extensions) (p : Nat) :
    x.weightAt p 0 = (p % x.radix : Nat) - (x.weight : Int) := by
  simp only [weightAt, Nat.pow_eq, Nat.pow_zero, Nat.div_one]

/-- **The wheels show the weights.** -/
theorem weightAt_number (h : ∀ i < n, |w i| ≤ x.weight) (hi : i < n) :
    x.weightAt (x.number w n) i = w i := by
  induction n generalizing w i with
  | zero => omega
  | succ n ih =>
      have hdigit := digit_lt (h 0 (by omega))
      cases i with
      | zero =>
          have := abs_le.mp (h 0 (by omega))
          rw [weightAt_zero, number, Nat.add_mul_mod_self_left, Nat.mod_eq_of_lt hdigit]
          omega
      | succ i =>
          rw [weightAt_succ, number, Nat.add_mul_div_left _ _ x.radix_pos,
            Nat.div_eq_of_lt hdigit, Nat.zero_add]
          exact ih (fun j hj => h (j + 1) (by omega)) (by omega)

/-- **A weight vector is shown by one reading only.** -/
theorem eq_of_weightAt (hp : p < x.radix ^ n) (hq : q < x.radix ^ n)
    (h : ∀ i < n, x.weightAt p i = x.weightAt q i) : p = q := by
  induction n generalizing p q with
  | zero =>
      rw [Nat.pow_zero] at hp hq
      omega
  | succ n ih =>
      rw [Nat.pow_succ] at hp hq
      have hrest : p / x.radix = q / x.radix := by
        refine ih (Nat.div_lt_of_lt_mul ?_) (Nat.div_lt_of_lt_mul ?_) fun i hi => ?_
        · rwa [Nat.mul_comm]
        · rwa [Nat.mul_comm]
        · rw [← weightAt_succ, ← weightAt_succ]
          exact h (i + 1) (by omega)
      have hfirst : p % x.radix = q % x.radix := by
        have := h 0 (by omega)
        rw [weightAt_zero, weightAt_zero] at this
        omega
      rw [← Nat.div_add_mod p x.radix, hrest, hfirst, Nat.div_add_mod]

/-- The zero vector stands in the middle. -/
theorem number_zero (x : Extensions) (n : Nat) :
    2 * x.number (fun _ => 0) n + 1 = x.radix ^ n := by
  induction n with
  | zero => rfl
  | succ n ih =>
      rw [Nat.pow_succ, ← ih, number, Int.zero_add, Int.toNat_natCast]
      unfold radix
      ring

theorem abs_weightAt_le (x : Extensions) (p i : Nat) : |x.weightAt p i| ≤ x.weight := by
  have hdigit := Nat.mod_lt (p / x.radix.pow i) x.radix_pos
  have hradix : x.radix = 2 * x.weight + 1 := rfl
  unfold weightAt
  rw [abs_le]
  omega

/-! ### The numbers of the extensions -/

theorem vectors_eq (x : Extensions) : x.vectors = x.radix ^ x.base.rank := Nat.pow_eq

theorem count_eq (x : Extensions) : x.count = 2 * x.number (fun _ => 0) x.base.rank := by
  have := x.number_zero x.base.rank
  rw [count, vectors_eq]
  omega

theorem reading_lt (ht : t < x.count) : x.reading t < x.radix ^ x.base.rank := by
  have := x.number_zero x.base.rank
  have := x.count_eq
  unfold reading
  split <;> omega

theorem reading_ne (x : Extensions) (t : Nat) :
    x.reading t ≠ x.number (fun _ => 0) x.base.rank := by
  have := x.count_eq
  unfold reading
  split <;> omega

/-- All other readings are those of extensions. -/
theorem exists_reading_eq (hp : p < x.radix ^ x.base.rank)
    (hne : p ≠ x.number (fun _ => 0) x.base.rank) : ∃ t < x.count, x.reading t = p := by
  have := x.number_zero x.base.rank
  have := x.count_eq
  rcases Nat.lt_or_gt_of_ne hne with h | h
  · refine ⟨p, by omega, ?_⟩
    rw [reading, if_pos (by omega)]
  · refine ⟨p - 1, by omega, ?_⟩
    rw [reading, if_neg (by omega)]
    omega

/-- **The weights of an extension are not all zero.** -/
theorem exists_weightAt_ne_zero (ht : t < x.count) :
    ∃ i < x.base.rank, x.weightAt (x.reading t) i ≠ 0 := by
  by_contra hno
  push Not at hno
  have hzero : ∀ i < x.base.rank, |(0 : Int)| ≤ x.weight := by simp
  refine x.reading_ne t (eq_of_weightAt (reading_lt ht) (number_lt hzero) fun i hi => ?_)
  rw [hno i hi, weightAt_number hzero hi]

/-- **Each weight vector in range that is not zero has a number.** -/
theorem exists_weightAt_eq (hw : ∀ i < x.base.rank, |w i| ≤ x.weight)
    (hne : ∃ i < x.base.rank, w i ≠ 0) :
    ∃ t < x.count, ∀ i < x.base.rank, x.weightAt (x.reading t) i = w i := by
  have hnumber : x.number w x.base.rank ≠ x.number (fun _ => 0) x.base.rank := by
    intro he
    obtain ⟨i, hi, hwi⟩ := hne
    refine hwi ?_
    rw [← weightAt_number hw hi, he]
    exact weightAt_number (by simp) hi
  obtain ⟨t, ht, hreading⟩ := exists_reading_eq (number_lt hw) hnumber
  exact ⟨t, ht, fun i hi => by rw [hreading, weightAt_number hw hi]⟩

end Extensions

/-! ### Extensions by a weight vector -/

namespace ExchangeMatrix

variable {m e e' : ExchangeMatrix} {w w' : Nat → Int}

/-- The square matrix `e` is `m` with a last vertex whose arrow to vertex `i` has weight `w i`. -/
structure Extends (m : ExchangeMatrix) (w : Nat → Int) (e : ExchangeMatrix) : Prop where
  rows : e.rows = m.rank + 1
  cols : e.cols = m.rank + 1
  inner : ∀ i < m.rank, ∀ j < m.rank, e.cell i j = m.cell i j
  row : ∀ i < m.rank, e.values m.rank i = w i
  col : ∀ i < m.rank, e.values i m.rank = -w i
  corner : e.cell m.rank m.rank = 0

namespace Extends

theorem rank_eq (h : Extends m w e) : e.rank = m.rank + 1 := by
  rw [rank, h.rows, h.cols, Nat.min_self]

theorem congr (h : Extends m w e) (hw : ∀ i < m.rank, w i = w' i) : Extends m w' e :=
  { h with
    row := fun i hi => (h.row i hi).trans (hw i hi)
    col := fun i hi => by rw [h.col i hi, hw i hi] }

/-- A matrix has one extension by a weight vector. -/
theorem unique (h : Extends m w e) (h' : Extends m w e') : e = e' := by
  refine ext_cell (h.rows.trans h'.rows.symm) (h.cols.trans h'.cols.symm) fun i hi j hj => ?_
  rw [h.rows, Nat.lt_succ_iff_lt_or_eq] at hi
  rw [h.cols, Nat.lt_succ_iff_lt_or_eq] at hj
  rcases hi with hi | rfl <;> rcases hj with hj | rfl
  · rw [h.inner i hi j hj, h'.inner i hi j hj]
  · exact Entry.ext ((h.col i hi).trans (h'.col i hi).symm)
  · exact Entry.ext ((h.row j hj).trans (h'.row j hj).symm)
  · rw [h.corner, h'.corner]

end Extends

theorem cell_attach {i j : Nat} (hi : i ≤ m.rank) (hj : j ≤ m.rank) :
    (Extensions.attach m w).cell i j =
      if i < m.rank then (if j < m.rank then m.cell i j else Entry.ofInt (-w i))
      else if j < m.rank then Entry.ofInt (w j) else 0 := by
  rw [Extensions.attach, cell_ofFn, if_pos ⟨Nat.lt_succ_of_le hi, Nat.lt_succ_of_le hj⟩]

/-- Weights whose opposites are entries are attached as they are. -/
theorem extends_attach (m : ExchangeMatrix) (h : ∀ i < m.rank, |w i| ≤ 2147483647) :
    Extends m w (Extensions.attach m w) := by
  have hrange : ∀ i < m.rank, Entry.InRange (w i) ∧ Entry.InRange (-w i) := by
    intro i hi
    have := abs_le.mp (h i hi)
    unfold Entry.InRange
    omega
  refine ⟨rfl, rfl, fun i hi j hj => ?_, fun i hi => ?_, fun i hi => ?_, ?_⟩
  · rw [cell_attach hi.le hj.le, if_pos hi, if_pos hj]
  · rw [values, cell_attach le_rfl hi.le, if_neg (lt_irrefl _), if_pos hi]
    exact Entry.val_ofInt (hrange i hi).1
  · rw [values, cell_attach hi.le le_rfl, if_pos hi, if_neg (lt_irrefl _)]
    exact Entry.val_ofInt (hrange i hi).2
  · rw [cell_attach le_rfl le_rfl, if_neg (lt_irrefl _), if_neg (lt_irrefl _)]

theorem extensions_eq_ok_iff {weight : Entry} {x : Extensions} :
    m.extensions weight = .ok x ↔ m.isSquare = true ∧ x = ⟨m, weight.val.natAbs⟩ := by
  rw [extensions]
  split
  · next h => rw [and_iff_right h, Except.ok.injEq, eq_comm]
  · next h => exact iff_of_false nofun fun hx => h hx.1

end ExchangeMatrix

namespace Extensions

open ExchangeMatrix (Extends extends_attach)

variable {x : Extensions} {w : Nat → Int} {t : Nat} {e : ExchangeMatrix}

/-- The extension with a number is the one by the weights on the wheels. -/
theorem extends_weightAt (hweight : x.weight ≤ 2147483647) (t : Nat) :
    Extends x.base (x.weightAt (x.reading t)) (x.get t) :=
  extends_attach x.base fun i _ => (x.abs_weightAt_le _ i).trans (by exact_mod_cast hweight)

/-- **Each number is that of an extension** by a weight vector in range that is not zero. -/
theorem extends_get (hweight : x.weight ≤ 2147483647) (ht : t < x.count) :
    ∃ w : Nat → Int, (∀ i < x.base.rank, |w i| ≤ x.weight) ∧ (∃ i < x.base.rank, w i ≠ 0) ∧
      Extends x.base w (x.get t) :=
  ⟨_, fun i _ => x.abs_weightAt_le _ i, exists_weightAt_ne_zero ht, extends_weightAt hweight t⟩

/-- **Each extension** by such a weight vector **has a number.** -/
theorem exists_get_eq (hweight : x.weight ≤ 2147483647)
    (hw : ∀ i < x.base.rank, |w i| ≤ x.weight) (hne : ∃ i < x.base.rank, w i ≠ 0)
    (he : Extends x.base w e) : ∃ t < x.count, x.get t = e := by
  obtain ⟨t, ht, hweights⟩ := exists_weightAt_eq hw hne
  exact ⟨t, ht, ((extends_weightAt hweight t).congr hweights).unique he⟩

/-- **What holds of all numbers holds of all extensions.** -/
theorem forall_get_iff (hweight : x.weight ≤ 2147483647) {P : ExchangeMatrix → Prop} :
    (∀ t < x.count, P (x.get t)) ↔ ∀ (w : Nat → Int) (e : ExchangeMatrix),
      (∀ i < x.base.rank, |w i| ≤ x.weight) → (∃ i < x.base.rank, w i ≠ 0) →
        Extends x.base w e → P e := by
  constructor
  · intro h w e hw hne he
    obtain ⟨t, ht, rfl⟩ := exists_get_eq hweight hw hne he
    exact h t ht
  · intro h t ht
    obtain ⟨w, hw, hne, he⟩ := extends_get hweight ht
    exact h w _ hw hne he

theorem rank_get (x : Extensions) (t : Nat) : (x.get t).rank = x.base.rank + 1 := Nat.min_self _

end Extensions

end MutationFinite
