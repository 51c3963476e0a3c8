import MutationFinite.Proofs.Mutation.Exact
import Mathlib.Data.Set.Finite.Lattice

/-!
# Growth along a heavy pair

A heavy pair is a pair of vertices `v`, `w` with entries of opposite signs and `|b_vw * b_wv| ≥ 5`.
A third vertex `u` sees the pair through the entries `x = b_uv` and `y = b_uw`.  Mutating at `v` and
`w` in turn keeps the pair heavy and lets `u` see the terms of a recurrence with characteristic
number `|b_vw * b_wv| - 2 ≥ 3`, of which the terms grow without bound in one of its two directions.

* `Growing`: the pair is seen at the start of a growing stretch of the recurrence.
* `Growing.advance`: two mutations later it still is, and `b_uv` is greater.
* `exactClass_infinite_of_heavy`: a heavy pair that a third vertex sees has an infinite class.
-/

namespace MutationFinite

namespace IntegerMatrix

variable {n u v w : Nat} {b : IntegerMatrix}

/-- The entries `b_vw` and `b_wv` have opposite signs, the first is positive, and the absolute
value of their product is at least 5. -/
structure HeavyPair (b : IntegerMatrix) (v w : Nat) : Prop where
  pos : 0 < b v w
  neg : b w v < 0
  weight : 5 ≤ b v w * -b w v

/-- The vertex `u` sees the heavy pair `v`, `w` with `b_uv` positive and smaller than what two
mutations make of it. -/
structure Growing (b : IntegerMatrix) (u v w : Nat) : Prop where
  heavy : HeavyPair b v w
  pos : 0 < b u v
  grows : 0 < (b v w * -b w v - 2) * b u v + -b w v * b u w

/-- Mutation at the positive end of a heavy pair makes the other end positive. -/
theorem HeavyPair.mutate (h : HeavyPair b v w) : HeavyPair (b.mutate v) w v := by
  refine ⟨?_, ?_, ?_⟩
  · rw [mutate_pivot_col]; exact Int.neg_pos_of_neg h.neg
  · rw [mutate_pivot_row]; exact Int.neg_neg_of_pos h.pos
  · rw [mutate_pivot_col, mutate_pivot_row, Int.neg_neg, Int.mul_comm]; exact h.weight

/-- With all signs changed, a heavy pair is one the other way around. -/
theorem HeavyPair.reverse (h : HeavyPair b v w) : HeavyPair (-b) w v := by
  refine ⟨Int.neg_pos_of_neg h.neg, Int.neg_neg_of_pos h.pos, ?_⟩
  simp only [Pi.neg_apply, Int.neg_neg]
  rw [Int.mul_comm]
  exact h.weight

/-- What `u` sees of the other end of a heavy pair after a mutation at the positive end, when it
sees that end through a non-negative entry. -/
theorem HeavyPair.mutate_seen (h : HeavyPair b v w) (huv : u ≠ v) (hvw : v ≠ w)
    (hx : 0 ≤ b u v) : b.mutate v u w = b u w + b u v * b v w := by
  rw [mutate_of_ne _ huv hvw.symm, through_of_nonneg hx h.pos.le]

/-- The same through an entry that is not positive: nothing changes. -/
theorem HeavyPair.mutate_unseen (h : HeavyPair b v w) (huv : u ≠ v) (hvw : v ≠ w)
    (hx : b u v ≤ 0) : b.mutate v u w = b u w := by
  rw [mutate_of_ne _ huv hvw.symm, through_of_nonpos_of_nonneg hx h.pos.le, Int.add_zero]

/-- The next term of the recurrence two mutations later exceeds twice the term now. -/
theorem recurrence_grows {t x z : Int} (ht : 5 ≤ t) (hx : 0 < x) (hz : x < z) :
    0 < (t - 2) * z - x - z := by
  nlinarith [Int.mul_le_mul_of_nonneg_right ht (show 0 ≤ z by omega)]

/-- **Growth goes on.**  Two mutations keep a pair growing and raise the entry seen. -/
theorem Growing.advance (h : Growing b u v w) (huv : u ≠ v) (huw : u ≠ w) (hvw : v ≠ w) :
    Growing ((b.mutate v).mutate w) u v w ∧ b u v < (b.mutate v).mutate w u v := by
  obtain ⟨heavy, hx, hg⟩ := h
  have heavy₁ := heavy.mutate
  have heavy₂ := heavy₁.mutate
  -- the terms of the recurrence: `x`, `y₁` after one mutation, `x₂` after two
  have hy₁ : b.mutate v u w = b u w + b u v * b v w := heavy.mutate_seen huv hvw hx.le
  have hq : 0 < -b w v := Int.neg_pos_of_neg heavy.neg
  have hlink : -b w v * (b.mutate v u w) =
      (b v w * -b w v - 2) * b u v + -b w v * b u w + 2 * b u v := by rw [hy₁]; ring
  have hpos₁ : 0 < b.mutate v u w := by
    by_contra hle
    have := Int.mul_nonneg hq.le (show 0 ≤ -(b.mutate v u w) by omega)
    rw [Int.mul_neg] at this
    omega
  have hx₂ : (b.mutate v).mutate w u v = -b w v * (b.mutate v u w) - b u v := by
    rw [heavy₁.mutate_seen huw hvw.symm hpos₁.le, mutate_pivot_col, mutate_pivot_col]
    ring
  have hgrow : b u v < (b.mutate v).mutate w u v := by omega
  refine ⟨⟨heavy₂, by omega, ?_⟩, hgrow⟩
  have hvw₂ : (b.mutate v).mutate w v w = b v w := by
    rw [mutate_pivot_col, mutate_pivot_row, Int.neg_neg]
  have hwv₂ : (b.mutate v).mutate w w v = b w v := by
    rw [mutate_pivot_row, mutate_pivot_col, Int.neg_neg]
  have hyw₂ : (b.mutate v).mutate w u w = -(b.mutate v u w) := mutate_pivot_col _ _ _
  have hstep := recurrence_grows heavy.weight hx hgrow
  rw [hvw₂, hwv₂, hyw₂]
  calc 0 < (b v w * -b w v - 2) * (b.mutate v).mutate w u v - b u v
        - (b.mutate v).mutate w u v := hstep
    _ = (b v w * -b w v - 2) * (b.mutate v).mutate w u v + -b w v * -(b.mutate v u w) := by
      rw [hx₂]; ring

/-- A growing pair reaches growing pairs with entries as great as one likes. -/
theorem Growing.exists_reaches (h : Growing b u v w) (huv : u ≠ v) (huw : u ≠ w) (hvw : v ≠ w)
    (hv : v < n) (hw : w < n) (m : Nat) :
    ∃ c, Reaches n b c ∧ Growing c u v w ∧ b u v + m ≤ c u v := by
  induction m with
  | zero => exact ⟨b, .refl b, h, by simp⟩
  | succ m ih =>
      obtain ⟨c, hc, hg, hle⟩ := ih
      obtain ⟨hg', hlt⟩ := hg.advance huv huw hvw
      exact ⟨_, .step (.step hc hv) hw, hg', by push_cast; omega⟩

theorem Growing.exactClass_infinite (h : Growing b u v w) (huv : u ≠ v) (huw : u ≠ w)
    (hvw : v ≠ w) (hv : v < n) (hw : w < n) : (exactClass n b).Infinite := by
  refine Set.Infinite.of_image (fun c => c u v) (Set.infinite_of_not_bddAbove ?_)
  rintro ⟨bound, hbound⟩
  obtain ⟨c, hc, -, hle⟩ := h.exists_reaches huv huw hvw hv hw (bound + 1 - b u v).toNat
  have hmax : c u v ≤ bound := hbound ⟨c, hc, rfl⟩
  omega

theorem HeavyPair.growing_of_nonneg (h : HeavyPair b v w) (hx : 0 < b u v) (hy : 0 ≤ b u w) :
    Growing b u v w := by
  have hq : 0 < -b w v := Int.neg_pos_of_neg h.neg
  have ht : 0 < b v w * -b w v - 2 := by have := h.weight; omega
  exact ⟨h, hx, by nlinarith [Int.mul_pos ht hx, Int.mul_nonneg hq.le hy]⟩

/-- The pair is growing in one of the two directions of the recurrence, if `u` sees the positive
end through a positive entry and the negative end through a negative one. -/
theorem HeavyPair.growing_of_mixed (h : HeavyPair b v w) (hx : 0 < b u v) (hy : b u w < 0) :
    Growing b u v w ∨ Growing (-b) u w v := by
  -- if neither direction grows, `u` is stuck between two bounds that exclude each other
  by_contra hno
  rw [not_or] at hno
  obtain ⟨h₁, h₂⟩ := hno
  have e₁ : (b v w * -b w v - 2) * b u v + -b w v * b u w ≤ 0 := by
    by_contra hlt
    exact h₁ ⟨h, hx, Int.not_le.mp hlt⟩
  have e₂ : (-b w v * b v w - 2) * -b u w + b v w * -b u v ≤ 0 := by
    by_contra hlt
    refine h₂ ⟨h.reverse, Int.neg_pos_of_neg hy, ?_⟩
    simp only [Pi.neg_apply, Int.neg_neg]
    exact Int.not_le.mp hlt
  have ht := h.weight
  have hp := h.pos
  have hq : 0 < -b w v := Int.neg_pos_of_neg h.neg
  have hY : 0 < -b u w := Int.neg_pos_of_neg hy
  generalize -b w v = q at *
  generalize b v w = p at *
  generalize b u v = x at *
  obtain ⟨y, hy'⟩ : ∃ y, -b u w = y := ⟨_, rfl⟩
  have hby : b u w = -y := by omega
  rw [hby, Int.neg_neg] at e₂ hY
  rw [hby] at e₁
  -- `(t - 2) x ≤ q y` and `(t - 2) y ≤ p x` with `t = p q` give `(t - 2)² ≤ t`
  have f₁ : (p * q - 2) * x ≤ q * y := by linarith [Int.mul_neg q y]
  have f₂ : (p * q - 2) * y ≤ p * x := by linarith [Int.mul_comm q p, Int.mul_neg p x]
  have hprod : ((p * q - 2) * x) * ((p * q - 2) * y) ≤ (q * y) * (p * x) :=
    mul_le_mul f₁ f₂ (by nlinarith) (by positivity)
  have hxy : 0 < x * y := Int.mul_pos hx hY
  nlinarith [mul_pos hxy (show 0 < (p * q - 2) * (p * q - 2) - p * q by nlinarith)]

/-- **A heavy pair that a third vertex sees has an infinite class.** -/
theorem exactClass_infinite_of_heavy (h : HeavyPair b v w) (huv : u ≠ v) (huw : u ≠ w)
    (hvw : v ≠ w) (hv : v < n) (hw : w < n) (hsee : b u v ≠ 0 ∨ b u w ≠ 0) :
    (exactClass n b).Infinite := by
  rcases lt_or_ge 0 (b u v) with hx | hx <;> rcases lt_or_ge (b u w) 0 with hy | hy
  · rcases h.growing_of_mixed hx hy with hg | hg
    · exact hg.exactClass_infinite huv huw hvw hv hw
    · exact exactClass_infinite_of_neg (hg.exactClass_infinite huw huv hvw.symm hw hv)
  · exact (h.growing_of_nonneg hx hy).exactClass_infinite huv huw hvw hv hw
  · have hg : Growing (-b) u w v :=
      h.reverse.growing_of_nonneg (Int.neg_pos_of_neg hy) (Int.neg_nonneg_of_nonpos hx)
    exact exactClass_infinite_of_neg (hg.exactClass_infinite huw huv hvw.symm hw hv)
  · -- neither entry has the sign to grow: one or two mutations turn the pair around
    have hx₁ : 0 ≤ b.mutate v u v := by
      rw [mutate_pivot_col]
      exact Int.neg_nonneg_of_nonpos hx
    have hy₁ : b.mutate v u w = b u w := h.mutate_unseen huv hvw hx
    refine exactClass_infinite_of_reaches (Reaches.one hv) ?_
    rcases hy.eq_or_lt with hy0 | hy
    · refine exactClass_infinite_of_reaches (Reaches.one hw) ?_
      have hx₂ : (b.mutate v).mutate w u v = -b u v := by
        rw [h.mutate.mutate_unseen huw hvw.symm (by rw [hy₁, ← hy0]), mutate_pivot_col]
      have hy₂ : (b.mutate v).mutate w u w = 0 := by
        rw [mutate_pivot_col, hy₁, ← hy0, Int.neg_zero]
      exact (h.mutate.mutate.growing_of_nonneg (by omega) hy₂.ge).exactClass_infinite huv huw hvw
        hv hw
    · exact (h.mutate.growing_of_nonneg (by omega) hx₁).exactClass_infinite huw huv hvw.symm hw hv

end IntegerMatrix

end MutationFinite
