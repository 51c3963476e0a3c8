import MutationFinite.Proofs.Matrix.Certificate
import MutationFinite.Proofs.Relabelling.Action
import MutationFinite.Proofs.Mutation.Overflow

/-!
# Two vertices

The quivers of two mutable vertices and no others.  Exact mutation changes the signs of both
entries, whatever their size.  Checked mutation computes the diagonal, too, where two products of
both entries cancel, and overflows when the product is out of range.

* `Opposed`: the entries are both zero, or of opposite signs.
* `exactClass_rankTwo`: the exact class holds the matrix and its opposite.
* `exists_mutate?_rankTwo_iff`: when a mutation is defined.
* `mutationClass_rankTwo`, `same_rankTwo_iff`: the class when it is, and whether the two matrices of
  the class are the same up to relabelling.
-/

namespace MutationFinite

open IntegerMatrix (through exactClass)

/-- The entries are both `0`, or both are not and their signs are opposite. -/
def Opposed (a b : Entry) : Prop := a = 0 ∧ b = 0 ∨ a.val * b.val < 0

instance (a b : Entry) : Decidable (Opposed a b) := inferInstanceAs (Decidable (_ ∨ _))

namespace Opposed

variable {a b : Entry}

theorem symm (h : Opposed a b) : Opposed b a :=
  h.imp And.symm fun h => Int.mul_comm a.val b.val ▸ h

theorem right_eq_zero (h : Opposed a b) (ha : a.val = 0) : b = 0 := by
  rcases h with ⟨-, hb⟩ | h
  · exact hb
  · rw [ha, Int.zero_mul] at h
    exact absurd h (lt_irrefl 0)

/-- The signs do not agree. -/
theorem signs (h : Opposed a b) : 0 ≤ a.val ∧ b.val ≤ 0 ∨ a.val ≤ 0 ∧ 0 ≤ b.val := by
  rcases h with ⟨rfl, rfl⟩ | h
  · exact .inl ⟨le_refl 0, le_refl 0⟩
  · rcases mul_neg_iff.mp h with ⟨ha, hb⟩ | ⟨ha, hb⟩
    · exact .inl ⟨ha.le, hb.le⟩
    · exact .inr ⟨ha.le, hb.le⟩

/-- Nothing passes through a vertex between arrows that both lead to it, or both from it. -/
theorem through_eq_zero (h : Opposed a b) : through a.val b.val = 0 := by
  rcases h.signs with ⟨ha, hb⟩ | ⟨ha, hb⟩
  · exact IntegerMatrix.through_of_nonneg_of_nonpos ha hb
  · exact IntegerMatrix.through_of_nonpos_of_nonneg ha hb

/-- Scaled by the absolute values of each other, the entries are opposite. -/
theorem skew (h : Opposed a b) : |b.val| * a.val = -(|a.val| * b.val) := by
  rcases h.signs with ⟨ha, hb⟩ | ⟨ha, hb⟩
  · rw [abs_of_nonneg ha, abs_of_nonpos hb, Int.neg_mul, Int.mul_comm]
  · rw [abs_of_nonpos ha, abs_of_nonneg hb, Int.neg_mul, Int.neg_neg, Int.mul_comm]

/-- An entry is no greater than the product. -/
theorem abs_left_le (h : Opposed a b) : |a.val| ≤ |a.val * b.val| := by
  rcases h with ⟨rfl, rfl⟩ | h
  · rfl
  · rw [abs_mul]
    exact le_mul_of_one_le_right (abs_nonneg _) (Int.one_le_abs (right_ne_zero_of_mul h.ne))

/-- The opposite of an entry whose product with the other is in range. -/
theorem val_neg (h : Opposed a b) (hfits : |a.val * b.val| ≤ 2147483647) :
    a.neg.val = -a.val := by
  have habs := abs_le.mp (h.abs_left_le.trans hfits)
  have hrange : Entry.InRange (-a.val) := by constructor <;> omega
  obtain ⟨e, he⟩ := Entry.exists_val_eq.mpr hrange
  rw [Entry.neg, Entry.neg?_eq_some.mpr he, Option.getD_some, he]

end Opposed

namespace ExchangeMatrix

/-- The entry `a` from the first vertex to the second, and `b` back. -/
def rankTwo (a b : Entry) : ExchangeMatrix :=
  .ofFn 2 2 fun i j => if i = j then 0 else if i = 0 then a else b

variable {a b : Entry} {i j k : Nat}

/-- A position is outside, on the diagonal, or one of the two others. -/
theorem rankTwo_cases (i j : Nat) :
    (2 ≤ i ∨ 2 ≤ j) ∨ i = j ∨ i = 0 ∧ j = 1 ∨ i = 1 ∧ j = 0 := by
  omega

theorem values_rankTwo_diagonal (a b : Entry) (i : Nat) : (rankTwo a b).values i i = 0 := by
  rw [values, rankTwo, cell_ofFn, if_pos rfl, ite_self]
  rfl

theorem values_rankTwo_outside (a b : Entry) (h : 2 ≤ i ∨ 2 ≤ j) :
    (rankTwo a b).values i j = 0 :=
  (rankTwo a b).values_eq_zero h

/-- What passes from a vertex through the other one and back: the products cancel. -/
theorem rankTwo_back_and_forth (h : Opposed a b) (hi : i < 2) (hk : k < 2) (hik : i ≠ k) :
    |(rankTwo a b).values i k * (rankTwo a b).values k i| = |a.val * b.val| ∧
      through ((rankTwo a b).values i k) ((rankTwo a b).values k i) = 0 := by
  have hcases : i = 0 ∧ k = 1 ∨ i = 1 ∧ k = 0 := by omega
  rcases hcases with ⟨rfl, rfl⟩ | ⟨rfl, rfl⟩
  · exact ⟨rfl, h.through_eq_zero⟩
  · exact ⟨congrArg abs (Int.mul_comm b.val a.val), h.symm.through_eq_zero⟩

/-- Each absolute value is a factor for the row of the other vertex. -/
theorem symmetrizable_rankTwo (h : Opposed a b) : Symmetrizable (rankTwo a b) := by
  refine ⟨rfl, ?_⟩
  have hskew := h.skew
  rcases h with ⟨rfl, rfl⟩ | hsigns
  · exact ⟨fun _ => 1, by decide, by decide⟩
  · refine ⟨fun i => if i = 0 then |b.val| else |a.val|, fun i _ => ?_, fun i hi j hj => ?_⟩
    · split
      · exact abs_pos.mpr (right_ne_zero_of_mul hsigns.ne)
      · exact abs_pos.mpr (left_ne_zero_of_mul hsigns.ne)
    · rcases rankTwo_cases i j with hout | rfl | ⟨rfl, rfl⟩ | ⟨rfl, rfl⟩
      · exact absurd hout (not_or.mpr ⟨not_le.mpr hi, not_le.mpr hj⟩)
      · simp [values_rankTwo_diagonal]
      · exact hskew
      · exact (neg_eq_iff_eq_neg.mpr hskew).symm

/-! ### Exact mutation -/

/-- Exact mutation at either vertex changes both signs. -/
theorem values_mutate_rankTwo (h : Opposed a b) (hk : k < 2) :
    (rankTwo a b).values.mutate k = -(rankTwo a b).values := by
  funext i j
  by_cases hp : i = k ∨ j = k
  · rw [IntegerMatrix.mutate, if_pos hp]
    rfl
  rw [not_or] at hp
  rw [IntegerMatrix.mutate_of_ne _ hp.1 hp.2, Pi.neg_apply, Pi.neg_apply]
  -- away from the pivot, only the diagonal entry of the other vertex is inside the matrix
  have hcases : 2 ≤ i ∨ 2 ≤ j ∨ i < 2 ∧ j = i := by omega
  rcases hcases with hi | hj | ⟨hi, rfl⟩
  · rw [values_rankTwo_outside a b (.inl hi), values_rankTwo_outside a b (.inl hi),
      IntegerMatrix.through_zero_left]
    rfl
  · rw [values_rankTwo_outside a b (.inr hj), values_rankTwo_outside a b (.inr hj),
      IntegerMatrix.through_zero_right]
    rfl
  · rw [(rankTwo_back_and_forth h hi hk hp.1).2, values_rankTwo_diagonal]
    rfl

/-- The exact class of a quiver with two vertices is the matrix and its opposite. -/
theorem exactClass_rankTwo (h : Opposed a b) :
    exactClass 2 (rankTwo a b).values = {(rankTwo a b).values, -(rankTwo a b).values} := by
  refine IntegerMatrix.exactClass_eq_pair Nat.zero_lt_two fun k hk => ?_
  have hforth := values_mutate_rankTwo h hk
  refine ⟨hforth, ?_⟩
  rw [IntegerMatrix.neg_mutate, hforth, neg_neg]

/-! ### Checked mutation -/

/-- The matrix of the opposite entries, when they have opposites. -/
theorem values_rankTwo_neg (h : Opposed a b) (hfits : |a.val * b.val| ≤ 2147483647) :
    (rankTwo a.neg b.neg).values = -(rankTwo a b).values := by
  funext i j
  rw [Pi.neg_apply, Pi.neg_apply]
  rcases rankTwo_cases i j with hout | rfl | ⟨rfl, rfl⟩ | ⟨rfl, rfl⟩
  · rw [values_rankTwo_outside _ _ hout, values_rankTwo_outside _ _ hout]
    rfl
  · rw [values_rankTwo_diagonal, values_rankTwo_diagonal]
    rfl
  · exact h.val_neg hfits
  · exact h.symm.val_neg (Int.mul_comm a.val b.val ▸ hfits)

theorem valuesFit_rankTwo (h : Opposed a b) (hfits : |a.val * b.val| ≤ 2147483647) (hk : k < 2) :
    (rankTwo a b).ValuesFit k := by
  intro i _ j _
  rw [values_mutate_rankTwo h hk, ← values_rankTwo_neg h hfits]
  exact ((rankTwo a.neg b.neg).cell i j).inRange_val

/-- The products on the diagonal decide whether a mutation is defined. -/
theorem exists_mutate?_rankTwo_iff (h : Opposed a b) (hk : k < 2) :
    (∃ m', (rankTwo a b).mutate? k = .ok m') ↔ |a.val * b.val| ≤ 2147483647 := by
  rw [exists_mutate?_iff hk]
  constructor
  · rintro ⟨-, hthrough⟩
    obtain ⟨i, hi, hik⟩ : ∃ i < 2, i ≠ k := ⟨1 - k, by omega, by omega⟩
    rw [← (rankTwo_back_and_forth h hi hk hik).1]
    exact (hthrough i hi hik i hi hik).1
  · refine fun hfits => ⟨valuesFit_rankTwo h hfits hk, fun i hi hik j hj hjk => ?_⟩
    have hi : i < 2 := hi
    have hj : j < 2 := hj
    obtain rfl : j = i := by omega
    obtain ⟨hproduct, hthrough⟩ := rankTwo_back_and_forth h hi hk hik
    rw [hproduct, hthrough]
    exact ⟨hfits, by decide⟩

/-- A mutation that is defined changes both signs. -/
theorem mutate?_rankTwo (h : Opposed a b) (hfits : |a.val * b.val| ≤ 2147483647) (hk : k < 2) :
    (rankTwo a b).mutate? k = .ok (rankTwo a.neg b.neg) := by
  obtain ⟨m', hto⟩ := (exists_mutate?_rankTwo_iff h hk).mpr hfits
  have hexact := mutatesTo_of_mutate? hto
  have hvalues : m'.values = (rankTwo a.neg b.neg).values := by
    rw [hexact.values, values_mutate_rankTwo h hk, values_rankTwo_neg h hfits]
  rw [hto, eq_of_values_eq (b := rankTwo a.neg b.neg) hexact.shape hvalues]

/-- The second mutation restores the matrix. -/
theorem mutate?_rankTwo_neg (h : Opposed a b) (hfits : |a.val * b.val| ≤ 2147483647) (hk : k < 2) :
    (rankTwo a.neg b.neg).mutate? k = .ok (rankTwo a b) := by
  have hproduct : a.neg.val * b.neg.val = a.val * b.val := by
    rw [h.val_neg hfits, h.symm.val_neg (Int.mul_comm a.val b.val ▸ hfits), neg_mul_neg]
  have hneg : Opposed a.neg b.neg := by
    refine h.imp (fun h0 => ?_) fun h0 => hproduct ▸ h0
    obtain ⟨rfl, rfl⟩ := h0
    exact ⟨rfl, rfl⟩
  have hfits' : |a.neg.val * b.neg.val| ≤ 2147483647 := hproduct ▸ hfits
  have hback : rankTwo a.neg.neg b.neg.neg = rankTwo a b := by
    refine eq_of_values_eq ⟨rfl, rfl⟩ ?_
    rw [values_rankTwo_neg hneg hfits', values_rankTwo_neg h hfits, neg_neg]
  rw [mutate?_rankTwo hneg hfits' hk, hback]

/-- When mutations are defined, the class is the matrix and its opposite. -/
theorem mutationClass_rankTwo (h : Opposed a b) (hfits : |a.val * b.val| ≤ 2147483647) :
    (rankTwo a b).mutationClass = {rankTwo a b, rankTwo a.neg b.neg} :=
  mutationClass_eq_pair Nat.zero_lt_two fun _ hk =>
    ⟨mutate?_rankTwo h hfits hk, mutate?_rankTwo_neg h hfits hk⟩

/-- Then all mutations in the class are defined. -/
theorem exists_mutate?_of_reaches_rankTwo {x : ExchangeMatrix} (h : Opposed a b)
    (hfits : |a.val * b.val| ≤ 2147483647) (hx : Reaches (rankTwo a b) x) (hk : k < x.rank) :
    ∃ c, x.mutate? k = .ok c := by
  have hk : k < 2 := hk.trans_eq hx.shape.rank_eq
  have hpair : x ∈ (rankTwo a b).mutationClass := hx
  rw [mutationClass_rankTwo h hfits] at hpair
  rcases hpair with rfl | rfl
  · exact ⟨_, mutate?_rankTwo h hfits hk⟩
  · exact ⟨_, mutate?_rankTwo_neg h hfits hk⟩

/-! ### The two matrices of a class -/

/-- The matrix is its own opposite only when there are no arrows. -/
theorem rankTwo_eq_neg_iff (h : Opposed a b) (hfits : |a.val * b.val| ≤ 2147483647) :
    rankTwo a b = rankTwo a.neg b.neg ↔ a = 0 := by
  constructor
  · intro he
    have hval : a.val = -a.val :=
      (congrArg (fun m => m.values 0 1) he).trans (h.val_neg hfits)
    have hzero : a.val = 0 := by omega
    exact Entry.ext hzero
  · rintro rfl
    rw [h.right_eq_zero rfl]
    rfl

/-- The matrix and its opposite are the same up to relabelling when the entries are opposite. -/
theorem same_rankTwo_iff (h : Opposed a b) (hfits : |a.val * b.val| ≤ 2147483647) :
    Identification.relabelling.Same (rankTwo a b) (rankTwo a.neg b.neg) ↔ a.val = -b.val := by
  have ha := h.val_neg hfits
  have hb := h.symm.val_neg (Int.mul_comm a.val b.val ▸ hfits)
  constructor
  · rintro ⟨p, -, hc⟩
    have hsize : p.size = 2 := hc.size
    have hzero := p.apply_lt (i := 0) (by omega)
    have hone := p.apply_lt (i := 1) (by omega)
    have hne : p.apply 0 ≠ p.apply 1 := p.apply_injective.ne (by decide)
    have hcell : (rankTwo a.neg b.neg).values (p.apply 0) (p.apply 1) = a.val := hc.values 0 1
    have hcases : p.apply 0 = 0 ∧ p.apply 1 = 1 ∨ p.apply 0 = 1 ∧ p.apply 1 = 0 := by omega
    rcases hcases with ⟨h0, h1⟩ | ⟨h0, h1⟩
    · -- the vertices stay, so that the entry is its own opposite
      rw [h0, h1] at hcell
      have hself : -a.val = a.val := ha.symm.trans hcell
      have hzero : a.val = 0 := by omega
      rw [hzero, h.right_eq_zero hzero]
      rfl
    · rw [h0, h1] at hcell
      exact hcell.symm.trans hb
  · -- the exchange of the two vertices exchanges the two entries
    intro heq
    have hswap : a.neg = b ∧ b.neg = a := ⟨Entry.ext (by omega), Entry.ext (by omega)⟩
    refine ⟨⟨#[1, 0], by decide⟩, trivial, carries_of_inside ⟨rfl, rfl⟩ rfl fun i hi j hj => ?_⟩
    rw [hswap.1, hswap.2]
    obtain rfl | rfl := Nat.le_one_iff_eq_zero_or_eq_one.mp (Nat.le_of_lt_succ hi) <;>
      obtain rfl | rfl := Nat.le_one_iff_eq_zero_or_eq_one.mp (Nat.le_of_lt_succ hj) <;> rfl

end ExchangeMatrix

end MutationFinite
