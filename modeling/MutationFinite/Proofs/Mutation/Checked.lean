import MutationFinite.Proofs.Mutation.Exact
import MutationFinite.Matrix.Mutation

/-!
# Checked mutation and exact mutation

Mutation of a matrix of entries follows exact mutation as far as its steps stay in the range of
entries.

* `Entry.Fits`: the steps on the way to a mutated cell stay in range; `Entry.mutated?_eq_some_iff`.
* `overwriteMutated_eq_true_iff`: what a buffer holds after all cells are written, whatever it held
  before.
* `mutate?_eq_ok_iff`, `mutate?_eq_error_iff`: when a mutation is defined, and its cells.
* `MutatesTo`: one matrix of entries is the exact mutation of another; `MutatesTo.symm`.
-/

namespace MutationFinite

open IntegerMatrix (through through_neg_neg)

namespace Entry

/-- The values on the way to `through x y` are values of entries. -/
structure Fits (x y : Int) : Prop where
  abs_left : InRange |x|
  abs_right : InRange |y|
  left : InRange (|x| * y)
  right : InRange (x * |y|)
  sum : InRange (2 * through x y)

theorem neg?_eq_some {a e : Entry} : a.neg? = some e ↔ e.val = -a.val := ofInt?_eq_some

theorem abs?_eq_some {a e : Entry} : a.abs? = some e ↔ e.val = |a.val| := by
  rw [Int.abs_eq_natAbs]
  exact ofInt?_eq_some

theorem mul?_eq_some {a b e : Entry} : a.mul? b = some e ↔ e.val = a.val * b.val := ofInt?_eq_some

theorem add?_eq_some {a b e : Entry} : a.add? b = some e ↔ e.val = a.val + b.val := ofInt?_eq_some

theorem exists_val_eq {x : Int} : (∃ e : Entry, e.val = x) ↔ InRange x :=
  ⟨fun ⟨e, h⟩ => h ▸ e.inRange_val, fun h => ⟨⟨x, h.1, h.2⟩, rfl⟩⟩

theorem val_ofInt {x : Int} (h : InRange x) : (ofInt x).val = x := by
  obtain ⟨e, rfl⟩ := exists_val_eq.mpr h
  rw [ofInt, ofInt?_val]
  rfl

theorem val_half {a : Entry} {x : Int} (h : a.val = 2 * x) : a.half.val = x := by
  show a.val.tdiv 2 = x
  rw [h, Int.mul_tdiv_cancel_left _ (by decide)]

/-- A mutated cell is the exact one, and it is defined when the steps on the way are. -/
theorem mutated?_eq_some_iff {ij ik kj e : Entry} :
    mutated? ij ik kj = some e ↔
      Fits ik.val kj.val ∧ e.val = ij.val + through ik.val kj.val := by
  simp only [mutated?, bind, Option.bind_eq_some_iff, abs?_eq_some, mul?_eq_some, add?_eq_some]
  constructor
  · rintro ⟨absL, hL, left, hl, absR, hR, right, hr, sum, hs, he⟩
    have hsum : sum.val = 2 * through ik.val kj.val := by
      rw [hs, hl, hr, hL, hR, IntegerMatrix.two_mul_through]
    exact ⟨⟨hL ▸ absL.inRange_val, hR ▸ absR.inRange_val, hL ▸ hl ▸ left.inRange_val,
      hR ▸ hr ▸ right.inRange_val, hsum ▸ sum.inRange_val⟩, by rw [he, val_half hsum]⟩
  · rintro ⟨fits, he⟩
    obtain ⟨absL, hL⟩ := exists_val_eq.mpr fits.abs_left
    obtain ⟨absR, hR⟩ := exists_val_eq.mpr fits.abs_right
    obtain ⟨left, hl⟩ := exists_val_eq.mpr fits.left
    obtain ⟨right, hr⟩ := exists_val_eq.mpr fits.right
    obtain ⟨sum, hs⟩ := exists_val_eq.mpr fits.sum
    exact ⟨absL, hL, left, by rw [hl, hL], absR, hR, right, by rw [hr, hR], sum,
      by rw [hs, hl, hr, IntegerMatrix.two_mul_through], by rw [he, val_half hs]⟩

/-- Small weights fit. -/
theorem fits_of_abs_le {x y : Int} (hx : |x| ≤ 4) (hy : |y| ≤ 4) : Fits x y := by
  have hprod : |x| * |y| ≤ 16 :=
    (Int.mul_le_mul hx hy (abs_nonneg y) (by decide)).trans (by decide)
  have hleft : abs (|x| * y) ≤ 16 := by rwa [abs_mul, abs_abs]
  have hright : abs (x * |y|) ≤ 16 := by rwa [abs_mul, abs_abs]
  have hthrough := (IntegerMatrix.abs_through_le x y).trans hprod
  rw [abs_le] at hleft hright hthrough
  have := abs_nonneg x
  have := abs_nonneg y
  constructor <;> constructor <;> omega

/-- Weights of opposite signs fit with their signs changed. -/
theorem Fits.neg_of_opposite {x y : Int} (h : Fits x y)
    (hs : 0 ≤ x ∧ y ≤ 0 ∨ x ≤ 0 ∧ 0 ≤ y) : Fits (-x) (-y) := by
  have hl := h.left
  have hr := h.right
  have habs : |x| * -y = x * |y| ∧ -x * |y| = |x| * y ∧ through (-x) (-y) = 0 := by
    rcases hs with ⟨hx, hy⟩ | ⟨hx, hy⟩
    · rw [abs_of_nonneg hx, abs_of_nonpos hy, through_neg_neg,
        IntegerMatrix.through_of_nonneg_of_nonpos hx hy]
      exact ⟨rfl, by rw [Int.neg_mul_neg], rfl⟩
    · rw [abs_of_nonpos hx, abs_of_nonneg hy, through_neg_neg,
        IntegerMatrix.through_of_nonpos_of_nonneg hx hy]
      exact ⟨by rw [Int.neg_mul_neg], rfl, rfl⟩
  refine ⟨by rw [abs_neg]; exact h.abs_left, by rw [abs_neg]; exact h.abs_right, ?_, ?_, ?_⟩
  · rw [abs_neg, habs.1]; exact hr
  · rw [abs_neg, habs.2.1]; exact hl
  · rw [habs.2.2]; decide

end Entry

namespace ExchangeMatrix

/-- The entries of a matrix as integers. -/
def values (m : ExchangeMatrix) : IntegerMatrix := fun i j => (m.cell i j).val

theorem values_eq_zero (m : ExchangeMatrix) {i j : Nat} (h : m.rows ≤ i ∨ m.cols ≤ j) :
    m.values i j = 0 :=
  congrArg Entry.val (m.cell_eq_zero h)

/-- Matrices of one shape with the same values are equal. -/
theorem eq_of_values_eq {a b : ExchangeMatrix} (hs : SameShape a b) (h : a.values = b.values) :
    a = b :=
  ext_cell hs.1 hs.2 fun i _ j _ => Entry.ext (congrFun (congrFun h i) j)

theorem SameShape.rank_eq {a b : ExchangeMatrix} (h : SameShape a b) : a.rank = b.rank := by
  rw [rank, rank, h.1, h.2]

theorem SameShape.symm {a b : ExchangeMatrix} (h : SameShape a b) : SameShape b a :=
  ⟨h.1.symm, h.2.symm⟩

theorem SameShape.trans {a b c : ExchangeMatrix} (h₁ : SameShape a b) (h₂ : SameShape b c) :
    SameShape a c :=
  ⟨h₁.1.trans h₂.1, h₁.2.trans h₂.2⟩

/-! ### The cells of a mutation -/

variable {m m' out : ExchangeMatrix} {k : Nat}

theorem val_of_mutatedCell? {i j : Nat} {e : Entry} (h : m.mutatedCell? k i j = some e) :
    e.val = m.values.mutate k i j := by
  unfold mutatedCell? at h
  unfold IntegerMatrix.mutate
  split at h
  · next hp => rw [if_pos hp, Entry.neg?_eq_some.mp h, values]
  · next hp => rw [if_neg hp, (Entry.mutated?_eq_some_iff.mp h).2]; rfl

/-- Writing stops at the first position `q` whose cell is undefined, or behind the last one: the
positions from `p` up to `q` hold mutated cells, and all others what they held before. -/
theorem writeMutated_spec (m : ExchangeMatrix) (k : Nat) (out : Array Entry) (p : Nat)
    (hout : out.size = m.entries.size) (hp : p ≤ m.entries.size) :
    ∃ q, p ≤ q ∧ q ≤ m.entries.size ∧
      (∀ r, p ≤ r → r < q → ∃ e, m.mutatedCell? k (r / m.cols) (r % m.cols) = some e ∧
        (m.writeMutated k out p).1[r]? = some e) ∧
      (∀ r, r < p ∨ q ≤ r → (m.writeMutated k out p).1[r]? = out[r]?) ∧
      ((m.writeMutated k out p).2 = true ∧ q = m.entries.size ∨
        (m.writeMutated k out p).2 = false ∧ q < m.entries.size ∧
          m.mutatedCell? k (q / m.cols) (q % m.cols) = none) := by
  fun_induction writeMutated m k out p with
  | case1 out p hlt hcell =>
      exact ⟨p, le_refl p, hp, fun r h₁ h₂ => absurd h₂ (by omega), fun _ _ => rfl,
        .inr ⟨rfl, hlt, hcell⟩⟩
  | case2 out p hlt e hcell ih =>
      obtain ⟨q, hpq, hq, hin, hout', hend⟩ := ih (by simpa using hout) hlt
      refine ⟨q, by omega, hq, fun r h₁ h₂ => ?_, fun r h => ?_, hend⟩
      · rcases Nat.eq_or_lt_of_le h₁ with rfl | h₁
        · refine ⟨e, hcell, ?_⟩
          rw [hout' _ (.inl (Nat.lt_succ_self _)), Array.getElem?_setIfInBounds_self]
          simp [hout, hlt]
        · exact hin r h₁ h₂
      -- position `p` is written once, and no later
      · have hne : p ≠ r := by omega
        rw [hout' r (by omega), Array.getElem?_setIfInBounds_ne hne]
  | case3 out p hge =>
      exact ⟨p, le_refl p, hp, fun r h₁ h₂ => absurd h₂ (by omega), fun _ _ => rfl,
        .inl ⟨rfl, by omega⟩⟩

theorem entries_overwriteMutated :
    (m.overwriteMutated k out).1.entries = (m.writeMutated k out.entries 0).1 := rfl

theorem done_overwriteMutated :
    (m.overwriteMutated k out).2 = (m.writeMutated k out.entries 0).2 := rfl

theorem SameShape.size_eq {a b : ExchangeMatrix} (h : SameShape a b) :
    a.entries.size = b.entries.size := by
  rw [a.size_entries, b.size_entries, h.1, h.2]

/-- The cell at a row and a column stands at one position, and is read off it. -/
theorem getElem?_entries (m : ExchangeMatrix) {r : Nat} (hr : r < m.entries.size) :
    m.entries[r]? = some (m.cell (r / m.cols) (r % m.cols)) := by
  rw [Array.getElem?_eq_getElem hr, entry_eq_cell m hr]

/-- A buffer in which all cells were written holds the mutated cells. -/
theorem mutatedCell?_of_done (hs : SameShape out m) (hdone : (m.overwriteMutated k out).2 = true)
    {i j : Nat} (hi : i < m.rows) (hj : j < m.cols) :
    m.mutatedCell? k i j = some ((m.overwriteMutated k out).1.cell i j) := by
  obtain ⟨q, -, -, hin, -, hend⟩ :=
    writeMutated_spec m k out.entries 0 hs.size_eq (Nat.zero_le _)
  have hshape : SameShape (m.overwriteMutated k out).1 m := ⟨hs.1, hs.2⟩
  obtain rfl : q = m.entries.size := by
    rcases hend with ⟨-, hq⟩ | ⟨hfalse, -⟩
    · exact hq
    · rw [← done_overwriteMutated, hdone] at hfalse
      cases hfalse
  obtain ⟨hlt, hdiv, hmod⟩ := pos_div_mod hi hj
  have hsize : i * m.cols + j < m.entries.size := m.size_entries ▸ hlt
  obtain ⟨e, hcell, he⟩ := hin (i * m.cols + j) (Nat.zero_le _) hsize
  rw [hdiv, hmod] at hcell
  rw [hcell, ← he, ← entries_overwriteMutated, getElem?_entries _ (hshape.size_eq ▸ hsize),
    hshape.2, hdiv, hmod]

/-- If not all cells were written, one of them is undefined. -/
theorem exists_undefined_of_not_done (hs : SameShape out m)
    (hdone : (m.overwriteMutated k out).2 = false) :
    ∃ i < m.rows, ∃ j < m.cols, m.mutatedCell? k i j = none := by
  obtain ⟨q, -, -, -, -, hend⟩ :=
    writeMutated_spec m k out.entries 0 hs.size_eq (Nat.zero_le _)
  rw [done_overwriteMutated] at hdone
  rcases hend with ⟨htrue, -⟩ | ⟨-, hlt, hnone⟩
  · rw [hdone] at htrue
    cases htrue
  · have hlt' : q < m.rows * m.cols := m.size_entries ▸ hlt
    exact ⟨_, div_lt_rows hlt', _, mod_lt_cols hlt', hnone⟩

/-- Whether all cells were written does not hang on the buffer. -/
theorem overwriteMutated_eq_false_iff (hs : SameShape out m) :
    (m.overwriteMutated k out).2 = false ↔
      ∃ i < m.rows, ∃ j < m.cols, m.mutatedCell? k i j = none := by
  refine ⟨exists_undefined_of_not_done hs, ?_⟩
  rintro ⟨i, hi, j, hj, hnone⟩
  rw [← Bool.not_eq_true]
  intro hdone
  rw [mutatedCell?_of_done hs hdone hi hj] at hnone
  cases hnone

/-- All cells were written exactly when the buffer holds the mutated cells afterwards. -/
theorem overwriteMutated_eq_true_iff (hs : SameShape out m) :
    m.overwriteMutated k out = (m', true) ↔
      SameShape m' m ∧ ∀ i < m.rows, ∀ j < m.cols, m.mutatedCell? k i j = some (m'.cell i j) := by
  have hshape : SameShape (m.overwriteMutated k out).1 m := ⟨hs.1, hs.2⟩
  constructor
  · intro h
    have hdone : (m.overwriteMutated k out).2 = true := by rw [h]
    obtain rfl : (m.overwriteMutated k out).1 = m' := by rw [h]
    exact ⟨hshape, fun i hi j hj => mutatedCell?_of_done hs hdone hi hj⟩
  · rintro ⟨hs', hcells⟩
    have hdone : (m.overwriteMutated k out).2 = true := by
      rw [← Bool.not_eq_false, overwriteMutated_eq_false_iff hs]
      rintro ⟨i, hi, j, hj, hnone⟩
      rw [hcells i hi j hj] at hnone
      cases hnone
    refine Prod.ext (ext_cell (hshape.trans hs'.symm).1 (hshape.trans hs'.symm).2
      fun i hi j hj => ?_) hdone
    have hcell := mutatedCell?_of_done hs hdone (hshape.1 ▸ hi) (hshape.2 ▸ hj)
    rw [hcells i (hshape.1 ▸ hi) j (hshape.2 ▸ hj)] at hcell
    exact (Option.some.inj hcell).symm

/-! ### Mutation of matrices of entries -/

theorem sameShape_zeros (m : ExchangeMatrix) : SameShape (zeros m.rows m.cols) m := ⟨rfl, rfl⟩

theorem mutate?_eq_ok_iff :
    m.mutate? k = .ok m' ↔ k < m.rank ∧ SameShape m' m ∧
      ∀ i < m.rows, ∀ j < m.cols, m.mutatedCell? k i j = some (m'.cell i j) := by
  rw [← overwriteMutated_eq_true_iff m.sameShape_zeros]
  unfold mutate?
  by_cases hk : m.rank ≤ k
  · simp [hk]
  · simp only [if_neg hk, Nat.not_le.mp hk, true_and]
    cases hdone : (m.overwriteMutated k (zeros m.rows m.cols)).2 <;> simp [Prod.ext_iff, hdone]

/-- A mutation at a mutable vertex fails on an undefined cell only, and names the vertex. -/
theorem mutate?_eq_error_iff (hk : k < m.rank) {e : Error} :
    m.mutate? k = .error e ↔
      e = .entryOverflow k ∧ ∃ i < m.rows, ∃ j < m.cols, m.mutatedCell? k i j = none := by
  rw [← overwriteMutated_eq_false_iff m.sameShape_zeros]
  unfold mutate?
  rw [if_neg (Nat.not_le.mpr hk)]
  cases hdone : (m.overwriteMutated k (zeros m.rows m.cols)).2 with
  | true => simp [hdone]
  | false => simp only [hdone, Bool.false_eq_true, if_false, Except.error.injEq, and_true, eq_comm]

/-- Writing the mutation over a buffer and mutating agree. -/
theorem mutate?_of_overwriteMutated (hs : SameShape out m) (hk : k < m.rank)
    (h : m.overwriteMutated k out = (m', true)) : m.mutate? k = .ok m' :=
  mutate?_eq_ok_iff.mpr ⟨hk, (overwriteMutated_eq_true_iff hs).mp h⟩

theorem mutate?_error_of_overwriteMutated (hs : SameShape out m) (hk : k < m.rank)
    (h : (m.overwriteMutated k out).2 = false) : m.mutate? k = .error (.entryOverflow k) :=
  (mutate?_eq_error_iff hk).mpr ⟨rfl, (overwriteMutated_eq_false_iff hs).mp h⟩

/-- `m'` is the exact mutation of `m` at a mutable vertex `k`. -/
structure MutatesTo (m : ExchangeMatrix) (k : Nat) (m' : ExchangeMatrix) : Prop where
  pivot : k < m.rank
  shape : SameShape m' m
  values : m'.values = m.values.mutate k

/-- Exact mutation stays `0` outside the shape. -/
theorem values_mutate_eq_zero (hk : k < m.rank) {i j : Nat} (h : m.rows ≤ i ∨ m.cols ≤ j) :
    m.values.mutate k i j = 0 := by
  have hkr : k < m.rows := lt_of_lt_of_le hk (Nat.min_le_left _ _)
  have hkc : k < m.cols := lt_of_lt_of_le hk (Nat.min_le_right _ _)
  by_cases hp : i = k ∨ j = k
  · rw [IntegerMatrix.mutate, if_pos hp, m.values_eq_zero h, Int.neg_zero]
  · rw [not_or] at hp
    rw [IntegerMatrix.mutate_of_ne _ hp.1 hp.2, m.values_eq_zero h]
    rcases h with h | h
    · rw [m.values_eq_zero (.inl h), IntegerMatrix.through_zero_left, Int.add_zero]
    · rw [m.values_eq_zero (.inr h), IntegerMatrix.through_zero_right, Int.add_zero]

theorem mutatesTo_of_mutate? (h : m.mutate? k = .ok m') : MutatesTo m k m' := by
  obtain ⟨hk, hs, hcells⟩ := mutate?_eq_ok_iff.mp h
  refine ⟨hk, hs, ?_⟩
  funext i j
  by_cases hij : i < m.rows ∧ j < m.cols
  · exact val_of_mutatedCell? (hcells i hij.1 j hij.2)
  · have hout : m.rows ≤ i ∨ m.cols ≤ j := by omega
    rw [values_mutate_eq_zero hk hout]
    exact m'.values_eq_zero (by rw [hs.1, hs.2]; exact hout)

namespace MutatesTo

theorem symm (h : MutatesTo m k m') : MutatesTo m' k m :=
  ⟨h.shape.rank_eq ▸ h.pivot, h.shape.symm, by
    rw [h.values, IntegerMatrix.mutate_mutate]⟩

theorem unique {m₁ m₂ : ExchangeMatrix} (h₁ : MutatesTo m k m₁) (h₂ : MutatesTo m k m₂) :
    m₁ = m₂ :=
  eq_of_values_eq (h₁.shape.trans h₂.shape.symm) (h₁.values.trans h₂.values.symm)

/-- If the exact mutation is a matrix of entries, checked mutation finds it or overflows on the
way. -/
theorem mutate?_eq (h : MutatesTo m k m') :
    m.mutate? k = .ok m' ∨ m.mutate? k = .error (.entryOverflow k) := by
  cases hm : m.mutate? k with
  | ok m'' => exact .inl (congrArg _ ((mutatesTo_of_mutate? hm).unique h))
  | error e => exact .inr (congrArg _ ((mutate?_eq_error_iff h.pivot).mp hm).1)

end MutatesTo

end ExchangeMatrix

end MutationFinite
