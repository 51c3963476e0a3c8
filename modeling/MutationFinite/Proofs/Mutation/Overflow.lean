import MutationFinite.Proofs.Mutation.Checked

/-!
# When a mutation overflows

A mutation at a mutable vertex is refused when an entry of the exact mutation is out of range, and
also when a step on the way to one is: the product of two weights through the pivot, or the sum of
the two products, which is twice what they add.

* `through_cases`: the two products are equal, or opposite.
* `Entry.fits_iff`: the steps fit when the product of the weights and twice what they add do.
* `ValuesFit`, `ThroughFits`: the entries of the exact mutation are in range, and the steps are.
* `mutate?_reports_overflow`: a mutation is defined exactly when both hold.
* `steepPath_refused`: the steps may overflow where all entries are in range.
-/

namespace MutationFinite

open IntegerMatrix (through)

/-- The products `|x| * y` and `x * |y|` are both what the weights add, or cancel. -/
theorem IntegerMatrix.through_cases (x y : Int) :
    (|x| * y = through x y ∧ x * |y| = through x y ∧ |through x y| = |x * y|) ∨
      (x * |y| = -(|x| * y) ∧ through x y = 0 ∧ abs (|x| * y) = |x * y|) := by
  rcases le_total 0 x with hx | hx <;> rcases le_total 0 y with hy | hy
  · rw [through_of_nonneg hx hy, abs_of_nonneg hx, abs_of_nonneg hy]
    exact .inl ⟨rfl, rfl, rfl⟩
  · rw [through_of_nonneg_of_nonpos hx hy, abs_of_nonneg hx, abs_of_nonpos hy, Int.mul_neg]
    exact .inr ⟨rfl, rfl, rfl⟩
  · rw [through_of_nonpos_of_nonneg hx hy, abs_of_nonpos hx, abs_of_nonneg hy, Int.neg_mul,
      Int.neg_neg, abs_neg]
    exact .inr ⟨rfl, rfl, rfl⟩
  · rw [through_of_nonpos hx hy, abs_of_nonpos hx, abs_of_nonpos hy, Int.neg_mul, Int.mul_neg,
      abs_neg]
    exact .inl ⟨rfl, rfl, rfl⟩

/-- The steps fit when the product of the weights and twice what they add do. -/
theorem Entry.fits_iff {x y : Int} :
    Fits x y ↔ InRange |x| ∧ InRange |y| ∧ |x * y| ≤ 2147483647 ∧ InRange (2 * through x y) := by
  have hcases := IntegerMatrix.through_cases x y
  have hnonneg := abs_nonneg (x * y)
  constructor
  · rintro ⟨hx, hy, hleft, hright, hsum⟩
    refine ⟨hx, hy, ?_, hsum⟩
    rcases hcases with ⟨-, -, habs⟩ | ⟨hr, -, habs⟩
    · rw [← habs, abs_le]
      obtain ⟨h₁, h₂⟩ := hsum
      constructor <;> omega
    · rw [hr] at hright
      rw [← habs, abs_le]
      obtain ⟨h₁, h₂⟩ := hleft
      obtain ⟨h₃, h₄⟩ := hright
      constructor <;> omega
  · rintro ⟨hx, hy, hproduct, hsum⟩
    rcases hcases with ⟨hl, hr, -⟩ | ⟨hr, -, habs⟩
    · have hthrough : InRange (through x y) := by
        obtain ⟨h₁, h₂⟩ := hsum
        constructor <;> omega
      exact ⟨hx, hy, hl ▸ hthrough, hr ▸ hthrough, hsum⟩
    · rw [← habs, abs_le] at hproduct
      refine ⟨hx, hy, ?_, hr ▸ ?_, hsum⟩ <;> constructor <;> omega

/-- The absolute value of an entry with an opposite is an entry. -/
theorem Entry.inRange_abs {x : Int} (h : InRange x) (hneg : InRange (-x)) : InRange |x| := by
  rcases abs_choice x with he | he
  · rwa [he]
  · rwa [he]

namespace ExchangeMatrix

variable {m m' : ExchangeMatrix} {k i j : Nat}

/-- The entries of the exact mutation at `k` are in range. -/
def ValuesFit (m : ExchangeMatrix) (k : Nat) : Prop :=
  ∀ i < m.rows, ∀ j < m.cols, Entry.InRange (m.values.mutate k i j)

/-- Wherever weights pass through `k`, their product is no greater in absolute value than the
greatest entry, and twice what they add is in range. -/
def ThroughFits (m : ExchangeMatrix) (k : Nat) : Prop :=
  ∀ i < m.rows, i ≠ k → ∀ j < m.cols, j ≠ k →
    |m.values i k * m.values k j| ≤ 2147483647 ∧
      Entry.InRange (2 * through (m.values i k) (m.values k j))

instance (m : ExchangeMatrix) (k : Nat) : Decidable (m.ValuesFit k) :=
  inferInstanceAs (Decidable (∀ i < m.rows, ∀ j < m.cols, _))

instance (m : ExchangeMatrix) (k : Nat) : Decidable (m.ThroughFits k) :=
  inferInstanceAs (Decidable (∀ i < m.rows, i ≠ k → ∀ j < m.cols, j ≠ k → _))

/-- The weights at the pivot have opposites when the exact mutation fits. -/
theorem ValuesFit.inRange_abs (h : m.ValuesFit k) (hk : k < m.rank) (hi : i < m.rows)
    (hj : j < m.cols) :
    Entry.InRange |m.values i k| ∧ Entry.InRange |m.values k j| := by
  have hcol := h i hi k (lt_of_lt_of_le hk (Nat.min_le_right _ _))
  have hrow := h k (lt_of_lt_of_le hk (Nat.min_le_left _ _)) j hj
  rw [IntegerMatrix.mutate_pivot_col] at hcol
  rw [IntegerMatrix.mutate_pivot_row] at hrow
  exact ⟨Entry.inRange_abs (m.cell i k).inRange_val hcol,
    Entry.inRange_abs (m.cell k j).inRange_val hrow⟩

/-- A mutated cell is defined when its value fits, and the steps on the way if there are any. -/
theorem exists_mutatedCell?_iff :
    (∃ e, m.mutatedCell? k i j = some e) ↔ Entry.InRange (m.values.mutate k i j) ∧
      (i ≠ k → j ≠ k → Entry.Fits (m.values i k) (m.values k j)) := by
  rw [← Entry.exists_val_eq]
  constructor
  · rintro ⟨e, he⟩
    refine ⟨⟨e, val_of_mutatedCell? he⟩, fun hi hj => ?_⟩
    rw [mutatedCell?, if_neg (not_or.mpr ⟨hi, hj⟩)] at he
    exact (Entry.mutated?_eq_some_iff.mp he).1
  · rintro ⟨⟨e, he⟩, hfits⟩
    refine ⟨e, ?_⟩
    unfold mutatedCell?
    split
    · next hp =>
      rw [IntegerMatrix.mutate, if_pos hp] at he
      exact Entry.neg?_eq_some.mpr he
    · next hp =>
      rw [not_or] at hp
      rw [IntegerMatrix.mutate_of_ne _ hp.1 hp.2] at he
      exact Entry.mutated?_eq_some_iff.mpr ⟨hfits hp.1 hp.2, he⟩

/-- All mutated cells are defined when the entries and the steps fit. -/
theorem forall_exists_mutatedCell?_iff (hk : k < m.rank) :
    (∀ i < m.rows, ∀ j < m.cols, ∃ e, m.mutatedCell? k i j = some e) ↔
      m.ValuesFit k ∧ m.ThroughFits k := by
  constructor
  · intro h
    refine ⟨fun i hi j hj => (exists_mutatedCell?_iff.mp (h i hi j hj)).1,
      fun i hi hik j hj hjk => ?_⟩
    exact (Entry.fits_iff.mp ((exists_mutatedCell?_iff.mp (h i hi j hj)).2 hik hjk)).2.2
  · rintro ⟨hvalues, hthrough⟩ i hi j hj
    obtain ⟨habs, habs'⟩ := hvalues.inRange_abs hk hi hj
    refine exists_mutatedCell?_iff.mpr ⟨hvalues i hi j hj, fun hik hjk => ?_⟩
    exact Entry.fits_iff.mpr ⟨habs, habs', hthrough i hi hik j hj hjk⟩

/-- A mutation is defined when all mutated cells are. -/
theorem exists_mutate?_iff (hk : k < m.rank) :
    (∃ m', m.mutate? k = .ok m') ↔ m.ValuesFit k ∧ m.ThroughFits k := by
  rw [← forall_exists_mutatedCell?_iff hk]
  constructor
  · rintro ⟨m', h⟩ i hi j hj
    exact ⟨_, (mutate?_eq_ok_iff.mp h).2.2 i hi j hj⟩
  · intro h
    cases hto : m.mutate? k with
    | ok m' => exact ⟨m', rfl⟩
    | error e =>
        obtain ⟨-, i, hi, j, hj, hnone⟩ := (mutate?_eq_error_iff hk).mp hto
        obtain ⟨e', he'⟩ := h i hi j hj
        cases hnone.symm.trans he'

/-- A mutation at a mutable vertex that is not defined overflows. -/
theorem mutate?_eq_overflow (hk : k < m.rank) (h : ¬ ∃ m', m.mutate? k = .ok m') :
    m.mutate? k = .error (.entryOverflow k) := by
  cases hto : m.mutate? k with
  | ok m' => exact absurd ⟨m', hto⟩ h
  | error e => rw [((mutate?_eq_error_iff hk).mp hto).1]

/-- **A mutation at a mutable vertex is defined exactly when the entries of the exact mutation and
the steps on the way to them are in range.**  It is then the exact mutation, and otherwise an
overflow that names the vertex. -/
theorem mutate?_reports_overflow (m : ExchangeMatrix) (k : Nat) (hk : k < m.rank) :
    ((∃ m', m.mutate? k = .ok m') ↔ m.ValuesFit k ∧ m.ThroughFits k) ∧
      (∀ m', m.mutate? k = .ok m' → MutatesTo m k m') ∧
      (¬ (m.ValuesFit k ∧ m.ThroughFits k) → m.mutate? k = .error (.entryOverflow k)) := by
  refine ⟨exists_mutate?_iff hk, fun m' => mutatesTo_of_mutate?, fun h => ?_⟩
  exact mutate?_eq_overflow hk fun hdefined => h ((exists_mutate?_iff hk).mp hdefined)

/-- Two vertices with the same weight in both directions, and the entry `corner` at the second. -/
def mutualArrows (weight corner : Int) : ExchangeMatrix :=
  .ofFn 2 2 fun i j => .ofInt (if i ≠ j then weight else if i = 0 then 0 else corner)

/-- Twice what the weights add is the least entry on the way there, and exceeds the greatest on the
way back: the mutation is defined and its inverse is not. -/
theorem mutate?_reports_overflow_mutualArrows :
    0 < (mutualArrows (-32768) 0).rank ∧ 0 < (mutualArrows 32768 (-1073741824)).rank ∧
      (mutualArrows (-32768) 0).values.mutate 0 1 1 =
        (mutualArrows 32768 (-1073741824)).values 1 1 ∧
      (∃ m', (mutualArrows (-32768) 0).mutate? 0 = .ok m') ∧
      (mutualArrows 32768 (-1073741824)).mutate? 0 = .error (.entryOverflow 0) := by
  have hthere := mutate?_reports_overflow (mutualArrows (-32768) 0) 0 (by decide)
  have hback := mutate?_reports_overflow (mutualArrows 32768 (-1073741824)) 0 (by decide)
  exact ⟨by decide, by decide, by decide, hthere.1.mpr (by decide), hback.2.2 (by decide)⟩

/-- A path of three vertices with arrows of weight 32768. -/
def steepPath : ExchangeMatrix :=
  .ofFn 3 3 fun i j => .ofInt (if j = i + 1 then 32768 else if i = j + 1 then -32768 else 0)

/-- The mutation at the middle of the steep path adds `2 ^ 30`, of which the double is out of range:
all entries of the exact mutation are in range, and the mutation is refused. -/
theorem steepPath_refused : 1 < steepPath.rank ∧ steepPath.ValuesFit 1 ∧
    steepPath.mutate? 1 = .error (.entryOverflow 1) := by
  refine ⟨by decide, by decide, (mutate?_eq_error_iff (by decide)).mpr ⟨rfl, ?_⟩⟩
  exact ⟨0, by decide, 2, by decide, by decide⟩

end ExchangeMatrix

end MutationFinite
