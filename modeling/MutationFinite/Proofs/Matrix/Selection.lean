import MutationFinite.Matrix.Minor
import MutationFinite.Proofs.Mutation.Checked

/-!
# Some rows and columns of a matrix

A matrix formed of rows and columns of another one, in any order.  Relabellings, minors and the
quivers on some of the vertices of a quiver are of this form.  A cell of a mutation is computed
from the cell itself, its row's cell at the pivot and its column's, so that mutation works on the
selected rows and columns as it does on all of them, when the pivot is selected.

* `select`: the selected rows and columns.
* `Selects`: the rows and columns exist, and a vertex among them is the pivot.
* `Selects.mutate?`: **a mutation of the whole matrix is one of the selection.**
* `skip_injective`, `skip_eq_iff`, `map_skip_range`: the numbering of what is left by a minor.
* `selects_minor`: a minor is a selection.
-/

namespace MutationFinite

namespace ExchangeMatrix

/-- The matrix of the rows `f 0`, `f 1`, … and the columns `g 0`, `g 1`, … of `m`. -/
def select (f g : Nat → Nat) (rows cols : Nat) (m : ExchangeMatrix) : ExchangeMatrix :=
  ofFn rows cols fun i j => m.cell (f i) (g j)

/-- The rows `f 0`, … and the columns `g 0`, … are those of `m`, and among them vertex `k` stands
for vertex `p` of `m`, as a row and as a column. -/
structure Selects (f g : Nat → Nat) (rows cols : Nat) (m : ExchangeMatrix) (k p : Nat) : Prop where
  row_lt : ∀ i < rows, f i < m.rows
  col_lt : ∀ j < cols, g j < m.cols
  row_eq_iff : ∀ i < rows, (f i = p ↔ i = k)
  col_eq_iff : ∀ j < cols, (g j = p ↔ j = k)
  pivot_row : k < rows
  pivot_col : k < cols

variable {f g : Nat → Nat} {rows cols i j k n p : Nat} {m m' : ExchangeMatrix}

theorem cell_select (hi : i < rows) (hj : j < cols) :
    (select f g rows cols m).cell i j = m.cell (f i) (g j) := by
  rw [select, cell_ofFn, if_pos ⟨hi, hj⟩]

namespace Selects

theorem mutatedCell? (h : Selects f g rows cols m k p) (hi : i < rows) (hj : j < cols) :
    (select f g rows cols m).mutatedCell? k i j = m.mutatedCell? p (f i) (g j) := by
  have hrow : f k = p := (h.row_eq_iff k h.pivot_row).mpr rfl
  have hcol : g k = p := (h.col_eq_iff k h.pivot_col).mpr rfl
  simp only [ExchangeMatrix.mutatedCell?, h.row_eq_iff i hi, h.col_eq_iff j hj, cell_select hi hj,
    cell_select hi h.pivot_col, cell_select h.pivot_row hj, hrow, hcol]

/-- **A mutation of the whole matrix is one of the selection.** -/
theorem mutate? (h : Selects f g rows cols m k p) (hm : m.mutate? p = .ok m') :
    (select f g rows cols m).mutate? k = .ok (select f g rows cols m') := by
  obtain ⟨-, -, hcells⟩ := mutate?_eq_ok_iff.mp hm
  refine mutate?_eq_ok_iff.mpr ⟨lt_min h.pivot_row h.pivot_col, ⟨rfl, rfl⟩, fun i hi j hj => ?_⟩
  calc (select f g rows cols m).mutatedCell? k i j
      = m.mutatedCell? p (f i) (g j) := h.mutatedCell? hi hj
    _ = some (m'.cell (f i) (g j)) := hcells _ (h.row_lt i hi) _ (h.col_lt j hj)
    _ = some ((select f g rows cols m').cell i j) := congrArg some (cell_select hi hj).symm

end Selects

/-! ### Minors -/

theorem skip_ne (k i : Nat) : skip k i ≠ k := by
  unfold skip
  split <;> omega

theorem skip_injective (k : Nat) : Function.Injective (skip k) := by
  intro i j h
  unfold skip at h
  split at h <;> split at h <;> omega

theorem skip_lt (hi : i < n - 1) : skip k i < n := by
  unfold skip
  split <;> omega

/-- What has index `j` before the removal of `k` has the same index after it, or one less. -/
theorem skip_eq_iff (hne : j ≠ k) : skip k i = j ↔ i = if j < k then j else j - 1 := by
  unfold skip
  split <;> split <;> omega

/-- All numbers but `k` are passed. -/
theorem exists_skip_eq {v : Nat} (hk : k < n) (hv : v < n) (hne : v ≠ k) :
    ∃ i < n - 1, skip k i = v := by
  refine ⟨_, ?_, (skip_eq_iff hne).mpr rfl⟩
  split <;> omega

/-- The numbers that are passed are the others, in order. -/
theorem map_skip_range (hk : k < n) :
    (List.range (n - 1)).map (skip k) = (List.range n).filter (· != k) := by
  have hlt : k < (List.range n).length := by rwa [List.length_range]
  calc (List.range (n - 1)).map (skip k)
      = (List.range n).eraseIdx k := by
        refine List.ext_getElem ?_ fun i hi hi' => ?_
        · rw [List.length_map, List.length_eraseIdx_of_lt hlt, List.length_range, List.length_range]
        · rw [List.getElem_map, List.getElem_range, List.getElem_eraseIdx, skip]
          split <;> rw [List.getElem_range]
    _ = (List.range n).erase k := by
        rw [← List.nodup_range.erase_getElem k hlt, List.getElem_range]
    _ = (List.range n).filter (· != k) := List.nodup_range.erase_eq_filter k

theorem map_skip_filter (hk : k < n) (p : Nat → Bool) :
    ((List.range (n - 1)).filter (p ∘ skip k)).map (skip k) =
      (List.range n).filter fun v => v != k && p v := by
  rw [← List.filter_map, map_skip_range hk, List.filter_filter]
  simp only [Bool.and_comm]

/-- A minor at a mutable vertex selects the other rows and columns. -/
theorem selects_minor (hk : k < m.rank) (hj : j < m.rank) (hne : j ≠ k) :
    Selects (skip k) (skip k) (m.rows - 1) (m.cols - 1) m (if j < k then j else j - 1) j where
  row_lt _ := skip_lt
  col_lt _ := skip_lt
  row_eq_iff _ _ := skip_eq_iff hne
  col_eq_iff _ _ := skip_eq_iff hne
  pivot_row := by unfold rank at hk hj; split <;> omega
  pivot_col := by unfold rank at hk hj; split <;> omega

end ExchangeMatrix

end MutationFinite
