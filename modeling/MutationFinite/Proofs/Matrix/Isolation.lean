import MutationFinite.Proofs.Matrix.Deletion
import Mathlib.Logic.Relation

/-!
# Isolated vertices of quivers with frozen vertices

Dropping a vertex without arrows takes arrows from no other vertex, so that the loop that drops them
one by one, under indices that shift each time, leaves the quiver on the vertices that had arrows at
its start.  This holds whatever the shape: the frozen vertices keep their places after the mutable
ones, and an arrow to one of them is an arrow.

* `onVertices`: the quiver on some mutable vertices and all frozen ones.
* `onVertices_minor`: vertices of a minor are vertices of the whole.
* `isIsolated_minor_iff`: the arrows that a vertex keeps when another one is removed.
* `dropIsolated_eq_onVertices`: **what the loop leaves**; `drops_dropIsolated`: the loop ends.
* `deleteVertex_keeps_arrows`: what the deletion of a vertex leaves.
-/

namespace MutationFinite

namespace ExchangeMatrix

variable {m : ExchangeMatrix} {i j k n u v : Nat} {vs : List Nat} {p : Nat → Bool}

/-! ### The quiver on some of the mutable vertices -/

/-- The vertex with index `i` when the mutable vertices are `vs` and the frozen ones follow, the
first of which is `rank`. -/
def original (vs : List Nat) (rank i : Nat) : Nat := vs.getD i (rank + (i - vs.length))

/-- The quiver on the mutable vertices `vs`, in this order, and on all frozen vertices. -/
def onVertices (m : ExchangeMatrix) (vs : List Nat) : ExchangeMatrix :=
  select (original vs m.rank) (original vs m.rank) (vs.length + (m.rows - m.rank))
    (vs.length + (m.cols - m.rank)) m

theorem original_of_lt (h : i < vs.length) : original vs n i = vs[i] := by
  rw [original, List.getD_eq_getElem?_getD, List.getElem?_eq_getElem h, Option.getD_some]

theorem original_of_le (h : vs.length ≤ i) : original vs n i = n + (i - vs.length) := by
  rw [original, List.getD_eq_getElem?_getD, List.getElem?_eq_none h, Option.getD_none]

theorem original_range (n i : Nat) : original (List.range n) n i = i := by
  rcases Nat.lt_or_ge i (List.range n).length with hi | hi
  · rw [original_of_lt hi, List.getElem_range]
  · rw [original_of_le hi]
    rw [List.length_range] at hi ⊢
    omega

/-- An index skipped among the mutable vertices is passed by all frozen ones. -/
theorem skip_original (hk : k < n) (vs : List Nat) (i : Nat) :
    skip k (original vs (n - 1) i) = original (vs.map (skip k)) n i := by
  rcases Nat.lt_or_ge i vs.length with hi | hi
  · rw [original_of_lt hi, original_of_lt (by simpa using hi), List.getElem_map]
  · rw [original_of_le hi, original_of_le (by simpa using hi), List.length_map]
    unfold skip
    split <;> omega

@[simp] theorem rows_onVertices (m : ExchangeMatrix) (vs : List Nat) :
    (m.onVertices vs).rows = vs.length + (m.rows - m.rank) := rfl

@[simp] theorem cols_onVertices (m : ExchangeMatrix) (vs : List Nat) :
    (m.onVertices vs).cols = vs.length + (m.cols - m.rank) := rfl

theorem cell_onVertices (hi : i < (m.onVertices vs).rows) (hj : j < (m.onVertices vs).cols) :
    (m.onVertices vs).cell i j = m.cell (original vs m.rank i) (original vs m.rank j) :=
  cell_select hi hj

/-- The mutable vertices of the quiver on `vs` are those of `vs`. -/
theorem rank_onVertices (m : ExchangeMatrix) (vs : List Nat) :
    (m.onVertices vs).rank = vs.length := by
  have : m.rank = min m.rows m.cols := rfl
  rw [rank, rows_onVertices, cols_onVertices]
  omega

theorem onVertices_range (m : ExchangeMatrix) : m.onVertices (List.range m.rank) = m := by
  refine ext_cell ?_ ?_ fun i hi j hj => ?_
  · rw [rows_onVertices, List.length_range, Nat.add_sub_cancel' m.rank_le_rows]
  · rw [cols_onVertices, List.length_range, Nat.add_sub_cancel' m.rank_le_cols]
  · rw [cell_onVertices hi hj, original_range, original_range]

/-! ### Vertices of a minor -/

theorem cell_minor (hk : k < m.rank) (i j : Nat) :
    (m.minor k k).cell i j = m.cell (skip k i) (skip k j) := by
  have hrow := hk.trans_le m.rank_le_rows
  have hcol := hk.trans_le m.rank_le_cols
  rw [minor, cell_ofFn]
  split
  · rfl
  · next hout =>
    refine (m.cell_eq_zero ?_).symm
    unfold skip
    split <;> split <;> omega

/-- **Vertices of a minor are vertices of the whole.** -/
theorem onVertices_minor (hk : k < m.rank) (vs : List Nat) :
    (m.minor k k).onVertices vs = m.onVertices (vs.map (skip k)) := by
  have hrow := hk.trans_le m.rank_le_rows
  have hcol := hk.trans_le m.rank_le_cols
  have hrows : ((m.minor k k).onVertices vs).rows = (m.onVertices (vs.map (skip k))).rows := by
    rw [rows_onVertices, rows_onVertices, rank_minor, List.length_map]
    show vs.length + (m.rows - 1 - (m.rank - 1)) = vs.length + (m.rows - m.rank)
    omega
  have hcols : ((m.minor k k).onVertices vs).cols = (m.onVertices (vs.map (skip k))).cols := by
    rw [cols_onVertices, cols_onVertices, rank_minor, List.length_map]
    show vs.length + (m.cols - 1 - (m.rank - 1)) = vs.length + (m.cols - m.rank)
    omega
  refine ext_cell hrows hcols fun i hi j hj => ?_
  rw [cell_onVertices hi hj, cell_onVertices (hrows ▸ hi) (hcols ▸ hj), cell_minor hk,
    rank_minor, skip_original hk, skip_original hk]

/-! ### Isolated vertices -/

theorem lt_of_cell_ne_zero (h : m.cell i j ≠ 0) : i < m.rows ∧ j < m.cols := by
  by_contra hout
  exact h (m.cell_eq_zero (by omega))

/-- Cells outside the matrix are zero, so that the bounds of rows and columns do not matter. -/
theorem isIsolated_iff_cells :
    m.isIsolated v = true ↔ ∀ i, m.cell v i = 0 ∧ m.cell i v = 0 := by
  simp only [isIsolated, row, col, Bool.and_eq_true, List.all_map, List.all_eq_true, List.mem_range,
    Function.comp_apply, beq_iff_eq]
  constructor
  · rintro ⟨hrow, hcol⟩ i
    exact ⟨by_contra fun h => h (hrow i (lt_of_cell_ne_zero h).2),
      by_contra fun h => h (hcol i (lt_of_cell_ne_zero h).1)⟩
  · exact fun h => ⟨fun i _ => (h i).1, fun i _ => (h i).2⟩

/-- The arrows that a vertex keeps are those to vertices other than the one removed. -/
theorem isIsolated_minor_iff (hk : k < m.rank) :
    (m.minor k k).isIsolated u = true ↔
      ∀ i ≠ k, m.cell (skip k u) i = 0 ∧ m.cell i (skip k u) = 0 := by
  rw [isIsolated_iff_cells]
  simp only [cell_minor hk]
  constructor
  · intro h i hne
    obtain ⟨i, -, rfl⟩ := exists_skip_eq (n := k + i + 1) (by omega) (by omega) hne
    exact h i
  · exact fun h i => h _ (skip_ne k i)

/-- Without an isolated vertex the others have the arrows that they had. -/
theorem isIsolated_minor (hv : v < m.rank) (h : m.isIsolated v = true) :
    (m.minor v v).isIsolated = m.isIsolated ∘ skip v := by
  funext u
  rw [Function.comp_apply, Bool.eq_iff_iff, isIsolated_minor_iff hv, isIsolated_iff_cells]
  constructor
  · intro hothers i
    by_cases hi : i = v
    · rw [hi]
      exact (isIsolated_iff_cells.mp h (skip v u)).symm
    · exact hothers i hi
  · exact fun hall i _ => hall i

/-! ### The loop -/

/-- One turn of the loop: the first isolated vertex is removed. -/
def Drops (a b : ExchangeMatrix) : Prop := ∃ v, a.firstIsolated? = some v ∧ a.submatrix v v = .ok b

/-- **The loop ends**, with a quiver that has no isolated vertex. -/
theorem drops_dropIsolated (m : ExchangeMatrix) :
    Relation.ReflTransGen Drops m m.dropIsolated ∧ m.dropIsolated.firstIsolated? = none := by
  fun_induction dropIsolated m with
  | case1 m hnone => exact ⟨.refl, hnone⟩
  | case2 m v hsome ih =>
      have hv := lt_rank_of_firstIsolated? hsome
      exact ⟨.head ⟨v, hsome, submatrix_eq hv⟩ ih.1, ih.2⟩

theorem firstIsolated?_eq_none_iff :
    m.firstIsolated? = none ↔ ∀ v < m.rank, m.isIsolated v = false := by
  simp only [firstIsolated?, List.find?_eq_none, List.mem_range, Bool.not_eq_true]

/-- **What the loop leaves** is the quiver on the vertices that are not isolated at its start. -/
theorem dropIsolated_eq_onVertices (m : ExchangeMatrix) :
    m.dropIsolated = m.onVertices ((List.range m.rank).filter fun v => !m.isIsolated v) := by
  fun_induction dropIsolated m with
  | case1 m hnone =>
      have hall := firstIsolated?_eq_none_iff.mp hnone
      rw [List.filter_eq_self.mpr, onVertices_range]
      intro v hv
      rw [hall v (List.mem_range.mp hv), Bool.not_false]
  | case2 m v hsome ih =>
      have hv := lt_rank_of_firstIsolated? hsome
      have hisolated : m.isIsolated v = true := List.find?_some hsome
      -- what the rest of the loop leaves, with indices shifted back past `v`
      rw [ih, onVertices_minor hv, rank_minor, isIsolated_minor hv hisolated]
      refine congrArg m.onVertices ((map_skip_filter hv fun v => !m.isIsolated v).trans ?_)
      refine List.filter_congr fun w _ => ?_
      by_cases hw : w = v
      · simp [hw, hisolated]
      · simp [hw]

/-! ### Deletion -/

/-- Vertex `v` has an arrow to a vertex other than `k`, mutable or frozen. -/
def KeepsArrow (m : ExchangeMatrix) (k v : Nat) : Prop :=
  (∃ j < m.cols, j ≠ k ∧ m.cell v j ≠ 0) ∨ ∃ i < m.rows, i ≠ k ∧ m.cell i v ≠ 0

instance (m : ExchangeMatrix) (k v : Nat) : Decidable (m.KeepsArrow k v) :=
  inferInstanceAs (Decidable (_ ∨ _))

/-- The mutable vertices other than `k` that keep an arrow without it. -/
def keeping (m : ExchangeMatrix) (k : Nat) : List Nat :=
  (List.range m.rank).filter fun v => v != k && decide (m.KeepsArrow k v)

theorem keepsArrow_iff_cells :
    m.KeepsArrow k v ↔ ∃ i ≠ k, m.cell v i ≠ 0 ∨ m.cell i v ≠ 0 := by
  constructor
  · rintro (⟨i, -, hne, harrow⟩ | ⟨i, -, hne, harrow⟩)
    · exact ⟨i, hne, .inl harrow⟩
    · exact ⟨i, hne, .inr harrow⟩
  · rintro ⟨i, hne, harrow | harrow⟩
    · exact .inl ⟨i, (lt_of_cell_ne_zero harrow).2, hne, harrow⟩
    · exact .inr ⟨i, (lt_of_cell_ne_zero harrow).1, hne, harrow⟩

/-- The vertices that keep an arrow are those that are not isolated in the minor. -/
theorem keepsArrow_iff (hk : k < m.rank) :
    m.KeepsArrow k (skip k u) ↔ (m.minor k k).isIsolated u = false := by
  rw [← Bool.not_eq_true, isIsolated_minor_iff hk, keepsArrow_iff_cells]
  push Not
  exact exists_congr fun i => and_congr_right fun _ => or_iff_not_imp_left.trans (by rw [not_not])

theorem deletion_eq_onVertices (hk : k < m.rank) : m.deletion k = m.onVertices (m.keeping k) := by
  rw [deletion, dropIsolated_eq_onVertices, onVertices_minor hk, rank_minor, keeping,
    ← map_skip_filter hk]
  refine congrArg (fun p => m.onVertices (((List.range (m.rank - 1)).filter p).map (skip k))) ?_
  funext u
  rw [Function.comp_apply, Bool.eq_iff_iff, decide_eq_true_iff, keepsArrow_iff hk,
    Bool.not_eq_true']

/-- **Deleting a vertex keeps exactly the vertices that still have arrows.**  From the minor without
the vertex, the loop ends at the quiver on these vertices, which are mutable vertices of the whole,
and on all frozen ones; none of them is isolated. -/
theorem deleteVertex_keeps_arrows (m : ExchangeMatrix) (k : Nat) (hk : k < m.rank) :
    ∃ start d, m.submatrix k k = .ok start ∧ Relation.ReflTransGen Drops start d ∧
      m.deleteVertex k = .ok d ∧ d = m.onVertices (m.keeping k) ∧
      d.rank = (m.keeping k).length ∧ (∀ v ∈ m.keeping k, v < m.rank) ∧
      ∀ v < d.rank, d.isIsolated v = false := by
  obtain ⟨hdrops, hnone⟩ := drops_dropIsolated (m.minor k k)
  have hd := deletion_eq_onVertices hk
  refine ⟨_, _, submatrix_eq hk, hdrops, deleteVertex_eq hk, hd, ?_, fun v hv => ?_,
    firstIsolated?_eq_none_iff.mp hnone⟩
  · exact (congrArg rank hd).trans (rank_onVertices m _)
  · exact List.mem_range.mp (List.mem_filter.mp hv).1

/-- A path of vertices 0 to 2, and a frozen row with an arrow to vertex 0. -/
def tetheredPath : ExchangeMatrix :=
  .ofFn 4 3 fun i j =>
    let rows : List (List Int) := [[0, 1, 0], [-1, 0, 1], [0, -1, 0], [1, 0, 0]]
    .ofInt ((rows.getD i []).getD j 0)

/-- Without vertex 1 of the path, vertex 2 goes too, and vertex 0 keeps its frozen arrow. -/
theorem deleteVertex_keeps_arrows_tetheredPath :
    1 < tetheredPath.rank ∧ ∃ d, tetheredPath.deleteVertex 1 = .ok d ∧
      d = tetheredPath.onVertices [0] ∧ d.rank = 1 ∧ d.isIsolated 0 = false := by
  obtain ⟨-, d, -, -, hd, heq, hrank, -, harrow⟩ :=
    deleteVertex_keeps_arrows tetheredPath 1 (by decide)
  have hkeeping : tetheredPath.keeping 1 = [0] := by decide
  rw [hkeeping] at heq hrank
  exact ⟨by decide, d, hd, heq, hrank, harrow 0 (by rw [hrank]; decide)⟩

end ExchangeMatrix

end MutationFinite
