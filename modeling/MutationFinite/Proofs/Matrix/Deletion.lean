import MutationFinite.Proofs.Matrix.Embedding
import MutationFinite.Proofs.Relabelling.Transport

/-!
# Vertex deletion as a part of the quiver

Deleting a vertex, and the vertices that are then left without arrows, leaves the quiver on the
vertices that stay.  Which of them stay is said in terms of the quiver before the deletion, so that
it does not matter in which order vertices without arrows are dropped.

* `mutate?_submatrix`: the mutation of a minor is the minor of the mutation, whatever the shape.
* `deletion`: what `deleteVertex` leaves.
* `Stays`: the vertices that stay.
* `exists_embeds_deletion`: the deletion is the quiver on them.
* `Carries.same_deletion`: relabelled quivers have relabelled deletions.
-/

namespace MutationFinite

namespace ExchangeMatrix

variable {a b m : ExchangeMatrix} {f : Nat → Nat} {i j k v : Nat} {p : Permutation}

/-- The quiver without vertex `k` and without the vertices that are then left without arrows. -/
def deletion (m : ExchangeMatrix) (k : Nat) : ExchangeMatrix := (m.minor k k).dropIsolated

theorem deleteVertex_eq (hk : k < m.rank) : m.deleteVertex k = .ok (m.deletion k) :=
  if_neg (Nat.not_le.mpr hk)

theorem vertexDeletions_eq (m : ExchangeMatrix) :
    m.vertexDeletions = (List.range m.rank).map m.deletion := rfl

theorem rank_minor (m : ExchangeMatrix) (k : Nat) : (m.minor k k).rank = m.rank - 1 := by
  simp only [rank, minor, rows_ofFn, cols_ofFn]
  omega

theorem rank_minor_le (m : ExchangeMatrix) (k : Nat) : (m.minor k k).rank ≤ m.rank :=
  (m.rank_minor k).trans_le (Nat.sub_le _ _)

theorem dropIsolated_eq_self (h : m.firstIsolated? = none) : m.dropIsolated = m := by
  unfold dropIsolated
  split
  · rfl
  · next hsome => cases h.symm.trans hsome

theorem dropIsolated_eq_minor (h : m.firstIsolated? = some v) :
    m.dropIsolated = (m.minor v v).dropIsolated := by
  rw [dropIsolated]
  split
  · next hnone => cases h.symm.trans hnone
  · next hsome => rw [Option.some.inj (h.symm.trans hsome)]

theorem rank_dropIsolated_le (m : ExchangeMatrix) : m.dropIsolated.rank ≤ m.rank := by
  fun_induction dropIsolated m with
  | case1 m => exact Nat.le_refl _
  | case2 m v _ ih => exact ih.trans (m.rank_minor_le v)

theorem rank_deletion_le (m : ExchangeMatrix) (k : Nat) : (m.deletion k).rank ≤ m.rank :=
  (rank_dropIsolated_le _).trans (m.rank_minor_le k)

theorem rank_le_of_mem_vertexDeletions {d : ExchangeMatrix} (h : d ∈ m.vertexDeletions) :
    d.rank ≤ m.rank := by
  obtain ⟨k, -, rfl⟩ := List.mem_map.mp h
  exact m.rank_deletion_le k

/-! ### Minors -/

/-- A minor is the quiver on the other vertices. -/
theorem embeds_minor (hm : m.rows = m.cols) (k : Nat) : Embeds (skip k) (m.minor k k) m := by
  have hminor : m.minor k k = restrict (skip k) (m.rank - 1) m := by
    rw [minor, rows_eq_rank hm, cols_eq_rank hm, restrict]
  rw [hminor]
  exact embeds_restrict hm (fun _ => skip_lt) fun _ _ _ _ he => skip_injective k he

theorem submatrix_eq (hk : k < m.rank) : m.submatrix k k = .ok (m.minor k k) := by
  have hrow : ¬ m.rows ≤ k := Nat.not_le.mpr (hk.trans_le m.rank_le_rows)
  have hcol : ¬ m.cols ≤ k := Nat.not_le.mpr (hk.trans_le m.rank_le_cols)
  rw [submatrix, if_neg hrow, if_neg hcol]

/-- **Mutation commutes with restriction.**  Deleting row and column `k` and then mutating at `j`,
under the index that it has afterwards, gives what mutating and then deleting gives. -/
theorem mutate?_submatrix (m m' : ExchangeMatrix) (j k : Nat) (hk : k < m.rank) (hne : j ≠ k)
    (h : m.mutate? j = .ok m') :
    ∃ d d', m.submatrix k k = .ok d ∧ m'.submatrix k k = .ok d' ∧
      d.mutate? (if j < k then j else j - 1) = .ok d' := by
  have hto := mutatesTo_of_mutate? h
  refine ⟨_, _, submatrix_eq hk, submatrix_eq (hto.shape.rank_eq.symm ▸ hk), ?_⟩
  rw [minor, minor, hto.shape.1, hto.shape.2]
  exact (selects_minor hk hto.pivot hne).mutate? h

/-- Without vertex 0 the pivot 1 of the framed triangle is vertex 0. -/
theorem mutate?_submatrix_framedTriangle :
    0 < framedTriangle.rank ∧ 1 ≠ 0 ∧ framedTriangle.mutate? 1 = .ok framedPath ∧
      (framedTriangle.minor 0 0).mutate? 0 = .ok (framedPath.minor 0 0) := by
  obtain ⟨d, d', hd, hd', hto⟩ :=
    mutate?_submatrix framedTriangle framedPath 1 0 (by decide) (by decide) mutate?_framedTriangle
  obtain rfl := Except.ok.inj ((submatrix_eq (by decide)).symm.trans hd)
  obtain rfl := Except.ok.inj ((submatrix_eq (by decide)).symm.trans hd')
  exact ⟨by decide, by decide, mutate?_framedTriangle, hto⟩

/-! ### Vertices without arrows -/

/-- Some arrow joins `v` to a mutable vertex. -/
def HasArrow (m : ExchangeMatrix) (v : Nat) : Prop := ∃ w < m.rank, m.adjacent v w = true

theorem isIsolated_iff (hm : m.rows = m.cols) : m.isIsolated v = true ↔ ¬ m.HasArrow v := by
  simp only [isIsolated, row, col, HasArrow, adjacent_iff, Bool.and_eq_true, List.all_map,
    List.all_eq_true, List.mem_range, Function.comp_apply, beq_iff_eq, rows_eq_rank hm,
    cols_eq_rank hm, not_exists, not_and, not_or, not_not]
  exact ⟨fun h w hw => ⟨h.1 w hw, h.2 w hw⟩, fun h => ⟨fun w hw => (h w hw).1, fun w hw =>
    (h w hw).2⟩⟩

theorem Embeds.adjacent_eq (h : Embeds f a b) (hi : i < a.rank) (hj : j < a.rank) :
    b.adjacent (f i) (f j) = a.adjacent i j := by
  rw [adjacent, adjacent, h.cells i hi j hj, h.cells j hj i hi]

/-- When the vertices left out have no arrows to those kept, the small quiver has arrows where the
large one has. -/
theorem Embeds.hasArrow_iff (h : Embeds f a b) (hi : i < a.rank)
    (hout : ∀ w < b.rank, b.adjacent (f i) w = true → ∃ j < a.rank, f j = w) :
    a.HasArrow i ↔ b.HasArrow (f i) := by
  constructor
  · rintro ⟨j, hj, harrow⟩
    exact ⟨f j, h.lt j hj, (h.adjacent_eq hi hj).trans harrow⟩
  · rintro ⟨w, hw, harrow⟩
    obtain ⟨j, hj, rfl⟩ := hout w hw harrow
    exact ⟨j, hj, (h.adjacent_eq hi hj).symm.trans harrow⟩

/-- Without its vertices that have no arrows, a quiver is the one on the others. -/
theorem exists_embeds_dropIsolated (hm : m.rows = m.cols) :
    ∃ f, Embeds f m.dropIsolated m ∧
      ∀ v, (∃ i < m.dropIsolated.rank, f i = v) ↔ v < m.rank ∧ m.HasArrow v := by
  fun_induction dropIsolated m with
  | case1 m hnone =>
      refine ⟨id, embeds_id hm, fun v => ?_⟩
      have hall : v < m.rank → m.HasArrow v := by
        intro hv
        by_contra hno
        exact List.find?_eq_none.mp hnone v (List.mem_range.mpr hv) ((isIsolated_iff hm).mpr hno)
      simpa using fun hv => hall hv
  | case2 m u hsome ih =>
      have hu : ¬ m.HasArrow u := (isIsolated_iff hm).mp (List.find?_some hsome)
      have hlt : u < m.rank := lt_rank_of_firstIsolated? hsome
      have hminor := embeds_minor hm u
      obtain ⟨f, hf, himage⟩ := ih hminor.square
      refine ⟨skip u ∘ f, hf.comp hminor, fun v => ?_⟩
      -- the vertex dropped was joined to none of those that are left
      have harrow : ∀ i < (m.minor u u).rank, (m.minor u u).HasArrow i ↔ m.HasArrow (skip u i) := by
        intro i hi
        refine hminor.hasArrow_iff hi fun w hw hjoin => ?_
        rw [rank_minor]
        refine exists_skip_eq hlt hw ?_
        rintro rfl
        exact hu ⟨skip w i, hminor.lt i hi, adjacent_iff.mpr (adjacent_iff.mp hjoin).symm⟩
      constructor
      · rintro ⟨i, hi, rfl⟩
        obtain ⟨hlt, hhas⟩ := (himage (f i)).mp ⟨i, hi, rfl⟩
        exact ⟨hminor.lt _ hlt, (harrow _ hlt).mp hhas⟩
      · rintro ⟨hv, hhas⟩
        have hne : v ≠ u := fun he => hu (he ▸ hhas)
        obtain ⟨i, hi, rfl⟩ := exists_skip_eq hlt hv hne
        rw [← rank_minor m u] at hi
        obtain ⟨j, hj, rfl⟩ := (himage i).mpr ⟨hi, (harrow i hi).mpr hhas⟩
        exact ⟨j, hj, rfl⟩

/-! ### Deletions -/

/-- Vertex `v` stays when `k` is deleted: an arrow joins it to a vertex other than `k`. -/
def Stays (m : ExchangeMatrix) (k v : Nat) : Prop :=
  v < m.rank ∧ v ≠ k ∧ ∃ w < m.rank, w ≠ k ∧ m.adjacent v w = true

/-- **A deletion is the quiver on the vertices that stay.** -/
theorem exists_embeds_deletion (hm : m.rows = m.cols) (hk : k < m.rank) :
    ∃ f, Embeds f (m.deletion k) m ∧
      ∀ v, (∃ i < (m.deletion k).rank, f i = v) ↔ m.Stays k v := by
  have hminor := embeds_minor hm k
  obtain ⟨f, hf, himage⟩ := exists_embeds_dropIsolated hminor.square
  refine ⟨skip k ∘ f, hf.comp hminor, fun v => ?_⟩
  constructor
  · rintro ⟨i, hi, rfl⟩
    obtain ⟨hlt, w, hw, harrow⟩ := (himage (f i)).mp ⟨i, hi, rfl⟩
    exact ⟨hminor.lt _ hlt, skip_ne _ _, skip k w, hminor.lt w hw, skip_ne _ _,
      (hminor.adjacent_eq hlt hw).trans harrow⟩
  · rintro ⟨hv, hne, w, hw, hwne, harrow⟩
    obtain ⟨i, hi, rfl⟩ := exists_skip_eq hk hv hne
    obtain ⟨j, hj, rfl⟩ := exists_skip_eq hk hw hwne
    rw [← rank_minor m k] at hi hj
    obtain ⟨i', hi', rfl⟩ :=
      (himage i).mpr ⟨hi, j, hj, (hminor.adjacent_eq hi hj).symm.trans harrow⟩
    exact ⟨i', hi', rfl⟩

theorem Carries.stays_iff (h : Carries p a b) : b.Stays (p.apply k) (p.apply v) ↔ a.Stays k v := by
  have hne : ∀ {i}, p.apply i ≠ p.apply k ↔ i ≠ k := p.apply_injective.ne_iff
  rw [Stays, Stays, h.pivot_lt, hne]
  refine and_congr_right fun _ => and_congr_right fun _ => ⟨?_, ?_⟩
  · rintro ⟨w, hw, hwne, harrow⟩
    rw [← p.apply_inverse w] at hw hwne harrow
    exact ⟨_, h.pivot_lt.mp hw, hne.mp hwne, (h.adjacent_eq _ _).symm.trans harrow⟩
  · rintro ⟨w, hw, hwne, harrow⟩
    exact ⟨_, h.pivot_lt.mpr hw, hne.mpr hwne, (h.adjacent_eq _ _).trans harrow⟩

/-- **Relabelled quivers have relabelled deletions.** -/
theorem Carries.same_deletion (h : Carries p a b) (ha : a.rows = a.cols) (hk : k < a.rank) :
    Identification.relabelling.Same (a.deletion k) (b.deletion (p.apply k)) := by
  have hab := h.embeds ha
  obtain ⟨f, hf, hfimage⟩ := exists_embeds_deletion ha hk
  obtain ⟨g, hg, hgimage⟩ := exists_embeds_deletion hab.squareOuter (h.pivot_lt.mpr hk)
  refine (hf.comp hab).same hg fun v => ?_
  rw [hgimage, ← p.apply_inverse v, h.stays_iff, ← hfimage]
  simp only [Function.comp_apply, p.apply_injective.eq_iff]

end ExchangeMatrix

end MutationFinite
