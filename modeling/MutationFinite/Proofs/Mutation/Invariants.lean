import MutationFinite.Proofs.Matrix.Component
import MutationFinite.Proofs.Mutation.Involution
import MutationFinite.Proofs.Mutation.Reachable

/-!
# What mutation keeps

Mutation changes the arrows of a quiver.  It keeps the factors that make the mutable part
skew-symmetric, and it keeps which vertices are linked by chains of arrows: an arrow that is
removed lies between two neighbours of the pivot, whose own arrows are only turned around.

Nothing is asked of the entries for the second, and nothing of the frozen rows and columns for
either.

* `MutatesTo.symmetrizedBy`, `Reaches.symmetrizedBy_iff`: the factors are kept.
* `Reaches.skewSymmetric_iff`: skew-symmetric matrices are those with factors 1.
* `Reaches.isSkewSymmetric_eq`: the test for them has one answer along the way.
* `MutatesTo.linked`: an arrow stays, or is replaced by a chain through the pivot.
* `Reaches.linked_iff`, `Reaches.components_eq`: chains of arrows and components are kept.
* `mutate?_keeps_factors`, `mutate?_keeps_components`: what a defined mutation keeps.
-/

namespace MutationFinite

open IntegerMatrix (SymmetrizedBy)

namespace ExchangeMatrix

variable {m m' : ExchangeMatrix} {d : Nat → Int} {i j k : Nat}

/-! ### Factors -/

theorem MutatesTo.symmetrizedBy (hto : MutatesTo m k m') (h : SymmetrizedBy m.rank d m.values) :
    SymmetrizedBy m'.rank d m'.values := by
  rw [hto.shape.rank_eq, hto.values]
  exact h.mutate hto.pivot

/-- **A run of mutations keeps the factors**, and brings no new ones. -/
theorem Reaches.symmetrizedBy_iff (h : Reaches m m') :
    SymmetrizedBy m'.rank d m'.values ↔ SymmetrizedBy m.rank d m.values :=
  h.iff_of_kept (P := fun x => SymmetrizedBy x.rank d x.values) MutatesTo.symmetrizedBy

theorem skewSymmetric_iff_symmetrizedBy :
    m.SkewSymmetric ↔ SymmetrizedBy m.rank (fun _ => 1) m.values := by
  constructor
  · intro h
    exact ⟨fun _ _ => Int.one_pos, fun i hi j hj => by simp only [Int.one_mul, h i hi j hj]⟩
  · intro h i hi j hj
    simpa only [Int.one_mul] using h.skew i hi j hj

theorem Reaches.skewSymmetric_iff (h : Reaches m m') : m'.SkewSymmetric ↔ m.SkewSymmetric := by
  rw [skewSymmetric_iff_symmetrizedBy, skewSymmetric_iff_symmetrizedBy, h.symmetrizedBy_iff]

/-- Opposite cells hold opposite entries: neither is the least entry, which has no opposite. -/
theorem SkewSymmetric.neg?_cell (h : m.SkewSymmetric) (hi : i < m.rank) (hj : j < m.rank) :
    (m.cell j i).neg? = some (m.cell i j) :=
  Entry.neg?_eq_some.mpr (h i hi j hj)

/-- **Mutation keeps what the test for skew-symmetry sees**: opposite cells that both hold the least
entry lie away from the pivot, and as nothing larger or smaller fits in both of them they stay. -/
theorem MutatesTo.isSkewSymmetric (hto : MutatesTo m k m') (h : m.isSkewSymmetric = true) :
    m'.isSkewSymmetric = true := by
  refine isSkewSymmetric_iff.mpr fun i hi j hj => ?_
  rw [hto.shape.rank_eq] at hi hj
  have hij := m'.values_inRange i j
  have hji := m'.values_inRange j i
  have hpivot := hto.values_pivot_eq_neg h
  by_cases hp : i = k ∨ j = k
  · have hskew : m.values i j = -m.values j i := by
      rcases hp with rfl | rfl
      · rw [hpivot j hj, neg_neg]
      · exact hpivot i hi
    rw [hto.values, IntegerMatrix.mutate, if_pos hp] at hij
    rw [hto.values, IntegerMatrix.mutate, IntegerMatrix.mutate, if_pos hp, if_pos hp.symm]
    split <;> omega
  · rw [not_or] at hp
    have htest := isSkewSymmetric_iff.mp h i hi j hj
    have hthrough : IntegerMatrix.through (m.values j k) (m.values k i) =
        -IntegerMatrix.through (m.values i k) (m.values k j) := by
      rw [hpivot i hi, hpivot j hj, IntegerMatrix.through_comm, ← IntegerMatrix.through_neg_neg,
        neg_neg]
    have hold := m.values_inRange i j
    rw [hto.values, IntegerMatrix.mutate_of_ne _ hp.1 hp.2] at hij
    rw [hto.values, IntegerMatrix.mutate_of_ne _ hp.2 hp.1, hthrough] at hji
    rw [hto.values, IntegerMatrix.mutate_of_ne _ hp.1 hp.2, IntegerMatrix.mutate_of_ne _ hp.2 hp.1,
      hthrough]
    split at htest <;> split <;> omega

theorem Reaches.isSkewSymmetric_eq (h : Reaches m m') : m'.isSkewSymmetric = m.isSkewSymmetric :=
  Bool.eq_iff_iff.mpr
    (h.iff_of_kept (P := fun x => x.isSkewSymmetric = true) MutatesTo.isSkewSymmetric)

/-- **Mutation keeps the factors that make a matrix skew-symmetric.**  Factors of the rows make the
mutable part of the mutated matrix skew-symmetric exactly when they do so before the mutation.  In
particular the test for skew-symmetry has one answer for both, and where a matrix is skew-symmetric
all mutable entries of the mutated matrix have opposites. -/
theorem mutate?_keeps_factors (m m' : ExchangeMatrix) (k : Nat) (h : m.mutate? k = .ok m') :
    SameShape m' m ∧
      (∀ d, SymmetrizedBy m.rank d m'.values ↔ SymmetrizedBy m.rank d m.values) ∧
      m'.isSkewSymmetric = m.isSkewSymmetric ∧
      (m.SkewSymmetric →
        ∀ i < m.rank, ∀ j < m.rank, (m'.cell j i).neg? = some (m'.cell i j)) := by
  have hr : Reaches m m' := .one h
  have hrank := hr.shape.rank_eq
  refine ⟨hr.shape, fun d => ?_, hr.isSkewSymmetric_eq, fun hskew i hi j hj => ?_⟩
  · rw [← hr.symmetrizedBy_iff, hrank]
  · exact (hr.skewSymmetric_iff.mpr hskew).neg?_cell (hrank ▸ hi) (hrank ▸ hj)

/-- A triangle of vertices 0 to 2, whose rows have the factors 1, 2 and 2, vertex 3 on its own, and
a frozen row that holds the least entry. -/
def framedTriangle : ExchangeMatrix :=
  .ofFn 5 4 fun i j =>
    let rows : List (List Int) :=
      [[0, 2, -2, 0], [-1, 0, 1, 0], [1, -1, 0, 0], [0, 0, 0, 0], [-2147483648, 3, 5, 1]]
    .ofInt ((rows.getD i []).getD j 0)

/-- The framed triangle after mutation at vertex 1: the arrow between 0 and 2 is gone. -/
def framedPath : ExchangeMatrix :=
  .ofFn 5 4 fun i j =>
    let rows : List (List Int) :=
      [[0, -2, 0, 0], [1, 0, -1, 0], [0, 1, 0, 0], [0, 0, 0, 0], [-2147483648, -3, 8, 1]]
    .ofInt ((rows.getD i []).getD j 0)

theorem mutate?_framedTriangle : framedTriangle.mutate? 1 = .ok framedPath :=
  mutate?_eq_ok_iff.mpr (by decide)

/-- The factors 1, 2, 2, 1 are those of both, neither of which is skew-symmetric. -/
theorem mutate?_keeps_factors_framedTriangle :
    framedTriangle.mutate? 1 = .ok framedPath ∧
      SymmetrizedBy 4 (fun i => if i = 1 ∨ i = 2 then 2 else 1) framedPath.values ∧
      framedPath.isSkewSymmetric = false := by
  obtain ⟨-, hfactors, hskew, -⟩ :=
    mutate?_keeps_factors framedTriangle framedPath 1 mutate?_framedTriangle
  have hfalse : framedTriangle.isSkewSymmetric = false := by decide
  exact ⟨mutate?_framedTriangle, (hfactors _).mpr ⟨by decide, by decide⟩, hskew.trans hfalse⟩

/-! ### Components -/

/-- An arrow that mutation removes is one between neighbours of the pivot. -/
theorem MutatesTo.values_pivot_ne_zero (hto : MutatesTo m k m') (hold : m.values i j ≠ 0)
    (hnew : m'.values i j = 0) : m'.values i k ≠ 0 ∧ m'.values k j ≠ 0 := by
  have hpivot : ¬ (i = k ∨ j = k) := by
    intro hp
    rw [hto.values, IntegerMatrix.mutate, if_pos hp, Int.neg_eq_zero] at hnew
    exact hold hnew
  rw [not_or] at hpivot
  rw [hto.values, IntegerMatrix.mutate_of_ne _ hpivot.1 hpivot.2] at hnew
  rw [hto.values, IntegerMatrix.mutate_pivot_col, IntegerMatrix.mutate_pivot_row]
  constructor
  · intro h0
    rw [Int.neg_eq_zero.mp h0, IntegerMatrix.through_zero_left, Int.add_zero] at hnew
    exact hold hnew
  · intro h0
    rw [Int.neg_eq_zero.mp h0, IntegerMatrix.through_zero_right, Int.add_zero] at hnew
    exact hold hnew

/-- An arrow stays, or is replaced by a chain through the pivot. -/
theorem MutatesTo.linked (hto : MutatesTo m k m') (hrank : m.rank ≤ 64)
    (hi : i < m'.trackedRank) (hj : j < m'.trackedRank) (h : m.values i j ≠ 0) :
    m'.Linked i j := by
  have hk : k < m'.trackedRank := by
    rw [trackedRank_eq (hto.shape.rank_eq.trans_le hrank), hto.shape.rank_eq]
    exact hto.pivot
  by_cases hnew : m'.values i j = 0
  · obtain ⟨hik, hkj⟩ := hto.values_pivot_ne_zero h hnew
    exact .tail (.single (joined_of_values hi hk hik)) (joined_of_values hk hj hkj)
  · exact .single (joined_of_values hi hj hnew)

/-- Mutation keeps chains of arrows. -/
theorem Linked.mutatesTo (h : m.Linked i j) (hto : MutatesTo m k m') (hrank : m.rank ≤ 64) :
    m'.Linked i j := by
  induction h with
  | refl => exact .refl
  | tail _ hxy ih =>
      have hx := hto.shape.trackedRank_eq ▸ hxy.left
      have hy := hto.shape.trackedRank_eq ▸ hxy.right
      -- the arrow may be seen in either of the two cells
      rcases adjacent_iff.mp hxy.arrow with harc | harc
      · exact ih.trans (hto.linked hrank hx hy (values_ne_zero_iff.mpr harc))
      · exact ih.trans (hto.linked hrank hy hx (values_ne_zero_iff.mpr harc)).symm

/-- **A run of mutations links no vertices and cuts none off.** -/
theorem Reaches.linked_iff (h : Reaches m m') (hrank : m.rank ≤ 64) :
    m'.Linked i j ↔ m.Linked i j := by
  have hkept := h.iff_of_kept (P := fun x => x.rank ≤ 64 ∧ x.Linked i j) fun hto hx =>
    ⟨hto.shape.rank_eq.trans_le hx.1, hx.2.mutatesTo hto hx.1⟩
  rwa [and_iff_right (h.shape.rank_eq.trans_le hrank), and_iff_right hrank] at hkept

/-- **A run of mutations keeps the list of components.** -/
theorem Reaches.components_eq (h : Reaches m m') (hrank : m.rank ≤ 64) :
    m'.components = m.components :=
  components_eq_of_linked h.shape.trackedRank_eq fun _ _ => h.linked_iff hrank

/-- **Mutation never merges or splits components.**  Chains of arrows link the same vertices before
and after, although the arrows differ, so that each vertex keeps its component, and the list of
components stays the same. -/
theorem mutate?_keeps_components (m m' : ExchangeMatrix) (k : Nat) (h : m.mutate? k = .ok m')
    (hrank : m.rank ≤ 64) :
    (∀ i j, m'.Linked i j ↔ m.Linked i j) ∧
      (∀ v < m.rank, m'.component v = m.component v) ∧ m'.components = m.components := by
  have hr : Reaches m m' := .one h
  have hlinked : ∀ i j, m'.Linked i j ↔ m.Linked i j := fun _ _ => hr.linked_iff hrank
  refine ⟨hlinked, fun v hv => ?_, hr.components_eq hrank⟩
  exact component_eq_of_linked hr.shape.trackedRank_eq hlinked ((trackedRank_eq hrank).symm ▸ hv)

/-- The vertices 0 and 2 stay linked when their arrow goes. -/
theorem mutate?_keeps_components_framedTriangle :
    framedTriangle.mutate? 1 = .ok framedPath ∧ framedTriangle.rank ≤ 64 ∧
      framedTriangle.adjacent 0 2 = true ∧ framedPath.adjacent 0 2 = false ∧
      framedPath.Linked 0 2 ∧ framedPath.components = [⟨7⟩, ⟨8⟩] := by
  obtain ⟨hlinked, -, hcomponents⟩ := mutate?_keeps_components framedTriangle framedPath 1
    mutate?_framedTriangle (by decide)
  have harrow : framedTriangle.Joined 0 2 := ⟨by decide, by decide, by decide⟩
  have hlist : framedTriangle.components = [⟨7⟩, ⟨8⟩] := by decide
  exact ⟨mutate?_framedTriangle, by decide, by decide, by decide,
    (hlinked 0 2).mpr (.single harrow), hcomponents.trans hlist⟩

end ExchangeMatrix

end MutationFinite
