import MutationFinite.Proofs.Matrix.Certificate
import MutationFinite.Proofs.Relabelling.Action

/-!
# What relabelled matrices share

A relabelling carries mutations along, so that a matrix and its relabellings reach relabelled
matrices, overflow at the same vertices, have the same components and are certified alike.  Nothing
is asked of the entries, of the shape or, where only mutations are compared, of the rank.

* `mutate?_relabel`: **mutation commutes with relabelling.**
* `Carries.reaches`, `Carries.encard_mutationClass_le`: runs of mutations are carried along, and so
  is the number of matrices that they reach.
* `Carries.linked`, `Carries.card_component_le`: chains of arrows and the sizes of components.
* `Carries.certifiesInfinite`: the certificate.
-/

namespace MutationFinite

namespace ExchangeMatrix

variable {a b x : ExchangeMatrix} {p : Permutation} {i j k : Nat}

/-! ### Mutations -/

/-- What overflows still does when it is relabelled, at the image of the pivot. -/
theorem Carries.overflows (h : Carries p a b) (hk : k < a.rank)
    (hover : a.mutate? k = .error (.entryOverflow k)) :
    b.mutate? (p.apply k) = .error (.entryOverflow (p.apply k)) := by
  refine mutate?_eq_overflow (h.pivot_lt.mpr hk) fun hdefined => ?_
  obtain ⟨a', ha⟩ := h.exists_mutate?_iff.mp hdefined
  cases hover.symm.trans ha

/-- **Mutation commutes with relabelling.**  Either both mutations are defined, and the one of the
relabelled matrix is the relabelled one, or both overflow, each at its own pivot. -/
theorem mutate?_relabel (m : ExchangeMatrix) (p : Permutation) (k : Nat) (hp : p.size = m.rank)
    (hk : k < m.rank) :
    (∃ m', m.mutate? k = .ok m' ∧ (m.relabel p).mutate? (p.apply k) = .ok (m'.relabel p)) ∨
      m.mutate? k = .error (.entryOverflow k) ∧
        (m.relabel p).mutate? (p.apply k) = .error (.entryOverflow (p.apply k)) := by
  have hc : Carries p m (m.relabel p) := carries_relabel hp
  by_cases hdefined : ∃ m', m.mutate? k = .ok m'
  · obtain ⟨m', hm⟩ := hdefined
    exact .inl ⟨m', hm, hc.mutate? hm⟩
  · have hover := mutate?_eq_overflow hk hdefined
    exact .inr ⟨hover, hc.overflows hk hover⟩

/-- The vertices 0, 1 and 2 take the places of 2, 0 and 1. -/
def turned : Permutation := ⟨#[2, 0, 1, 3], by decide⟩

/-- The pivot 1 of the framed triangle moves to 0, and so does the middle of the steep path, at
which it overflows. -/
theorem mutate?_relabel_turned :
    turned.size = framedTriangle.rank ∧ 1 < framedTriangle.rank ∧
      (framedTriangle.relabel turned).mutate? 0 = .ok (framedPath.relabel turned) ∧
      ((steepPath.enlarge 1 1).relabel turned).mutate? 0 = .error (.entryOverflow 0) := by
  refine ⟨by decide, by decide, ?_, ?_⟩
  · rcases mutate?_relabel framedTriangle turned 1 (by decide) (by decide) with
      ⟨m', hm, hto⟩ | ⟨hover, -⟩
    · rwa [Except.ok.inj (mutate?_framedTriangle.symm.trans hm)]
    · cases mutate?_framedTriangle.symm.trans hover
  · have hover : (steepPath.enlarge 1 1).mutate? 1 = .error (.entryOverflow 1) :=
      (mutate?_eq_error_iff (by decide)).mpr ⟨rfl, 0, by decide, 2, by decide, by decide⟩
    rcases mutate?_relabel (steepPath.enlarge 1 1) turned 1 (by decide) (by decide) with
      ⟨m', hm, -⟩ | ⟨-, hover'⟩
    · cases hover.symm.trans hm
    · exact hover'

namespace Carries

/-- **Relabelled matrices reach relabelled matrices.** -/
theorem reaches (h : Carries p a b) (hr : Reaches a x) : ∃ y, Reaches b y ∧ Carries p x y := by
  induction hr with
  | refl => exact ⟨b, .refl b, h⟩
  | @step c d k _ hm ih =>
      obtain ⟨y, hy, hcy⟩ := ih
      have hsize : p.size = d.rank := hcy.size.trans (mutatesTo_of_mutate? hm).shape.rank_eq.symm
      exact ⟨_, .step hy (hcy.mutate? hm), carries_relabel hsize⟩

theorem encard_mutationClass_le (h : Carries p a b) :
    a.mutationClass.encard ≤ b.mutationClass.encard := by
  have hsub : a.mutationClass ⊆ (·.relabel p.inverse) '' b.mutationClass := by
    intro x hx
    obtain ⟨y, hy, hxy⟩ := h.reaches hx
    exact ⟨y, hy, (carries_iff.mp hxy.inverse).2⟩
  exact (Set.encard_le_encard hsub).trans (Set.encard_image_le _ _)

/-! ### Components -/

theorem adjacent_eq (h : Carries p a b) (i j : Nat) :
    b.adjacent (p.apply i) (p.apply j) = a.adjacent i j := by
  rw [adjacent, adjacent, h.cells, h.cells]

theorem lt_trackedRank (h : Carries p a b) (hrank : a.rank ≤ 64) (hi : i < a.trackedRank) :
    p.apply i < b.trackedRank := by
  rw [trackedRank_eq hrank] at hi
  rw [← h.shape.trackedRank_eq, trackedRank_eq hrank, h.shape.rank_eq]
  exact h.pivot_lt.mpr hi

/-- A relabelling keeps chains of arrows. -/
theorem linked (h : Carries p a b) (hrank : a.rank ≤ 64) (hij : a.Linked i j) :
    b.Linked (p.apply i) (p.apply j) :=
  hij.lift p.apply fun i j hjoined => ⟨h.lt_trackedRank hrank hjoined.left,
    h.lt_trackedRank hrank hjoined.right, (h.adjacent_eq i j).trans hjoined.arrow⟩

theorem card_component_le (h : Carries p a b) (hrank : a.rank ≤ 64) (hi : i < a.trackedRank) :
    (a.component i).card ≤ (b.component (p.apply i)).card := by
  obtain ⟨l, hl, hmem, hlength⟩ := VertexSet.le_card_iff.mp (Nat.le_refl (a.component i).card)
  refine VertexSet.le_card_iff.mpr
    ⟨l.map p.apply, hl.map p.apply_injective, fun w hw => ?_, by rw [List.length_map, hlength]⟩
  obtain ⟨v, hv, rfl⟩ := List.mem_map.mp hw
  exact (mem_component (h.lt_trackedRank hrank hi)).mpr
    (h.linked hrank ((mem_component hi).mp (hmem v hv)))

/-! ### The certificate -/

/-- **The certificate is carried along.** -/
theorem certifiesInfinite (h : Carries p a b) (hrank : a.rank ≤ 64)
    (hcert : a.certifiesInfinite = true) : b.certifiesInfinite = true := by
  obtain ⟨i, hi, j, hj, hweight, hcard⟩ := certifiesInfinite_iff.mp hcert
  refine certifiesInfinite_iff.mpr ⟨p.apply i, h.lt_trackedRank hrank hi, p.apply j,
    h.lt_trackedRank hrank hj, ?_, hcard.trans (h.card_component_le hrank hi)⟩
  rwa [h.values, h.values]

end Carries

end ExchangeMatrix

end MutationFinite
