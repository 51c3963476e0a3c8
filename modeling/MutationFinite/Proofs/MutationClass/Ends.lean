import MutationFinite.Proofs.MutationClass.Ledger
import MutationFinite.Proofs.Vertices
import Mathlib.Data.Set.Card

/-!
# Counting the ends of edges

The vertices of a matrix fall into orbits, and an edge leads from an orbit of one matrix to an orbit
of another or of the same: these are its ends.  Two ends are marked when an edge is crossed, unless
the edge leads back to the end at which it starts; then one is.

* `Identification.IsOrbit`: the orbit of a vertex; `exists_isOrbit` says that there is one.
* `Identification.loops`: the ends whose edges lead back to them; `mem_loops_iff`.
* `Ledger.ends`: the marked ends; `ends_mark` says which one a mark adds.
* `Ledger.tally`: the marked ends, those whose edges lead back counted twice.
* `Ledger.Paired.tally_cross`: crossing an unmarked edge adds two to the tally.
-/

namespace MutationFinite

open ExchangeMatrix

namespace Identification

variable (I : Identification)

/-- `O` is the orbit of vertex `k` of `x`. -/
def IsOrbit (x : ExchangeMatrix) (k : Nat) (O : VertexSet) : Prop := ∀ w, w ∈ O ↔ I.SameVertex x k w

/-- The pairs of a matrix and an orbit whose mutation edge leads back to the same pair. -/
def loops : Set (ExchangeMatrix × VertexSet) :=
  {e | ∃ k ∈ e.2, ∃ c p, e.1.mutate? k = .ok c ∧ I.admits p ∧ Carries p c e.1 ∧ p.apply k ∈ e.2}

variable {I} {x z : ExchangeMatrix} {j k w : Nat} {O O' : VertexSet}

theorem exists_isOrbit (I : Identification) (hk : k < x.rank) : ∃ O, I.IsOrbit x k O := by
  classical
  refine ⟨.filterBelow x.rank fun w => I.SameVertex x k w, fun w => ?_⟩
  rw [VertexSet.mem_filterBelow, decide_eq_true_eq]
  exact and_iff_right_of_imp fun h => h.lt hk

theorem IsOrbit.mem (h : I.IsOrbit x k O) : k ∈ O := (h k).mpr (.refl x k)

theorem IsOrbit.unique (h : I.IsOrbit x k O) (h' : I.IsOrbit x k O') : O = O' :=
  VertexSet.ext_mem fun w => (h w).trans (h' w).symm

/-- An orbit is the orbit of each of its vertices. -/
theorem IsOrbit.of_mem (h : I.IsOrbit x k O) (hj : j ∈ O) : I.IsOrbit x j O := by
  have hv : I.SameVertex x k j := (h j).mp hj
  exact fun w => (h w).trans ⟨hv.symm.trans, hv.trans⟩

theorem isOrbit_equality : equality.IsOrbit x k O ↔ O = {k} := by
  constructor
  · intro h
    refine VertexSet.ext_mem fun w => ?_
    rw [h w, sameVertex_equality_iff, VertexSet.mem_singleton, eq_comm]
  · rintro rfl w
    rw [sameVertex_equality_iff, VertexSet.mem_singleton, eq_comm]

/-- An end leads back to itself when the mutation at its vertex does. -/
theorem mem_loops_iff (hO : I.IsOrbit x k O) :
    (x, O) ∈ I.loops ↔ x.Crossable k ∧ I.Edge x k x k := by
  constructor
  · rintro ⟨j, hj, c, p, hto, hp, hc, hpj⟩
    have hjk : I.SameVertex x j k := ((hO j).mp hj).symm
    have hpjk : I.SameVertex x (p.apply j) k := ((hO _).mp hpj).symm
    have hedge : I.Edge x j x (p.apply j) := ⟨c, p, mutatesTo_of_mutate? hto, hp, hc, rfl⟩
    exact ⟨hjk.crossable ⟨c, hto⟩, (hedge.of_sameVertex hjk).to_sameVertex hpjk⟩
  · rintro ⟨⟨c, hto⟩, y, p, hy, hp, hc, hpk⟩
    obtain rfl := (mutatesTo_of_mutate? hto).unique hy
    exact ⟨k, hO.mem, c, p, hto, hp, hc, hpk.symm ▸ hO.mem⟩

end Identification

namespace Ledger

variable {L : Ledger} {I : Identification} {x z z' : ExchangeMatrix} {k w w' : Nat}
  {O O' : VertexSet}

/-- The marked ends: found matrices with an orbit of which the vertices are marked. -/
def ends (L : Ledger) (I : Identification) : Set (ExchangeMatrix × VertexSet) :=
  {e | ∃ k, L.marks e.1 k ∧ I.IsOrbit e.1 k e.2}

/-- The number of marked ends, those whose edges lead back to them counted twice. -/
noncomputable def tally (L : Ledger) (I : Identification) : ℕ∞ :=
  (L.ends I).encard + (L.ends I ∩ I.loops).encard

theorem tally_start (m : ExchangeMatrix) : (start m).tally I = 0 := by
  have hends : (start m).ends I = ∅ := Set.eq_empty_of_forall_notMem fun _ ⟨_, h, _⟩ => h
  rw [tally, hends, Set.empty_inter, Set.encard_empty, add_zero]

/-- A mark adds the end at which it is set. -/
theorem ends_mark (hO : I.IsOrbit x k O) : (L.mark I x k).ends I = insert (x, O) (L.ends I) := by
  ext ⟨y, P⟩
  rw [Set.mem_insert_iff, Prod.mk.injEq]
  constructor
  · rintro ⟨j, hm | ⟨rfl, hv⟩, hP⟩
    · exact .inr ⟨j, hm, hP⟩
    · exact .inl ⟨rfl, hP.unique (hO.of_mem ((hO j).mpr hv))⟩
  · rintro (⟨rfl, rfl⟩ | ⟨j, hm, hP⟩)
    · exact ⟨k, .inr ⟨rfl, .refl y k⟩, hO⟩
    · exact ⟨j, .inl hm, hP⟩

namespace Paired

theorem mem_ends_iff (h : L.Paired I) (hO : I.IsOrbit x k O) : (x, O) ∈ L.ends I ↔ L.marks x k := by
  constructor
  · rintro ⟨j, hm, hj⟩
    exact h.orbit x k j hm ((hj k).mp hO.mem)
  · exact fun hm => ⟨k, hm, hO⟩

/-- An edge has one far end. -/
theorem end_unique (h : L.Paired I) (hz : z ∈ L.found) (hz' : z' ∈ L.found) (he : I.Edge x k z w)
    (he' : I.Edge x k z' w') (hO : I.IsOrbit z w O) (hO' : I.IsOrbit z' w' O') :
    (z, O) = (z', O') := by
  obtain ⟨q, hq, hc, hw⟩ := he.functional he'
  obtain rfl := h.eq_of_same hz hz' ⟨q, hq, hc⟩
  rw [hO.unique (hO'.of_mem ((hO' w).mpr (.symm ⟨q, hq, hc, hw⟩)))]

/-- **Crossing an unmarked edge adds two to the tally**: two ends, or one that counts twice. -/
theorem tally_cross (h : L.Paired I) (hx : x ∈ L.found) (hz : z ∈ L.found) (he : I.Edge x k z w)
    (hc : x.Crossable k) (hk : ¬ L.marks x k) : (L.cross I x k z w).tally I = L.tally I + 2 := by
  obtain ⟨O, hO⟩ := I.exists_isOrbit he.lt
  obtain ⟨O', hO'⟩ := I.exists_isOrbit he.symm.lt
  have hnear : (x, O) ∉ L.ends I := fun hm => hk ((h.mem_ends_iff hO).mp hm)
  have hfar : (z, O') ∉ L.ends I := fun hm =>
    h.unmarked hx he hk ((h.mem_ends_iff hO').mp hm)
  have hends : (L.cross I x k z w).ends I = insert (x, O) (insert (z, O') (L.ends I)) := by
    rw [Ledger.cross, ends_mark hO, ends_mark hO']
  rw [tally, tally, hends]
  by_cases hsame : (x, O) = (z, O')
  · -- the edge leads back to the end at which it starts
    have hloop : (x, O) ∈ I.loops := by
      obtain ⟨rfl, rfl⟩ := Prod.mk.inj hsame
      exact (Identification.mem_loops_iff hO).mpr ⟨hc, he.to_sameVertex ((hO' k).mp hO.mem)⟩
    rw [← hsame, Set.insert_idem, Set.insert_inter_of_mem hloop, Set.encard_insert_of_notMem hnear,
      Set.encard_insert_of_notMem fun hm => hnear hm.1, add_add_add_comm, one_add_one_eq_two]
  · have hback : (x, O) ∉ I.loops := fun hb =>
      hsame (h.end_unique hx hz (Identification.mem_loops_iff hO |>.mp hb).2 he hO hO')
    have hback' : (z, O') ∉ I.loops := fun hb =>
      hsame (h.end_unique hx hz he.symm (Identification.mem_loops_iff hO' |>.mp hb).2 hO hO')
    have hnear' : (x, O) ∉ insert (z, O') (L.ends I) := by
      rintro (he | he)
      · exact hsame he
      · exact hnear he
    rw [Set.insert_inter_of_notMem hback, Set.insert_inter_of_notMem hback',
      Set.encard_insert_of_notMem hnear', Set.encard_insert_of_notMem hfar,
      add_assoc (L.ends I).encard 1 1, one_add_one_eq_two, add_right_comm]

end Paired

end Ledger

end MutationFinite
