import MutationFinite.Proofs.Mutation.Reachable
import MutationFinite.Proofs.Relabelling.Action

/-!
# Paired marks

The bookkeeping of a walk without its data structures: the matrices found so far and the marks on
their mutation edges, those of matrices already given up included.  Matrices count as the same up
to an identification.

* `Edge`: the mutation edge at a vertex of one matrix leads to a vertex of another; `Edge.symm`
  says that it leads back.
* `Ledger.Paired`: found matrices are different, marks cover orbits, and a marked edge is marked at
  both ends.
* `Ledger.Paired.cross`: marking both ends of an edge keeps the marks paired.
* `Ledger.Paired.unmarked`: the far end of an unmarked edge is unmarked.  So a matrix of which all
  edges are marked is never found again.
* `Ledger.Paired.complete`, `complete_back`: when all edges are marked, every matrix that a found
  one reaches is found, and every matrix that reaches a found one.
-/

namespace MutationFinite

open ExchangeMatrix

namespace ExchangeMatrix

/-- The mutation of `m` at `k` is defined. -/
def Crossable (m : ExchangeMatrix) (k : Nat) : Prop := ∃ c, m.mutate? k = .ok c

end ExchangeMatrix

namespace Identification

variable (I : Identification)

/-- The exact mutation of `x` at `k` counts as `z`, and what carries it there sends `k` to `w`. -/
def Edge (x : ExchangeMatrix) (k : Nat) (z : ExchangeMatrix) (w : Nat) : Prop :=
  ∃ y p, MutatesTo x k y ∧ I.admits p ∧ Carries p y z ∧ p.apply k = w

variable {I} {x y z z' : ExchangeMatrix} {j k w w' : Nat}

/-- An edge ends in the mutated matrix itself. -/
theorem Edge.of_mutatesTo (h : MutatesTo x k y) : I.Edge x k y k :=
  ⟨y, _, h, I.identity _, carries_identity y, Permutation.apply_identity _ k⟩

theorem Edge.symm (h : I.Edge x k z w) : I.Edge z w x k := by
  obtain ⟨y, p, hm, hp, hc, rfl⟩ := h
  have hx : Carries p x (x.relabel p) := carries_relabel (hc.size.trans hm.shape.rank_eq)
  exact ⟨_, _, hc.mutatesTo hm.symm, I.inverse p hp, hx.inverse, p.inverse_apply k⟩

/-- An edge leads on from every vertex of the orbit. -/
theorem Edge.of_sameVertex (h : I.Edge x k z w) (hv : I.SameVertex x k j) : I.Edge x j z w := by
  obtain ⟨y, p, hm, hp, hc, rfl⟩ := h
  obtain ⟨q, hq, hd, rfl⟩ := hv
  have hy : Carries q y (y.relabel q) := carries_relabel (hd.size.trans hm.shape.rank_eq.symm)
  refine ⟨_, _, hd.mutatesTo hm, I.compose _ _ _ hp (I.inverse q hq), hy.inverse.compose hc, ?_⟩
  rw [Permutation.apply_compose, q.inverse_apply]

/-- An edge leads to every vertex of the orbit in which it ends. -/
theorem Edge.to_sameVertex (h : I.Edge x k z w) (hv : I.SameVertex z w j) : I.Edge x k z j :=
  (h.symm.of_sameVertex hv).symm

theorem Edge.lt (h : I.Edge x k z w) : k < x.rank := by
  obtain ⟨y, p, hm, -⟩ := h
  exact hm.pivot

/-- The two ends of one edge count as the same. -/
theorem Edge.functional (h : I.Edge x k z w) (h' : I.Edge x k z' w') :
    ∃ q, I.admits q ∧ Carries q z z' ∧ q.apply w = w' := by
  obtain ⟨y, p, hm, hp, hc, rfl⟩ := h
  obtain ⟨y', p', hm', hp', hc', rfl⟩ := h'
  obtain rfl := hm.unique hm'
  refine ⟨_, I.compose _ _ _ hp' (I.inverse p hp), hc.inverse.compose hc', ?_⟩
  rw [Permutation.apply_compose, p.inverse_apply]

theorem Edge.of_same {c c' : ExchangeMatrix} {p : Permutation} (hp : I.admits p)
    (hc : Carries p c x) (hm : MutatesTo c k c') (h : I.Edge x (p.apply k) z w) :
    I.Same c' z := by
  obtain ⟨y, q, hy, hq, hd, -⟩ := h
  obtain rfl := (hc.mutatesTo hm).unique hy
  have hc' : Carries p c' (c'.relabel p) := carries_relabel (hc.size.trans hm.shape.rank_eq.symm)
  exact Same.trans ⟨p, hp, hc'⟩ ⟨q, hq, hd⟩

theorem SameVertex.crossable (hv : I.SameVertex x k j) (h : x.Crossable k) : x.Crossable j := by
  obtain ⟨p, -, hc, rfl⟩ := hv
  exact hc.exists_mutate?_iff.mpr h

end Identification

/-- The matrices found so far, in order, and the marks on their edges. -/
structure Ledger where
  found : List ExchangeMatrix
  marks : ExchangeMatrix → Nat → Prop

namespace Ledger

/-- One matrix is found, and nothing is marked. -/
def start (m : ExchangeMatrix) : Ledger := ⟨[m], fun _ _ => False⟩

/-- Adds a matrix. -/
def add (L : Ledger) (z : ExchangeMatrix) : Ledger := ⟨L.found ++ [z], L.marks⟩

/-- Marks the orbit of `k` in `x`. -/
def mark (L : Ledger) (I : Identification) (x : ExchangeMatrix) (k : Nat) : Ledger :=
  ⟨L.found, fun y j => L.marks y j ∨ (y = x ∧ I.SameVertex x k j)⟩

/-- Marks the far end `w` of an edge in `z` and then its near end `k` in `x`. -/
def cross (L : Ledger) (I : Identification) (x : ExchangeMatrix) (k : Nat) (z : ExchangeMatrix)
    (w : Nat) : Ledger :=
  (L.mark I z w).mark I x k

/-- Found matrices are different, marks cover orbits, and each marked edge is marked at both ends
and can be crossed from one of them. -/
structure Paired (L : Ledger) (I : Identification) : Prop where
  different : L.found.Pairwise fun x y => ¬ I.Same x y
  found : ∀ x k, L.marks x k → x ∈ L.found
  orbit : ∀ x j k, L.marks x k → I.SameVertex x k j → L.marks x j
  paired : ∀ x k, L.marks x k →
    ∃ z w, I.Edge x k z w ∧ L.marks z w ∧ (x.Crossable k ∨ z.Crossable w)

variable {L : Ledger} {I : Identification} {x z : ExchangeMatrix} {j k w : Nat}

theorem paired_start (m : ExchangeMatrix) : (start m).Paired I :=
  ⟨List.pairwise_singleton _ _, fun _ _ h => h.elim, fun _ _ _ h => h.elim, fun _ _ h => h.elim⟩

namespace Paired

theorem eq_of_same (h : L.Paired I) (hx : x ∈ L.found) (hz : z ∈ L.found) (hs : I.Same x z) :
    x = z := by
  have : Std.Symm fun a b => ¬ I.Same a b := ⟨fun _ _ hn hs' => hn hs'.symm⟩
  by_contra hne
  exact h.different.forall hx hz hne hs

theorem nodup (h : L.Paired I) : L.found.Nodup :=
  h.different.imp fun {a b} hn (he : a = b) => hn (he ▸ Identification.Same.refl a)

theorem add (h : L.Paired I) (hz : ∀ x ∈ L.found, ¬ I.Same x z) : (L.add z).Paired I := by
  refine ⟨?_, fun x k hm => List.mem_append_left _ (h.found x k hm), h.orbit, h.paired⟩
  refine List.pairwise_append.mpr ⟨h.different, List.pairwise_singleton _ _, fun x hx y hy => ?_⟩
  rw [List.mem_singleton.mp hy]
  exact hz x hx

/-- Marking both ends of an edge keeps the marks paired. -/
theorem cross (h : L.Paired I) (hx : x ∈ L.found) (hz : z ∈ L.found) (he : I.Edge x k z w)
    (hc : x.Crossable k) : (L.cross I x k z w).Paired I := by
  refine ⟨h.different, fun y j hm => ?_, fun y j i hm hv => ?_, fun y j hm => ?_⟩
  · rcases hm with (hm | ⟨rfl, -⟩) | ⟨rfl, -⟩
    · exact h.found y j hm
    · exact hz
    · exact hx
  · rcases hm with (hm | ⟨rfl, hm⟩) | ⟨rfl, hm⟩
    · exact .inl (.inl (h.orbit y j i hm hv))
    · exact .inl (.inr ⟨rfl, hm.trans hv⟩)
    · exact .inr ⟨rfl, hm.trans hv⟩
  · rcases hm with (hm | ⟨rfl, hv⟩) | ⟨rfl, hv⟩
    · obtain ⟨z', w', he', hm', hc'⟩ := h.paired y j hm
      exact ⟨z', w', he', .inl (.inl hm'), hc'⟩
    -- the marks that are new are those of the two ends
    · exact ⟨x, k, he.symm.of_sameVertex hv, .inr ⟨rfl, .refl x k⟩, .inr hc⟩
    · exact ⟨z, w, he.of_sameVertex hv, .inl (.inr ⟨rfl, .refl z w⟩), .inl (hv.crossable hc)⟩

/-- The far end of an unmarked edge is unmarked. -/
theorem unmarked (h : L.Paired I) (hx : x ∈ L.found) (he : I.Edge x k z w)
    (hk : ¬ L.marks x k) : ¬ L.marks z w := by
  intro hm
  obtain ⟨x', k', he', hm', -⟩ := h.paired z w hm
  -- the marked edge of `z` leads back to `x`, into the orbit of `k`
  obtain ⟨q, hq, hc, hk'⟩ := he.symm.functional he'
  obtain rfl := h.eq_of_same hx (h.found x' k' hm') ⟨q, hq, hc⟩
  have hv : I.SameVertex x k k' := ⟨q, hq, hc, hk'⟩
  exact hk (h.orbit x k k' hm' hv.symm)

/-- When all edges are marked, mutation leads from what counts as found to what counts as found. -/
theorem same_of_mutatesTo (h : L.Paired I) (hall : ∀ y ∈ L.found, ∀ i < y.rank, L.marks y i)
    {b c : ExchangeMatrix} (hto : MutatesTo b k c) (hb : ∃ y ∈ L.found, I.Same b y) :
    ∃ y ∈ L.found, I.Same c y := by
  obtain ⟨y, hy, p, hp, hc⟩ := hb
  obtain ⟨y', w', he, hm', -⟩ := h.paired y _ (hall y hy _ (hc.pivot_lt.mpr hto.pivot))
  exact ⟨y', h.found y' w' hm', he.of_same hp hc hto⟩

/-- When all edges are marked, every reachable matrix counts as one that is found. -/
theorem complete (h : L.Paired I) (hall : ∀ y ∈ L.found, ∀ i < y.rank, L.marks y i)
    {m c : ExchangeMatrix} (hm : m ∈ L.found) (hr : Reaches m c) :
    ∃ y ∈ L.found, I.Same c y := by
  induction hr with
  | refl => exact ⟨m, hm, .refl m⟩
  | step _ hbc ih => exact h.same_of_mutatesTo hall (mutatesTo_of_mutate? hbc) ih

/-- So does every matrix that reaches one that counts as found, although a mutation of the way
there may overflow on the way back. -/
theorem complete_back (h : L.Paired I) (hall : ∀ y ∈ L.found, ∀ i < y.rank, L.marks y i)
    {m c : ExchangeMatrix} (hr : Reaches m c) (hc : ∃ y ∈ L.found, I.Same c y) :
    ∃ y ∈ L.found, I.Same m y := by
  induction hr with
  | refl => exact hc
  | step _ hbc ih => exact ih (h.same_of_mutatesTo hall (mutatesTo_of_mutate? hbc).symm hc)

end Paired

/-! ### Counting marks -/

section Count
open Classical

/-- The number of marks at the vertices below `n`. -/
noncomputable def count (L : Ledger) (n : Nat) : Nat :=
  ((L.found.toFinset ×ˢ Finset.range n).filter fun e => L.marks e.1 e.2).card

theorem count_le (L : Ledger) (n : Nat) : L.count n ≤ n * L.found.length := by
  refine (Finset.card_filter_le _ _).trans ?_
  rw [Finset.card_product, Finset.card_range, Nat.mul_comm]
  exact Nat.mul_le_mul_left _ (List.toFinset_card_le _)

theorem count_le_count_add (L : Ledger) (z : ExchangeMatrix) (n : Nat) :
    L.count n ≤ (L.add z).count n := by
  refine Finset.card_le_card fun e he => ?_
  simp only [Finset.mem_filter, Finset.mem_product, List.mem_toFinset] at he ⊢
  exact ⟨⟨List.mem_append_left _ he.1.1, he.1.2⟩, he.2⟩

/-- Crossing an unmarked edge adds a mark. -/
theorem count_lt_count_cross {n : Nat} (hx : x ∈ L.found) (hk : k < n) (hm : ¬ L.marks x k) :
    L.count n < (L.cross I x k z w).count n := by
  refine Finset.card_lt_card (Finset.ssubset_iff_of_subset (fun e he => ?_) |>.mpr
    ⟨(x, k), ?_, fun h => hm (Finset.mem_filter.mp h).2⟩)
  · rw [Finset.mem_filter] at he ⊢
    exact ⟨he.1, .inl (.inl he.2)⟩
  · simp only [Finset.mem_filter, Finset.mem_product, List.mem_toFinset, Finset.mem_range]
    exact ⟨⟨hx, hk⟩, .inr ⟨rfl, .refl x k⟩⟩

end Count

end Ledger

end MutationFinite
