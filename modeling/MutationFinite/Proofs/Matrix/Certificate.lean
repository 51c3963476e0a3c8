import MutationFinite.Proofs.Mutation.Growth
import MutationFinite.Proofs.Mutation.Invariants

/-!
# Symmetrizable matrices and the certificate

* `MutablySymmetrizable`: positive factors of the rows make the mutable part skew-symmetric;
  `Symmetrizable`: and there are no frozen vertices.
* `SeenHeavy`: a pair of weight at least 5 and a third vertex joined to it.
* `MutablySymmetrizable.certifiesInfinite_iff_tracked`: the certificate is such a triple.
* `exactClass_infinite_of_certifiesInfinite`: a certified matrix has an infinite class.
* `Symmetrizable.exists_mutate?`: an uncertified connected matrix of rank at least 3 has small
  entries, so that no mutation of it overflows.
* `Symmetrizable.mutate?_symm`: a mutation of an uncertified matrix can be undone.
* `Escapes`: a reachable matrix is certified, or overflows.
-/

namespace MutationFinite

open IntegerMatrix (SymmetrizedBy through HeavyPair exactClass)

namespace ExchangeMatrix

/-- Positive factors of the rows make the mutable part skew-symmetric.  The frozen rows and columns
may hold any entries. -/
def MutablySymmetrizable (m : ExchangeMatrix) : Prop := ∃ d, SymmetrizedBy m.rank d m.values

/-- A square matrix that positive factors of its rows make skew-symmetric. -/
structure Symmetrizable (m : ExchangeMatrix) : Prop where
  square : m.rows = m.cols
  factors : ∃ d, SymmetrizedBy m.rank d m.values

/-- The vertices `i` and `j` have a product of entries of absolute value at least 5, and the vertex
`u` is joined to one of them. -/
structure SeenHeavy (m : ExchangeMatrix) (i j u : Nat) : Prop where
  left : i < m.rank
  right : j < m.rank
  third : u < m.rank
  distinct : i ≠ j
  outer_left : u ≠ i
  outer_right : u ≠ j
  weight : 5 ≤ |m.values i j * m.values j i|
  seen : m.values u i ≠ 0 ∨ m.values u j ≠ 0

variable {m m' : ExchangeMatrix} {i j k u x : Nat}

/-! ### Symmetrizable matrices -/

namespace MutablySymmetrizable

theorem values_ne_zero_symm (hm : MutablySymmetrizable m) (hi : i < m.rank) (hj : j < m.rank)
    (h : m.values i j ≠ 0) : m.values j i ≠ 0 := by
  obtain ⟨d, hd⟩ := hm
  exact fun h0 => h ((hd.eq_zero_iff hi hj).mpr h0)

/-- Tracked vertices are joined when either of their two entries says so. -/
theorem joined_iff (hm : MutablySymmetrizable m) :
    m.Joined i j ↔ i < m.trackedRank ∧ j < m.trackedRank ∧ m.values i j ≠ 0 := by
  constructor
  · rintro ⟨hi, hj, harrow⟩
    refine ⟨hi, hj, ?_⟩
    rcases adjacent_iff.mp harrow with h | h
    · exact values_ne_zero_iff.mpr h
    · exact hm.values_ne_zero_symm (hj.trans_le m.trackedRank_le) (hi.trans_le m.trackedRank_le)
        (values_ne_zero_iff.mpr h)
  · rintro ⟨hi, hj, h⟩
    exact joined_of_values hi hj h

/-- Vertices with a heavy product are different and joined. -/
theorem of_weight (hm : MutablySymmetrizable m) (hi : i < m.rank)
    (hweight : 5 ≤ |m.values i j * m.values j i|) : i ≠ j ∧ m.values i j ≠ 0 := by
  obtain ⟨d, hd⟩ := hm
  constructor
  · rintro rfl
    rw [hd.diagonal hi, Int.mul_zero, abs_zero] at hweight
    omega
  · intro h0
    rw [h0, Int.zero_mul, abs_zero] at hweight
    omega

/-- An entry of absolute value at least 5 has a heavy product with the opposite one. -/
theorem weight_of_abs (hm : MutablySymmetrizable m) (hi : i < m.rank) (hj : j < m.rank)
    (h : 5 ≤ |m.values i j|) : 5 ≤ |m.values i j * m.values j i| := by
  have hne : m.values i j ≠ 0 := by
    intro h0
    rw [h0, abs_zero] at h
    omega
  have hpos : 1 ≤ |m.values j i| := Int.one_le_abs (hm.values_ne_zero_symm hi hj hne)
  rw [abs_mul]
  calc 5 ≤ |m.values i j| * 1 := by omega
    _ ≤ |m.values i j| * |m.values j i| := Int.mul_le_mul_of_nonneg_left hpos (abs_nonneg _)

end MutablySymmetrizable

namespace Symmetrizable

theorem mutablePart (hm : Symmetrizable m) : m.MutablySymmetrizable := hm.factors

theorem rows_eq (hm : Symmetrizable m) : m.rows = m.rank := by
  rw [rank, ← hm.square, Nat.min_self]

theorem cols_eq (hm : Symmetrizable m) : m.cols = m.rank := by
  rw [← hm.square, hm.rows_eq]

theorem reaches (hm : Symmetrizable m) (h : Reaches m m') : Symmetrizable m' := by
  obtain ⟨d, hd⟩ := hm.factors
  exact ⟨by rw [h.shape.1, h.shape.2, hm.square], d, h.symmetrizedBy_iff.mpr hd⟩

end Symmetrizable

/-! ### The certificate -/

/-- A chain of arrows that leaves two vertices has an arrow that leaves them. -/
theorem Linked.exists_exit (h : m.Linked i x) (hi : x ≠ i) (hj : x ≠ j) :
    ∃ y u, (y = i ∨ y = j) ∧ m.Joined y u ∧ u ≠ i ∧ u ≠ j := by
  induction h with
  | refl => exact absurd rfl hi
  | @tail y u _ hjoined ih =>
      by_cases hy : y = i ∨ y = j
      · exact ⟨y, u, hy, hjoined, hi, hj⟩
      · rw [not_or] at hy
        exact ih hy.1 hy.2

/-- A seen heavy pair makes the class infinite, whatever else the matrix holds. -/
theorem SeenHeavy.exactClass_infinite (h : SeenHeavy m i j u) (hm : MutablySymmetrizable m) :
    (exactClass m.rank m.values).Infinite := by
  have hne := (hm.of_weight h.left h.weight).2
  obtain ⟨d, hd⟩ := hm
  -- the sign of the entry says which end of the pair is the positive one
  rcases lt_or_gt_of_ne hne with hneg | hpos
  · have hpos : 0 < m.values j i := by
      have := hd.neg.neg_of_pos h.left h.right (Int.neg_pos_of_neg hneg)
      exact Int.neg_neg_iff_pos.mp this
    have hheavy : HeavyPair m.values j i := by
      refine ⟨hpos, hneg, h.weight.trans (le_of_eq ?_)⟩
      rw [abs_mul, abs_of_neg hneg, abs_of_pos hpos, Int.mul_comm]
    exact IntegerMatrix.exactClass_infinite_of_heavy hheavy h.outer_right h.outer_left
      h.distinct.symm h.right h.left h.seen.symm
  · have hneg := hd.neg_of_pos h.left h.right hpos
    have hheavy : HeavyPair m.values i j := by
      refine ⟨hpos, hneg, h.weight.trans (le_of_eq ?_)⟩
      rw [abs_mul, abs_of_neg hneg, abs_of_pos hpos]
    exact IntegerMatrix.exactClass_infinite_of_heavy hheavy h.outer_left h.outer_right h.distinct
      h.left h.right h.seen

namespace MutablySymmetrizable

/-- A heavy pair from which a third vertex can be reached is seen by some vertex. -/
theorem exists_seenHeavy (hm : MutablySymmetrizable m) (hi : i < m.trackedRank)
    (hj : j < m.trackedRank) (hweight : 5 ≤ |m.values i j * m.values j i|)
    (hlinked : m.Linked i x) (hxi : x ≠ i) (hxj : x ≠ j) :
    ∃ u < m.trackedRank, SeenHeavy m i j u := by
  obtain ⟨y, u, hy, hjoined, hui, huj⟩ := hlinked.exists_exit hxi hxj
  obtain ⟨hu, -, hsee⟩ := hm.joined_iff.mp hjoined.symm
  have hi' : i < m.rank := hi.trans_le m.trackedRank_le
  refine ⟨u, hu, hi', hj.trans_le m.trackedRank_le, hu.trans_le m.trackedRank_le,
    (hm.of_weight hi' hweight).1, hui, huj, hweight, ?_⟩
  rcases hy with rfl | rfl
  · exact .inl hsee
  · exact .inr hsee

/-- **The certificate is a heavy pair that a third vertex sees**, all three of them tracked. -/
theorem certifiesInfinite_iff_tracked (hm : MutablySymmetrizable m) :
    m.certifiesInfinite = true ↔
      ∃ i < m.trackedRank, ∃ j < m.trackedRank, ∃ u < m.trackedRank, SeenHeavy m i j u := by
  rw [ExchangeMatrix.certifiesInfinite_iff]
  constructor
  · rintro ⟨i, hi, j, hj, hweight, hcard⟩
    obtain ⟨x, hx, hxi, hxj⟩ := VertexSet.exists_mem_ne_ne hcard i j
    exact ⟨i, hi, j, hj,
      hm.exists_seenHeavy hi hj hweight ((mem_component hi).mp hx) hxi hxj⟩
  · rintro ⟨i, hi, j, hj, u, hu, h⟩
    have hij : m.Joined i j := hm.joined_iff.mpr ⟨hi, hj, (hm.of_weight h.left h.weight).2⟩
    have hiu : m.Linked i u := by
      rcases h.seen with hsee | hsee
      · exact .single (hm.joined_iff.mpr ⟨hu, hi, hsee⟩).symm
      · exact .tail (.single hij) (hm.joined_iff.mpr ⟨hu, hj, hsee⟩).symm
    refine ⟨i, hi, j, hj, h.weight, VertexSet.le_card_iff.mpr ⟨[i, j, u], ?_, ?_, rfl⟩⟩
    · simp [h.distinct, h.outer_left.symm, h.outer_right.symm]
    · intro v hv
      rw [mem_component hi]
      simp only [List.mem_cons, List.not_mem_nil, or_false] at hv
      rcases hv with rfl | rfl | rfl
      · exact .refl
      · exact .single hij
      · exact hiu

/-- When all mutable vertices are tracked, any three will do. -/
theorem certifiesInfinite_iff (hm : MutablySymmetrizable m) (hrank : m.rank ≤ 64) :
    m.certifiesInfinite = true ↔ ∃ i j u, SeenHeavy m i j u := by
  rw [hm.certifiesInfinite_iff_tracked, trackedRank_eq hrank]
  constructor
  · rintro ⟨i, -, j, -, u, -, h⟩
    exact ⟨i, j, u, h⟩
  · rintro ⟨i, j, u, h⟩
    exact ⟨i, h.left, j, h.right, u, h.third, h⟩

end MutablySymmetrizable

/-- **The certificate is sound.**  A certified matrix has an infinite class, whatever its rank, its
components and its frozen rows and columns. -/
theorem exactClass_infinite_of_certifiesInfinite (m : ExchangeMatrix)
    (hm : m.MutablySymmetrizable) (h : m.certifiesInfinite = true) :
    (exactClass m.rank m.values).Infinite := by
  obtain ⟨i, -, j, -, u, -, hseen⟩ := hm.certifiesInfinite_iff_tracked.mp h
  exact hseen.exactClass_infinite hm

/-- Vertices 0 to 2 with a pair of weight 5 among them, vertex 3 on its own, and a frozen row that
sees vertices of both components. -/
def framedHeavyPair : ExchangeMatrix :=
  .ofFn 5 4 fun i j =>
    let rows : List (List Int) :=
      [[0, 1, 0, 0], [-5, 0, 1, 0], [0, -1, 0, 0], [0, 0, 0, 0], [2, 0, -3, 7]]
    .ofInt ((rows.getD i []).getD j 0)

/-- The factors 5, 1, 1, 1 make the mutable part skew-symmetric. -/
theorem exactClass_framedHeavyPair : framedHeavyPair.MutablySymmetrizable ∧
    framedHeavyPair.certifiesInfinite = true ∧
    (exactClass 4 framedHeavyPair.values).Infinite := by
  have hm : framedHeavyPair.MutablySymmetrizable :=
    ⟨fun i => if i = 0 then 5 else 1, by decide, by decide⟩
  have hcert : framedHeavyPair.certifiesInfinite = true := by decide
  exact ⟨hm, hcert, exactClass_infinite_of_certifiesInfinite framedHeavyPair hm hcert⟩

/-! ### Connected matrices -/

/-- All mutable vertices are linked. -/
def Connected (m : ExchangeMatrix) : Prop := ∀ i < m.rank, ∀ j < m.rank, m.Linked i j

theorem Connected.reaches (h : m.Connected) (hr : Reaches m m') (hrank : m.rank ≤ 64) :
    m'.Connected := by
  intro i hi j hj
  rw [hr.shape.rank_eq] at hi hj
  exact (hr.linked_iff hrank).mpr (h i hi j hj)

/-- The entries of an uncertified connected matrix of rank at least 3 are small. -/
theorem Symmetrizable.abs_values_le (hm : Symmetrizable m) (hrank : m.rank ≤ 64)
    (hthree : 3 ≤ m.rank) (hconn : m.Connected) (hcert : m.certifiesInfinite = false) (i j : Nat) :
    |m.values i j| ≤ 4 := by
  by_contra hbig
  have hbig : 5 ≤ |m.values i j| := by omega
  have hij : i < m.rank ∧ j < m.rank := by
    by_contra hout
    rw [m.values_eq_zero (by rw [hm.rows_eq, hm.cols_eq]; omega), abs_zero] at hbig
    omega
  -- one of the first three vertices is neither `i` nor `j`
  have hthird : ∃ x < m.rank, x ≠ i ∧ x ≠ j := by
    by_contra hno
    push Not at hno
    have := hno 0 (by omega)
    have := hno 1 (by omega)
    have := hno 2 (by omega)
    omega
  obtain ⟨x, hx, hxi, hxj⟩ := hthird
  have htracked := trackedRank_eq hrank
  obtain ⟨u, -, hu⟩ := hm.mutablePart.exists_seenHeavy (htracked ▸ hij.1) (htracked ▸ hij.2)
    (hm.mutablePart.weight_of_abs hij.1 hij.2 hbig) (hconn i hij.1 x hx) hxi hxj
  rw [(hm.mutablePart.certifiesInfinite_iff hrank).mpr ⟨i, j, u, hu⟩] at hcert
  cases hcert

/-! ### Mutations that are defined -/

/-- The mutated cells of a matrix with small entries are defined. -/
theorem exists_mutatedCell?_of_abs_le (hsmall : ∀ i j, |m.values i j| ≤ 4) (k i j : Nat) :
    ∃ e, m.mutatedCell? k i j = some e := by
  have hij := abs_le.mp (hsmall i j)
  unfold mutatedCell?
  split
  · have hrange : Entry.InRange (-m.values i j) := by
      constructor <;> omega
    obtain ⟨e, he⟩ := Entry.exists_val_eq.mpr hrange
    exact ⟨e, Entry.neg?_eq_some.mpr he⟩
  · have hprod : |m.values i k| * |m.values k j| ≤ 4 * 4 :=
      Int.mul_le_mul (hsmall i k) (hsmall k j) (abs_nonneg _) (by decide)
    have hthrough := abs_le.mp ((IntegerMatrix.abs_through_le _ _).trans hprod)
    have hrange : Entry.InRange (m.values i j + through (m.values i k) (m.values k j)) := by
      constructor <;> omega
    obtain ⟨e, he⟩ := Entry.exists_val_eq.mpr hrange
    exact ⟨e, Entry.mutated?_eq_some_iff.mpr
      ⟨Entry.fits_of_abs_le (hsmall i k) (hsmall k j), he⟩⟩

/-- A matrix with small entries can be mutated. -/
theorem exists_mutate?_of_abs_le (hsmall : ∀ i j, |m.values i j| ≤ 4) (hk : k < m.rank) :
    ∃ m', m.mutate? k = .ok m' := by
  cases hm : m.mutate? k with
  | ok m' => exact ⟨m', rfl⟩
  | error e =>
      obtain ⟨-, i, -, j, -, hnone⟩ := (mutate?_eq_error_iff hk).mp hm
      obtain ⟨e', he'⟩ := exists_mutatedCell?_of_abs_le hsmall k i j
      rw [hnone] at he'
      cases he'

namespace Symmetrizable

/-- An uncertified connected matrix of rank at least 3 can be mutated. -/
theorem exists_mutate? (hm : Symmetrizable m) (hrank : m.rank ≤ 64) (hthree : 3 ≤ m.rank)
    (hconn : m.Connected) (hcert : m.certifiesInfinite = false) (hk : k < m.rank) :
    ∃ m', m.mutate? k = .ok m' :=
  exists_mutate?_of_abs_le (hm.abs_values_le hrank hthree hconn hcert) hk

theorem opposite (hm : Symmetrizable m) (hi : i < m.rank) (hj : j < m.rank) :
    0 ≤ m.values i j ∧ m.values j i ≤ 0 ∨ m.values i j ≤ 0 ∧ 0 ≤ m.values j i := by
  obtain ⟨d, hd⟩ := hm.factors
  rcases lt_trichotomy (m.values i j) 0 with hneg | hzero | hpos
  · have := hd.neg.neg_of_pos hi hj (Int.neg_pos_of_neg hneg)
    exact .inr ⟨hneg.le, (Int.neg_neg_iff_pos.mp this).le⟩
  · exact .inl ⟨hzero.ge, ((hd.eq_zero_iff hi hj).mp hzero).le⟩
  · exact .inl ⟨hpos.le, (hd.neg_of_pos hi hj hpos).le⟩

/-- Weights through a pivot that both lie on arrows of an uncertified matrix are small. -/
theorem abs_le_of_chain (hm : Symmetrizable m) (hrank : m.rank ≤ 64)
    (hcert : m.certifiesInfinite = false) (hi : i < m.rank) (hj : j < m.rank) (hk : k < m.rank)
    (hik : i ≠ k) (hjk : j ≠ k) (hij : i ≠ j) (hx : m.values i k ≠ 0) (hy : m.values k j ≠ 0) :
    |m.values i k| ≤ 4 ∧ |m.values k j| ≤ 4 := by
  have hnone : ∀ {v w u}, ¬ SeenHeavy m v w u := by
    intro v w u h
    rw [(hm.mutablePart.certifiesInfinite_iff hrank).mpr ⟨v, w, u, h⟩] at hcert
    cases hcert
  constructor
  · by_contra hbig
    exact hnone (v := i) (w := k) (u := j) ⟨hi, hk, hj, hik, hij.symm, hjk,
      hm.mutablePart.weight_of_abs hi hk (by omega),
      .inr (hm.mutablePart.values_ne_zero_symm hk hj hy)⟩
  · by_contra hbig
    exact hnone (v := k) (w := j) (u := i) ⟨hk, hj, hi, hjk.symm, hik, hij,
      hm.mutablePart.weight_of_abs hk hj (by omega), .inl hx⟩

/-- What fits on the way there fits on the way back, with the arrows of the pivot turned around.
Weights that overflow in one direction only are great, and would make a heavy pair. -/
theorem fits_back (hm : Symmetrizable m) (hrank : m.rank ≤ 64)
    (hcert : m.certifiesInfinite = false) (hi : i < m.rank) (hj : j < m.rank) (hk : k < m.rank)
    (hik : i ≠ k) (hjk : j ≠ k) (hfits : Entry.Fits (m.values i k) (m.values k j)) :
    Entry.Fits (-m.values i k) (-m.values k j) := by
  -- on the diagonal, and where an arrow is missing, nothing passes through the pivot
  by_cases hij : i = j
  · subst hij
    exact hfits.neg_of_opposite (hm.opposite hi hk)
  by_cases hx : m.values i k = 0
  · refine hfits.neg_of_opposite ?_
    omega
  by_cases hy : m.values k j = 0
  · refine hfits.neg_of_opposite ?_
    omega
  obtain ⟨hsx, hsy⟩ := hm.abs_le_of_chain hrank hcert hi hj hk hik hjk hij hx hy
  exact Entry.fits_of_abs_le (by rwa [abs_neg]) (by rwa [abs_neg])

/-- **A mutation of an uncertified matrix can be undone.** -/
theorem mutate?_symm (hm : Symmetrizable m) (hrank : m.rank ≤ 64)
    (hcert : m.certifiesInfinite = false) (h : m.mutate? k = .ok m') : m'.mutate? k = .ok m := by
  have hto := mutatesTo_of_mutate? h
  obtain ⟨hk, hshape, hcells⟩ := mutate?_eq_ok_iff.mp h
  refine mutate?_eq_ok_iff.mpr ⟨hto.symm.pivot, hshape.symm, fun i hi j hj => ?_⟩
  rw [hshape.1] at hi
  rw [hshape.2] at hj
  have hcell := hcells i hi j hj
  have hval : m.values i j = m'.values.mutate k i j := by rw [← hto.symm.values]
  rw [hm.rows_eq] at hi
  rw [hm.cols_eq] at hj
  unfold mutatedCell? at hcell ⊢
  by_cases hp : i = k ∨ j = k
  · rw [if_pos hp]
    rw [IntegerMatrix.mutate, if_pos hp] at hval
    exact Entry.neg?_eq_some.mpr hval
  · rw [if_neg hp] at hcell ⊢
    rw [not_or] at hp
    rw [IntegerMatrix.mutate_of_ne _ hp.1 hp.2] at hval
    refine Entry.mutated?_eq_some_iff.mpr ⟨?_, hval⟩
    have hfits := (Entry.mutated?_eq_some_iff.mp hcell).1
    change Entry.Fits (m'.values i k) (m'.values k j)
    rw [hto.values, IntegerMatrix.mutate_pivot_col, IntegerMatrix.mutate_pivot_row]
    exact hm.fits_back hrank hcert hi hj hk hp.1 hp.2 hfits

end Symmetrizable

/-! ### Escape -/

/-- Some reachable matrix certifies infinite type, or has a mutation that overflows. -/
def Escapes (m : ExchangeMatrix) : Prop :=
  ∃ x ∈ m.mutationClass, x.certifiesInfinite = true ∨
    ∃ k < x.rank, x.mutate? k = .error (.entryOverflow k)

theorem Escapes.of_reaches (hr : Reaches m m') (h : m'.Escapes) : m.Escapes := by
  obtain ⟨x, hx, hescape⟩ := h
  exact ⟨x, hr.trans hx, hescape⟩

end ExchangeMatrix

end MutationFinite
