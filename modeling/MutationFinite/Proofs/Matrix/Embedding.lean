import MutationFinite.Proofs.Matrix.Certificate
import MutationFinite.Proofs.Relabelling.Action

/-!
# Quivers inside quivers

The quiver on some of the vertices of a quiver, with all arrows between them, in any order.  Its
mutations are those of the large quiver at these vertices, so that it escapes only where the large
quiver does, and reaches no more matrices.

* `Embeds`: the vertices of a square matrix are vertices of another one.
* `Embeds.mutate?`, `Embeds.reaches`: mutations lift to the large quiver.
* `Embeds.not_escapes`, `Embeds.encard_mutationClass_le`: what the small quiver inherits.
* `Embeds.same`: two quivers on the same vertices of a third one differ by a relabelling.
-/

namespace MutationFinite

open IntegerMatrix (SymmetrizedBy)

namespace ExchangeMatrix

variable {a b c x y m : ExchangeMatrix} {f g : Nat → Nat} {i j k u : Nat} {p : Permutation}

theorem rows_eq_rank (hm : m.rows = m.cols) : m.rows = m.rank := by
  rw [rank, ← hm, Nat.min_self]

theorem cols_eq_rank (hm : m.rows = m.cols) : m.cols = m.rank := by
  rw [← hm, rows_eq_rank hm]

/-- The square matrices `a` and `b` stand for quivers, and `f` sends the vertices of `a` to
different vertices of `b` that have the same arrows between them. -/
structure Embeds (f : Nat → Nat) (a b : ExchangeMatrix) : Prop where
  square : a.rows = a.cols
  squareOuter : b.rows = b.cols
  lt : ∀ i < a.rank, f i < b.rank
  inj : ∀ i < a.rank, ∀ j < a.rank, f i = f j → i = j
  cells : ∀ i < a.rank, ∀ j < a.rank, b.cell (f i) (f j) = a.cell i j

/-- The matrix of the quiver on the vertices `f 0`, …, `f (n - 1)` of `m`. -/
def restrict (f : Nat → Nat) (n : Nat) (m : ExchangeMatrix) : ExchangeMatrix :=
  ofFn n n fun i j => m.cell (f i) (f j)

@[simp] theorem rank_restrict (f : Nat → Nat) (n : Nat) (m : ExchangeMatrix) :
    (restrict f n m).rank = n := Nat.min_self n

theorem cell_restrict {n : Nat} (hi : i < n) (hj : j < n) :
    (restrict f n m).cell i j = m.cell (f i) (f j) := by
  rw [restrict, cell_ofFn, if_pos ⟨hi, hj⟩]

theorem embeds_restrict {n : Nat} (hm : m.rows = m.cols) (hlt : ∀ i < n, f i < m.rank)
    (hinj : ∀ i < n, ∀ j < n, f i = f j → i = j) : Embeds f (restrict f n m) m := by
  refine ⟨rfl, hm, ?_, ?_, ?_⟩ <;> rw [rank_restrict]
  · exact hlt
  · exact hinj
  · exact fun i hi j hj => (cell_restrict hi hj).symm

theorem embeds_id (hm : m.rows = m.cols) : Embeds id m m :=
  ⟨hm, hm, fun _ hi => hi, fun _ _ _ _ h => h, fun _ _ _ _ => rfl⟩

theorem Carries.embeds (h : Carries p a b) (ha : a.rows = a.cols) : Embeds p.apply a b where
  square := ha
  squareOuter := by rw [← h.shape.1, ← h.shape.2, ha]
  lt _ hi := h.pivot_lt.mpr hi
  inj _ _ _ _ he := p.apply_injective he
  cells i _ j _ := h.cells i j

namespace Embeds

theorem comp (h : Embeds f a b) (h' : Embeds g b c) : Embeds (g ∘ f) a c where
  square := h.square
  squareOuter := h'.squareOuter
  lt i hi := h'.lt _ (h.lt i hi)
  inj i hi j hj he := h.inj i hi j hj (h'.inj _ (h.lt i hi) _ (h.lt j hj) he)
  cells i hi j hj := (h'.cells _ (h.lt i hi) _ (h.lt j hj)).trans (h.cells i hi j hj)

theorem values (h : Embeds f a b) (hi : i < a.rank) (hj : j < a.rank) :
    b.values (f i) (f j) = a.values i j :=
  congrArg Entry.val (h.cells i hi j hj)

theorem rank_le (h : Embeds f a b) : a.rank ≤ b.rank := by
  have hcard := Finset.card_le_card_of_injOn (s := Finset.range a.rank)
    (t := Finset.range b.rank) f (fun i hi => Finset.mem_coe.mpr (Finset.mem_range.mpr
      (h.lt i (Finset.mem_range.mp hi)))) fun i hi j hj he =>
      h.inj i (Finset.mem_range.mp hi) j (Finset.mem_range.mp hj) he
  rwa [Finset.card_range, Finset.card_range] at hcard

/-- The small quiver is read off the large one. -/
theorem eq_restrict (h : Embeds f a b) : a = restrict f a.rank b := by
  refine ext_cell (rows_eq_rank h.square) (cols_eq_rank h.square) fun i hi j hj => ?_
  rw [rows_eq_rank h.square] at hi
  rw [cols_eq_rank h.square] at hj
  rw [cell_restrict hi hj, h.cells i hi j hj]

theorem symmetrizable (h : Embeds f a b) (hb : Symmetrizable b) : Symmetrizable a := by
  obtain ⟨d, hd⟩ := hb.factors
  refine ⟨h.square, d ∘ f, fun i hi => hd.pos _ (h.lt i hi), fun i hi j hj => ?_⟩
  rw [← h.values hi hj, ← h.values hj hi]
  exact hd.skew _ (h.lt i hi) _ (h.lt j hj)

theorem seenHeavy (h : Embeds f a b) (hs : SeenHeavy a i j u) :
    SeenHeavy b (f i) (f j) (f u) where
  left := h.lt i hs.left
  right := h.lt j hs.right
  third := h.lt u hs.third
  distinct he := hs.distinct (h.inj i hs.left j hs.right he)
  outer_left he := hs.outer_left (h.inj u hs.third i hs.left he)
  outer_right he := hs.outer_right (h.inj u hs.third j hs.right he)
  weight := by
    rw [h.values hs.left hs.right, h.values hs.right hs.left]
    exact hs.weight
  seen := by
    rw [h.values hs.third hs.left, h.values hs.third hs.right]
    exact hs.seen

/-! ### Mutations -/

/-- **A mutation of the large quiver is one of the small quiver.** -/
theorem mutate? {b' : ExchangeMatrix} (h : Embeds f a b) (hk : k < a.rank)
    (hto : b.mutate? (f k) = .ok b') : ∃ a', a.mutate? k = .ok a' ∧ Embeds f a' b' := by
  have hshape := (mutatesTo_of_mutate? hto).shape
  have hb' : b'.rows = b'.cols := by rw [hshape.1, hshape.2, h.squareOuter]
  have hselects : Selects f f a.rank a.rank b k (f k) :=
    { row_lt := fun i hi => rows_eq_rank h.squareOuter ▸ h.lt i hi
      col_lt := fun j hj => cols_eq_rank h.squareOuter ▸ h.lt j hj
      row_eq_iff := fun i hi => ⟨h.inj i hi k hk, congrArg f⟩
      col_eq_iff := fun j hj => ⟨h.inj j hj k hk, congrArg f⟩
      pivot_row := hk
      pivot_col := hk }
  refine ⟨restrict f a.rank b', ?_, embeds_restrict hb' (hshape.rank_eq ▸ h.lt) h.inj⟩
  exact (congrArg (·.mutate? k) h.eq_restrict).trans (hselects.mutate? hto)

end Embeds

/-- All mutations of what a matrix reaches are defined, if it does not escape. -/
theorem exists_mutate?_of_not_escapes (hesc : ¬ b.Escapes) (hr : Reaches b y) (hk : k < y.rank) :
    ∃ y', y.mutate? k = .ok y' := by
  cases hto : y.mutate? k with
  | ok y' => exact ⟨y', rfl⟩
  | error e =>
      obtain ⟨rfl, -⟩ := (mutate?_eq_error_iff hk).mp hto
      exact absurd ⟨y, hr, .inr ⟨k, hk, hto⟩⟩ hesc

namespace Embeds

/-- **Mutations of the small quiver lift to the large one**, if that does not escape. -/
theorem reaches (h : Embeds f a b) (hesc : ¬ b.Escapes) (hr : Reaches a x) :
    ∃ y, Reaches b y ∧ Embeds f x y := by
  induction hr with
  | refl => exact ⟨b, .refl b, h⟩
  | @step x x' k _ hto ih =>
      obtain ⟨y, hy, hxy⟩ := ih
      have hk : k < x.rank := (mutatesTo_of_mutate? hto).pivot
      obtain ⟨y', hto'⟩ := exists_mutate?_of_not_escapes hesc hy (hxy.lt k hk)
      obtain ⟨x'', hto'', hxy'⟩ := hxy.mutate? hk hto'
      obtain rfl : x' = x'' := Except.ok.inj (hto.symm.trans hto'')
      exact ⟨y', .step hy hto', hxy'⟩

/-- **The small quiver does not escape if the large one does not.** -/
theorem not_escapes (h : Embeds f a b) (hb : Symmetrizable b) (hrank : b.rank ≤ 64)
    (hesc : ¬ b.Escapes) : ¬ a.Escapes := by
  rintro ⟨x, hx, hescape⟩
  obtain ⟨y, hy, hxy⟩ := h.reaches hesc hx
  rcases hescape with hcert | ⟨k, hk, hover⟩
  · have hyrank : y.rank ≤ 64 := hy.shape.rank_eq.trans_le hrank
    obtain ⟨i, j, u, hseen⟩ := (((h.symmetrizable hb).reaches hx).mutablePart.certifiesInfinite_iff
      (hxy.rank_le.trans hyrank)).mp hcert
    exact hesc ⟨y, hy, .inl (((hb.reaches hy).mutablePart.certifiesInfinite_iff hyrank).mpr
      ⟨_, _, _, hxy.seenHeavy hseen⟩)⟩
  · obtain ⟨y', hto⟩ := exists_mutate?_of_not_escapes hesc hy (hxy.lt k hk)
    obtain ⟨x', hto', -⟩ := hxy.mutate? hk hto
    cases hover.symm.trans hto'

/-- **The small quiver reaches no more matrices than the large one**, if that does not escape. -/
theorem encard_mutationClass_le (h : Embeds f a b) (hesc : ¬ b.Escapes) :
    a.mutationClass.encard ≤ b.mutationClass.encard := by
  have hsub : a.mutationClass ⊆ restrict f a.rank '' b.mutationClass := by
    intro x hx
    obtain ⟨y, hy, hxy⟩ := h.reaches hesc hx
    refine ⟨y, hy, ?_⟩
    rw [← (show x.rank = a.rank from (Reaches.shape hx).rank_eq)]
    exact hxy.eq_restrict.symm
  exact (Set.encard_le_encard hsub).trans (Set.encard_image_le _ _)

end Embeds

/-! ### Quivers on the same vertices -/

/-- A function that sends the numbers below `n` to different numbers below `n` permutes them. -/
theorem exists_permutation {n : Nat} (hlt : ∀ i < n, f i < n)
    (hinj : ∀ i < n, ∀ j < n, f i = f j → i = j) :
    ∃ p : Permutation, p.size = n ∧ ∀ i < n, p.apply i = f i := by
  have harrangement : IsArrangement (Array.ofFn fun i : Fin n => f i) := by
    constructor
    · rw [Array.toList_ofFn, List.nodup_ofFn]
      exact fun i j h => Fin.ext (hinj i i.isLt j j.isLt h)
    · intro v hv
      rw [Array.toList_ofFn, List.mem_ofFn] at hv
      obtain ⟨i, rfl⟩ := hv
      rw [Array.size_ofFn]
      exact hlt i i.isLt
  refine ⟨⟨_, harrangement⟩, Array.size_ofFn, fun i hi => ?_⟩
  simp [Permutation.apply, Array.getD, hi]

/-- A quiver whose vertices are among those of another one embeds in it. -/
theorem Embeds.factor (h : Embeds f a c) (h' : Embeds g b c)
    (hsub : ∀ i < a.rank, ∃ j < b.rank, g j = f i) : ∃ q, Embeds q a b := by
  have htotal : ∀ i, ∃ j, i < a.rank → j < b.rank ∧ g j = f i := by
    intro i
    by_cases hi : i < a.rank
    · obtain ⟨j, hj, he⟩ := hsub i hi
      exact ⟨j, fun _ => ⟨hj, he⟩⟩
    · exact ⟨0, fun h => absurd h hi⟩
  choose q hq using htotal
  refine ⟨q, h.square, h'.square, fun i hi => (hq i hi).1, fun i hi j hj he => ?_,
    fun i hi j hj => ?_⟩
  · exact h.inj i hi j hj (by rw [← (hq i hi).2, ← (hq j hj).2, he])
  · rw [← h'.cells _ (hq i hi).1 _ (hq j hj).1, (hq i hi).2, (hq j hj).2, h.cells i hi j hj]

/-- An embedding of a quiver in one with as many vertices is a relabelling. -/
theorem Embeds.same_of_rank_eq (h : Embeds f a b) (hrank : a.rank = b.rank) :
    Identification.relabelling.Same a b := by
  obtain ⟨p, hp, happly⟩ := exists_permutation (hrank ▸ h.lt) h.inj
  have hshape : SameShape a b := by
    refine ⟨?_, ?_⟩
    · rw [rows_eq_rank h.square, rows_eq_rank h.squareOuter, hrank]
    · rw [cols_eq_rank h.square, cols_eq_rank h.squareOuter, hrank]
  refine ⟨p, trivial, carries_of_inside hshape hp fun i hi j hj => ?_⟩
  rw [rows_eq_rank h.square] at hi
  rw [cols_eq_rank h.square] at hj
  rw [happly i hi, happly j hj, h.cells i hi j hj]

/-- **Two quivers on the same vertices of a third one differ by a relabelling.** -/
theorem Embeds.same (h : Embeds f a c) (h' : Embeds g b c)
    (himage : ∀ v, (∃ i < a.rank, f i = v) ↔ ∃ j < b.rank, g j = v) :
    Identification.relabelling.Same a b := by
  obtain ⟨q, hq⟩ := h.factor h' fun i hi => (himage (f i)).mp ⟨i, hi, rfl⟩
  obtain ⟨q', hq'⟩ := h'.factor h fun j hj => (himage (g j)).mpr ⟨j, hj, rfl⟩
  exact hq.same_of_rank_eq (Nat.le_antisymm hq.rank_le hq'.rank_le)

end ExchangeMatrix

end MutationFinite
