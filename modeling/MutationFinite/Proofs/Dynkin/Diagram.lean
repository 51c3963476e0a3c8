import MutationFinite.Proofs.Dynkin.Recognition
import MutationFinite.Proofs.Mutation.Involution

/-!
# Matrices of diagrams

The matrix of a diagram is drawn arrow by arrow.  Drawing an arrow of weight 1 between two vertices
keeps a matrix skew-symmetric, and vertices that are joined stay joined.

* `cell_setCell`: replacing a cell changes that cell only.
* `Draws`: what drawing one arrow does to a matrix.
* `IsDiagram`: the arrows of a diagram are drawn; `isDiagram_of_matrix` says that its matrix has
  them.
* `IsDiagram.connected`: a diagram is connected.
-/

namespace MutationFinite

namespace ExchangeMatrix

variable {m m' : ExchangeMatrix} {i j a b : Nat} {e : Entry}

/-- Different cells are at different positions. -/
theorem pos_eq_iff {cols : Nat} (hb : b < cols) (hj : j < cols) :
    a * cols + b = i * cols + j ↔ a = i ∧ b = j := by
  constructor
  · intro h
    have hdiv := congrArg (· / cols) h
    have hmod := congrArg (· % cols) h
    have hcols : 0 < cols := by omega
    simp only [Nat.mul_comm _ cols, Nat.mul_add_div hcols, Nat.mul_add_mod, Nat.div_eq_of_lt hb,
      Nat.div_eq_of_lt hj, Nat.mod_eq_of_lt hb, Nat.mod_eq_of_lt hj] at hdiv hmod
    omega
  · rintro ⟨rfl, rfl⟩
    rfl

/-- Replacing a cell changes that cell only. -/
theorem cell_setCell (hi : i < m.rows) (hj : j < m.cols) (e : Entry) (a b : Nat) :
    (m.setCell i j e).cell a b = if a = i ∧ b = j then e else m.cell a b := by
  have hpos : i * m.cols + j < m.entries.size := m.size_entries ▸ pos_lt_size hi hj
  by_cases hb : b < m.cols
  · simp only [cell, setCell, hb, if_true, Array.getD_eq_getD_getElem?,
      Array.getElem?_setIfInBounds, ← pos_eq_iff hb hj, eq_comm (a := a * m.cols + b), hpos]
    split <;> rfl
  · have hne : ¬ (a = i ∧ b = j) := by
      rintro ⟨-, rfl⟩
      exact hb hj
    rw [if_neg hne]
    simp only [cell, setCell, hb, if_false]

/-- What drawing an arrow of weight 1 from `i` to `j` does to a matrix. -/
structure Draws (m : ExchangeMatrix) (i j : Nat) (m' : ExchangeMatrix) : Prop where
  shape : SameShape m' m
  left : i < m.rank
  right : j < m.rank
  cells : ∀ a b, m'.cell a b =
    if a = j ∧ b = i then Entry.neg 1 else if a = i ∧ b = j then 1 else m.cell a b

theorem draws_of_withArrow (h : m.withArrow i j 1 = .ok m') : Draws m i j m' := by
  unfold withArrow at h
  split_ifs at h with hi hj
  obtain rfl := Except.ok.inj h
  rw [Nat.not_le] at hi hj
  have hrows : m.rank ≤ m.rows := Nat.min_le_left _ _
  have hcols : m.rank ≤ m.cols := Nat.min_le_right _ _
  refine ⟨⟨rfl, rfl⟩, hi, hj, fun a b => ?_⟩
  rw [cell_setCell (m := m.setCell i j 1) (hj.trans_le hrows) (hi.trans_le hcols),
    cell_setCell (hi.trans_le hrows) (hj.trans_le hcols)]

namespace Draws

/-- The arrow is there. -/
theorem adjacent (h : Draws m i j m') : m'.adjacent i j = true := by
  rw [adjacent_iff, h.cells j i, if_pos ⟨rfl, rfl⟩]
  exact .inr (by decide)

theorem cell_ne_zero (h : Draws m i j m') (hne : m.cell a b ≠ 0) : m'.cell a b ≠ 0 := by
  rw [h.cells]
  split
  · decide
  · split
    · decide
    · exact hne

/-- Joined vertices stay joined. -/
theorem adjacent_mono (h : Draws m i j m') (hab : m.adjacent a b = true) :
    m'.adjacent a b = true :=
  adjacent_iff.mpr ((adjacent_iff.mp hab).imp h.cell_ne_zero h.cell_ne_zero)

/-- The two cells of an arrow between two vertices are opposite. -/
theorem skewSymmetric (h : Draws m i j m') (hij : i ≠ j) (hskew : m.SkewSymmetric) :
    m'.SkewSymmetric := by
  intro a ha b hb
  rw [h.shape.rank_eq] at ha hb
  have hab := hskew a ha b hb
  simp only [values, h.cells] at hab ⊢
  by_cases hback : a = j ∧ b = i
  · obtain ⟨rfl, rfl⟩ := hback
    rw [if_pos ⟨rfl, rfl⟩, if_neg fun h => hij h.1, if_pos ⟨rfl, rfl⟩]
    decide
  · by_cases hthere : a = i ∧ b = j
    · obtain ⟨rfl, rfl⟩ := hthere
      rw [if_neg hback, if_pos ⟨rfl, rfl⟩, if_pos ⟨rfl, rfl⟩]
      decide
    · rw [if_neg hback, if_neg hthere, if_neg fun h => hthere h.symm, if_neg fun h => hback h.symm]
      exact hab

end Draws

theorem skewSymmetric_zeros (n : Nat) : (zeros n n).SkewSymmetric := by
  have hzero : ∀ a b, (zeros n n).cell a b = 0 := by
    intro a b
    simp only [cell, zeros, Array.getD_eq_getD_getElem?, Array.getElem?_replicate]
    split
    · split <;> rfl
    · rfl
  intro i _ j _
  rw [values, values, hzero, hzero]
  rfl

end ExchangeMatrix

open ExchangeMatrix

namespace DynkinType

variable {t : DynkinType} {n k v : Nat} {m d : ExchangeMatrix}

/-- The arrows of the diagram are drawn: those of its path, and the one at its fork. -/
structure IsDiagram (t : DynkinType) (d : ExchangeMatrix) : Prop where
  valid : t.isValid = true
  shape : SameShape d (.zeros t.rank t.rank)
  skew : d.SkewSymmetric
  path : ∀ i, i + 1 < t.spine → d.adjacent i (i + 1) = true
  fork : ∀ v, t.fork? = some v → d.adjacent v (t.rank - 1) = true

/-- The first arrows of a path. -/
theorem path_spec (hpath : (List.range k).foldlM (fun m i => m.withArrow i (i + 1) 1)
      (ExchangeMatrix.zeros n n) = .ok m) :
    SameShape m (.zeros n n) ∧ m.SkewSymmetric ∧ ∀ i < k, m.adjacent i (i + 1) = true := by
  induction k generalizing m with
  | zero =>
      obtain rfl := Except.ok.inj hpath
      exact ⟨⟨rfl, rfl⟩, skewSymmetric_zeros n, nofun⟩
  | succ k ih =>
      rw [List.range_succ, List.foldlM_append] at hpath
      cases hfirst : (List.range k).foldlM (fun m i => m.withArrow i (i + 1) 1)
        (ExchangeMatrix.zeros n n) with
      | error e =>
          rw [hfirst] at hpath
          cases hpath
      | ok m₀ =>
          rw [hfirst] at hpath
          obtain ⟨hshape, hskew, harrows⟩ := ih hfirst
          have hlast : (m₀.withArrow k (k + 1) 1 >>= pure) = .ok m := hpath
          rw [bind_pure] at hlast
          have hdraws := draws_of_withArrow hlast
          refine ⟨hdraws.shape.trans hshape,
            hdraws.skewSymmetric (Nat.ne_of_lt k.lt_succ_self) hskew, fun i hi => ?_⟩
          rcases Nat.lt_succ_iff_lt_or_eq.mp hi with hi | rfl
          · exact hdraws.adjacent_mono (harrows i hi)
          · exact hdraws.adjacent

/-- The fork of a diagram that exists is on the path, and the last vertex is not. -/
theorem fork_lt_spine (h : t.isValid = true) (hv : t.fork? = some v) :
    v < t.spine ∧ t.rank - 1 = t.spine := by
  cases t with
  | a n => cases hv
  | d n =>
      obtain rfl := Option.some.inj hv
      have hn : 4 ≤ n := of_decide_eq_true h
      exact ⟨show n - 3 < n - 1 by omega, rfl⟩
  | e n =>
      obtain rfl := Option.some.inj hv
      have hn : 6 ≤ n ∧ n ≤ 8 := of_decide_eq_true h
      exact ⟨show 2 < n - 1 by omega, rfl⟩

/-- The path first, and the arrow at the fork if there is one. -/
theorem matrix_eq (h : t.isValid = true) : t.matrix =
    (List.range (t.spine - 1)).foldlM (fun m i => m.withArrow i (i + 1) 1)
      (ExchangeMatrix.zeros t.rank t.rank) >>= fun path =>
        t.fork?.elim (.ok path) fun v => path.withArrow v (t.rank - 1) 1 := by
  simp only [matrix, h, Bool.not_true, Bool.false_eq_true, if_false]
  refine congrArg _ (funext fun path => ?_)
  cases t.fork? <;> rfl

theorem isValid_of_matrix (h : t.matrix = .ok d) : t.isValid = true := by
  by_contra hinvalid
  rw [Bool.not_eq_true] at hinvalid
  rw [matrix, hinvalid] at h
  cases h

/-- **The matrix of a diagram has its arrows.** -/
theorem isDiagram_of_matrix (h : t.matrix = .ok d) : IsDiagram t d := by
  have hvalid := isValid_of_matrix h
  rw [matrix_eq hvalid] at h
  cases hpath : (List.range (t.spine - 1)).foldlM (fun m i => m.withArrow i (i + 1) 1)
    (ExchangeMatrix.zeros t.rank t.rank) with
  | error e =>
      rw [hpath] at h
      cases h
  | ok path =>
      rw [hpath] at h
      obtain ⟨hshape, hskew, harrows⟩ := path_spec hpath
      cases hfork : t.fork? with
      | none =>
          rw [hfork] at h
          obtain rfl := Except.ok.inj h
          exact ⟨hvalid, hshape, hskew, fun i hi => harrows i (by omega),
            fun v hv => nomatch hfork.symm.trans hv⟩
      | some u =>
          rw [hfork] at h
          have hdraws := draws_of_withArrow h
          obtain ⟨hlt, heq⟩ := fork_lt_spine hvalid hfork
          refine ⟨hvalid, hdraws.shape.trans hshape, hdraws.skewSymmetric (by omega) hskew,
            fun i hi => hdraws.adjacent_mono (harrows i (by omega)), fun v hv => ?_⟩
          obtain rfl := Option.some.inj (hfork.symm.trans hv)
          exact hdraws.adjacent

namespace IsDiagram

theorem rank_eq (h : IsDiagram t d) : d.rank = t.rank := h.shape.rank_eq.trans (Nat.min_self _)

theorem isSquare (h : IsDiagram t d) : d.isSquare = true :=
  beq_iff_eq.mpr (h.shape.1.trans h.shape.2.symm)

/-- The vertices off the path: there is none, or there is a fork and it is the last one. -/
theorem fork_of_spine_le (h : IsDiagram t d) (hv : t.spine ≤ v) (hlt : v < t.rank) :
    v = t.rank - 1 ∧ ∃ u, t.fork? = some u := by
  cases t with
  | a n => exact absurd hlt (Nat.not_lt.mpr hv)
  | d n =>
      have hv : n - 1 ≤ v := hv
      have hlt : v < n := hlt
      exact ⟨show v = n - 1 by omega, _, rfl⟩
  | e n =>
      have hv : n - 1 ≤ v := hv
      have hlt : v < n := hlt
      exact ⟨show v = n - 1 by omega, _, rfl⟩

/-- **A diagram is connected.** -/
theorem connected (h : IsDiagram t d) (hrank : d.rank ≤ 64) : d.Connected := by
  have hjoined : ∀ {i j}, i < t.rank → j < t.rank → d.adjacent i j = true → d.Joined i j := by
    intro i j hi hj harrow
    rw [← h.rank_eq, ← trackedRank_eq hrank] at hi hj
    exact ⟨hi, hj, harrow⟩
  have hspine : t.spine ≤ t.rank := by
    cases t <;> simp only [spine, rank] <;> omega
  have hpath : ∀ v < t.spine, d.Linked 0 v := by
    intro v hv
    induction v with
    | zero => exact .refl
    | succ v ih => exact (ih (by omega)).tail (hjoined (by omega) (by omega) (h.path v hv))
  have hall : ∀ v < d.rank, d.Linked 0 v := by
    intro v hv
    rw [h.rank_eq] at hv
    rcases Nat.lt_or_ge v t.spine with hlt | hge
    · exact hpath v hlt
    · obtain ⟨rfl, u, hu⟩ := h.fork_of_spine_le hge hv
      have hlt := (fork_lt_spine h.valid hu).1
      exact (hpath u hlt).tail (hjoined (by omega) hv (h.fork u hu))
  intro i hi j hj
  exact (hall i hi).symm.trans (hall j hj)

/-- A diagram has a vertex. -/
theorem rank_pos (h : IsDiagram t d) : 0 < d.rank := by
  rw [h.rank_eq]
  have hvalid := h.valid
  cases t with
  | a n => exact of_decide_eq_true hvalid
  | d n =>
      have hn : 4 ≤ n := of_decide_eq_true hvalid
      exact show 0 < n by omega
  | e n =>
      have hn : 6 ≤ n ∧ n ≤ 8 := of_decide_eq_true hvalid
      exact show 0 < n by omega

end IsDiagram

end DynkinType

end MutationFinite
