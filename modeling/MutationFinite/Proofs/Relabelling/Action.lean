import MutationFinite.Proofs.Matrix.Selection
import MutationFinite.Relabelling.Witness

/-!
# The action of permutations on matrices

Permutations of the mutable vertices form a group that acts on the matrices of a shape, and the
action commutes with mutation.

* `Permutation.apply_inverse`, `apply_compose`, `apply_identity`: the group operations on points,
  the points beyond the permuted ones included.
* `Carries`: a permutation carries one matrix to another; `carries_iff` says that the second is the
  relabelling of the first.
* `Carries.mutatesTo`, `Carries.mutate?`: relabelling commutes with exact and with checked mutation;
  `Carries.exists_mutate?_iff` says that both matrices can be mutated or neither can.
* `Identification`: a set of permutations closed under the group operations, up to which matrices
  count as the same; `Identification.equality` and `Identification.relabelling` are the two that
  enumerations use.
-/

namespace MutationFinite

namespace Permutation

variable {p q : Permutation} {n i j : Nat}

theorem apply_of_le (h : p.size ≤ i) : p.apply i = i := by
  have : ¬ i < p.images.size := Nat.not_lt.mpr h
  simp [apply, Array.getD, this]

theorem getElem?_images (h : i < p.size) : p.images[i]? = some (p.apply i) := by
  have hi : i < p.images.size := h
  simp [apply, hi]

theorem apply_lt_iff (hn : p.size ≤ n) : p.apply i < n ↔ i < n := by
  by_cases hi : i < p.size
  · have := p.apply_lt hi
    omega
  · rw [apply_of_le (Nat.not_lt.mp hi)]

@[simp] theorem size_inverse (p : Permutation) : p.inverse.size = p.size := by
  show (Array.ofFn _).size = _
  exact Array.size_ofFn

@[simp] theorem size_identity (n : Nat) : (identity n).size = n := Array.size_range

@[simp] theorem size_compose (h : p.size = q.size) : (p.compose q h).size = q.size := by
  show (Array.ofFn _).size = _
  exact Array.size_ofFn

@[simp] theorem apply_identity (n i : Nat) : (identity n).apply i = i := by
  by_cases hi : i < n
  · simp [identity, apply, Array.getD, hi]
  · exact apply_of_le (by simpa using hi)

theorem apply_inverse_of_lt (h : i < p.size) : p.inverse.apply i = p.position i := by
  simp [inverse, apply, Array.getD, h]

theorem apply_position (h : i < p.size) : p.apply (p.position i) = i := by
  have hpos : p.position i < p.images.size := p.position_lt h
  rw [apply, Array.getD, dif_pos hpos]
  exact p.getElem_position h

@[simp] theorem apply_inverse (p : Permutation) (i : Nat) : p.apply (p.inverse.apply i) = i := by
  by_cases h : i < p.size
  · rw [apply_inverse_of_lt h, apply_position h]
  · have hle : p.size ≤ i := Nat.not_lt.mp h
    rw [apply_of_le (p := p.inverse) (by simpa using hle), apply_of_le hle]

theorem apply_injective (p : Permutation) : Function.Injective p.apply := by
  intro i j h
  by_cases hi : i < p.size <;> by_cases hj : j < p.size
  · exact p.apply_inj hi hj h
  · have := p.apply_lt hi
    rw [h, apply_of_le (Nat.not_lt.mp hj)] at this
    exact absurd this hj
  · have := p.apply_lt hj
    rw [← h, apply_of_le (Nat.not_lt.mp hi)] at this
    exact absurd this hi
  · rwa [apply_of_le (Nat.not_lt.mp hi), apply_of_le (Nat.not_lt.mp hj)] at h

@[simp] theorem inverse_apply (p : Permutation) (i : Nat) : p.inverse.apply (p.apply i) = i :=
  p.apply_injective (p.apply_inverse _)

theorem inverse_apply_eq_iff : p.inverse.apply i = j ↔ i = p.apply j :=
  ⟨fun h => by rw [← h, p.apply_inverse], fun h => by rw [h, p.inverse_apply]⟩

/-- Two permutations of equally many points that send each point to the same image are equal. -/
theorem ext_apply (hsize : p.size = q.size) (h : ∀ i, p.apply i = q.apply i) : p = q := by
  refine Permutation.ext (Array.ext hsize fun i hp hq => ?_)
  have hi := h i
  rwa [apply, apply, Array.getD, Array.getD, dif_pos hp, dif_pos hq] at hi

@[simp] theorem inverse_inverse (p : Permutation) : p.inverse.inverse = p := by
  refine ext_apply (by rw [size_inverse, size_inverse]) fun i => p.inverse.apply_injective ?_
  rw [p.inverse.apply_inverse, p.inverse_apply]

@[simp] theorem inverse_identity (n : Nat) : (identity n).inverse = identity n := by
  refine ext_apply (size_inverse _) fun i => (identity n).apply_injective ?_
  rw [apply_inverse, apply_identity, apply_identity]

@[simp] theorem apply_compose (h : p.size = q.size) (i : Nat) :
    (p.compose q h).apply i = p.apply (q.apply i) := by
  by_cases hi : i < q.size
  · simp [compose, apply, Array.getD, hi]
  · have hle : q.size ≤ i := Nat.not_lt.mp hi
    rw [apply_of_le (p := p.compose q h) (by simpa using hle), apply_of_le hle,
      apply_of_le (h ▸ hle)]

end Permutation

namespace ExchangeMatrix

variable {a b c m : ExchangeMatrix} {p q : Permutation} {k : Nat}

/-- The permutation `p` of the mutable vertices carries `a` to `b`. -/
structure Carries (p : Permutation) (a b : ExchangeMatrix) : Prop where
  shape : SameShape a b
  size : p.size = a.rank
  cells : ∀ i j, b.cell (p.apply i) (p.apply j) = a.cell i j

theorem rank_le_rows (m : ExchangeMatrix) : m.rank ≤ m.rows := Nat.min_le_left _ _

theorem rank_le_cols (m : ExchangeMatrix) : m.rank ≤ m.cols := Nat.min_le_right _ _

theorem carries_identity (m : ExchangeMatrix) : Carries (.identity m.rank) m m :=
  ⟨⟨rfl, rfl⟩, by simp, by simp⟩

namespace Carries

theorem inverse (h : Carries p a b) : Carries p.inverse b a :=
  ⟨h.shape.symm, by rw [Permutation.size_inverse, h.size, h.shape.rank_eq], fun i j => by
    rw [← h.cells, p.apply_inverse, p.apply_inverse]⟩

theorem size_eq (h₁ : Carries p a b) (h₂ : Carries q b c) : q.size = p.size := by
  rw [h₂.size, h₁.size, h₁.shape.rank_eq]

theorem compose (h₁ : Carries p a b) (h₂ : Carries q b c) :
    Carries (q.compose p (h₁.size_eq h₂)) a c :=
  ⟨h₁.shape.trans h₂.shape, by rw [Permutation.size_compose, h₁.size], fun i j => by
    rw [Permutation.apply_compose, Permutation.apply_compose, h₂.cells, h₁.cells]⟩

theorem size_le_rows (h : Carries p a b) : p.size ≤ a.rows := h.size ▸ a.rank_le_rows

theorem size_le_cols (h : Carries p a b) : p.size ≤ a.cols := h.size ▸ a.rank_le_cols

theorem values (h : Carries p a b) (i j : Nat) :
    b.values (p.apply i) (p.apply j) = a.values i j :=
  congrArg Entry.val (h.cells i j)

theorem eq_of_apply_eq (h : Carries p a b) (hp : ∀ i, p.apply i = i) : a = b :=
  ext_cell h.shape.1 h.shape.2 fun i _ j _ => by rw [← h.cells i j, hp, hp]

theorem unique (h₁ : Carries p a b) (h₂ : Carries p a c) : b = c := by
  refine (h₁.inverse.compose h₂).eq_of_apply_eq fun i => ?_
  rw [Permutation.apply_compose, p.apply_inverse]

end Carries

theorem carries_relabel (hp : p.size = m.rank) : Carries p m (m.relabel p) := by
  refine ⟨⟨rfl, rfl⟩, hp, fun i j => ?_⟩
  have hrows : p.size ≤ m.rows := hp ▸ m.rank_le_rows
  have hcols : p.size ≤ m.cols := hp ▸ m.rank_le_cols
  simp only [relabel, cell_ofFn, Permutation.apply_lt_iff hrows, Permutation.apply_lt_iff hcols,
    p.inverse_apply]
  split
  · rfl
  · next hout => rw [m.cell_eq_zero (by omega)]

/-- Carrying is relabelling. -/
theorem carries_iff : Carries p a b ↔ p.size = a.rank ∧ a.relabel p = b :=
  ⟨fun h => ⟨h.size, (carries_relabel h.size).unique h⟩, fun ⟨hs, h⟩ => h ▸ carries_relabel hs⟩

/-- A permutation carries a matrix to another when it carries the entries inside. -/
theorem carries_of_inside (hs : SameShape a b) (hp : p.size = a.rank)
    (h : ∀ i < a.rows, ∀ j < a.cols, b.cell (p.apply i) (p.apply j) = a.cell i j) :
    Carries p a b := by
  refine ⟨hs, hp, fun i j => ?_⟩
  have hrow : p.apply i < a.rows ↔ i < a.rows := Permutation.apply_lt_iff (hp ▸ a.rank_le_rows)
  have hcol : p.apply j < a.cols ↔ j < a.cols := Permutation.apply_lt_iff (hp ▸ a.rank_le_cols)
  by_cases hin : i < a.rows ∧ j < a.cols
  · exact h i hin.1 j hin.2
  · have hout : b.rows ≤ p.apply i ∨ b.cols ≤ p.apply j := by
      rw [← hs.1, ← hs.2]
      omega
    rw [a.cell_eq_zero (by omega), b.cell_eq_zero hout]

/-! ### Mutation of relabelled matrices -/

theorem Carries.values_mutate (h : Carries p a b) (i j : Nat) :
    b.values.mutate (p.apply k) (p.apply i) (p.apply j) = a.values.mutate k i j := by
  simp only [IntegerMatrix.mutate, p.apply_injective.eq_iff, h.values]

theorem Carries.pivot_lt (h : Carries p a b) : p.apply k < b.rank ↔ k < a.rank := by
  rw [← h.shape.rank_eq]
  exact Permutation.apply_lt_iff h.size.le

/-- Relabelling commutes with exact mutation. -/
theorem Carries.mutatesTo {a' : ExchangeMatrix} (h : Carries p a b) (hm : MutatesTo a k a') :
    MutatesTo b (p.apply k) (a'.relabel p) := by
  have h' : Carries p a' (a'.relabel p) := carries_relabel (h.size.trans hm.shape.rank_eq.symm)
  refine ⟨h.pivot_lt.mpr hm.pivot, h'.shape.symm.trans (hm.shape.trans h.shape), ?_⟩
  funext i j
  rw [← p.apply_inverse i, ← p.apply_inverse j, h.values_mutate, h'.values, hm.values]

/-- The relabelled matrix selects all rows and columns, and the image of `k` stands for `k`. -/
theorem Carries.selects (h : Carries p a b) (hk : k < a.rank) :
    Selects p.inverse.apply p.inverse.apply a.rows a.cols a (p.apply k) k where
  row_lt _ := (Permutation.apply_lt_iff (p.size_inverse.trans_le h.size_le_rows)).mpr
  col_lt _ := (Permutation.apply_lt_iff (p.size_inverse.trans_le h.size_le_cols)).mpr
  row_eq_iff _ _ := Permutation.inverse_apply_eq_iff
  col_eq_iff _ _ := Permutation.inverse_apply_eq_iff
  pivot_row := (Permutation.apply_lt_iff h.size_le_rows).mpr (hk.trans_le a.rank_le_rows)
  pivot_col := (Permutation.apply_lt_iff h.size_le_cols).mpr (hk.trans_le a.rank_le_cols)

/-- Relabelling commutes with checked mutation. -/
theorem Carries.mutate? {a' : ExchangeMatrix} (h : Carries p a b) (hm : a.mutate? k = .ok a') :
    b.mutate? (p.apply k) = .ok (a'.relabel p) := by
  have hto := mutatesTo_of_mutate? hm
  obtain ⟨-, rfl⟩ := carries_iff.mp h
  rw [relabel, relabel, hto.shape.1, hto.shape.2]
  exact (h.selects hto.pivot).mutate? hm

/-- Mutations of a matrix and of its relabelling are defined alike. -/
theorem Carries.exists_mutate?_iff (h : Carries p a b) :
    (∃ b', b.mutate? (p.apply k) = .ok b') ↔ ∃ a', a.mutate? k = .ok a' := by
  refine ⟨fun ⟨b', hb⟩ => ?_, fun ⟨a', ha⟩ => ⟨_, h.mutate? ha⟩⟩
  have ha := h.inverse.mutate? hb
  rw [p.inverse_apply] at ha
  exact ⟨_, ha⟩

end ExchangeMatrix

open ExchangeMatrix

/-- Permutations up to which matrices count as the same. -/
structure Identification where
  admits : Permutation → Prop
  identity : ∀ n, admits (.identity n)
  inverse : ∀ p, admits p → admits p.inverse
  compose : ∀ p q h, admits p → admits q → admits (p.compose q h)

namespace Identification

/-- Only equal matrices count as the same. -/
def equality : Identification where
  admits p := ∀ i, p.apply i = i
  identity n i := Permutation.apply_identity n i
  inverse p h i := by rw [← p.apply_inverse i, p.inverse_apply, h]
  compose p q hs hp hq i := by rw [Permutation.apply_compose, hq, hp]

/-- Matrices that differ by a relabelling count as the same. -/
def relabelling : Identification where
  admits _ := True
  identity _ := trivial
  inverse _ _ := trivial
  compose _ _ _ _ _ := trivial

variable (I : Identification) {a b c : ExchangeMatrix}

/-- `a` and `b` count as the same. -/
def Same (a b : ExchangeMatrix) : Prop := ∃ p, I.admits p ∧ Carries p a b

/-- An admitted automorphism of `m` sends vertex `k` to vertex `w`. -/
def SameVertex (m : ExchangeMatrix) (k w : Nat) : Prop :=
  ∃ p, I.admits p ∧ Carries p m m ∧ p.apply k = w

variable {I}

theorem Same.refl (m : ExchangeMatrix) : I.Same m m := ⟨_, I.identity _, carries_identity m⟩

theorem Same.symm (h : I.Same a b) : I.Same b a := by
  obtain ⟨p, hp, hc⟩ := h
  exact ⟨_, I.inverse p hp, hc.inverse⟩

theorem Same.trans (h₁ : I.Same a b) (h₂ : I.Same b c) : I.Same a c := by
  obtain ⟨p, hp, hc⟩ := h₁
  obtain ⟨q, hq, hd⟩ := h₂
  exact ⟨_, I.compose _ _ _ hq hp, hc.compose hd⟩

theorem SameVertex.refl (m : ExchangeMatrix) (k : Nat) : I.SameVertex m k k :=
  ⟨_, I.identity _, carries_identity m, Permutation.apply_identity _ k⟩

theorem SameVertex.trans {m : ExchangeMatrix} {i j k : Nat} (h₁ : I.SameVertex m i j)
    (h₂ : I.SameVertex m j k) : I.SameVertex m i k := by
  obtain ⟨p, hp, hc, rfl⟩ := h₁
  obtain ⟨q, hq, hd, rfl⟩ := h₂
  exact ⟨_, I.compose _ _ _ hq hp, hc.compose hd, Permutation.apply_compose _ _⟩

theorem SameVertex.symm {m : ExchangeMatrix} {j k : Nat} (h : I.SameVertex m j k) :
    I.SameVertex m k j := by
  obtain ⟨p, hp, hc, rfl⟩ := h
  exact ⟨_, I.inverse p hp, hc.inverse, p.inverse_apply j⟩

/-- An orbit of a mutable vertex has mutable vertices only. -/
theorem SameVertex.lt {m : ExchangeMatrix} {j k : Nat} (h : I.SameVertex m j k)
    (hj : j < m.rank) : k < m.rank := by
  obtain ⟨p, -, hc, rfl⟩ := h
  exact hc.pivot_lt.mpr hj

@[simp] theorem same_equality_iff : equality.Same a b ↔ a = b :=
  ⟨fun ⟨_, hp, hc⟩ => hc.eq_of_apply_eq hp, fun h => h ▸ Same.refl a⟩

theorem sameVertex_equality_iff {m : ExchangeMatrix} {j k : Nat} :
    equality.SameVertex m j k ↔ j = k :=
  ⟨fun ⟨_, hp, _, h⟩ => (hp j).symm.trans h, fun h => h ▸ SameVertex.refl m j⟩

/-- Being carried to one another by a permutation is an equivalence. -/
def setoid (I : Identification) : Setoid ExchangeMatrix :=
  ⟨I.Same, Same.refl, Same.symm, Same.trans⟩

end Identification

end MutationFinite
