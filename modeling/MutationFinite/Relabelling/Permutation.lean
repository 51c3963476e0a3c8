import MutationFinite.Error

/-!
# Permutations

A permutation of the numbers below `n`, given by its images.

* `ofImages`: the permutation with the given images, refused when they are not a permutation.
* `inverse`, `compose`: the group operations.
-/

namespace MutationFinite

/-- The images are distinct and below their number. -/
def IsArrangement (images : Array Nat) : Prop :=
  images.toList.Nodup ∧ ∀ v ∈ images.toList, v < images.size

instance (images : Array Nat) : Decidable (IsArrangement images) :=
  inferInstanceAs (Decidable (_ ∧ _))

/-- A permutation of the numbers below `images.size`. -/
@[ext] structure Permutation where
  images : Array Nat
  isArrangement : IsArrangement images
deriving DecidableEq

namespace Permutation

/-- The number of permuted points. -/
def size (p : Permutation) : Nat := p.images.size

/-- The permutation with the given images, if they are one. -/
def ofImages? (images : Array Nat) : Option Permutation :=
  if h : IsArrangement images then some ⟨images, h⟩ else none

/-- The permutation with the given images, which the caller promises to be one. -/
def ofImages (images : Array Nat) : Except Misuse Permutation :=
  match ofImages? images with
  | some p => .ok p
  | none => .error (.notPermutation images.toList)

/-- The image of `i`; points beyond the permuted ones stay. -/
@[inline] def apply (p : Permutation) (i : Nat) : Nat := p.images.getD i i

/-- Every number below the size is an image. -/
theorem mem_of_isArrangement {images : Array Nat} (h : IsArrangement images) {v : Nat}
    (hv : v < images.size) : v ∈ images.toList := by
  apply Decidable.byContradiction
  intro hnot
  have hsub : ∀ w ∈ v :: images.toList, w ∈ List.range images.size := by
    intro w hw
    rw [List.mem_range]
    rcases List.mem_cons.mp hw with rfl | hw
    · exact hv
    · exact h.2 w hw
  have := (List.nodup_cons.mpr ⟨hnot, h.1⟩).length_le_of_subset hsub
  simp only [List.length_cons, Array.length_toList, List.length_range] at this
  omega

/-- The position of `v` among the images. -/
def position (p : Permutation) (v : Nat) : Nat := p.images.toList.idxOf v

theorem position_lt (p : Permutation) {v : Nat} (hv : v < p.size) : p.position v < p.size := by
  have := List.idxOf_lt_length_iff.mpr (mem_of_isArrangement p.isArrangement hv)
  simpa [position, size] using this

theorem getElem_position (p : Permutation) {v : Nat} (hv : v < p.size) :
    have : p.position v < p.images.size := p.position_lt hv
    p.images[p.position v] = v := by
  have h := List.idxOf_lt_length_iff.mpr (mem_of_isArrangement p.isArrangement hv)
  exact (Array.getElem_toList _).symm.trans (List.getElem_idxOf h)

/-- The inverse permutation. -/
def inverse (p : Permutation) : Permutation where
  images := Array.ofFn fun v : Fin p.size => p.position v
  isArrangement := by
    refine ⟨?_, ?_⟩
    · rw [Array.toList_ofFn, List.Nodup, List.pairwise_iff_getElem]
      intro i j hi hj hij
      simp only [List.length_ofFn] at hi hj
      simp only [List.getElem_ofFn]
      intro he
      have h₁ := p.getElem_position hi
      have h₂ := p.getElem_position hj
      simp only [he] at h₁
      omega
    · intro v hv
      rw [Array.toList_ofFn, List.mem_ofFn] at hv
      obtain ⟨w, rfl⟩ := hv
      simpa using p.position_lt w.isLt

theorem getElem_lt (p : Permutation) {i : Nat} (h : i < p.images.size) :
    p.images[i] < p.images.size :=
  p.isArrangement.2 _ (by simp)

theorem getElem_inj (p : Permutation) {i j : Nat} (hi : i < p.images.size)
    (hj : j < p.images.size) (h : p.images[i] = p.images[j]) : i = j := by
  have hnodup := List.pairwise_iff_getElem.mp p.isArrangement.1
  rcases Nat.lt_trichotomy i j with hij | hij | hij
  · exact absurd h (hnodup i j hi hj hij)
  · exact hij
  · exact absurd h.symm (hnodup j i hj hi hij)

theorem apply_lt (p : Permutation) {i : Nat} (h : i < p.size) : p.apply i < p.size := by
  simp only [size] at h
  simpa [apply, size, Array.getD, h] using p.getElem_lt h

theorem apply_inj (p : Permutation) {i j : Nat} (hi : i < p.size) (hj : j < p.size)
    (h : p.apply i = p.apply j) : i = j := by
  simp only [size] at hi hj
  simp only [apply, Array.getD, hi, hj, dif_pos] at h
  exact p.getElem_inj hi hj h

/-- `p` after `q`, both permuting equally many points. -/
def compose (p q : Permutation) (h : p.size = q.size) : Permutation where
  images := Array.ofFn fun i : Fin q.size => p.apply (q.apply i)
  isArrangement := by
    refine ⟨?_, ?_⟩
    · rw [Array.toList_ofFn, List.Nodup, List.pairwise_iff_getElem]
      intro i j hi hj hij
      simp only [List.length_ofFn] at hi hj
      simp only [List.getElem_ofFn]
      intro he
      have := q.apply_inj hi hj
        (p.apply_inj (h.symm ▸ q.apply_lt hi) (h.symm ▸ q.apply_lt hj) he)
      omega
    · intro v hv
      rw [Array.toList_ofFn, List.mem_ofFn] at hv
      obtain ⟨w, rfl⟩ := hv
      have := @apply_lt p (q.apply w) (h.symm ▸ q.apply_lt w.isLt)
      simpa [h] using this

/-- The permutation that moves no point. -/
def identity (n : Nat) : Permutation where
  images := Array.range n
  isArrangement := by
    refine ⟨by simp [List.nodup_range], by simp⟩

end Permutation

end MutationFinite
