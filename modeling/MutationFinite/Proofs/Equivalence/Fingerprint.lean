import MutationFinite.Equivalence.Fingerprint
import MutationFinite.Proofs.Relabelling.Action
import Mathlib.Data.List.Sort

/-!
# Fingerprints of relabelled matrices

* `mergeSort_eq_of_perm`: sorting forgets the order in which a list comes.
* `Permutation.map_range_perm`: a permutation rearranges the mutable vertices.
* `Carries.fingerprint_eq`: relabelling leaves the fingerprint alone.
* `Fingerprint.words_inj`: matrices of one shape have the same fingerprint when it is written with
  the same numbers.
-/

namespace MutationFinite

open ExchangeMatrix

/-- Sorting forgets the order in which a list comes. -/
theorem mergeSort_eq_of_perm {α : Type} {le : α → α → Bool} {l l' : List α}
    (htrans : ∀ a b c, le a b → le b c → le a c) (htotal : ∀ a b, (le a b || le b a) = true)
    (hantisymm : ∀ a b, le a b → le b a → a = b) (h : l.Perm l') :
    l.mergeSort le = l'.mergeSort le := by
  have hperm : (l.mergeSort le).Perm (l'.mergeSort le) :=
    (List.mergeSort_perm l le).trans (h.trans (List.mergeSort_perm l' le).symm)
  exact hperm.eq_of_pairwise (fun a b _ _ => hantisymm a b)
    (List.pairwise_mergeSort htrans htotal l) (List.pairwise_mergeSort htrans htotal l')

namespace Permutation

/-- A permutation rearranges the numbers that it permutes. -/
theorem map_range_perm (p : Permutation) :
    ((List.range p.size).map p.apply).Perm (List.range p.size) := by
  have hnodup : ((List.range p.size).map p.apply).Nodup :=
    List.nodup_range.map p.apply_injective
  refine (List.subperm_of_subset hnodup fun v hv => ?_).perm_of_length_le (by simp)
  obtain ⟨i, hi, rfl⟩ := List.mem_map.mp hv
  exact List.mem_range.mpr (p.apply_lt (List.mem_range.mp hi))

end Permutation

namespace Fingerprint

theorem sorted_perm (xs : List Int) : (sorted xs).Perm xs := List.mergeSort_perm xs _

theorem sorted_eq_of_perm {xs ys : List Int} (h : xs.Perm ys) : sorted xs = sorted ys :=
  mergeSort_eq_of_perm (by simpa using fun _ _ _ => Int.le_trans) (by simpa using Int.le_total)
    (by simpa using fun _ _ => Int.le_antisymm) h

theorem sortedKeys_eq_of_perm {xs ys : List (List Int)} (h : xs.Perm ys) :
    sortedKeys xs = sortedKeys ys := by
  refine mergeSort_eq_of_perm (fun _ _ _ => Std.TransCmp.isLE_trans) (fun a b => ?_)
    (fun a b h₁ h₂ => ?_) h
  · have hswap : List.compareLex compare b a = (List.compareLex compare a b).swap :=
      Std.OrientedCmp.eq_swap
    rw [hswap]
    cases List.compareLex compare a b <;> rfl
  · exact Std.LawfulEqCmp.eq_of_compare (Std.OrientedCmp.isLE_antisymm h₁ h₂)

/-- The list of what `f` sees at the mutable vertices is rearranged when `g` sees at `p i` what `f`
sees at `i`. -/
theorem map_perm {α : Type} {p : Permutation} {f g : Nat → α} {n : Nat} (hp : p.size = n)
    (h : ∀ i < n, g (p.apply i) = f i) :
    ((List.range n).map f).Perm ((List.range n).map g) := by
  subst hp
  have hmap : (List.range p.size).map f = ((List.range p.size).map p.apply).map g := by
    rw [List.map_map]
    exact List.map_congr_left fun i hi => (h i (List.mem_range.mp hi)).symm
  rw [hmap]
  exact p.map_range_perm.map g

variable {a b : ExchangeMatrix} {p : Permutation}

theorem apply_frozen (h : Carries p a b) {f length : Nat} (hf : f ∈ List.range' a.rank length) :
    p.apply f = f := by
  rw [List.mem_range'_1] at hf
  exact Permutation.apply_of_le (h.size ▸ hf.1)

/-- What a vertex sees of the frozen columns and rows. -/
theorem frozen_parts (h : Carries p a b) (i : Nat) :
    rowPart b (p.apply i) (List.range' a.rank (a.cols - a.rank)) =
        rowPart a i (List.range' a.rank (a.cols - a.rank)) ∧
      colPart b (List.range' a.rank (a.rows - a.rank)) (p.apply i) =
        colPart a (List.range' a.rank (a.rows - a.rank)) i := by
  constructor
  · refine List.map_congr_left fun f hf => congrArg Entry.val ?_
    rw [← h.cells i f, apply_frozen h hf]
  · refine List.map_congr_left fun f hf => congrArg Entry.val ?_
    rw [← h.cells f i, apply_frozen h hf]

end Fingerprint

open Fingerprint in
/-- **Relabelling leaves the fingerprint alone.** -/
theorem ExchangeMatrix.Carries.fingerprint_eq {a b : ExchangeMatrix} {p : Permutation}
    (h : Carries p a b) : Fingerprint.of a = Fingerprint.of b := by
  have hrank := h.shape.rank_eq
  have hrow : ∀ i, sorted (rowPart a i (List.range a.rank)) =
      sorted (rowPart b (p.apply i) (List.range a.rank)) := fun i =>
    sorted_eq_of_perm (map_perm h.size fun j _ => h.values i j)
  have hcol : ∀ j, sorted (colPart a (List.range a.rank) j) =
      sorted (colPart b (List.range a.rank) (p.apply j)) := fun j =>
    sorted_eq_of_perm (map_perm h.size fun i _ => h.values i j)
  have hkeys := sortedKeys_eq_of_perm <| map_perm h.size
    (f := fun i => sorted (rowPart a i (List.range a.rank)) ++
      rowPart a i (List.range' a.rank (a.cols - a.rank)) ++
      colPart a (List.range' a.rank (a.rows - a.rank)) i)
    (g := fun i => sorted (rowPart b i (List.range a.rank)) ++
      rowPart b i (List.range' a.rank (a.cols - a.rank)) ++
      colPart b (List.range' a.rank (a.rows - a.rank)) i)
    fun i _ => by rw [hrow, (frozen_parts h i).1, (frozen_parts h i).2]
  simp only [Fingerprint.of, ← hrank, ← h.shape.1, ← h.shape.2, Fingerprint.mk.injEq, hkeys,
    true_and]
  constructor
  · refine List.map_congr_left fun f hf => ?_
    rw [hrow, apply_frozen h hf]
  · refine List.map_congr_left fun f hf => ?_
    rw [hcol, apply_frozen h hf]

/-! ### Fingerprints as lists of numbers -/

namespace Fingerprint

variable {a b : ExchangeMatrix}

@[simp] theorem length_rowPart (m : ExchangeMatrix) (i : Nat) (cs : List Nat) :
    (rowPart m i cs).length = cs.length := List.length_map ..

@[simp] theorem length_colPart (m : ExchangeMatrix) (rs : List Nat) (j : Nat) :
    (colPart m rs j).length = rs.length := List.length_map ..

@[simp] theorem length_sorted (xs : List Int) : (sorted xs).length = xs.length :=
  (sorted_perm xs).length_eq

@[simp] theorem length_vertices (m : ExchangeMatrix) : (of m).vertices.length = m.rank := by
  rw [of, sortedKeys, List.length_mergeSort, List.length_map, List.length_range]

@[simp] theorem length_frozenRows (m : ExchangeMatrix) :
    (of m).frozenRows.length = m.rows - m.rank := by
  rw [of, List.length_map, List.length_range']

@[simp] theorem length_frozenCols (m : ExchangeMatrix) :
    (of m).frozenCols.length = m.cols - m.rank := by
  rw [of, List.length_map, List.length_range']

theorem length_of_mem_vertices {m : ExchangeMatrix} {part : List Int}
    (h : part ∈ (of m).vertices) :
    part.length = m.rank + (m.cols - m.rank) + (m.rows - m.rank) := by
  rw [of, sortedKeys, List.mem_mergeSort] at h
  obtain ⟨i, -, rfl⟩ := List.mem_map.mp h
  rw [List.length_append, List.length_append, length_sorted, length_rowPart, length_rowPart,
    length_colPart, List.length_range, List.length_range', List.length_range']

theorem length_of_mem_frozenRows {m : ExchangeMatrix} {part : List Int}
    (h : part ∈ (of m).frozenRows) : part.length = m.rank := by
  obtain ⟨f, -, rfl⟩ := List.mem_map.mp h
  rw [length_sorted, length_rowPart, List.length_range]

theorem length_of_mem_frozenCols {m : ExchangeMatrix} {part : List Int}
    (h : part ∈ (of m).frozenCols) : part.length = m.rank := by
  obtain ⟨f, -, rfl⟩ := List.mem_map.mp h
  rw [length_sorted, length_colPart, List.length_range]

theorem map_length_parts (m : ExchangeMatrix) :
    (of m).parts.map List.length =
      List.replicate m.rank (m.rank + (m.cols - m.rank) + (m.rows - m.rank)) ++
        List.replicate (m.rows - m.rank) m.rank ++ List.replicate (m.cols - m.rank) m.rank := by
  have hconstant : ∀ {l : List (List Int)} {n length : Nat}, l.length = n →
      (∀ part ∈ l, part.length = length) → l.map List.length = List.replicate n length := by
    rintro l n length rfl h
    exact List.map_eq_replicate_iff.mpr h
  rw [parts, List.map_append, List.map_append,
    hconstant (length_vertices m) fun _ => length_of_mem_vertices,
    hconstant (length_frozenRows m) fun _ => length_of_mem_frozenRows,
    hconstant (length_frozenCols m) fun _ => length_of_mem_frozenCols]

/-- Lists of known lengths are read off their concatenation, with a number behind each of them. -/
theorem flatMap_append_inj {xs ys : List (List Int)} {s : Int}
    (hlength : xs.map List.length = ys.map List.length)
    (h : (xs.flatMap fun x => x ++ [s]) = ys.flatMap fun y => y ++ [s]) : xs = ys := by
  have hclosed : Function.Injective fun x : List Int => x ++ [s] := List.append_left_injective [s]
  refine List.map_injective_iff.mpr hclosed (List.eq_iff_flatten_eq.mpr ⟨?_, ?_⟩)
  · rwa [List.flatMap_def, List.flatMap_def] at h
  · have hsucc := congrArg (List.map (· + 1)) hlength
    simpa [List.map_map, Function.comp_def] using hsucc

/-- **Matrices of one shape have the same fingerprint when it is written with the same numbers.**
An entry may well be the number behind the parts: it is the shape that tells where a part ends. -/
theorem words_inj (h : SameShape a b) : (of a).words = (of b).words ↔ of a = of b := by
  refine ⟨fun hwords => ?_, congrArg words⟩
  have hrank := h.rank_eq
  have hlengths : (of a).parts.map List.length = (of b).parts.map List.length := by
    rw [map_length_parts, map_length_parts, hrank, h.1, h.2]
  have hparts : (of a).parts = (of b).parts :=
    flatMap_append_inj hlengths (List.tail_eq_of_cons_eq (List.tail_eq_of_cons_eq hwords))
  obtain ⟨hfirst, hcols⟩ := List.append_inj hparts (by
    rw [List.length_append, List.length_append, length_vertices, length_vertices,
      length_frozenRows, length_frozenRows, hrank, h.1])
  obtain ⟨hvertices, hrows⟩ := List.append_inj hfirst (by
    rw [length_vertices, length_vertices, hrank])
  exact Fingerprint.ext h.1 h.2 hvertices hrows hcols

end Fingerprint

end MutationFinite
