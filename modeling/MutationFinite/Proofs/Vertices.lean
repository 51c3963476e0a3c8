import MutationFinite.VertexSet
import Mathlib.Data.List.Nodup

/-!
# Tests over vertices and their sets

* `all_iff`, `any_iff`: a test of all vertices below a bound, or of any.
* `VertexSet.mem_filterBelow`, `mem_toList`: the vertices below a bound that pass a test, and the
  members as a list.
* `VertexSet.le_card_iff`, `exists_mem_ne_ne`: a set has at least as many members as a list of
  distinct ones, and three members are one more than any two.
-/

namespace MutationFinite

/-- A test of all vertices below `n`. -/
theorem all_iff {n : Nat} {p : Nat → Bool} :
    (Nat.all n fun i _ => p i) = true ↔ ∀ i < n, p i = true := by
  rw [Nat.all_eq_finRange_all, List.all_eq_true]
  exact ⟨fun h i hi => h ⟨i, hi⟩ (List.mem_finRange _), fun h i _ => h i i.isLt⟩

/-- A test of any vertex below `n`. -/
theorem any_iff {n : Nat} {p : Nat → Bool} :
    (Nat.any n fun i _ => p i) = true ↔ ∃ i < n, p i = true := by
  rw [Nat.any_eq_finRange_any, List.any_eq_true]
  exact ⟨fun ⟨i, _, h⟩ => ⟨i, i.isLt, h⟩, fun ⟨i, hi, h⟩ => ⟨⟨i, hi⟩, List.mem_finRange _, h⟩⟩

namespace VertexSet

variable {s t : VertexSet} {v n : Nat}

theorem mem_foldl_filter (p : Nat → Bool) (l : List Nat) (s : VertexSet) :
    v ∈ l.foldl (fun s v => if p v then s ∪ {v} else s) s ↔ v ∈ s ∨ (v ∈ l ∧ p v = true) := by
  induction l generalizing s with
  | nil => simp
  | cons w l ih =>
      rw [List.foldl_cons, ih, List.mem_cons]
      by_cases hw : p w = true
      · rw [if_pos hw, mem_union, mem_singleton]
        constructor
        · rintro ((h | rfl) | h)
          · exact .inl h
          · exact .inr ⟨.inl rfl, hw⟩
          · exact .inr ⟨.inr h.1, h.2⟩
        · rintro (h | ⟨rfl | h, hv⟩)
          · exact .inl (.inl h)
          · exact .inl (.inr rfl)
          · exact .inr ⟨h, hv⟩
      · rw [if_neg hw]
        refine or_congr_right (and_congr_left fun hv => (or_iff_right ?_).symm)
        rintro rfl
        exact hw hv

@[simp] theorem mem_filterBelow {p : Nat → Bool} : v ∈ filterBelow n p ↔ v < n ∧ p v = true := by
  rw [filterBelow, mem_foldl_filter, List.mem_range, or_iff_right (not_mem_empty v)]

/-- A member is no greater than the highest bit. -/
theorem le_log2 (h : v ∈ s) : v ≤ s.bits.log2 := by
  have hbits : 2 ^ v ≤ s.bits := Nat.ge_two_pow_of_testBit h
  exact (Nat.le_log2 (by have := Nat.two_pow_pos v; omega)).mpr hbits

@[simp] theorem mem_toList : v ∈ s.toList ↔ v ∈ s := by
  rw [toList, List.mem_filter, List.mem_range, decide_eq_true_eq, and_iff_right_of_imp]
  exact fun h => Nat.lt_succ_of_le (le_log2 h)

theorem nodup_toList (s : VertexSet) : s.toList.Nodup := List.nodup_range.filter _

/-- A set has at least `n` members when there are `n` distinct ones. -/
theorem le_card_iff : n ≤ s.card ↔ ∃ l : List Nat, l.Nodup ∧ (∀ v ∈ l, v ∈ s) ∧ l.length = n := by
  constructor
  · intro h
    refine ⟨s.toList.take n, s.nodup_toList.sublist (List.take_sublist _ _), fun v hv => ?_, ?_⟩
    · exact mem_toList.mp (List.mem_of_mem_take hv)
    · rw [List.length_take]
      exact Nat.min_eq_left h
  · rintro ⟨l, hl, hs, rfl⟩
    exact hl.length_le_of_subset fun v hv => mem_toList.mpr (hs v hv)

/-- A set of at least three members has one that is neither of two given vertices. -/
theorem exists_mem_ne_ne (h : 3 ≤ s.card) (i j : Nat) : ∃ x ∈ s, x ≠ i ∧ x ≠ j := by
  obtain ⟨l, hl, hmem, hlength⟩ := le_card_iff.mp h
  by_contra hno
  push Not at hno
  have hsub : l ⊆ [i, j] := by
    intro x hx
    by_cases hxi : x = i
    · simp [hxi]
    · simp [hno x (hmem x hx) hxi]
  have hle := hl.length_le_of_subset hsub
  rw [hlength] at hle
  simp at hle

theorem exists_mem_of_ne_empty (h : s ≠ ∅) : ∃ v, v ∈ s := by
  by_contra hnone
  refine h (ext_mem fun v => iff_of_false (fun hv => hnone ⟨v, hv⟩) (not_mem_empty v))

end VertexSet

end MutationFinite
