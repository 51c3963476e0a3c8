import MutationFinite.MutationClass.Visited
import MutationFinite.Proofs.LinkRecord.Marks
import MutationFinite.Proofs.Relabelling.Action

/-!
# The contract of stores of visited matrices

A store of visited matrices is a map from matrices to link records, seen through
`Visited.record?`.  Each operation is determined by what it does to this map, so that a walk need
not know how the store finds a matrix.

* `RecordOf`: a record has an edge for each mutable vertex, and its orbits are those of the
  identification.
* `StoreLaws`: the contract.
* `exactLaws`: the store of equal matrices keeps it.
-/

namespace MutationFinite

open ExchangeMatrix

/-- The record `r` has an edge for each mutable vertex of `x`, and its orbits are those of the
admitted automorphisms. -/
structure RecordOf (I : Identification) (x : ExchangeMatrix) (r : LinkRecord) : Prop where
  size : r.size = x.rank
  orbit : ∀ k < x.rank, ∀ w, w ∈ r.orbit k ↔ I.SameVertex x k w

theorem RecordOf.mark {I : Identification} {x : ExchangeMatrix} {r : LinkRecord}
    (h : RecordOf I x r) (k : Nat) : RecordOf I x (r.mark k).2 :=
  ⟨h.size, h.orbit⟩

theorem RecordOf.markBack {I : Identification} {x : ExchangeMatrix} {r : LinkRecord}
    (h : RecordOf I x r) (back : Option Nat) : RecordOf I x (r.markBack back) := by
  cases back with
  | none => exact h
  | some k => exact h.mark k

/-- The vertices of one orbit are marked together. -/
theorem RecordOf.orbit_eq {I : Identification} {x : ExchangeMatrix} {r : LinkRecord} {j k : Nat}
    (h : RecordOf I x r) (hj : j < x.rank) (hv : I.SameVertex x j k) : r.orbit j = r.orbit k := by
  refine VertexSet.ext_mem fun w => ?_
  rw [h.orbit j hj, h.orbit k (hv.lt hj)]
  exact ⟨hv.symm.trans, hv.trans⟩

/-- The record of `x` is `r` after a step that changes no other record. -/
def Sets {V : Type} [Visited V] (v v' : V) (x : ExchangeMatrix) (r : Option LinkRecord) : Prop :=
  ∀ y, Visited.record? v' y = if y = x then r else Visited.record? v y

/-- What the operations do to the records of a valid store of matrices of rank `n`. -/
structure StoreLaws {V : Type} [Visited V] (I : Identification) (n : Nat) (Valid : V → Prop) :
    Prop where
  recordOf : ∀ {v x r}, Valid v → Visited.record? v x = some r → RecordOf I x r
  reach_none : ∀ {v v' m k}, Valid v → m.rank = n → Visited.reach v m k = (none, v') →
    Valid v' ∧ (∀ y, Visited.record? v' y = Visited.record? v y) ∧
      ∀ z r, Visited.record? v z = some r → ¬ I.Same m z
  reach_some : ∀ {v v' m k fresh}, Valid v → m.rank = n → k < n →
    Visited.reach v m k = (some fresh, v') →
    ∃ z r p, Visited.record? v z = some r ∧ I.admits p ∧ Carries p m z ∧
      fresh = !r.isMarked (p.apply k) ∧ Valid v' ∧ Sets v v' z (some (r.mark (p.apply k)).2)
  insert : ∀ {v m} back, Valid v → m.rank = n → Visited.record? v m = none →
    ∃ r, RecordOf I m r ∧ r.marked = ∅ ∧ Valid (Visited.insert v m back) ∧
      Sets v (Visited.insert v m back) m (some (r.markBack back))
  mark : ∀ {v m r} k, Valid v → Visited.record? v m = some r →
    Valid (Visited.mark v m k) ∧ Sets v (Visited.mark v m k) m (some (r.mark k).2)
  remove : ∀ {v m r}, Valid v → Visited.record? v m = some r →
    (Visited.remove v m).1 = true ∧ Valid (Visited.remove v m).2 ∧
      Sets v (Visited.remove v m).2 m none

/-! ### The store of equal matrices -/

namespace ExactVisited

/-- The store holds records of matrices of rank `n` with single vertices as orbits. -/
structure Valid (n : Nat) (v : ExactVisited) : Prop where
  rank : v.rank = n
  records : ∀ (x : ExchangeMatrix) (r : LinkRecord), v.records[x]? = some r →
    RecordOf .equality x r

theorem record?_eq (v : ExactVisited) (x : ExchangeMatrix) :
    Visited.record? v x = v.records[x]? := rfl

theorem recordOf_new (x : ExchangeMatrix) : RecordOf .equality x (.new x.rank) := by
  refine ⟨rfl, fun k _ w => ?_⟩
  rw [Identification.sameVertex_equality_iff]
  exact VertexSet.mem_singleton.trans eq_comm

theorem valid_new (n : Nat) : Valid n (.new n) := ⟨rfl, by simp [new]⟩

theorem record?_new {n : Nat} (x : ExchangeMatrix) : Visited.record? (new n) x = none := by
  simp [record?_eq, new]

variable {n : Nat} {v : ExactVisited} {m : ExchangeMatrix} {r : LinkRecord}

/-- Setting one record of the table. -/
theorem sets_insert (records : Std.HashMap ExchangeMatrix LinkRecord) (rank rank' : Nat)
    (m : ExchangeMatrix) (r : LinkRecord) :
    Sets (V := ExactVisited) ⟨rank, records⟩ ⟨rank', records.insert m r⟩ m (some r) := by
  intro y
  simp only [record?_eq, Std.HashMap.getElem?_insert, beq_iff_eq]
  by_cases h : m = y
  · rw [if_pos h, if_pos h.symm]
  · rw [if_neg h, if_neg (Ne.symm h)]

theorem Valid.insert (h : Valid n v) (hr : RecordOf .equality m r) :
    Valid n ⟨v.rank, v.records.insert m r⟩ := by
  refine ⟨h.rank, fun x s hs => ?_⟩
  have hsets := sets_insert v.records v.rank v.rank m r x
  rw [record?_eq, record?_eq] at hsets
  rw [show (v.records.insert m r)[x]? = _ from hsets] at hs
  split at hs
  · next hx => obtain rfl := Option.some.inj hs; exact hx ▸ hr
  · exact h.records x s hs

/-- A matrix without a record is not found. -/
theorem reach_none {v' : ExactVisited} {k : Nat} (h : Valid n v)
    (hreach : Visited.reach v m k = (none, v')) :
    Valid n v' ∧ (∀ y, Visited.record? v' y = Visited.record? v y) ∧
      ∀ z r, Visited.record? v z = some r → ¬ Identification.equality.Same m z := by
  obtain ⟨rank, records⟩ := v
  simp only [Visited.reach] at hreach
  split at hreach
  · next hnone =>
    cases hreach
    refine ⟨h, fun _ => rfl, fun z r hz hs => ?_⟩
    rw [Identification.same_equality_iff.mp hs] at hnone
    cases hnone.symm.trans hz
  · cases hreach

/-- A matrix with a record is found as it is. -/
theorem reach_some {v' : ExactVisited} {k : Nat} {fresh : Bool} (h : Valid n v)
    (hreach : Visited.reach v m k = (some fresh, v')) :
    ∃ z r p, Visited.record? v z = some r ∧ Identification.equality.admits p ∧ Carries p m z ∧
      fresh = !r.isMarked (p.apply k) ∧ Valid n v' ∧ Sets v v' z (some (r.mark (p.apply k)).2) := by
  obtain ⟨rank, records⟩ := v
  simp only [Visited.reach] at hreach
  split at hreach
  · cases hreach
  · next r hr =>
    cases hreach
    refine ⟨m, r, .identity m.rank, hr, Identification.equality.identity _, carries_identity m, ?_⟩
    rw [Permutation.apply_identity]
    exact ⟨rfl, h.insert ((h.records m r hr).mark k), sets_insert records rank rank m _⟩

theorem insert (back : Option Nat) (h : Valid n v) (hm : m.rank = n) :
    ∃ r, RecordOf .equality m r ∧ r.marked = ∅ ∧ Valid n (Visited.insert v m back) ∧
      Sets v (Visited.insert v m back) m (some (r.markBack back)) := by
  have hr : RecordOf .equality m (.new v.rank) := by
    rw [h.rank, ← hm]
    exact recordOf_new m
  exact ⟨_, hr, rfl, h.insert (hr.markBack back), sets_insert _ _ _ _ _⟩

theorem mark (k : Nat) (h : Valid n v) (hr : Visited.record? v m = some r) :
    Valid n (Visited.mark v m k) ∧ Sets v (Visited.mark v m k) m (some (r.mark k).2) := by
  obtain ⟨rank, records⟩ := v
  have hrec : records[m]? = some r := hr
  have hmark : Visited.mark (V := ExactVisited) ⟨rank, records⟩ m k =
      ⟨rank, records.insert m (r.mark k).2⟩ := by
    simp only [Visited.mark, hrec]
  rw [hmark]
  exact ⟨h.insert ((h.records m r hr).mark k), sets_insert _ _ _ _ _⟩

/-- Removing one record of the table. -/
theorem sets_erase (records : Std.HashMap ExchangeMatrix LinkRecord) (rank : Nat)
    (m : ExchangeMatrix) :
    Sets (V := ExactVisited) ⟨rank, records⟩ ⟨rank, records.erase m⟩ m none := by
  intro y
  simp only [record?_eq, Std.HashMap.getElem?_erase, beq_iff_eq]
  by_cases hy : m = y
  · rw [if_pos hy, if_pos hy.symm]
  · rw [if_neg hy, if_neg (Ne.symm hy)]

theorem remove (h : Valid n v) (hr : Visited.record? v m = some r) :
    (Visited.remove v m).1 = true ∧ Valid n (Visited.remove v m).2 ∧
      Sets v (Visited.remove v m).2 m none := by
  obtain ⟨rank, records⟩ := v
  have hsets := sets_erase records rank m
  refine ⟨?_, ⟨h.rank, fun x s hs => ?_⟩, hsets⟩
  · show records.contains m = true
    rw [Std.HashMap.contains_eq_isSome_getElem?]
    exact Option.isSome_iff_exists.mpr ⟨r, hr⟩
  · have hx := hsets x
    rw [record?_eq, show (records.erase m)[x]? = some s from hs] at hx
    split at hx
    · cases hx
    · exact h.records x s hx.symm

end ExactVisited

/-- The store of equal matrices keeps the contract. -/
theorem exactLaws (n : Nat) :
    StoreLaws (V := ExactVisited) .equality n (ExactVisited.Valid n) where
  recordOf h hr := h.records _ _ hr
  reach_none h _ hreach := ExactVisited.reach_none h hreach
  reach_some h _ _ hreach := ExactVisited.reach_some h hreach
  insert back h hm _ := ExactVisited.insert back h hm
  mark := ExactVisited.mark
  remove := ExactVisited.remove

end MutationFinite
