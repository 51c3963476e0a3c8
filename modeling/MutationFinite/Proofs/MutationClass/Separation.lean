import MutationFinite.Proofs.MutationClass.CollapsedStore
import MutationFinite.Proofs.Relabelling.Transport

/-!
# Fingerprints do not separate equivalent matrices

A checker refuses a pair of matrices with different fingerprints before it searches, and a store of
matrices up to relabelling looks into the bucket of one fingerprint only.  Neither misses anything.

* `reachSlots_isSome`: the slots of a bucket are asked until one of them answers.
* `CollapsedVisited.reach_isSome`: a store recognises each relabelling of a matrix that it holds.
* `fingerprint_relabel`: the fingerprint of a relabelled matrix, and what checkers and stores make
  of it.
-/

namespace MutationFinite

open ExchangeMatrix

variable {n k : Nat} {m b : ExchangeMatrix} {p : Permutation}

namespace CollapsedVisited

/-- The slots are asked until one of them answers. -/
theorem reachSlots_isSome {oracle : Oracle} {slots : List Slot} {slot : Slot}
    (ho : oracle.Serves n) (hm : m.rank = n) (hslot : slot ∈ slots)
    (hc : Carries p m slot.representative) : (reachSlots oracle m k slots).1.isSome = true := by
  induction slots generalizing oracle with
  | nil => cases hslot
  | cons first rest ih =>
      obtain ⟨hanswer, ho'⟩ := Oracle.witness_isAnswer (b := first.representative) ho hm
      rcases hw : oracle.witness m first.representative with ⟨found, oracle'⟩
      rw [hw] at hanswer ho'
      cases found with
      | some q =>
          simp only [reachSlots, hw]
          rfl
      | none =>
          have hrest : slot ∈ rest := by
            refine (List.mem_cons.mp hslot).resolve_left ?_
            rintro rfl
            exact hanswer p hc
          simp only [reachSlots, hw]
          exact ih ho' hrest

/-- **A store recognises each relabelling of a matrix that it holds.** -/
theorem reach_isSome {v : CollapsedVisited} {r : LinkRecord} (ho : v.oracle.Serves m.rank)
    (hr : Visited.record? v m = some r) (hc : Carries p b m) (k : Nat) :
    (Visited.reach v b k).1.isSome = true := by
  obtain ⟨rank, oracle, buckets, size⟩ := v
  obtain ⟨slots, hslots, hrecord⟩ := exists_bucket hr
  -- the bucket of `b` is that of `m`
  have hslots' : buckets[Fingerprint.of b]? = some slots := hc.fingerprint_eq ▸ hslots
  simp only [Visited.reach, hslots']
  exact reachSlots_isSome ho hc.shape.rank_eq (mem_of_recordIn hrecord) hc

end CollapsedVisited

/-- **Fingerprints do not separate equivalent matrices.**  A relabelled matrix has the fingerprint
of the matrix, written with the same numbers; so a checker for its rank finds a witness both ways,
whatever it was asked before, and a store that holds the matrix recognises the relabelled one. -/
theorem fingerprint_relabel (m : ExchangeMatrix) (p : Permutation) (hp : p.size = m.rank) :
    Fingerprint.of (m.relabel p) = Fingerprint.of m ∧
      (Fingerprint.of (m.relabel p)).words = (Fingerprint.of m).words ∧
      (∀ c : EquivalenceChecker, c.degree = m.rank →
        (c.witness m (m.relabel p)).1.isSome = true ∧
          (c.witness (m.relabel p) m).1.isSome = true) ∧
      ∀ (v : CollapsedVisited) (k : Nat), v.oracle.Serves m.rank →
        (Visited.record? v m).isSome = true →
          (Visited.reach v (m.relabel p) k).1.isSome = true := by
  have hc : Carries p m (m.relabel p) := carries_relabel hp
  have hkey : Fingerprint.of (m.relabel p) = Fingerprint.of m := hc.fingerprint_eq.symm
  refine ⟨hkey, congrArg _ hkey, fun c hdegree => ⟨?_, ?_⟩, fun v k ho hstored => ?_⟩
  · exact IsAnswer.isSome (c.witness_isAnswer hdegree.symm) hc
  · refine IsAnswer.isSome (c.witness_isAnswer ?_) hc.inverse
    exact hc.shape.rank_eq.symm.trans hdegree.symm
  · obtain ⟨r, hr⟩ := Option.isSome_iff_exists.mp hstored
    exact CollapsedVisited.reach_isSome ho hr hc.inverse k

/-- The framed triangle, one of whose frozen entries is the number behind the parts, is recognised
with its vertices turned; the path to which it mutates has another fingerprint. -/
theorem fingerprint_relabel_turned :
    turned.size = framedTriangle.rank ∧ framedTriangle.relabel turned ≠ framedTriangle ∧
      Fingerprint.of framedPath ≠ Fingerprint.of framedTriangle ∧
      Fingerprint.of (framedTriangle.relabel turned) = Fingerprint.of framedTriangle ∧
      ((EquivalenceChecker.new 4 0).witness framedTriangle
        (framedTriangle.relabel turned)).1.isSome = true ∧
      ∀ k, (Visited.reach (Visited.insert (CollapsedVisited.new 4 .direct) framedTriangle none)
        (framedTriangle.relabel turned) k).1.isSome = true := by
  obtain ⟨hkey, -, hchecker, hstore⟩ := fingerprint_relabel framedTriangle turned (by decide)
  refine ⟨by decide, by decide, ?_, hkey, (hchecker _ rfl).1, fun k => hstore _ k trivial ?_⟩
  · intro h
    have hrows := congrArg Fingerprint.frozenRows h
    have hrow : Fingerprint.sorted [-2147483648, -3, 8, 1] =
        Fingerprint.sorted [-2147483648, 3, 5, 1] := (List.cons.inj hrows).1
    have hperm := (Fingerprint.sorted_perm _).symm.trans (hrow ▸ Fingerprint.sorted_perm _)
    revert hperm
    decide
  · have hvalid : CollapsedVisited.Valid 4 (.new 4 .direct) := CollapsedVisited.valid_new trivial
    obtain ⟨r, -, -, -, hsets⟩ := CollapsedVisited.insert (m := framedTriangle) none hvalid rfl
      (CollapsedVisited.record?_new 4 .direct framedTriangle)
    rw [hsets, if_pos rfl]
    rfl

end MutationFinite
