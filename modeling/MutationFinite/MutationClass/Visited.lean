import MutationFinite.Equivalence.Checker
import MutationFinite.LinkRecord

/-!
# Visited matrices

What a walk remembers of the matrices it found: each stored matrix with its link record.

* `Visited`: the operations that a walk needs.
* `ExactVisited`: matrices identified when they are equal.
* `CollapsedVisited`: one representative for all matrices equal up to relabelling, found through
  its fingerprint and an oracle for witnesses; marks spread along automorphism orbits.
-/

namespace MutationFinite

/-- The store of visited matrices of a walk. -/
class Visited (V : Type) where
  /-- If a stored matrix is identified with `m`, marks on it the edge that leads back along the
  mutation of `m` at `k`, and says whether that edge was unmarked. -/
  reach : V → (m : ExchangeMatrix) → (k : Nat) → Option Bool × V
  /-- Stores a matrix that is not identified with a stored one, with one edge marked or none. -/
  insert : V → (m : ExchangeMatrix) → (back : Option Nat) → V
  /-- The record of a stored matrix. -/
  record? : V → (m : ExchangeMatrix) → Option LinkRecord
  /-- Marks the edge at `k` of a stored matrix. -/
  mark : V → (m : ExchangeMatrix) → (k : Nat) → V
  /-- Gives up a stored matrix, and says whether it was stored. -/
  remove : V → (m : ExchangeMatrix) → Bool × V
  /-- The number of stored matrices. -/
  size : V → Nat

/-- `r` with the edge `back` marked, if there is one. -/
def LinkRecord.markBack (r : LinkRecord) (back : Option Nat) : LinkRecord :=
  match back with
  | none => r
  | some k => (r.mark k).2

/-- Matrices of rank `rank`, identified when they are equal. -/
structure ExactVisited where
  rank : Nat
  records : Std.HashMap ExchangeMatrix LinkRecord

namespace ExactVisited

/-- The empty store. -/
def new (rank : Nat) : ExactVisited := ⟨rank, ∅⟩

instance : Visited ExactVisited where
  reach := fun ⟨rank, records⟩ m k =>
    match records[m]? with
    | none => (none, ⟨rank, records⟩)
    | some r =>
      let (fresh, r) := r.mark k
      (some fresh, ⟨rank, records.insert m r⟩)
  insert := fun ⟨rank, records⟩ m back =>
    ⟨rank, records.insert m ((LinkRecord.new rank).markBack back)⟩
  record? v m := v.records[m]?
  mark := fun ⟨rank, records⟩ m k =>
    match records[m]? with
    | none => ⟨rank, records⟩
    | some r => ⟨rank, records.insert m (r.mark k).2⟩
  remove := fun ⟨rank, records⟩ m => (records.contains m, ⟨rank, records.erase m⟩)
  size v := v.records.size

end ExactVisited

/-- Where witnesses come from. -/
inductive Oracle where
  /-- A checker that remembers its answers. -/
  | cached (checker : EquivalenceChecker)
  /-- A search for each question. -/
  | direct

namespace Oracle

/-- A permutation of the mutable vertices that carries `a` to `b`. -/
def witness (o : Oracle) (a b : ExchangeMatrix) : Option Permutation × Oracle :=
  match o with
  | cached checker =>
    let (found, checker) := checker.witness a b
    (found, cached checker)
  | direct => (a.findWitness? b, direct)

end Oracle

/-- A representative and its record. -/
structure Slot where
  representative : ExchangeMatrix
  links : LinkRecord

/-- Representatives of rank `rank`, by fingerprint. -/
structure CollapsedVisited where
  rank : Nat
  oracle : Oracle
  buckets : Std.HashMap Fingerprint (List Slot)
  size : Nat

namespace CollapsedVisited

/-- The empty store with an oracle. -/
def new (rank : Nat) (oracle : Oracle) : CollapsedVisited := ⟨rank, oracle, ∅, 0⟩

/-- The first slot whose representative `m` is equivalent to has the image of `k` marked; the
answer says whether there is such a slot and whether the image was unmarked. -/
def reachSlots (oracle : Oracle) (m : ExchangeMatrix) (k : Nat) :
    List Slot → Option Bool × List Slot × Oracle
  | [] => (none, [], oracle)
  | slot :: rest =>
    match oracle.witness m slot.representative with
    | (some p, oracle) =>
      let (fresh, links) := slot.links.mark (p.apply k)
      (some fresh, ⟨slot.representative, links⟩ :: rest, oracle)
    | (none, oracle) =>
      let (fresh, rest, oracle) := reachSlots oracle m k rest
      (fresh, slot :: rest, oracle)

/-- The slots without the first one of representative `m`, whose place the last one takes. -/
def removeSlot (m : ExchangeMatrix) (slots : List Slot) : List Slot :=
  let before := slots.takeWhile fun slot => slot.representative ≠ m
  match slots.drop before.length with
  | [] => slots
  | [_] => before
  | _ :: next :: rest => before ++ (next :: rest).getLast (by simp) :: (next :: rest).dropLast

/-- The slots with the edge at `k` of representative `m` marked. -/
def markSlot (m : ExchangeMatrix) (k : Nat) : List Slot → List Slot
  | [] => []
  | slot :: rest =>
    if slot.representative = m then ⟨m, (slot.links.mark k).2⟩ :: rest
    else slot :: markSlot m k rest

instance : Visited CollapsedVisited where
  reach := fun ⟨rank, oracle, buckets, size⟩ m k =>
    let key := Fingerprint.of m
    match buckets[key]? with
    | none => (none, ⟨rank, oracle, buckets, size⟩)
    | some slots =>
      let (fresh, slots, oracle) := reachSlots oracle m k slots
      (fresh, ⟨rank, oracle, buckets.insert key slots, size⟩)
  insert := fun ⟨rank, oracle, buckets, size⟩ m back =>
    let key := Fingerprint.of m
    let links := (LinkRecord.withOrbits rank m.automorphismOrbits).markBack back
    ⟨rank, oracle, buckets.insert key (buckets.getD key [] ++ [⟨m, links⟩]), size + 1⟩
  record? v m :=
    ((v.buckets.getD (Fingerprint.of m) []).find? fun slot => slot.representative = m).map
      Slot.links
  mark := fun ⟨rank, oracle, buckets, size⟩ m k =>
    let key := Fingerprint.of m
    match buckets[key]? with
    | none => ⟨rank, oracle, buckets, size⟩
    | some slots => ⟨rank, oracle, buckets.insert key (markSlot m k slots), size⟩
  remove := fun ⟨rank, oracle, buckets, size⟩ m =>
    let key := Fingerprint.of m
    match buckets[key]? with
    | none => (false, ⟨rank, oracle, buckets, size⟩)
    | some slots =>
      if slots.any fun slot => slot.representative = m then
        match removeSlot m slots with
        | [] => (true, ⟨rank, oracle, buckets.erase key, size - 1⟩)
        | slots => (true, ⟨rank, oracle, buckets.insert key slots, size - 1⟩)
      else (false, ⟨rank, oracle, buckets, size⟩)
  size v := v.size

end CollapsedVisited

end MutationFinite
