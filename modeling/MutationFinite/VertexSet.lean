/-!
# Vertex sets

A finite set of vertices, kept as a natural number whose bit `v` says whether vertex `v` is a
member.  Components, orbits and marks of explored edges are vertex sets.

* `mem_iff_testBit`: membership is the bit.
* `mem_union`, `mem_diff`, `mem_singleton`, `mem_below`: the members of each construction.
-/

namespace MutationFinite

/-- A finite set of vertices. -/
@[ext] structure VertexSet where
  bits : Nat
deriving DecidableEq

namespace VertexSet

instance : Membership Nat VertexSet := ⟨fun s v => s.bits.testBit v = true⟩

instance (v : Nat) (s : VertexSet) : Decidable (v ∈ s) :=
  inferInstanceAs (Decidable (s.bits.testBit v = true))

instance : EmptyCollection VertexSet := ⟨⟨0⟩⟩

instance : Union VertexSet := ⟨fun s t => ⟨s.bits ||| t.bits⟩⟩

instance : Singleton Nat VertexSet := ⟨fun v => ⟨1 <<< v⟩⟩

/-- The members of `s` outside `t`. -/
instance : SDiff VertexSet := ⟨fun s t => ⟨s.bits ^^^ (s.bits &&& t.bits)⟩⟩

/-- The vertices below `n`. -/
def below (n : Nat) : VertexSet := ⟨(1 <<< n) - 1⟩

/-- The vertices below `n` that satisfy `p`. -/
def filterBelow (n : Nat) (p : Nat → Bool) : VertexSet :=
  (List.range n).foldl (fun s v => if p v then s ∪ {v} else s) ∅

/-- The members of `s`, in increasing order. -/
def toList (s : VertexSet) : List Nat :=
  (List.range (s.bits.log2 + 1)).filter (· ∈ s)

/-- The number of members. -/
def card (s : VertexSet) : Nat := s.toList.length

theorem mem_iff_testBit {v : Nat} {s : VertexSet} : v ∈ s ↔ s.bits.testBit v = true := .rfl

@[simp] theorem not_mem_empty (v : Nat) : v ∉ (∅ : VertexSet) := by
  show ¬ Nat.testBit 0 v = true
  simp

@[simp] theorem mem_union {v : Nat} {s t : VertexSet} : v ∈ s ∪ t ↔ v ∈ s ∨ v ∈ t := by
  show (s.bits ||| t.bits).testBit v = true ↔ s.bits.testBit v = true ∨ t.bits.testBit v = true
  simp [Nat.testBit_or]

@[simp] theorem mem_diff {v : Nat} {s t : VertexSet} : v ∈ s \ t ↔ v ∈ s ∧ v ∉ t := by
  show (s.bits ^^^ (s.bits &&& t.bits)).testBit v = true ↔
    s.bits.testBit v = true ∧ ¬ t.bits.testBit v = true
  simp only [Nat.testBit_xor, Nat.testBit_and]
  cases s.bits.testBit v <;> cases t.bits.testBit v <;> simp

@[simp] theorem mem_singleton {v w : Nat} : v ∈ ({w} : VertexSet) ↔ v = w := by
  show (1 <<< w).testBit v = true ↔ v = w
  rw [Nat.shiftLeft_eq, Nat.one_mul, Nat.testBit_two_pow]
  simp [eq_comm]

@[simp] theorem mem_below {v n : Nat} : v ∈ below n ↔ v < n := by
  show ((1 <<< n) - 1).testBit v = true ↔ v < n
  simp [Nat.shiftLeft_eq, Nat.testBit_two_pow_sub_one]

/-- Two vertex sets with the same members are equal. -/
theorem ext_mem {s t : VertexSet} (h : ∀ v, v ∈ s ↔ v ∈ t) : s = t := by
  apply VertexSet.ext
  apply Nat.eq_of_testBit_eq
  intro v
  have := h v
  simp only [mem_iff_testBit] at this
  cases hs : s.bits.testBit v <;> cases ht : t.bits.testBit v <;> simp_all

end VertexSet

end MutationFinite
