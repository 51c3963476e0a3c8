/-!
# Entries

An entry of an exchange matrix is an integer in the 32-bit two's complement range.  The
arithmetic on entries is the arithmetic of the integers, checked at every intermediate value:
an operation whose name ends in `?` answers `none` exactly when its value leaves the range.
The unchecked `neg` and `abs` wrap around, so that they leave the least entry as it is.

* `Entry.ofInt?`: the entry with a given value, if it is in range.
* `Entry.mutated?`: the value that mutation gives to an entry away from the pivot row and
  column, computed from the entry, its column neighbour and its row neighbour.
-/

namespace MutationFinite

/-- An integer between `-2³¹` and `2³¹ - 1`. -/
@[ext] structure Entry where
  val : Int
  least_le : -2147483648 ≤ val
  le_greatest : val ≤ 2147483647

namespace Entry

/-- `x` is the value of an entry. -/
def InRange (x : Int) : Prop := -2147483648 ≤ x ∧ x ≤ 2147483647

instance (x : Int) : Decidable (InRange x) := inferInstanceAs (Decidable (_ ∧ _))

theorem inRange_val (e : Entry) : InRange e.val := ⟨e.least_le, e.le_greatest⟩

instance : DecidableEq Entry := fun a b =>
  if h : a.val = b.val then .isTrue (Entry.ext h) else .isFalse fun e => h (congrArg val e)

instance : Hashable Entry := ⟨fun e => hash e.val⟩

instance : Ord Entry := ⟨fun a b => compare a.val b.val⟩

instance : OfNat Entry 0 := ⟨⟨0, by decide, by decide⟩⟩

instance : OfNat Entry 1 := ⟨⟨1, by decide, by decide⟩⟩

instance : Inhabited Entry := ⟨0⟩

instance : ToString Entry := ⟨fun e => toString e.val⟩

/-- The entry of value `x`. -/
@[inline] def ofInt? (x : Int) : Option Entry :=
  if h : InRange x then some ⟨x, h.1, h.2⟩ else none

/-- The entry of value `x`, and `0` where there is none. -/
def ofInt (x : Int) : Entry := (ofInt? x).getD 0

@[inline] def neg? (a : Entry) : Option Entry := ofInt? (-a.val)

@[inline] def abs? (a : Entry) : Option Entry := ofInt? a.val.natAbs

@[inline] def add? (a b : Entry) : Option Entry := ofInt? (a.val + b.val)

@[inline] def mul? (a b : Entry) : Option Entry := ofInt? (a.val * b.val)

/-- The opposite entry; the least entry, which has none, stays. -/
def neg (a : Entry) : Entry := a.neg?.getD a

/-- The absolute value; the least entry, which has none, stays. -/
protected def abs (a : Entry) : Entry := a.abs?.getD a

/-- Half of `a`, rounded toward zero. -/
def half (a : Entry) : Entry :=
  have bounds : InRange (a.val.tdiv 2) := by
    have := a.least_le
    have := a.le_greatest
    have : Int.sign 2 = 1 := rfl
    unfold InRange
    rw [Int.tdiv_eq_ediv]
    split <;> omega
  ⟨a.val.tdiv 2, bounds.1, bounds.2⟩

/-- The value `b_ij + (|b_ik| * b_kj + b_ik * |b_kj|) / 2`, each step of which must be an entry. -/
@[inline] def mutated? (ij ik kj : Entry) : Option Entry := do
  let left ← (← ik.abs?).mul? kj
  let right ← ik.mul? (← kj.abs?)
  ij.add? (← left.add? right).half

theorem ofInt?_eq_some {x : Int} {e : Entry} : ofInt? x = some e ↔ e.val = x := by
  unfold ofInt?
  split
  · simp [Entry.ext_iff, eq_comm]
  · rename_i h
    simp only [reduceCtorEq, false_iff]
    rintro rfl
    exact h e.inRange_val

@[simp] theorem ofInt?_val (e : Entry) : ofInt? e.val = some e := ofInt?_eq_some.mpr rfl

/-- The opposite of an entry other than the least one has the opposite value. -/
theorem val_neg (a : Entry) :
    a.neg.val = if a.val = -2147483648 then a.val else -a.val := by
  have := a.least_le
  have := a.le_greatest
  unfold neg neg? ofInt?
  split
  · next h =>
    rw [if_neg fun hleast => by unfold InRange at h; omega]
    rfl
  · next h =>
    rw [if_pos (by unfold InRange at h; omega)]
    rfl

/-- The absolute value of an entry other than the least one is that of its value. -/
theorem val_abs (a : Entry) :
    a.abs.val = if a.val = -2147483648 then a.val else a.val.natAbs := by
  have := a.least_le
  have := a.le_greatest
  unfold Entry.abs abs? ofInt?
  split
  · next h =>
    rw [if_neg fun hleast => by unfold InRange at h; omega]
    rfl
  · next h =>
    rw [if_pos (by unfold InRange at h; omega)]
    rfl

end Entry

end MutationFinite
