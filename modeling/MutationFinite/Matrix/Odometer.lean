import MutationFinite.Matrix.Extension

/-!
# Extensions one after another

The weight vectors as the readings of an odometer that moves on by one reading at a time: the first
wheel that does not show the greatest weight shows the next one, and the wheels before it go back to
the least.

* `advance?`: the reading after another one, and `none` when all wheels go back.
* `start`, `turn?`: the iteration over the extensions, which passes over the reading of zeros only.
* `readingsLeft_advance?`: there are fewer readings left after each move, so that a turn ends.
-/

namespace MutationFinite

namespace Extensions

/-- The reading after `wheels`, if that is not the last. -/
def advance? (greatest : Nat) : List Int → Option (List Int)
  | [] => none
  | w :: wheels =>
    if w < greatest then some ((w + 1) :: wheels)
    else (advance? greatest wheels).map (-(greatest : Int) :: ·)

/-- How far the wheels are from the last reading. -/
def readingsLeft (greatest : Nat) : List Int → Nat
  | [] => 0
  | w :: wheels => (greatest - w).toNat + (2 * greatest + 1) * readingsLeft greatest wheels

theorem readingsLeft_advance? {greatest : Nat} {wheels next : List Int}
    (h : advance? greatest wheels = some next) :
    readingsLeft greatest next < readingsLeft greatest wheels := by
  induction wheels generalizing next with
  | nil => cases h
  | cons w wheels ih =>
      rw [advance?] at h
      split at h
      · cases h
        simp only [readingsLeft]
        omega
      · obtain ⟨rest, hrest, rfl⟩ := Option.map_eq_some_iff.mp h
        have hless : (2 * greatest + 1) * (readingsLeft greatest rest + 1) ≤
            (2 * greatest + 1) * readingsLeft greatest wheels := Nat.mul_le_mul_left _ (ih hrest)
        simp only [readingsLeft]
        rw [Nat.mul_add] at hless
        omega

/-- The first reading, on which all wheels show the least weight; there is none without wheels, or
with a single weight on each. -/
def start (x : Extensions) : Option (List Int) :=
  if x.base.rank = 0 ∨ x.weight = 0 then none
  else some (List.replicate x.base.rank (-(x.weight : Int)))

/-- One turn of the iteration over extensions: the extension by the weights on the wheels, if there
are any, and the reading after them; a reading of zeros only is passed over. -/
def turn? (x : Extensions) : Option (List Int) → Option (ExchangeMatrix × Option (List Int))
  | none => none
  | some wheels =>
    if wheels.all (· == 0) then
      match _h : advance? x.weight wheels with
      | none => none
      | some next => x.turn? (some next)
    else some (attach x.base fun i => wheels.getD i 0, advance? x.weight wheels)
termination_by wheels => (wheels.map (readingsLeft x.weight)).getD 0
decreasing_by exact readingsLeft_advance? _h

end Extensions

end MutationFinite
