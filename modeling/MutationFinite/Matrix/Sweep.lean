import MutationFinite.Error
import MutationFinite.Matrix.Mutation

/-!
# Sweeps

The cells of a mutation, computed row by row and from left to right in each row, and written one
after another into a buffer.  A sweep ends at the first cell that is undefined; what it wrote before
stays in the buffer.

* `sweepCell`, `sweepRow`: one cell, and the cells of one row.
* `sweep`: the cells of all rows.
-/

namespace MutationFinite

/-- A computation that writes into a buffer of entries, and may fail on the way. -/
abbrev SweepM (α : Type) := ExceptT Error (StateM (Array Entry)) α

namespace ExchangeMatrix

/-- Writes the cell `(i, j)` of the mutation of `m` at `k`, where `ik` is the cell `(i, k)`. -/
def sweepCell (m : ExchangeMatrix) (k i : Nat) (ik : Entry) (j : Nat) : SweepM Unit := do
  let ij := m.cell i j
  match if i = k ∨ j = k then ij.neg? else Entry.mutated? ij ik (m.cell k j) with
  | none => throw (.entryOverflow k)
  | some e => modify fun out => out.setIfInBounds (i * m.cols + j) e

/-- Writes the cells of row `i`. -/
def sweepRow (m : ExchangeMatrix) (k i : Nat) : SweepM Unit := do
  let ik := m.cell i k
  forM (List.range m.cols) fun j => m.sweepCell k i ik j

/-- Writes the cells of all rows. -/
def sweep (m : ExchangeMatrix) (k : Nat) : SweepM Unit :=
  forM (List.range m.rows) fun i => m.sweepRow k i

end ExchangeMatrix

end MutationFinite
