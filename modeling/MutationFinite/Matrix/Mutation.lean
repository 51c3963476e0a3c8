import MutationFinite.Matrix.Basic

/-!
# Mutation

Mutation at a mutable vertex `k` negates row `k` and column `k` and adds
`(|b_ik| * b_kj + b_ik * |b_kj|) / 2` to every other cell.  It is undefined when a value on the way
leaves the range of entries.

* `mutatedCell?`: the new value of one cell.
* `overwriteMutated`: the mutated cells written one after another over a buffer, up to the first
  that is undefined.
* `mutate?`: the mutated matrix, or why there is none.
-/

namespace MutationFinite

namespace ExchangeMatrix

/-- The value of cell `(i, j)` after mutation at `k`. -/
@[inline] def mutatedCell? (m : ExchangeMatrix) (k i j : Nat) : Option Entry :=
  if i = k ∨ j = k then (m.cell i j).neg?
  else Entry.mutated? (m.cell i j) (m.cell i k) (m.cell k j)

/-- Writes the cells of the mutation of `m` at `k` over `out` from position `p` on, in row order,
until one is undefined; says whether all were defined. -/
def writeMutated (m : ExchangeMatrix) (k : Nat) (out : Array Entry) (p : Nat) :
    Array Entry × Bool :=
  if p < m.entries.size then
    match m.mutatedCell? k (p / m.cols) (p % m.cols) with
    | none => (out, false)
    | some e => m.writeMutated k (out.setIfInBounds p e) (p + 1)
  else (out, true)
termination_by m.entries.size - p

theorem size_writeMutated (m : ExchangeMatrix) (k : Nat) (out : Array Entry) (p : Nat) :
    (m.writeMutated k out p).1.size = out.size := by
  fun_induction writeMutated m k out p with
  | case1 => rfl
  | case2 out p _ e _ ih => simpa using ih
  | case3 => rfl

/-- `out` with the cells of the mutation of `m` at `k` written over it, and whether all of them
are defined. -/
def overwriteMutated (m : ExchangeMatrix) (k : Nat) (out : ExchangeMatrix) :
    ExchangeMatrix × Bool :=
  match out with
  | ⟨rows, cols, entries, size_entries⟩ =>
    let written := m.writeMutated k entries 0
    (⟨rows, cols, written.1, (m.size_writeMutated k entries 0).trans size_entries⟩, written.2)

/-- Writes the mutation of `m` at `k` into `out`, a matrix of the shape of `m`.  The answer is the
buffer afterwards and the error, if a cell is undefined. -/
def mutateInto (m : ExchangeMatrix) (k : Nat) (out : ExchangeMatrix) :
    Except Misuse (ExchangeMatrix × Option Error) :=
  if m.rank ≤ k then .error (.pivotOutOfRange k m.rank)
  else if ¬ SameShape out m then .error .bufferShape
  else
    let written := m.overwriteMutated k out
    .ok (written.1, if written.2 then none else some (.entryOverflow k))

/-- The mutation of `m` at `k`. -/
def mutate? (m : ExchangeMatrix) (k : Nat) : Except Error ExchangeMatrix :=
  if m.rank ≤ k then .error (.mutationIndexOutOfRange k m.rank)
  else
    let written := m.overwriteMutated k (zeros m.rows m.cols)
    if written.2 then .ok written.1 else .error (.entryOverflow k)

/-- The mutation of `m` at `k`, which the caller promises to be defined. -/
def mutate (m : ExchangeMatrix) (k : Nat) : Except Misuse ExchangeMatrix :=
  match m.mutate? k with
  | .ok next => .ok next
  | .error cause => .error (.undefinedMutation cause)

end ExchangeMatrix

end MutationFinite
