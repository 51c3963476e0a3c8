/-!
# Arrangements in lexicographic order

The orders in which the numbers below `n` can be written, listed lexicographically.

* `arrangements`: the list, by recursion on what is left to write.
* `next?`, `turn?`, `slice`: the same order one arrangement after another, without the list.
* `PermutationSet`: all permutations of `n` points, as a list and as a table, with the weight that a
  cache gives them.
-/

namespace MutationFinite

/-- The arrangements of `n` members of `rest`, in the lexicographic order that `rest` induces. -/
def arrangements : (n : Nat) → (rest : List Nat) → List (List Nat)
  | 0, _ => [[]]
  | n + 1, rest => rest.flatMap fun v => (arrangements n (rest.erase v)).map (v :: ·)

namespace Arrangement

/-- The arrangement after `xs` of the same numbers. -/
def next? : List Nat → Option (List Nat)
  | [] => none
  | x :: xs =>
    match next? xs with
    | some ys => some (x :: ys)
    | none =>
      match xs.reverse.find? (x < ·) with
      | some y => some (y :: xs.reverse.replace y x)
      | none => none

/-- One turn of the iteration over arrangements: the current one, if any is left, and the one after
it. -/
def turn? (current : Option (List Nat)) : Option (List Nat × Option (List Nat)) :=
  current.map fun xs => (xs, next? xs)

/-- The arrangement `k` places after `xs`. -/
def advance? : Nat → List Nat → Option (List Nat)
  | 0, xs => some xs
  | k + 1, xs => (next? xs).bind (advance? k)

/-- `xs` and the arrangements after it, at most `most` of them. -/
def upFrom : (most : Nat) → List Nat → List (List Nat)
  | 0, _ => []
  | most + 1, xs =>
    match next? xs with
    | some ys => xs :: upFrom most ys
    | none => [xs]

/-- The arrangements of the numbers below `n` from place `first` on, at most `most` of them. -/
def slice (n first most : Nat) : List (List Nat) :=
  ((advance? first (List.range n)).map (upFrom most)).getD []

end Arrangement

/-- The factorial of `n`. -/
def factorial : Nat → Nat
  | 0 => 1
  | n + 1 => (n + 1) * factorial n

/-- `x`, if it is a 64-bit word. -/
def asWord? (x : Nat) : Option Nat := if x < UInt64.size then some x else none

/-- The factorial of `n`, if it is a 64-bit word; the last that is one is that of 20. -/
def factorial? (n : Nat) : Option Nat := if n ≤ 20 then some (factorial n) else none

theorem factorial_mono {m n : Nat} (h : m ≤ n) : factorial m ≤ factorial n := by
  induction h with
  | refl => exact Nat.le_refl _
  | step _ ih => exact Nat.le_trans ih (Nat.le_mul_of_pos_left _ (Nat.succ_pos _))

theorem factorial?_eq_asWord? (n : Nat) : factorial? n = asWord? (factorial n) := by
  unfold factorial? asWord?
  by_cases h : n ≤ 20
  · have := factorial_mono h
    have : factorial 20 < UInt64.size := by decide
    rw [if_pos h, if_pos (by omega)]
  · have : factorial 21 ≤ factorial n := factorial_mono (by omega)
    have : UInt64.size ≤ factorial 21 := by decide
    rw [if_neg h, if_neg (by omega)]

/-- All permutations of the numbers below `degree`. -/
structure PermutationSet where
  degree : Nat

namespace PermutationSet

/-- The image lists, in lexicographic order. -/
def toList (s : PermutationSet) : List (List Nat) := arrangements s.degree (List.range s.degree)

/-- The number of permutations. -/
def size (s : PermutationSet) : Nat := factorial s.degree

/-- The image lists one after another, as one table whose rows have `degree` members. -/
def table (s : PermutationSet) : List Nat := s.toList.flatten

/-- The number of rows of the table; without points there is the empty row only. -/
def rowCount (s : PermutationSet) : Nat :=
  if s.degree = 0 then 1 else s.table.length / s.degree

/-- The rows of the table. -/
def tableRows (s : PermutationSet) : List (List Nat) :=
  (List.range s.rowCount).map fun p =>
    if s.degree = 0 then [] else (s.table.drop (p * s.degree)).take s.degree

/-- What a cache of the permutations of `n` points weighs: their number times `n * n`, if that is
a 64-bit word. -/
def weight? (n : Nat) : Option Nat :=
  (factorial? n).bind fun count => asWord? (count * (n * n))

end PermutationSet

end MutationFinite
