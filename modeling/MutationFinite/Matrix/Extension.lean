import MutationFinite.Matrix.Basic

/-!
# One-vertex extensions

The extensions of a square matrix by one more vertex whose arrows have weights between `-w` and
`w`, not all of them `0`.  The weight vectors are numbered like the readings of an odometer with
`2 w + 1` digits on each wheel, the first wheel turning fastest, the all-zero reading left out.

* `Extensions.get`: the extension with a given number.
* `Extensions.count`, `Extensions.total`: how many there are, and the count as a 64-bit word.
-/

namespace MutationFinite

/-- The one-vertex extensions of `base`, of size `n`, by weights between `-weight` and `weight`. -/
structure Extensions where
  base : ExchangeMatrix
  weight : Nat
deriving DecidableEq

namespace Extensions

/-- The number of values of one weight. -/
def radix (x : Extensions) : Nat := 2 * x.weight + 1

/-- The number of weight vectors, the zero vector included. -/
def vectors (x : Extensions) : Nat := x.radix.pow x.base.rank

/-- The number of extensions. -/
def count (x : Extensions) : Nat := x.vectors - 1

/-- The number of extensions, or the greatest 64-bit word when the number of weight vectors is no
64-bit word. -/
def total (x : Extensions) : Nat :=
  if x.vectors < UInt64.size then x.count else UInt64.size - 1

/-- The number of the weight vector that extension `t` takes: the zero vector, which stands in the
middle, is passed over. -/
def reading (x : Extensions) (t : Nat) : Nat := if t < x.count / 2 then t else t + 1

/-- The weight at vertex `i` in the weight vector numbered `p`. -/
def weightAt (x : Extensions) (p i : Nat) : Int :=
  (p / x.radix.pow i % x.radix : Nat) - (x.weight : Int)

/-- The square matrix `base` with a last vertex whose arrow to vertex `i` has weight `w i`. -/
def attach (base : ExchangeMatrix) (w : Nat → Int) : ExchangeMatrix :=
  let n := base.rank
  ExchangeMatrix.ofFn (n + 1) (n + 1) fun i j =>
    if i < n then (if j < n then base.cell i j else Entry.ofInt (-w i))
    else if j < n then Entry.ofInt (w j) else 0

/-- The extension numbered `t`, for `t` below `count`. -/
def get (x : Extensions) (t : Nat) : ExchangeMatrix :=
  attach x.base (x.weightAt (x.reading t))

/-- The extensions numbered from `first` on, at most `most` of them. -/
def slice (x : Extensions) (first most : Nat) : List ExchangeMatrix :=
  (List.range (min most (x.count - first))).map fun t => x.get (first + t)

end Extensions

/-- The one-vertex extensions of a square matrix by weights of absolute value at most that of
`maxWeight`. -/
def ExchangeMatrix.extensions (m : ExchangeMatrix) (maxWeight : Entry) :
    Except Error Extensions :=
  if m.isSquare then .ok ⟨m, maxWeight.val.natAbs⟩ else .error (.notSquare m.rows m.cols)

end MutationFinite
