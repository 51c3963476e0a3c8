import MutationFinite.RandomWalk.Generator

/-!
# A generator

Numbers below a bound are drawn from a source of 32-bit words: the high half of the product of a
word and the bound, raised by one when a second word says that the low half carries.

* `Words.below`: the draw; `Words.below_lt` says that it is below its bound.
* `Words.repeating`: the source that reads a list of words over and over.
* `Xoshiro`: a generator of 64-bit outputs, of which the upper halves are the words.
-/

namespace MutationFinite

/-- A source of 32-bit words with state `σ`. -/
structure Words (σ : Type) where
  next : σ → Nat × σ

namespace Words

/-- A number below `bound`, for a bound between 1 and 2³². -/
def below {σ : Type} (words : Words σ) (bound : Nat) (s : σ) : Nat × σ :=
  let (word, s) := words.next s
  let product := word * bound
  let high := product / UInt32.size
  let low := product % UInt32.size
  if UInt32.size - bound < low then
    let (word, s) := words.next s
    (if UInt32.size ≤ low + word * bound / UInt32.size then high + 1 else high, s)
  else (high, s)

/-- The words of a list, read over and over; the state counts the words read. -/
def repeating (list : Array Nat) : Words Nat where
  next used := (list.getD (used % list.size) 0, used + 1)

/-- A word is a number of 32 bits. -/
def Bounded {σ : Type} (words : Words σ) : Prop := ∀ s, (words.next s).1 < UInt32.size

/-- A bounded draw is below its bound: the high half reaches the greatest number below the bound
only when the low half leaves no room for a carry. -/
theorem below_lt {σ : Type} {words : Words σ} (hw : words.Bounded) {bound : Nat}
    (hpos : 0 < bound) (hle : bound ≤ UInt32.size) (s : σ) : (words.below bound s).1 < bound := by
  have hword := hw s
  rcases hnext : words.next s with ⟨word, s'⟩
  rw [hnext] at hword
  have hproduct : word * bound + bound ≤ UInt32.size * bound :=
    calc word * bound + bound = (word + 1) * bound := by rw [Nat.succ_mul]
      _ ≤ UInt32.size * bound := Nat.mul_le_mul_right _ hword
  simp only [UInt32.size] at hle hword hproduct
  simp only [below, hnext, UInt32.size]
  split
  · split
    · dsimp only
      omega
    · dsimp only
      omega
  · dsimp only
    omega

end Words

/-- `x` with its bits turned to the left by `k` places, for `k` between 1 and 63. -/
def rotateLeft64 (x : UInt64) (k : UInt64) : UInt64 := (x <<< k) ||| (x >>> (64 - k))

/-- A generator state of 256 bits. -/
structure Xoshiro where
  s0 : UInt64
  s1 : UInt64
  s2 : UInt64
  s3 : UInt64
deriving DecidableEq

namespace Xoshiro

/-- The state filled with four successive mixings of `seed`. -/
def ofSeed (seed : UInt64) : Xoshiro :=
  let step : UInt64 := 0x9E3779B97F4A7C15
  ⟨mix64 seed, mix64 (seed + step), mix64 (seed + 2 * step), mix64 (seed + 3 * step)⟩

/-- The output of a state, and the state after it. -/
def next (g : Xoshiro) : UInt64 × Xoshiro :=
  let output := rotateLeft64 (g.s0 + g.s3) 23 + g.s0
  let t := g.s1 <<< 17
  let s2 := g.s2 ^^^ g.s0
  let s3 := g.s3 ^^^ g.s1
  let s1 := g.s1 ^^^ s2
  let s0 := g.s0 ^^^ s3
  (output, ⟨s0, s1, s2 ^^^ t, rotateLeft64 s3 45⟩)

/-- The upper halves of the outputs. -/
def words : Words Xoshiro where
  next g :=
    let (output, g) := g.next
    ((output >>> 32).toNat, g)

theorem words_bounded : words.Bounded := by
  intro g
  show (g.next.1 >>> 32).toNat < UInt32.size
  rw [UInt64.toNat_shiftRight]
  have := g.next.1.toNat_lt
  simp only [UInt64.reduceToNat, Nat.shiftRight_eq_div_pow, Nat.reduceMod, Nat.reducePow,
    UInt32.size]
  omega

/-- The generator that the program runs with; bounds above 2³² are drawn below 2³². -/
instance generator : Generator where
  State := Xoshiro
  seeded := ofSeed
  draw bound := words.below (min bound UInt32.size)
  draw_lt bound s hpos := by
    have hsize : 0 < UInt32.size := by decide
    have hlt := Words.below_lt words_bounded (Nat.lt_min.mpr ⟨hpos, hsize⟩)
      (Nat.min_le_right bound _) s
    exact Nat.lt_of_lt_of_le hlt (Nat.min_le_left bound _)

end Xoshiro

end MutationFinite
