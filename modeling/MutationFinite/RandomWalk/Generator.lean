/-!
# Generators of bounded draws

A random walk draws numbers below bounds from a generator that starts from a seed.  Nothing else is
asked of the generator.

* `Generator`: the states of a generator, the state of a seed, and the draw.
* `mix64`: a one-to-one mixing of 64-bit words, from which the walks take their seeds.
* `chainGenerator`: where the generator of a walk starts.
-/

namespace MutationFinite

/-- The generator that random walks draw from. -/
class Generator where
  State : Type
  /-- The state of a seed. -/
  seeded : UInt64 → State
  /-- A number below a bound, and the state after the draw. -/
  draw : Nat → State → Nat × State
  draw_lt : ∀ bound s, 0 < bound → (draw bound s).1 < bound

/-- `x` mixed: a step is added, the upper bits are twice folded into the lower ones and spread by an
odd factor, and folded once more. -/
def mix64 (x : UInt64) : UInt64 :=
  let z := x + 0x9E3779B97F4A7C15
  let z := (z ^^^ (z >>> 30)) * 0xBF58476D1CE4E5B9
  let z := (z ^^^ (z >>> 27)) * 0x94D049BB133111EB
  z ^^^ (z >>> 31)

/-- The seed of walk `chain` under a base seed. -/
def chainSeed (base : UInt64) (chain : Nat) : UInt64 := mix64 (base ^^^ UInt64.ofNat chain)

/-- The state in which walk `chain` begins to draw under a base seed. -/
def chainGenerator [Generator] (base : UInt64) (chain : Nat) : Generator.State :=
  Generator.seeded (chainSeed base chain)

end MutationFinite
