import MutationFinite.RandomWalk.Generator
import Mathlib.Logic.Function.Basic

/-!
# Seeds of the walks

The generator of each walk is seeded with the mixed sum of the base seed and the number of the walk.
The mixing loses nothing: it is one step after another that can be undone on all words of 64 bits.

* `xorShiftRight_injective`: folding the upper bits of a word into the lower ones.
* `mulRight_injective`: multiplying by a word that has an inverse.
* `mix64_injective`: the steps of the mixing together.
* `mix64_separates_chains`: **no two walks share a seed.**
-/

namespace MutationFinite

/-! ### Steps of the mixing -/

/-- Folding the upper bits into the lower ones can be undone: where two words were folded into one,
their difference is its own shift to the right, and each such shift makes a word smaller. -/
theorem xorShiftRight_injective {s : UInt64} (hs : s.toNat % 64 ≠ 0) :
    Function.Injective fun x : UInt64 => x ^^^ (x >>> s) := by
  intro x y h
  have hshift : (x ^^^ y) >>> s = x ^^^ y := by
    have hfold : x ^^^ y ^^^ (x ^^^ y) >>> s = (x ^^^ x >>> s) ^^^ (y ^^^ y >>> s) := by
      rw [UInt64.shiftRight_xor]
      ac_rfl
    rw [← UInt64.xor_eq_zero_iff, UInt64.xor_comm, hfold]
    exact UInt64.xor_eq_zero_iff.mpr h
  have hdiv : (x ^^^ y).toNat / 2 ^ (s.toNat % 64) = (x ^^^ y).toNat := by
    rw [← Nat.shiftRight_eq_div_pow, ← UInt64.toNat_shiftRight, hshift]
  have hzero : (x ^^^ y).toNat = 0 := by
    by_contra hne
    have hlt := Nat.div_lt_self (Nat.pos_of_ne_zero hne) (Nat.one_lt_two_pow hs)
    omega
  exact UInt64.xor_eq_zero_iff.mp (UInt64.toNat_inj.mp hzero)

/-- Multiplying by a word that has an inverse can be undone. -/
theorem mulRight_injective {c d : UInt64} (h : c * d = 1) :
    Function.Injective fun x : UInt64 => x * c := by
  intro x y hxy
  calc x = x * c * d := by rw [UInt64.mul_assoc, h, UInt64.mul_one]
    _ = y * c * d := congrArg (· * d) hxy
    _ = y := by rw [UInt64.mul_assoc, h, UInt64.mul_one]

theorem addRight_injective (c : UInt64) : Function.Injective fun x : UInt64 => x + c :=
  fun _ _ h => UInt64.add_left_inj c |>.mp h

/-! ### Mixing -/

/-- **Mixing loses nothing.** -/
theorem mix64_injective : Function.Injective mix64 := by
  have hfirst : Function.Injective fun x : UInt64 => x * 0xBF58476D1CE4E5B9 :=
    mulRight_injective (show (0xBF58476D1CE4E5B9 : UInt64) * 0x96DE1B173F119089 = 1 by decide)
  have hsecond : Function.Injective fun x : UInt64 => x * 0x94D049BB133111EB :=
    mulRight_injective (show (0x94D049BB133111EB : UInt64) * 0x319642B2D24D8EC3 = 1 by decide)
  exact (xorShiftRight_injective (s := 31) (by decide)).comp <|
    hsecond.comp <| (xorShiftRight_injective (s := 27) (by decide)).comp <|
    hfirst.comp <| (xorShiftRight_injective (s := 30) (by decide)).comp <|
    addRight_injective _

/-! ### Chains -/

/-- Different numbers of 64 bits are different words. -/
theorem ofNat_ne_of_lt {c c' : Nat} (hc : c < UInt64.size) (hc' : c' < UInt64.size) (h : c ≠ c') :
    UInt64.ofNat c ≠ UInt64.ofNat c' := by
  intro he
  have hmod := congrArg UInt64.toNat he
  rw [UInt64.toNat_ofNat_of_lt' hc, UInt64.toNat_ofNat_of_lt' hc'] at hmod
  exact h hmod

/-- **No two walks share a seed.**  Mixing is one-to-one on all words of 64 bits; so under any base
seed, walks with different numbers are seeded differently. -/
theorem mix64_separates_chains :
    Function.Injective mix64 ∧
      ∀ (base : UInt64) (c c' : Nat), c < UInt64.size → c' < UInt64.size → c ≠ c' →
        chainSeed base c ≠ chainSeed base c' := by
  refine ⟨mix64_injective, fun base c c' hc hc' hne h => ?_⟩
  have hword := (UInt64.xor_right_inj base).mp (mix64_injective h)
  exact ofNat_ne_of_lt hc hc' hne hword

/-- The last two walks that can be numbered, under a base seed with all bits set. -/
theorem mix64_separates_chains_last :
    18446744073709551614 < UInt64.size ∧ 18446744073709551615 < UInt64.size ∧
      chainSeed 0xFFFFFFFFFFFFFFFF 18446744073709551614 ≠
        chainSeed 0xFFFFFFFFFFFFFFFF 18446744073709551615 := by
  have hlast : 18446744073709551614 < UInt64.size ∧ 18446744073709551615 < UInt64.size := by decide
  exact ⟨hlast.1, hlast.2,
    mix64_separates_chains.2 0xFFFFFFFFFFFFFFFF _ _ hlast.1 hlast.2 (by decide)⟩

end MutationFinite
