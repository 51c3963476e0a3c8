import MutationFinite.Proofs.Classification.Verdict
import MutationFinite.Proofs.Mutation.RankTwo

/-!
# Verdicts on two vertices

A matrix of rank 2 has no certificate, so that its verdict is that of the enumeration: finite as
long as mutations are defined.  The exact class is finite in any case; where the product of the two
entries is out of range, the verdict is infinite all the same.

* `rankTwoSize`: the size of the class in either mode.
* `escapes_rankTwo_iff`, `classCount_rankTwo`: when two vertices escape, and the size if not.
* `checkFinite_rankTwo`: so the product of the entries decides the verdict.
* `checkFinite_steepArrow`: an exact class of two matrices that is called infinite.
-/

namespace MutationFinite

open ExchangeMatrix
open IntegerMatrix (exactClass)

variable {a b : Entry}

/-- The number of matrices of two vertices that a mode counts: the matrix and its opposite, unless
the mode does not tell them apart. -/
def rankTwoSize (a b : Entry) : EnumerationMode → Nat
  | .exact => if a = 0 then 1 else 2
  | .upToEquivalence => if a.val = -b.val then 1 else 2

/-- A pair has one element or two. -/
theorem encard_pair_of_iff {α : Type} {x y : α} {p : Prop} [Decidable p] (h : x = y ↔ p) :
    ({x, y} : Set α).encard = (if p then 1 else 2 : Nat) := by
  by_cases hp : p
  · rw [if_pos hp, h.mpr hp, Set.pair_eq_singleton, Set.encard_singleton]
    rfl
  · rw [if_neg hp, Set.encard_pair (mt h.mp hp)]
    rfl

/-- **Two vertices escape exactly when the product of their entries is out of range.** -/
theorem escapes_rankTwo_iff (h : Opposed a b) :
    (rankTwo a b).Escapes ↔ 2147483647 < |a.val * b.val| := by
  rw [← not_le, ← exists_mutate?_rankTwo_iff h Nat.zero_lt_two]
  constructor
  · rintro ⟨x, hx, hescape⟩ ⟨m', hto⟩
    have hfits := (exists_mutate?_rankTwo_iff h Nat.zero_lt_two).mp ⟨m', hto⟩
    rcases hescape with hcert | ⟨k, hk, hover⟩
    · have huncertified := ((symmetrizable_rankTwo h).reaches hx).uncertified_of_rank_le
        hx.shape.rank_eq.le
      exact absurd (hcert.symm.trans huncertified) (by decide)
    · obtain ⟨c, hdefined⟩ := exists_mutate?_of_reaches_rankTwo h hfits hx hk
      cases hdefined.symm.trans hover
  · intro hnone
    exact ⟨_, .refl _, .inr ⟨0, Nat.zero_lt_two, mutate?_eq_overflow Nat.zero_lt_two hnone⟩⟩

/-- The size of a class of two vertices that does not escape. -/
theorem classCount_rankTwo (h : Opposed a b) (hfits : |a.val * b.val| ≤ 2147483647)
    (mode : EnumerationMode) : (rankTwo a b).classCount mode = rankTwoSize a b mode := by
  cases mode with
  | exact =>
      rw [classCount, mutationClass_rankTwo h hfits]
      exact encard_pair_of_iff (rankTwo_eq_neg_iff h hfits)
  | upToEquivalence =>
      rw [classCount, mutationClass_rankTwo h hfits, Identification.classes, Set.image_pair]
      exact encard_pair_of_iff (Identification.mk_eq_mk_iff.trans (same_rankTwo_iff h hfits))

section Verdict

variable [Generator] {cfg : ClassifierConfig} {s : Session}

/-- If the product is in range, the verdict comes with the size of the class. -/
theorem checkFinite_rankTwo_finite (h : Opposed a b) (hfits : |a.val * b.val| ≤ 2147483647)
    (ht : s.token.NeverStops) :
    (s.ask (checkFinite cfg (rankTwo a b))).1 = .ok (.finite (rankTwoSize a b cfg.mode)) := by
  have hrank : 2 ≤ 64 := by decide
  rcases checkFinite_decides cfg (symmetrizable_rankTwo h) hrank ht with
    ⟨-, hesc⟩ | ⟨size, hask, -, hcount⟩
  · exact absurd ((escapes_rankTwo_iff h).mp hesc) (not_lt.mpr hfits)
  · rw [classCount_rankTwo h hfits] at hcount
    rw [hask, show size = rankTwoSize a b cfg.mode by exact_mod_cast hcount.symm]

/-- So it does in all sessions that nobody stops. -/
theorem hasVerdict_rankTwo (cfg : ClassifierConfig) (h : Opposed a b)
    (hfits : |a.val * b.val| ≤ 2147483647) :
    HasVerdict cfg (rankTwo a b) (.finite (rankTwoSize a b cfg.mode)) := by
  have hrunning : (Session.new .standard .running).token.NeverStops := Token.neverStops_running
  exact .of_ask (by decide : 2 ≤ 64) hrunning (checkFinite_rankTwo_finite h hfits hrunning)

/-- When single matrices are counted, an arrow and its opposite are two. -/
theorem hasVerdict_rankTwo_of_exact (hmode : cfg.mode = .exact) (h : Opposed a b) (hne : a ≠ 0)
    (hfits : |a.val * b.val| ≤ 2147483647) : HasVerdict cfg (rankTwo a b) (.finite 2) := by
  have hverdict := hasVerdict_rankTwo cfg h hfits
  rwa [hmode, rankTwoSize, if_neg hne] at hverdict

/-- Otherwise the first mutation overflows. -/
theorem checkFinite_rankTwo_infinite (h : Opposed a b) (hover : 2147483647 < |a.val * b.val|)
    (ht : s.token.NeverStops) :
    (s.ask (checkFinite cfg (rankTwo a b))).1 = .ok .infinite := by
  have hrank : 2 ≤ 64 := by decide
  rcases checkFinite_decides cfg (symmetrizable_rankTwo h) hrank ht with
    ⟨hask, -⟩ | ⟨size, -, hesc, -⟩
  · exact hask
  · exact absurd ((escapes_rankTwo_iff h).mpr hover) hesc

/-- **The product of the two entries decides the verdict on two vertices**: if it is in range, the
verdict is finite, with one matrix or two, and otherwise it is infinite. -/
theorem checkFinite_rankTwo (a b : Entry) (h : Opposed a b) (cfg : ClassifierConfig) (s : Session)
    (ht : s.token.NeverStops) :
    (s.ask (checkFinite cfg (rankTwo a b))).1 =
      .ok (if |a.val * b.val| ≤ 2147483647 then .finite (rankTwoSize a b cfg.mode)
        else .infinite) := by
  by_cases hfits : |a.val * b.val| ≤ 2147483647
  · rw [if_pos hfits, checkFinite_rankTwo_finite h hfits ht]
  · rw [if_neg hfits, checkFinite_rankTwo_infinite h (not_le.mp hfits) ht]

end Verdict

/-- Two products on either side of the bound. -/
theorem checkFinite_rankTwo_boundary :
    let s := Session.new .standard .running
    let cfg := ClassifierConfig.standard 1 0
    Opposed (.ofInt 46340) (.ofInt (-46341)) ∧ Opposed (.ofInt 46341) (.ofInt (-46341)) ∧
      (s.ask (checkFinite cfg (rankTwo (.ofInt 46340) (.ofInt (-46341))))).1 = .ok (.finite 2) ∧
      (s.ask (checkFinite cfg (rankTwo (.ofInt 46341) (.ofInt (-46341))))).1 = .ok .infinite := by
  intro s cfg
  have hbelow : Opposed (.ofInt 46340) (.ofInt (-46341)) := by decide
  have habove : Opposed (.ofInt 46341) (.ofInt (-46341)) := by decide
  refine ⟨hbelow, habove, ?_, ?_⟩
  · exact checkFinite_rankTwo _ _ hbelow cfg s Token.neverStops_running
  · exact checkFinite_rankTwo _ _ habove cfg s Token.neverStops_running

/-- An arrow of weight 65536. -/
def steepArrow : ExchangeMatrix := rankTwo (.ofInt 65536) (.ofInt (-65536))

/-- The exact class of the steep arrow has two matrices, and its verdict is infinite. -/
theorem checkFinite_steepArrow : Opposed (.ofInt 65536) (.ofInt (-65536)) ∧
    (exactClass 2 steepArrow.values).encard = 2 ∧
    ((Session.new .standard .running).ask (checkFinite (.standard 1 0) steepArrow)).1 =
      .ok .infinite := by
  have hopposed : Opposed (.ofInt 65536) (.ofInt (-65536)) := by decide
  refine ⟨hopposed, ?_, ?_⟩
  · have hne : steepArrow.values ≠ -steepArrow.values := fun h =>
      absurd (congrFun (congrFun h 0) 1) (by decide)
    exact (congrArg Set.encard (exactClass_rankTwo hopposed)).trans (Set.encard_pair hne)
  · exact checkFinite_rankTwo_infinite hopposed (by decide) Token.neverStops_running

end MutationFinite
