import MutationFinite.Proofs.Classification.Finiteness
import MutationFinite.RandomWalk.Xoshiro

/-!
# Connected matrices

On connected symmetrizable matrices of rank at least 3 a verdict is about the class of exact
mutations over all integers: as long as no reachable matrix is certified, entries are so small that
checked mutation and exact mutation agree.

* `IntegerMatrix.relabelling`: integer matrices up to a permutation of the vertices.
* `exactClass_eq_image`: without escape, exact mutations reach what checked ones reach.
* `escapes_iff_infinite`: a connected matrix escapes exactly when its exact class is infinite.
* `checkFinite_connected`: the verdict, and the size, of the exact class.
-/

namespace MutationFinite

open ExchangeMatrix
open IntegerMatrix (exactClass)

/-! ### Integer matrices up to relabelling -/

namespace IntegerMatrix

/-- A permutation of the vertices below `n` carries `b` to `c`. -/
def Relabels (n : Nat) (b c : IntegerMatrix) : Prop :=
  ∃ p : Permutation, p.size = n ∧ ∀ i j, c (p.apply i) (p.apply j) = b i j

theorem Relabels.refl (n : Nat) (b : IntegerMatrix) : Relabels n b b :=
  ⟨.identity n, Permutation.size_identity n, fun i j => by simp⟩

theorem Relabels.symm {n : Nat} {b c : IntegerMatrix} (h : Relabels n b c) : Relabels n c b := by
  obtain ⟨p, hp, hc⟩ := h
  refine ⟨p.inverse, (p.size_inverse).trans hp, fun i j => ?_⟩
  rw [← hc, p.apply_inverse, p.apply_inverse]

theorem Relabels.trans {n : Nat} {a b c : IntegerMatrix} (h₁ : Relabels n a b)
    (h₂ : Relabels n b c) : Relabels n a c := by
  obtain ⟨p, hp, hb⟩ := h₁
  obtain ⟨q, hq, hc⟩ := h₂
  refine ⟨q.compose p (hq.trans hp.symm), ?_, fun i j => ?_⟩
  · rw [Permutation.size_compose, hp]
  · rw [Permutation.apply_compose, Permutation.apply_compose, hc, hb]

/-- Integer matrices that differ by a permutation of the vertices below `n`. -/
def relabelling (n : Nat) : Setoid IntegerMatrix :=
  ⟨Relabels n, .refl n, .symm, .trans⟩

/-- The classes, up to permutations of the vertices below `n`, of the matrices of a set. -/
def classes (n : Nat) (S : Set IntegerMatrix) : Set (Quotient (relabelling n)) :=
  Quotient.mk (relabelling n) '' S

/-- What a mode counts: the matrices of a set, or their classes up to relabelling. -/
noncomputable def count (n : Nat) (S : Set IntegerMatrix) : EnumerationMode → ENat
  | .exact => S.encard
  | .upToEquivalence => (classes n S).encard

end IntegerMatrix

/-- Two images of a set have the same number of elements when the two functions identify the same
elements of it. -/
theorem encard_image_eq_of_iff {α β γ : Type} {f : α → β} {g : α → γ} {S : Set α}
    (h : ∀ x ∈ S, ∀ y ∈ S, f x = f y ↔ g x = g y) : (f '' S).encard = (g '' S).encard := by
  have hfst : Set.InjOn Prod.fst ((fun x => (f x, g x)) '' S) := by
    rintro _ ⟨x, hx, rfl⟩ _ ⟨y, hy, rfl⟩ he
    exact Prod.ext he ((h x hx y hy).mp he)
  have hsnd : Set.InjOn Prod.snd ((fun x => (f x, g x)) '' S) := by
    rintro _ ⟨x, hx, rfl⟩ _ ⟨y, hy, rfl⟩ he
    exact Prod.ext ((h x hx y hy).mpr he) he
  have hf := hfst.encard_image
  have hg := hsnd.encard_image
  rw [Set.image_image] at hf hg
  exact hf.trans hg.symm

/-! ### Checked and exact classes -/

namespace ExchangeMatrix

variable {m x y : ExchangeMatrix}

/-- Relabelling of matrices of entries is relabelling of their values. -/
theorem relabels_values_iff (hs : SameShape x y) :
    IntegerMatrix.Relabels x.rank x.values y.values ↔ Identification.relabelling.Same x y := by
  constructor
  · rintro ⟨p, hp, h⟩
    exact ⟨p, trivial, hs, hp, fun i j => Entry.ext (h i j)⟩
  · rintro ⟨p, -, hc⟩
    exact ⟨p, hc.size, hc.values⟩

/-- Where all mutations are defined, exact mutations reach what checked ones reach. -/
theorem exactClass_eq_image_of_crossable
    (hcross : ∀ x ∈ m.mutationClass, ∀ k < x.rank, x.Crossable k) :
    exactClass m.rank m.values = values '' m.mutationClass := by
  refine Set.Subset.antisymm (fun c hc => ?_) ?_
  · induction hc with
    | refl => exact ⟨m, .refl m, rfl⟩
    | @step c k _ hk ih =>
        obtain ⟨x, hx, rfl⟩ := ih
        obtain ⟨x', hto⟩ := hcross x hx k (hx.shape.rank_eq.symm ▸ hk)
        exact ⟨x', Reaches.step hx hto, (mutatesTo_of_mutate? hto).values⟩
  · rintro _ ⟨x, hx, rfl⟩
    exact Reaches.exact hx

theorem crossable_of_not_escapes (hesc : ¬ m.Escapes) :
    ∀ x ∈ m.mutationClass, ∀ k < x.rank, x.Crossable k := by
  intro x hx k hk
  cases hto : x.mutate? k with
  | ok x' => exact ⟨x', hto⟩
  | error e =>
      obtain ⟨rfl, -⟩ := (mutate?_eq_error_iff hk).mp hto
      exact (hesc ⟨x, hx, .inr ⟨k, hk, hto⟩⟩).elim

/-- Without escape, exact mutations reach what checked ones reach. -/
theorem exactClass_eq_image (hesc : ¬ m.Escapes) :
    exactClass m.rank m.values = values '' m.mutationClass :=
  exactClass_eq_image_of_crossable (crossable_of_not_escapes hesc)

theorem values_injOn (m : ExchangeMatrix) : Set.InjOn values m.mutationClass :=
  fun _ hx _ hy h => eq_of_values_eq (hx.shape.trans hy.shape.symm) h

/-- Without escape the exact class is finite, and counts as the checked class does. -/
theorem count_exactClass (hesc : ¬ m.Escapes) (mode : EnumerationMode) :
    (exactClass m.rank m.values).Finite ∧
      IntegerMatrix.count m.rank (exactClass m.rank m.values) mode = m.classCount mode := by
  rw [exactClass_eq_image hesc]
  refine ⟨m.finite_mutationClass.image _, ?_⟩
  cases mode with
  | exact => exact m.values_injOn.encard_image
  | upToEquivalence =>
      unfold IntegerMatrix.count IntegerMatrix.classes classCount Identification.classes
      rw [Set.image_image]
      refine encard_image_eq_of_iff fun x hx y hy => ?_
      have hs : SameShape x y := (Reaches.shape hx).trans (Reaches.shape hy).symm
      rw [Identification.mk_eq_mk_iff, ← relabels_values_iff hs, (Reaches.shape hx).rank_eq]
      exact Quotient.eq

/-- **A connected matrix escapes exactly when its exact class is infinite**: an uncertified
reachable matrix does not overflow, since its entries are small. -/
theorem escapes_iff_infinite (hm : Symmetrizable m) (hrank : m.rank ≤ 64) (hthree : 3 ≤ m.rank)
    (hconn : m.Connected) : m.Escapes ↔ (exactClass m.rank m.values).Infinite := by
  constructor
  · rintro ⟨x, hx, hescape⟩
    have hxm : Symmetrizable x := hm.reaches hx
    have hxrank : x.rank = m.rank := (Reaches.shape hx).rank_eq
    -- were the matrix not certified, its mutation would be defined
    have hcert : x.certifiesInfinite = true := by
      rcases hescape with hcert | ⟨k, hk, hover⟩
      · exact hcert
      · by_contra hcert
        obtain ⟨x', hto⟩ := hxm.exists_mutate? (hxrank.trans_le hrank) (hxrank ▸ hthree)
          (hconn.reaches hx hrank) (by simpa using hcert) hk
        rw [hover] at hto
        cases hto
    obtain ⟨i, j, u, hseen⟩ :=
      (hxm.mutablePart.certifiesInfinite_iff (hxrank.trans_le hrank)).mp hcert
    have hinf := hseen.exactClass_infinite hxm.mutablePart
    rw [hxrank] at hinf
    exact IntegerMatrix.exactClass_infinite_of_reaches (Reaches.exact hx) hinf
  · intro hinf
    by_contra hesc
    exact hinf (count_exactClass hesc .exact).1

theorem connected_of_components (hrank : m.rank ≤ 64) (h : m.components.length = 1) :
    m.Connected := fun _ hi _ hj =>
  linked_of_components h ((trackedRank_eq hrank).symm ▸ hi) ((trackedRank_eq hrank).symm ▸ hj)

end ExchangeMatrix

/-! ### Verdicts -/

theorem exactClass_doubledCycle : exactClass 3 (doubledCycle 1).values =
    {(doubledCycle 1).values, (doubledCycle (-1)).values} :=
  IntegerMatrix.exactClass_eq_pair (by decide) fun k hk =>
    ⟨(mutatesTo_of_mutate? (mutate?_doubledCycle k hk).1).values.symm,
      (mutatesTo_of_mutate? (mutate?_doubledCycle k hk).2).values.symm⟩

/-- **On connected matrices of rank at least 3 a verdict is about exact mutations.**  It is finite,
with the number of matrices in the exact class, or of their classes up to relabelling, when the
exact class is finite, and infinite otherwise. -/
theorem checkFinite_connected [Generator] (m : ExchangeMatrix) (hm : Symmetrizable m)
    (hthree : 3 ≤ m.rank) (hrank : m.rank ≤ 64) (hcomponents : m.components.length = 1)
    (cfg : ClassifierConfig) (s : Session) (ht : s.token.NeverStops) :
    ((exactClass m.rank m.values).Finite →
        ∃ size : Nat, (s.ask (checkFinite cfg m)).1 = .ok (.finite size) ∧
          IntegerMatrix.count m.rank (exactClass m.rank m.values) cfg.mode = size) ∧
      ((exactClass m.rank m.values).Infinite →
        (s.ask (checkFinite cfg m)).1 = .ok .infinite) := by
  have hiff := escapes_iff_infinite hm hrank hthree (connected_of_components hrank hcomponents)
  rcases checkFinite_decides cfg hm hrank ht with ⟨hask, hesc⟩ | ⟨size, hask, hesc, hcount⟩
  · exact ⟨fun hfin => absurd hfin (hiff.mp hesc), fun _ => hask⟩
  · refine ⟨fun _ => ⟨size, hask, ?_⟩, fun hinf => absurd (hiff.mpr hinf) hesc⟩
    rw [(count_exactClass hesc cfg.mode).2, hcount]

/-- The class of the doubled cycle has two matrices. -/
theorem checkFinite_doubledCycle : Symmetrizable (doubledCycle 1) ∧ 3 ≤ (doubledCycle 1).rank ∧
    (doubledCycle 1).rank ≤ 64 ∧ (doubledCycle 1).components.length = 1 ∧
    (exactClass 3 (doubledCycle 1).values).Finite ∧
    ((Session.new .standard .running).ask
      (checkFinite (.standard 1 0) (doubledCycle 1))).1 = .ok (.finite 2) := by
  have hfinite : (exactClass 3 (doubledCycle 1).values).Finite := by
    rw [exactClass_doubledCycle]
    exact Set.toFinite _
  refine ⟨symmetrizable_doubledCycle, by decide, by decide, by decide, hfinite, ?_⟩
  obtain ⟨size, hask, hcount⟩ := (checkFinite_connected (doubledCycle 1) symmetrizable_doubledCycle
    (by decide) (by decide) (by decide) (.standard 1 0) (.new .standard .running)
    Token.neverStops_running).1 hfinite
  have hne : (doubledCycle 1).values ≠ (doubledCycle (-1)).values := fun h =>
    absurd (congrFun (congrFun h 0) 1) (by decide)
  have htwo : (exactClass 3 (doubledCycle 1).values).encard = 2 := by
    rw [exactClass_doubledCycle, Set.encard_pair hne]
  have hsize : (size : ENat) = 2 := hcount.symm.trans htwo
  rw [hask, show size = 2 by exact_mod_cast hsize]

end MutationFinite
