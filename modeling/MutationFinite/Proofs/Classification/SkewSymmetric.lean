import MutationFinite.Proofs.Classification.Connected
import MutationFinite.Proofs.MutationClass.ExploredEdges

/-!
# Skew-symmetric matrices with exhausted classes

Mutations of square skew-symmetric matrices can always be undone.  So a walk that is exhausted has
seen that all mutations of what the seed reaches are defined, and then no reachable matrix is
certified, since the exact class of a certified one is infinite.  It does not matter what the walk
stops on.

* `SkewSymmetric.symmetrizable`: square skew-symmetric matrices are symmetrizable.
* `Symmetrizable.not_escapes_of_crossable`: where all mutations are defined nothing is certified.
* `SkewSymmetric.not_escapes_of_finite`: a finite size shows that a matrix does not escape.
-/

namespace MutationFinite

open ExchangeMatrix

namespace ExchangeMatrix

variable {m x : ExchangeMatrix}

theorem SkewSymmetric.symmetrizable (h : m.SkewSymmetric) (hsquare : m.isSquare = true) :
    Symmetrizable m :=
  ⟨eq_of_beq hsquare, _, skewSymmetric_iff_symmetrizedBy.mp h⟩

theorem isSquare_of_sameShape (h : SameShape x m) (hsquare : m.isSquare = true) :
    x.isSquare = true := by
  rwa [isSquare, h.1, h.2]

/-- **Where all mutations are defined nothing is certified**: the exact class is the checked one,
which is finite. -/
theorem Symmetrizable.not_escapes_of_crossable (hm : Symmetrizable m)
    (hcross : ∀ x ∈ m.mutationClass, ∀ k < x.rank, x.Crossable k) : ¬ m.Escapes := by
  rintro ⟨x, hx, hcert | ⟨k, hk, hover⟩⟩
  · have hxm : x.MutablySymmetrizable := (hm.reaches hx).mutablePart
    obtain ⟨i, -, j, -, u, -, hseen⟩ := hxm.certifiesInfinite_iff_tracked.mp hcert
    refine hseen.exactClass_infinite hxm ?_
    rw [exactClass_eq_image_of_crossable fun y hy => hcross y (Reaches.trans hx hy)]
    exact x.finite_mutationClass.image values
  · obtain ⟨c, hto⟩ := hcross x hx k hk
    cases hover.symm.trans hto

end ExchangeMatrix

/-- An exhausted walk from a skew-symmetric matrix shows that it does not escape. -/
theorem Walk.Tracks.not_escapes_of_skewSymmetric {V : Type} [Visited V] {I : Identification}
    {Valid : V → Prop} {rules : WalkRules V} {seed : ExchangeMatrix} {w : Walk V} {L : Ledger}
    (h : Walk.Tracks I Valid rules seed w L) (hq : w.queue = []) (hskew : seed.SkewSymmetric)
    (hsquare : seed.isSquare = true) : ¬ seed.Escapes := by
  have hcross : ∀ y ∈ L.found, ∀ k < y.rank, y.Crossable k :=
    h.crossable_of_back hq fun z hz k _ hto => mutate?_back_of_skewSymmetric hto
      (isSquare_of_sameShape (h.shape hz) hsquare) fun i hi =>
        (h.reached z hz).skewSymmetric_iff.mpr hskew i hi k (mutatesTo_of_mutate? hto).pivot
  exact (hskew.symmetrizable hsquare).not_escapes_of_crossable fun x hx k hk =>
    h.crossable_of_reaches hq hcross hx hk

/-- Whatever the token answers, the walk that looks for no matrix is stopped or halts for a
reason. -/
theorem countCollapsed_stopped_or_justified {oracle : Oracle} (cfg : EnumerationConfig)
    (seed : ExchangeMatrix) (ho : oracle.Serves seed.rank) (token : Token) :
    let walk := exploreCollapsed cfg seed oracle (fun o _ => (false, o)) token
    walk.1 = .cancelled ∨ ∃ w, Walk.Justified .relabelling (CollapsedVisited.Valid seed.rank)
      (cfg.collapsedRules fun o _ => (false, o)) seed walk.1 w ∧ walk.2.stats = w.stats :=
  explore_stopped_or_justified (collapsedLaws seed.rank)
    (asksOnly_collapsedRules cfg fun _ _ h => h) (CollapsedVisited.valid_new ho)
    (CollapsedVisited.record?_new _ _) token

/-- **A finite size shows that a skew-symmetric matrix does not escape**, whatever the settings of
the enumeration up to relabelling and whatever the token answers. -/
theorem ExchangeMatrix.SkewSymmetric.not_escapes_of_finite {cfg : EnumerationConfig}
    {seed : ExchangeMatrix} {s : Session} {e : Enumeration} {size : Nat}
    (hskew : seed.SkewSymmetric) (hsquare : seed.isSquare = true) (hrank : seed.rank ≤ 64)
    (hmode : cfg.mode = .upToEquivalence) (hask : (s.ask (enumerate cfg seed)).1 = .ok e)
    (hsize : e.outcome = .finite size) : ¬ seed.Escapes := by
  obtain ⟨oracle, -, -, hserves, hask'⟩ := Session.ask_enumerate_acquired s hmode hrank
  obtain rfl := Except.ok.inj (hask'.symm.trans hask)
  rcases countCollapsed_stopped_or_justified cfg seed hserves s.token with
    hstopped | ⟨w, hj, hstats⟩
  · rw [hstopped] at hsize
    cases hsize
  · rw [hstats] at hsize
    obtain ⟨hq, ⟨L, htracks⟩, -⟩ := hj.exhausted (fun _ _ => rfl) hsize
    exact htracks.not_escapes_of_skewSymmetric hq hskew hsquare

end MutationFinite
