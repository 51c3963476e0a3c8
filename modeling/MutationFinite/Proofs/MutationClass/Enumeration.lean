import MutationFinite.Proofs.MutationClass.CollapsedStore
import MutationFinite.Proofs.MutationClass.Exploration
import MutationFinite.Proofs.MutationClass.Session

/-!
# What an enumeration answers

An enumeration is one exploration, over either store, and its answer is made of the reason for which
the exploration halts.

* `Walk.Justified.decided`, `.counts`, `.infinite_cause`: what the reasons mean for the answer.
* `Session.ask_enumerate_exact`, `ask_enumerate_acquired`: an enumeration as one exploration.
* `enumerate_exact_counts`: the enumeration of equal matrices.
* `enumerate_collapsed_counts`: the enumeration up to relabelling.
-/

namespace MutationFinite

open ExchangeMatrix

variable {cfg : EnumerationConfig} {seed : ExchangeMatrix} {s : Session} {n : Nat}

/-! ### Answers -/

namespace Walk

variable {V : Type} [Visited V] {I : Identification} {Valid : V → Prop} {rules : WalkRules V}
  {halt : Halt} {w : Walk V}

/-- A walk that nobody stops decides. -/
theorem Justified.decided (h : Justified I Valid rules seed halt w) :
    ClassSize.ofHalt halt w.stats.discovered ≠ .cancelled := by
  cases halt with
  | cancelled => exact h.elim
  | outOfSteps => exact h.elim
  | exhausted => nofun
  | certificate => nofun
  | overflow => nofun
  | target => nofun

/-- A walk that looks for no matrix and finds a finite size was exhausted. -/
theorem Justified.eq_exhausted (h : Justified I Valid rules seed halt w)
    (hnone : ∀ v x, (rules.isTarget v x).1 = false) {c : Nat}
    (hc : ClassSize.ofHalt halt w.stats.discovered = .finite c) : halt = .exhausted := by
  cases halt with
  | exhausted => rfl
  | target =>
      obtain ⟨x, v, -, -, hfound⟩ := h
      rw [hnone] at hfound
      cases hfound
  | certificate => cases hc
  | overflow => cases hc
  | cancelled => cases hc
  | outOfSteps => cases hc

/-- The size is the number of matrices discovered. -/
theorem Justified.exhausted (h : Justified I Valid rules seed halt w)
    (hnone : ∀ v x, (rules.isTarget v x).1 = false) {c : Nat}
    (hc : ClassSize.ofHalt halt w.stats.discovered = .finite c) :
    w.queue = [] ∧ (∃ L, Tracks I Valid rules seed w L) ∧ w.stats.discovered = c := by
  obtain rfl := h.eq_exhausted hnone hc
  exact ⟨h.1, h.2, ClassSize.finite.inj hc⟩

theorem Justified.counts (h : Justified I Valid rules seed halt w)
    (hnone : ∀ v x, (rules.isTarget v x).1 = false) {c : Nat}
    (hc : ClassSize.ofHalt halt w.stats.discovered = .finite c) :
    (I.classes seed.mutationClass).encard = c := by
  obtain ⟨hqueue, ⟨L, htracks⟩, rfl⟩ := h.exhausted hnone hc
  exact htracks.encard_classes hqueue

/-- An infinite size is due to a reachable matrix. -/
theorem Justified.infinite_cause (h : Justified I Valid rules seed halt w)
    (hinf : ClassSize.ofHalt halt w.stats.discovered = .infinite) :
    (∃ x ∈ seed.mutationClass, ∃ k < x.rank, x.mutate? k = .error (.entryOverflow k)) ∨
      (rules.stopOnCertificate = true ∧
        ∃ x ∈ seed.mutationClass, x.certifiesInfinite = true) := by
  cases halt with
  | certificate =>
      obtain ⟨hstop, x, hx, hcert⟩ := h
      exact .inr ⟨hstop, x, hx, hcert⟩
  | overflow =>
      obtain ⟨x, k, hx, hk, hover⟩ := h
      exact .inl ⟨x, hx, k, hk, hover⟩
  | exhausted => cases hinf
  | target => cases hinf
  | cancelled => cases hinf
  | outOfSteps => cases hinf

end Walk

/-! ### A framed arrow -/

/-- Two mutable vertices joined by an arrow in the direction of `sign`, and a frozen vertex. -/
def framedArrow (sign : Int) : ExchangeMatrix :=
  .ofFn 2 3 fun i j => .ofInt (if j = 1 - i then sign * (1 - 2 * i) else 0)

/-- Each mutation turns the arrow around. -/
theorem mutate?_framedArrow : ∀ k < 2,
    (framedArrow 1).mutate? k = .ok (framedArrow (-1)) ∧
      (framedArrow (-1)).mutate? k = .ok (framedArrow 1) := by
  intro k hk
  rw [mutate?_eq_ok_iff, mutate?_eq_ok_iff]
  revert k
  decide

theorem mutationClass_framedArrow :
    (framedArrow 1).mutationClass = {framedArrow 1, framedArrow (-1)} :=
  mutationClass_eq_pair (by decide) mutate?_framedArrow

theorem framedArrow_crossable {x : ExchangeMatrix} (hx : x ∈ (framedArrow 1).mutationClass)
    {k : Nat} (hk : k < x.rank) : x.Crossable k := by
  rw [mutationClass_framedArrow] at hx
  rcases hx with rfl | rfl
  · exact ⟨_, (mutate?_framedArrow k hk).1⟩
  · exact ⟨_, (mutate?_framedArrow k hk).2⟩

/-- The two matrices of the class differ by a relabelling. -/
theorem same_framedArrow :
    Identification.relabelling.Same (framedArrow 1) (framedArrow (-1)) := by
  have hrelabel : (framedArrow 1).relabel ⟨#[1, 0], by decide⟩ = framedArrow (-1) := by decide
  exact ⟨⟨#[1, 0], by decide⟩, trivial, hrelabel ▸ carries_relabel rfl⟩

theorem classes_framedArrow :
    Identification.relabelling.classes (framedArrow 1).mutationClass =
      {Quotient.mk _ (framedArrow 1)} := by
  rw [mutationClass_framedArrow, Identification.classes, Set.image_pair,
    ← Identification.mk_eq_mk_iff.mpr same_framedArrow, Set.pair_eq_singleton]

/-- A walk from the framed arrow that looks for nothing counts the classes. -/
theorem Walk.Justified.framedArrow_finite {V : Type} [Visited V] {I : Identification}
    {Valid : V → Prop} {rules : WalkRules V} {halt : Halt} {w : Walk V}
    (h : Walk.Justified I Valid rules (framedArrow 1) halt w)
    (hnone : ∀ v x, (rules.isTarget v x).1 = false) (hstop : rules.stopOnCertificate = false)
    {c : ℕ} (hclasses : (I.classes (framedArrow 1).mutationClass).encard = c) :
    ClassSize.ofHalt halt w.stats.discovered = .finite c ∧ w.stats.discovered = c := by
  cases he : ClassSize.ofHalt halt w.stats.discovered with
  | cancelled => exact absurd he h.decided
  | infinite =>
      rcases h.infinite_cause he with ⟨x, hx, k, hk, hover⟩ | ⟨hcert, -⟩
      · obtain ⟨y, hto⟩ := framedArrow_crossable hx hk
        cases hover.symm.trans hto
      · cases hstop.symm.trans hcert
  | finite size =>
      obtain rfl : size = c := by exact_mod_cast (h.counts hnone he).symm.trans hclasses
      exact ⟨rfl, (h.exhausted hnone he).2.2⟩

/-! ### Enumeration of equal matrices -/

/-- The states of the walk over equal matrices. -/
def exactStates (cfg : EnumerationConfig) (seed : ExchangeMatrix) (token : Token) (t : Nat) :
    Progress ExactVisited :=
  (Progress.next cfg.exactRules)^[t] (Walk.opening cfg.exactRules seed (.new seed.rank) token)

/-- An enumeration of equal matrices is one exploration. -/
theorem Session.ask_enumerate_exact (hmode : cfg.mode = .exact) (hrank : seed.rank ≤ 64) :
    (s.ask (enumerate cfg seed)).1 =
      .ok ⟨.ofHalt (exploreExact cfg seed s.token).1
          (exploreExact cfg seed s.token).2.stats.discovered,
        (exploreExact cfg seed s.token).2.stats⟩ := by
  simp only [Session.ask, enumerate, checkedRank_eq hrank, hmode]
  rfl

theorem asksOnly_exactRules (cfg : EnumerationConfig) (n : Nat) :
    Walk.AsksOnly (ExactVisited.Valid n) cfg.exactRules :=
  fun _ _ h => ⟨h, fun _ => rfl⟩

/-- The exploration halts for a reason. -/
theorem exploreExact_justified (cfg : EnumerationConfig) (seed : ExchangeMatrix) {token : Token}
    (ht : token.NeverStops) :
    Walk.Justified .equality (ExactVisited.Valid seed.rank) cfg.exactRules seed
      (exploreExact cfg seed token).1 (exploreExact cfg seed token).2 :=
  explore_justified (exactLaws seed.rank) (asksOnly_exactRules cfg seed.rank)
    (ExactVisited.valid_new seed.rank) ExactVisited.record?_new ht

/-- **Enumeration of equal matrices halts and counts the reachable matrices.**  Its walk comes to a
state in which it has halted, and the answer is made of that state.  A finite size is the number of
reachable matrices, an infinite one is due to a reachable matrix, and what the walk discovers was
never stored before. -/
theorem enumerate_exact_counts (cfg : EnumerationConfig) (seed : ExchangeMatrix) (s : Session)
    (hmode : cfg.mode = .exact) (hrank : seed.rank ≤ 64) (ht : s.token.NeverStops) :
    ∃ t halt w e, exactStates cfg seed s.token t = .halted halt w ∧
      (s.ask (enumerate cfg seed)).1 = .ok e ∧
      e = ⟨.ofHalt halt w.stats.discovered, w.stats⟩ ∧ e.outcome ≠ .cancelled ∧
      (∀ c, e.outcome = .finite c → seed.mutationClass.encard = c) ∧
      (e.outcome = .infinite →
        (∃ x ∈ seed.mutationClass, ∃ k < x.rank, x.mutate? k = .error (.entryOverflow k)) ∨
          (cfg.stopOnCertificate = true ∧ ∃ x ∈ seed.mutationClass, x.certifiesInfinite = true)) ∧
      ∀ i j w₁ w₂ x, i ≤ j → exactStates cfg seed s.token i = .going w₁ →
        exactStates cfg seed s.token j = .going w₂ → w₂.Discovers x →
          Visited.record? w₁.visited x = none := by
  have hj := exploreExact_justified cfg seed ht
  have hsteps : (exploreExact cfg seed s.token).1 ≠ .outOfSteps := by
    intro he
    rw [he] at hj
    exact hj
  obtain ⟨t, hstates⟩ := explore_eq_iterate hsteps
  refine ⟨t, _, _, _, hstates, Session.ask_enumerate_exact hmode hrank, rfl, hj.decided,
    fun c hc => ?_, hj.infinite_cause, fun i j w₁ w₂ x hij h₁ h₂ hd => ?_⟩
  · rw [← Identification.encard_classes_equality]
    exact hj.counts (fun _ _ => rfl) hc
  · rw [Option.eq_none_iff_forall_not_mem]
    intro r hr
    exact not_stored_of_discovers (exactLaws seed.rank) (asksOnly_exactRules cfg seed.rank)
      (ExactVisited.valid_new seed.rank) ExactVisited.record?_new ht hij h₁ h₂ hd x r hr (.refl x)

/-- The framed arrow and its reverse. -/
theorem enumerate_exact_counts_framed :
    (EnumerationConfig.withMode .exact).mode = .exact ∧ (framedArrow 1).rank ≤ 64 ∧
      ∃ e, ((Session.new .standard .running).ask
        (enumerate (.withMode .exact) (framedArrow 1))).1 = .ok e ∧ e.outcome = .finite 2 := by
  obtain ⟨-, -, -, e, -, hask, -, hdecided, hcount, hcause, -⟩ :=
    enumerate_exact_counts (.withMode .exact) (framedArrow 1) (.new .standard .running) rfl
      (by decide) Token.neverStops_running
  refine ⟨rfl, by decide, e, hask, ?_⟩
  cases he : e.outcome with
  | cancelled => exact absurd he hdecided
  | infinite =>
      rcases hcause he with ⟨x, hx, k, hk, hover⟩ | ⟨hstop, -⟩
      · obtain ⟨y, hto⟩ := framedArrow_crossable hx hk
        cases hover.symm.trans hto
      · cases hstop
  | finite c =>
      have hc := hcount c he
      rw [mutationClass_framedArrow, Set.encard_pair (by decide)] at hc
      rw [show c = 2 by exact_mod_cast hc.symm]

/-! ### Enumeration up to relabelling -/

section Collapsed

variable {isTarget : Oracle → ExchangeMatrix → Bool × Oracle} {oracle : Oracle} {token : Token}

/-- Recognising a target asks the oracle only. -/
theorem asksOnly_collapsedRules (cfg : EnumerationConfig)
    (hserves : ∀ o m, o.Serves n → (isTarget o m).2.Serves n) :
    Walk.AsksOnly (CollapsedVisited.Valid n) (cfg.collapsedRules isTarget) :=
  fun v m h => ⟨⟨h.rank, hserves v.oracle m h.oracle, h.buckets⟩, fun _ => rfl⟩

/-- The exploration halts for a reason. -/
theorem exploreCollapsed_justified (cfg : EnumerationConfig) (seed : ExchangeMatrix)
    (hserves : ∀ o m, o.Serves seed.rank → (isTarget o m).2.Serves seed.rank)
    (ho : oracle.Serves seed.rank) (ht : token.NeverStops) :
    Walk.Justified .relabelling (CollapsedVisited.Valid seed.rank) (cfg.collapsedRules isTarget)
      seed (exploreCollapsed cfg seed oracle isTarget token).1
      (exploreCollapsed cfg seed oracle isTarget token).2 :=
  explore_justified (collapsedLaws seed.rank) (asksOnly_collapsedRules cfg hserves)
    (CollapsedVisited.valid_new ho) (CollapsedVisited.record?_new _ _) ht

/-- So does the exploration that looks for no matrix. -/
theorem countCollapsed_justified (cfg : EnumerationConfig) (seed : ExchangeMatrix)
    (ho : oracle.Serves seed.rank) (ht : token.NeverStops) :
    Walk.Justified .relabelling (CollapsedVisited.Valid seed.rank)
      (cfg.collapsedRules fun o _ => (false, o)) seed
      (exploreCollapsed cfg seed oracle (fun o _ => (false, o)) token).1
      (exploreCollapsed cfg seed oracle (fun o _ => (false, o)) token).2 :=
  exploreCollapsed_justified cfg seed (fun _ _ h => h) ho ht

end Collapsed

/-- An enumeration up to relabelling is one exploration, with the oracle that the session hands
out. -/
theorem Session.ask_enumerate_acquired (s : Session) (hmode : cfg.mode = .upToEquivalence)
    (hrank : seed.rank ≤ 64) :
    ∃ oracle context, (acquireOracle seed.rank).run s = (.ok oracle, ⟨context, s.token⟩) ∧
      oracle.Serves seed.rank ∧
      (s.ask (enumerate cfg seed)).1 =
        .ok ⟨.ofHalt (exploreCollapsed cfg seed oracle (fun o _ => (false, o)) s.token).1
            (exploreCollapsed cfg seed oracle (fun o _ => (false, o)) s.token).2.stats.discovered,
          (exploreCollapsed cfg seed oracle (fun o _ => (false, o)) s.token).2.stats⟩ := by
  obtain ⟨oracle, context, hacquire, hserves⟩ := acquireOracle_eq seed.rank s
  refine ⟨oracle, context, hacquire, hserves, ?_⟩
  rcases hwalk : exploreCollapsed cfg seed oracle (fun o _ => (false, o)) s.token with ⟨halt, w⟩
  obtain ⟨context', hrelease⟩ := releaseOracle_eq w.visited.oracle ⟨context, w.token⟩
  simp only [Session.ask, enumerate, checkedRank_eq hrank, hmode]
  change (ExceptT.run (acquireOracle seed.rank >>= _) s).1 = _
  rw [Session.run_bind hacquire, Session.run_bind (Session.run_withToken _ _)]
  simp only [hwalk]
  rw [Session.run_bind hrelease]
  rfl

/-- The exploration halts for a reason if nobody stops the token. -/
theorem Session.ask_enumerate_collapsed (hmode : cfg.mode = .upToEquivalence)
    (hrank : seed.rank ≤ 64) (ht : s.token.NeverStops) :
    ∃ halt w, Walk.Justified .relabelling (CollapsedVisited.Valid seed.rank)
        (cfg.collapsedRules fun o _ => (false, o)) seed halt w ∧
      (s.ask (enumerate cfg seed)).1 = .ok ⟨.ofHalt halt w.stats.discovered, w.stats⟩ := by
  obtain ⟨oracle, -, -, hserves, hask⟩ := Session.ask_enumerate_acquired s hmode hrank
  exact ⟨_, _, countCollapsed_justified cfg seed hserves ht, hask⟩

/-- **Enumeration up to relabelling counts the classes of reachable matrices**, whatever the session
has been asked before.  An infinite size is due to a reachable matrix. -/
theorem enumerate_collapsed_counts (cfg : EnumerationConfig) (seed : ExchangeMatrix) (s : Session)
    (hmode : cfg.mode = .upToEquivalence) (hrank : seed.rank ≤ 64) (ht : s.token.NeverStops) :
    ∃ e, (s.ask (enumerate cfg seed)).1 = .ok e ∧ e.outcome ≠ .cancelled ∧
      (∀ c, e.outcome = .finite c →
        (Identification.relabelling.classes seed.mutationClass).encard = c) ∧
      (e.outcome = .infinite →
        (∃ x ∈ seed.mutationClass, ∃ k < x.rank, x.mutate? k = .error (.entryOverflow k)) ∨
          (cfg.stopOnCertificate = true ∧
            ∃ x ∈ seed.mutationClass, x.certifiesInfinite = true)) := by
  obtain ⟨halt, w, hj, hask⟩ := Session.ask_enumerate_collapsed hmode hrank ht
  exact ⟨_, hask, hj.decided, fun c hc => hj.counts (fun _ _ => rfl) hc, hj.infinite_cause⟩

/-- The framed arrow and its reverse are of one class. -/
theorem enumerate_collapsed_counts_framed :
    (EnumerationConfig.withMode .upToEquivalence).mode = .upToEquivalence ∧
      (framedArrow 1).rank ≤ 64 ∧
      ∃ e, ((Session.new .standard .running).ask
        (enumerate (.withMode .upToEquivalence) (framedArrow 1))).1 = .ok e ∧
        e.outcome = .finite 1 := by
  obtain ⟨e, hask, hdecided, hcount, hcause⟩ :=
    enumerate_collapsed_counts (.withMode .upToEquivalence) (framedArrow 1)
      (.new .standard .running) rfl (by decide) Token.neverStops_running
  refine ⟨rfl, by decide, e, hask, ?_⟩
  cases he : e.outcome with
  | cancelled => exact absurd he hdecided
  | infinite =>
      rcases hcause he with ⟨x, hx, k, hk, hover⟩ | ⟨hstop, -⟩
      · obtain ⟨y, hto⟩ := framedArrow_crossable hx hk
        cases hover.symm.trans hto
      · cases hstop
  | finite c =>
      have hc := hcount c he
      rw [classes_framedArrow, Set.encard_singleton] at hc
      rw [show c = 1 by exact_mod_cast hc.symm]

end MutationFinite
