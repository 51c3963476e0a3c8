import MutationFinite.Proofs.Classification.Deletion
import MutationFinite.Proofs.RandomWalk.Stopping

/-!
# Cancellation

A question that is stopped says so, and one that is not stopped has the answer that it has when
nobody stops it: no poll, wherever it falls, leads to a third answer.

* `enumerate_unlessStopped`: an enumeration is cancelled, or ends as if nobody had stopped it.
* `enumerate_of_stopped`: an enumeration whose token is stopped from the start is cancelled.
* `checkFinite_unlessStopped`: a verdict is unknown, or that of the session that nobody stops.
* `cancellation_keeps_answers`: both, for all settings and sessions.
-/

namespace MutationFinite

open ExchangeMatrix

/-! ### Enumerations -/

/-- How often a walk polls makes no difference to its store. -/
theorem Simulates.repolled {V V' : Type} [Visited V] [Visited V'] {n : Nat} {Valid : V → Prop}
    {R : V → V' → Prop} {rules : WalkRules V} {rules' : WalkRules V'}
    (sim : Simulates n Valid R rules rules') (pollEvery : Nat) :
    Simulates n Valid R rules { rules' with pollEvery } :=
  { sim with }

/-- The report of a walk that follows another one is that of the other one, or `cancelled`. -/
theorem Walk.Agree.report {V V' : Type} {R : V → V' → Prop} {leads : Halt × Walk V}
    {follows : Halt × Walk V'} (h : Walk.Agree R leads follows) :
    ClassSize.ofHalt follows.1 follows.2.stats.discovered = .cancelled ∨
      (⟨.ofHalt follows.1 follows.2.stats.discovered, follows.2.stats⟩ : Enumeration) =
        ⟨.ofHalt leads.1 leads.2.stats.discovered, leads.2.stats⟩ := by
  rcases h with hstopped | ⟨hhalt, hmatches⟩
  · rw [hstopped]
    exact .inl rfl
  · rw [hhalt, hmatches.stats]
    exact .inr rfl

/-- The same settings, with other intervals between polls and between progress reports. -/
def EnumerationConfig.withIntervals (cfg : EnumerationConfig)
    (cancelPollEvery progressEvery : Nat) : EnumerationConfig :=
  { cfg with cancelPollEvery, progressEvery }

section Enumeration

variable {cfg : EnumerationConfig} {m : ExchangeMatrix} {s s' : Session}

/-- **An enumeration is cancelled, or has the outcome and the counters of the one that nobody
stops**, however often it polls. -/
theorem enumerate_unlessStopped (cfg : EnumerationConfig) (polls progress : Nat)
    (hrank : m.rank ≤ 64) (ht : s.token.NeverStops) (s' : Session) :
    ∃ e e', (s.ask (enumerate cfg m)).1 = .ok e ∧
      (s'.ask (enumerate (cfg.withIntervals polls progress) m)).1 = .ok e' ∧
      e.outcome ≠ .cancelled ∧ (e'.outcome = .cancelled ∨ e' = e) := by
  cases hmode : cfg.mode with
  | exact =>
      have sim : Simulates m.rank (ExactVisited.Valid m.rank) Eq cfg.exactRules
          (cfg.withIntervals polls progress).exactRules :=
        simulates_eq _ _ rfl rfl
      have hagree : Walk.Agree Eq (exploreExact cfg m s.token)
          (exploreExact (cfg.withIntervals polls progress) m s'.token) :=
        explore_follows sim (exactLaws m.rank) (asksOnly_exactRules cfg m.rank)
          (ExactVisited.valid_new m.rank) ExactVisited.record?_new ht rfl s'.token
      exact ⟨_, _, Session.ask_enumerate_exact hmode hrank,
        Session.ask_enumerate_exact hmode hrank, (exploreExact_justified cfg m ht).decided,
        hagree.report⟩
  | upToEquivalence =>
      obtain ⟨oracle, -, -, hserves, hask⟩ := Session.ask_enumerate_acquired s hmode hrank
      have hmode' : (cfg.withIntervals polls progress).mode = .upToEquivalence := hmode
      obtain ⟨oracle', -, -, hserves', hask'⟩ := Session.ask_enumerate_acquired s' hmode' hrank
      have hagree : Walk.Agree (CollapsedVisited.SameSlots m.rank)
          (exploreCollapsed cfg m oracle (fun o _ => (false, o)) s.token)
          (exploreCollapsed (cfg.withIntervals polls progress) m oracle' (fun o _ => (false, o))
            s'.token) :=
        explore_follows ((CollapsedVisited.simulates_sameSlots cfg m.rank).repolled (max polls 1))
          (collapsedLaws m.rank) (asksOnly_collapsedRules cfg fun _ _ h => h)
          (CollapsedVisited.valid_new hserves) (CollapsedVisited.record?_new _ _) ht
          (CollapsedVisited.sameSlots_new oracle hserves') s'.token
      exact ⟨_, _, hask, hask', (countCollapsed_justified cfg m hserves ht).decided,
        hagree.report⟩

/-- The first poll of a walk comes before its first edge. -/
theorem explore_of_stopped {V : Type} [Visited V] {rules : WalkRules V} {visited : V}
    {token : Token} (hnone : ∀ v x, (rules.isTarget v x).1 = false)
    (hcert : (rules.stopOnCertificate && m.certifiesInfinite) = false) (ht : token.Stopped) :
    (explore rules m visited token).1 = .cancelled := by
  have hask := hnone visited m
  rcases htarget : rules.isTarget visited m with ⟨found, v⟩
  rw [htarget] at hask
  obtain rfl : found = false := hask
  simp only [explore, Walk.opening, htarget, hcert, Bool.false_eq_true, if_false]
  obtain ⟨w, hstep⟩ : ∃ w, Walk.step rules (Walk.start m v token) = .halted .cancelled w := by
    simp only [Walk.step, Walk.start, Walk.takeUp, Frontier.singleton, Frontier.pop?, ht.poll,
      if_true]
    exact ⟨_, rfl⟩
  rw [Walk.stepBound, Walk.run, hstep]

/-- An enumeration whose token is stopped from the start is cancelled, unless its seed settles the
matter. -/
theorem enumerate_of_stopped (cfg : EnumerationConfig) (hrank : m.rank ≤ 64)
    (hcert : (cfg.stopOnCertificate && m.certifiesInfinite) = false) (s : Session)
    (ht : s.token.Stopped) :
    ∃ e, (s.ask (enumerate cfg m)).1 = .ok e ∧ e.outcome = .cancelled := by
  cases hmode : cfg.mode with
  | exact =>
      refine ⟨_, Session.ask_enumerate_exact hmode hrank, ?_⟩
      rw [exploreExact, explore_of_stopped (fun _ _ => rfl) hcert ht]
      rfl
  | upToEquivalence =>
      obtain ⟨oracle, -, -, -, hask⟩ := Session.ask_enumerate_acquired s hmode hrank
      refine ⟨_, hask, ?_⟩
      rw [exploreCollapsed, explore_of_stopped (fun _ _ => rfl) hcert ht]
      rfl

end Enumeration

/-! ### Verdicts -/

section Verdict

variable {m : ExchangeMatrix} {s s' : Session}

/-- The verdict that is read off an enumeration is unknown, or that of the one that nobody stops. -/
theorem ofSize_unlessStopped {cfg : EnumerationConfig} {v : Finiteness} (hrank : m.rank ≤ 64)
    (ht : s.token.NeverStops)
    (hask : (s.ask (do return Finiteness.ofSize (← enumerate cfg m).outcome)).1 = .ok v)
    (s' : Session) :
    ∃ v', (s'.ask (do return Finiteness.ofSize (← enumerate cfg m).outcome)).1 = .ok v' ∧
      (v' = .unknown ∨ v' = v) := by
  obtain ⟨e, e', he, he', -, hagree⟩ :=
    enumerate_unlessStopped cfg cfg.cancelPollEvery cfg.progressEvery hrank ht s'
  obtain rfl := Except.ok.inj ((Session.ask_ofSize he).symm.trans hask)
  refine ⟨_, Session.ask_ofSize he', ?_⟩
  rcases hagree with hcancelled | rfl
  · rw [hcancelled]
    exact .inl rfl
  · exact .inr rfl

variable [Generator]

/-- What the random walks of a session find, and the session afterwards. -/
theorem Session.walkToInfinity_run (cfg : ClassifierConfig) (m : ExchangeMatrix) (s : Session) :
    (walkToInfinity cfg m).run s =
      (.ok (proveInfinite cfg.heuristic cfg.baseSeed m s.token).1.isInfinite,
        ⟨s.context, (proveInfinite cfg.heuristic cfg.baseSeed m s.token).2⟩) :=
  Session.run_withToken _ s

/-- The verdict on a matrix that neither its size nor its certificate settles, after the walks. -/
theorem Session.ask_checkFinite_of_walk {cfg : ClassifierConfig} {found : Bool}
    (hsmall : m.isSmall = false) (hcert : m.certifiesInfinite = false)
    (hwalk : (walkToInfinity cfg m).run s = (.ok found, s')) :
    (s.ask (checkFinite cfg m)).1 = if found = true then .ok .infinite else
      (s'.ask (do
        return Finiteness.ofSize (← enumerate
          (EnumerationConfig.withMode cfg.mode).stoppingOnCertificate m).outcome)).1 := by
  simp only [checkFinite, hsmall, hcert, Session.ask]
  refine (congrArg Prod.fst (Session.run_bind hwalk)).trans ?_
  cases found <;> rfl

/-- A matrix that neither its size nor its certificate settles has an unknown verdict, or that of
the session that nobody stops.  A random walk that is stopped gives up silently, but then the
enumeration after it is stopped at its first poll. -/
theorem checkFinite_unlessStopped_of_walk {cfg : ClassifierConfig} {v : Finiteness}
    (hrank : m.rank ≤ 64) (hsmall : m.isSmall = false) (hcert : m.certifiesInfinite = false)
    (ht : s.token.NeverStops) (ht' : s'.token.Monotone)
    (hask : (s.ask (checkFinite cfg m)).1 = .ok v) :
    ∃ v', (s'.ask (checkFinite cfg m)).1 = .ok v' ∧ (v' = .unknown ∨ v' = v) := by
  have hleft := (proveInfinite_proves cfg.heuristic cfg.baseSeed m s.token ht).token
  rw [Session.ask_checkFinite_of_walk hsmall hcert (Session.walkToInfinity_run cfg m s)] at hask
  rw [Session.ask_checkFinite_of_walk hsmall hcert (Session.walkToInfinity_run cfg m s')]
  rcases proveInfinite_found cfg.heuristic cfg.baseSeed m ht ht' with hfound | ⟨hnone, hstopped⟩
  · rw [hfound]
    split at hask
    · next hinfinite =>
      rw [if_pos hinfinite]
      exact ⟨v, hask, .inr rfl⟩
    · next hunknown =>
      rw [if_neg hunknown]
      exact ofSize_unlessStopped hrank hleft hask _
  · rw [if_neg (Bool.eq_false_iff.mp hnone)]
    obtain ⟨e, he, hcancelled⟩ := enumerate_of_stopped
      (EnumerationConfig.withMode cfg.mode).stoppingOnCertificate hrank
      (by rw [hcert, Bool.and_false]) ⟨s'.context, _⟩ hstopped
    refine ⟨_, Session.ask_ofSize he, .inl ?_⟩
    rw [hcancelled]
    rfl

/-- **A verdict is unknown, or that of the session that nobody stops.** -/
theorem checkFinite_unlessStopped (cfg : ClassifierConfig) (hrank : m.rank ≤ 64)
    (ht : s.token.NeverStops) (ht' : s'.token.Monotone) :
    ∃ v v', (s.ask (checkFinite cfg m)).1 = .ok v ∧ (s'.ask (checkFinite cfg m)).1 = .ok v' ∧
      v ≠ .unknown ∧ (v' = .unknown ∨ v' = v) := by
  obtain ⟨v, hv, hverdict⟩ := exists_hasVerdict cfg hrank
  have hask := hverdict.ask_eq ht
  suffices h : ∃ v', (s'.ask (checkFinite cfg m)).1 = .ok v' ∧ (v' = .unknown ∨ v' = v) by
    obtain ⟨v', hask', h⟩ := h
    exact ⟨v, v', hask, hask', hv, h⟩
  by_cases hsmall : m.isSmall = true
  · simp only [checkFinite, hsmall, if_true] at hask ⊢
    exact ofSize_unlessStopped hrank ht hask s'
  · by_cases hcert : m.certifiesInfinite = true
    · simp only [checkFinite, hsmall, hcert, if_true] at hask ⊢
      exact ⟨v, hask, .inr rfl⟩
    · exact checkFinite_unlessStopped_of_walk hrank (Bool.eq_false_iff.mpr hsmall)
        (Bool.eq_false_iff.mpr hcert) ht ht' hask

/-- **Cancellation never changes a decided answer.**  Next to a session that nobody stops, let there
be one with any cache and a monotone token.  An enumeration is cancelled there, or has the same
outcome and counters, whatever the intervals between polls and progress reports are; and a verdict
is unknown, or the same.  In the session that nobody stops both are decided. -/
theorem cancellation_keeps_answers (m : ExchangeMatrix) (hrank : m.rank ≤ 64) (s s' : Session)
    (ht : s.token.NeverStops) (ht' : s'.token.Monotone) :
    (∀ (cfg : EnumerationConfig) (polls progress : Nat),
      ∃ e e', (s.ask (enumerate cfg m)).1 = .ok e ∧
        (s'.ask (enumerate (cfg.withIntervals polls progress) m)).1 = .ok e' ∧
        e.outcome ≠ .cancelled ∧ (e'.outcome = .cancelled ∨ e' = e)) ∧
    ∀ cfg : ClassifierConfig,
      ∃ v v', (s.ask (checkFinite cfg m)).1 = .ok v ∧ (s'.ask (checkFinite cfg m)).1 = .ok v' ∧
        v ≠ .unknown ∧ (v' = .unknown ∨ v' = v) :=
  ⟨fun cfg polls progress => enumerate_unlessStopped cfg polls progress hrank ht s',
    fun cfg => checkFinite_unlessStopped cfg hrank ht ht'⟩

end Verdict

/-- A token that is stopped from the poll numbered `t` on. -/
def Token.stoppedAt (t : Nat) : Token := ⟨fun i => decide (t ≤ i), 0⟩

theorem Token.monotone_stoppedAt (t : Nat) : (stoppedAt t).Monotone := fun _ _ hij hi =>
  decide_eq_true ((of_decide_eq_true hi).trans hij)

/-- The doubled cycle, whose class has two matrices, under tokens that are stopped at any poll. -/
theorem cancellation_keeps_answers_doubledCycle :
    (doubledCycle 1).rank ≤ 64 ∧ Token.running.NeverStops ∧ ∀ t,
      let s' := Session.new .standard (.stoppedAt t)
      let cfg := (EnumerationConfig.withMode .exact).stoppingOnCertificate
      s'.token.Monotone ∧
      (∃ e', (s'.ask (enumerate (cfg.withIntervals 0 0) (doubledCycle 1))).1 = .ok e' ∧
        (e'.outcome = .cancelled ∨ e'.outcome = .finite 2)) ∧
      ∃ v', (s'.ask (checkFinite (.standard 1 0) (doubledCycle 1))).1 = .ok v' ∧
        (v' = .unknown ∨ v' = .finite 2) := by
  refine ⟨by decide, Token.neverStops_running, fun t => ?_⟩
  intro s' cfg
  have hmono : s'.token.Monotone := Token.monotone_stoppedAt t
  obtain ⟨henumerate, hcheck⟩ := cancellation_keeps_answers (doubledCycle 1) (by decide)
    (.new .standard .running) s' Token.neverStops_running hmono
  refine ⟨hmono, ?_, ?_⟩
  · obtain ⟨e, e', hask, hask', -, hagree⟩ := henumerate cfg 0 0
    refine ⟨e', hask', hagree.imp_right ?_⟩
    rintro rfl
    obtain ⟨e, he, hcount⟩ := enumerate_decides cfg symmetrizable_doubledCycle
      (by decide) (.inl rfl) (s := .new .standard .running) Token.neverStops_running
    obtain rfl := Except.ok.inj (he.symm.trans hask)
    rcases hcount with ⟨-, hesc⟩ | ⟨c, hc, -, hcount⟩
    · exact absurd hesc not_escapes_doubledCycle
    · rw [show cfg.mode = .exact from rfl, classCount, mutationClass_doubledCycle,
        Set.encard_pair (by decide)] at hcount
      rw [hc, show c = 2 by exact_mod_cast hcount.symm]
  · obtain ⟨v, v', hask, hask', -, hagree⟩ := hcheck (.standard 1 0)
    have hverdict : HasVerdict (.standard 1 0) (doubledCycle 1) (.finite 2) :=
      hasVerdict_doubledCycle rfl
    obtain rfl := Except.ok.inj ((hverdict.ask_eq Token.neverStops_running).symm.trans hask)
    exact ⟨v', hask', hagree⟩

end MutationFinite
