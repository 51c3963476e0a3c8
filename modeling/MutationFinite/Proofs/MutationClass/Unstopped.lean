import MutationFinite.Proofs.MutationClass.DirectSearch
import MutationFinite.Proofs.MutationClass.Equivalence

/-!
# Questions that nobody stops

All that a walk does to its token is to poll it.  So a session that nobody stops can be asked one
question after another, and where the answers do not hang on witnesses, they are the same in all
such sessions.

* `explore_answers`: an exploration leaves the answers of its token as they are.
* `enumerate_returns`: an enumeration has one result for all sessions that nobody stops.
* `areMutationEquivalent?_returns`: a search for a relabelling has an answer in each of them.
-/

namespace MutationFinite

open ExchangeMatrix

/-! ### Polling -/

/-- The walk of a state, whether it goes on or has halted. -/
def Progress.walk {V : Type} : Progress V → Walk V
  | .going w => w
  | .halted _ w => w

namespace Walk

variable {V : Type} [Visited V]

theorem token_discover (rules : WalkRules V) (w : Walk V) (m : ExchangeMatrix) (k : Nat)
    (next : ExchangeMatrix) : (discover rules w m k next).walk.token = w.token := by
  unfold Walk.discover
  dsimp only
  split
  · rfl
  · split <;> rfl

theorem token_crossEdge (rules : WalkRules V) (w : Walk V) (m : ExchangeMatrix) (k : Nat) :
    (crossEdge rules w m k).walk.token = w.token := by
  unfold Walk.crossEdge
  split
  · rfl
  · dsimp only
    split
    · rfl
    · exact token_discover rules _ m k _

theorem answers_followEdge (rules : WalkRules V) (w : Walk V) (m : ExchangeMatrix) (k : Nat) :
    (followEdge rules w m k).walk.token.answers = w.token.answers := by
  unfold Walk.followEdge
  dsimp only
  split
  · split
    · rfl
    · rw [token_crossEdge]
      rfl
  · rw [token_crossEdge]

omit [Visited V] in
theorem answers_takeUp (w : Walk V) : (takeUp w).walk.token.answers = w.token.answers := by
  unfold Walk.takeUp
  dsimp only
  split
  · rfl
  · split <;> rfl

/-- A step does no more to the token than to poll it. -/
theorem answers_step (rules : WalkRules V) (w : Walk V) :
    (step rules w).walk.token.answers = w.token.answers := by
  unfold Walk.step
  split
  · exact answers_takeUp w
  · split
    · rfl
    · exact answers_followEdge rules w _ _

theorem answers_run (rules : WalkRules V) (fuel : Nat) (w : Walk V) :
    (run rules fuel w).2.token.answers = w.token.answers := by
  induction fuel generalizing w with
  | zero => rfl
  | succ fuel ih =>
      have hstep := answers_step rules w
      unfold Walk.run
      cases hp : Walk.step rules w with
      | going w' =>
          rw [hp] at hstep
          exact (ih w').trans hstep
      | halted halt w' =>
          rw [hp] at hstep
          exact hstep

theorem token_opening (rules : WalkRules V) (seed : ExchangeMatrix) (visited : V) (token : Token) :
    (opening rules seed visited token).walk.token = token := by
  unfold Walk.opening
  split
  · rfl
  · split <;> rfl

end Walk

/-- **An exploration leaves the answers of its token as they are.** -/
theorem explore_answers {V : Type} [Visited V] (rules : WalkRules V) (seed : ExchangeMatrix)
    (visited : V) (token : Token) :
    (explore rules seed visited token).2.token.answers = token.answers := by
  have hopen := Walk.token_opening rules seed visited token
  unfold explore
  cases hp : Walk.opening rules seed visited token with
  | going w =>
      rw [hp] at hopen
      exact (Walk.answers_run rules _ w).trans (congrArg Token.answers hopen)
  | halted halt w =>
      rw [hp] at hopen
      exact congrArg Token.answers hopen

/-- So nobody stops it later who did not before. -/
theorem neverStops_explore {V : Type} [Visited V] (rules : WalkRules V) (seed : ExchangeMatrix)
    (visited : V) {token : Token} (ht : token.NeverStops) :
    (explore rules seed visited token).2.token.NeverStops := fun i =>
  (congrFun (explore_answers rules seed visited token) i).trans (ht i)

/-! ### Enumerations -/

section Enumeration

variable {cfg : EnumerationConfig} {seed : ExchangeMatrix} {token token' : Token}

/-- Two explorations over equal matrices that nobody stops go together. -/
theorem exploreExact_agree (cfg : EnumerationConfig) (seed : ExchangeMatrix)
    (ht : token.NeverStops) (ht' : token'.NeverStops) :
    (exploreExact cfg seed token').1 = (exploreExact cfg seed token).1 ∧
      (exploreExact cfg seed token').2.stats = (exploreExact cfg seed token).2.stats := by
  have hagree : Walk.Agree Eq (exploreExact cfg seed token) (exploreExact cfg seed token') :=
    explore_follows (simulates_eq seed.rank (ExactVisited.Valid seed.rank) rfl rfl)
      (exactLaws seed.rank) (asksOnly_exactRules cfg seed.rank) (ExactVisited.valid_new seed.rank)
      ExactVisited.record?_new ht rfl token'
  rcases hagree with hstopped | ⟨hhalt, hmatches⟩
  · have hj := exploreExact_justified cfg seed ht'
    rw [hstopped] at hj
    exact hj.elim
  · exact ⟨hhalt, hmatches.stats⟩

/-- Two explorations up to relabelling that nobody stops go together, whatever their oracles. -/
theorem countCollapsed_agree {o o' : Oracle} (cfg : EnumerationConfig) (seed : ExchangeMatrix)
    (ho : o.Serves seed.rank) (ho' : o'.Serves seed.rank) (ht : token.NeverStops)
    (ht' : token'.NeverStops) :
    (exploreCollapsed cfg seed o' (fun o _ => (false, o)) token').1 =
        (exploreCollapsed cfg seed o (fun o _ => (false, o)) token).1 ∧
      (exploreCollapsed cfg seed o' (fun o _ => (false, o)) token').2.stats =
        (exploreCollapsed cfg seed o (fun o _ => (false, o)) token).2.stats := by
  rcases exploreCollapsed_agree cfg seed ho ho' ht token' with hstopped | ⟨hhalt, hmatches⟩
  · have hj := countCollapsed_justified cfg seed ho' ht'
    rw [hstopped] at hj
    exact hj.elim
  · exact ⟨hhalt, hmatches.stats⟩

theorem enumerate_returns_exact (hmode : cfg.mode = .exact) (hrank : seed.rank ≤ 64) :
    Session.Returns (enumerate cfg seed) (· =
      ⟨.ofHalt (exploreExact cfg seed .running).1
          (exploreExact cfg seed .running).2.stats.discovered,
        (exploreExact cfg seed .running).2.stats⟩) := by
  simp only [enumerate, hmode]
  refine .bind_eq (.ofExcept (checkedRank_eq hrank) rfl) (.withToken fun token ht => ?_)
  obtain ⟨hhalt, hstats⟩ := exploreExact_agree cfg seed Token.neverStops_running ht
  exact ⟨neverStops_explore _ _ _ ht, by simp only [hhalt, hstats]⟩

theorem enumerate_returns_collapsed (hmode : cfg.mode = .upToEquivalence)
    (hrank : seed.rank ≤ 64) :
    Session.Returns (enumerate cfg seed) (· = enumerateDirectly cfg seed .running) := by
  have hdirect : Oracle.direct.Serves seed.rank := trivial
  simp only [enumerate, hmode]
  refine .bind_eq (.ofExcept (checkedRank_eq hrank) rfl) (.bind (acquireOracle_returns _) ?_)
  intro oracle hserves
  refine .bind (P := fun found => found.1 = (exploreCollapsed cfg seed .direct
      (fun o _ => (false, o)) .running).1 ∧ found.2.2 = (exploreCollapsed cfg seed .direct
      (fun o _ => (false, o)) .running).2.stats) (.withToken fun token ht => ?_) ?_
  · exact ⟨neverStops_explore _ _ _ ht,
      countCollapsed_agree cfg seed hdirect hserves Token.neverStops_running ht⟩
  · rintro ⟨halt, visited, stats⟩ ⟨rfl, rfl⟩
    exact .bind (releaseOracle_returns _) fun _ _ => .pure rfl

/-- **An enumeration has one result for all sessions that nobody stops**, and it is decided. -/
theorem enumerate_returns (cfg : EnumerationConfig) (hrank : seed.rank ≤ 64) :
    ∃ e : Enumeration, e.outcome ≠ .cancelled ∧ Session.Returns (enumerate cfg seed) (· = e) := by
  cases hmode : cfg.mode with
  | exact =>
      exact ⟨_, (exploreExact_justified cfg seed Token.neverStops_running).decided,
        enumerate_returns_exact hmode hrank⟩
  | upToEquivalence =>
      have hdirect : Oracle.direct.Serves seed.rank := trivial
      exact ⟨_, (countCollapsed_justified cfg seed hdirect Token.neverStops_running).decided,
        enumerate_returns_collapsed hmode hrank⟩

end Enumeration

/-! ### Searches -/

/-- **A search for a relabelling has an answer**, which says what it should, in every session that
nobody stops. -/
theorem areMutationEquivalent?_returns (a b : ExchangeMatrix) (hrank : a.rank ≤ 64) :
    Session.Returns (areMutationEquivalent? a b) (SearchAnswer a b) := by
  by_cases hs : SameShape a b
  · rw [areMutationEquivalent?_eq hs hrank]
    refine .bind (acquireOracle_returns _) fun oracle hserves => ?_
    refine .bind (P := fun found => SearchAnswer a b found.1.answer)
      (.withToken fun token ht => ⟨neverStops_explore _ _ _ ht, ?_⟩) fun found hfound => ?_
    · exact searchAnswer_of_justified (exploreCollapsed_justified (.withMode .upToEquivalence) a
        (fun o m ho => Oracle.serves_recognises ho b m) hserves ht)
    · exact .bind (releaseOracle_returns _) fun _ _ => .pure hfound
  · simp only [areMutationEquivalent?, hs, not_false_eq_true, if_true]
    exact .pure ⟨fun h => hs h.shape, fun h => hs h.shape.symm⟩

end MutationFinite
