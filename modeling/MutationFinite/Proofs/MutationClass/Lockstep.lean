import MutationFinite.Proofs.MutationClass.Exploration

/-!
# Walks in step

Two walks over different stores take the same steps when the stores answer alike.  The walk that
leads is not stopped; the one that follows may be.

* `Simulates`: related stores answer alike, and stay related.
* `Walk.Matches`: two walks differ in their stores, which are related, and in their tokens.
* `Follows`: the following walk is where the leading one is, or was stopped.
* `Walk.Matches.step`: a step keeps two walks together, or the following one is stopped.
* `explore_follows`: so does an exploration.
-/

namespace MutationFinite

open ExchangeMatrix

variable {V V' : Type} [Visited V] [Visited V']

/-- A walk over a valid store of matrices of rank `n` cannot tell it from a store to which `R`
relates it. -/
structure Simulates (n : Nat) (Valid : V → Prop) (R : V → V' → Prop) (rules : WalkRules V)
    (rules' : WalkRules V') : Prop where
  stopOnCertificate : rules'.stopOnCertificate = rules.stopOnCertificate
  isTarget : ∀ {v v' m}, R v v' → (rules'.isTarget v' m).1 = (rules.isTarget v m).1 ∧
    R (rules.isTarget v m).2 (rules'.isTarget v' m).2
  reach : ∀ {v v' m k}, R v v' → Valid v → m.rank = n → k < n →
    (Visited.reach v' m k).1.isSome = (Visited.reach v m k).1.isSome ∧
      R (Visited.reach v m k).2 (Visited.reach v' m k).2
  insert : ∀ {v v'} m back, R v v' → R (Visited.insert v m back) (Visited.insert v' m back)
  record? : ∀ {v v'} m, R v v' → Visited.record? v' m = Visited.record? v m
  mark : ∀ {v v'} m k, R v v' → R (Visited.mark v m k) (Visited.mark v' m k)
  remove : ∀ {v v'} m, R v v' → (Visited.remove v' m).1 = (Visited.remove v m).1 ∧
    R (Visited.remove v m).2 (Visited.remove v' m).2
  size : ∀ {v v'}, R v v' → Visited.size v' = Visited.size v

/-- A store cannot be told from itself. -/
theorem simulates_eq (n : Nat) (Valid : V → Prop) {rules rules' : WalkRules V}
    (hstop : rules'.stopOnCertificate = rules.stopOnCertificate)
    (htarget : rules'.isTarget = rules.isTarget) : Simulates n Valid Eq rules rules' where
  stopOnCertificate := hstop
  isTarget := by
    rintro v _ m rfl
    exact ⟨by rw [htarget], by rw [htarget]⟩
  reach := by
    rintro v _ m k rfl - - -
    exact ⟨rfl, rfl⟩
  insert := by
    rintro v _ m back rfl
    rfl
  record? := by
    rintro v _ m rfl
    rfl
  mark := by
    rintro v _ m k rfl
    rfl
  remove := by
    rintro v _ m rfl
    exact ⟨rfl, rfl⟩
  size := by
    rintro v _ rfl
    rfl

namespace Walk

/-- Two walks differ in their stores, which `R` relates, and in their tokens. -/
structure Matches (R : V → V' → Prop) (w : Walk V) (w' : Walk V') : Prop where
  visited : R w.visited w'.visited
  frontier : w'.frontier = w.frontier
  current : w'.current = w.current
  stats : w'.stats = w.stats

end Walk

/-- The second walk is where the first one is, or was stopped. -/
inductive Follows (R : V → V' → Prop) : Progress V → Progress V' → Prop
  | stopped (p : Progress V) (w' : Walk V') : Follows R p (.halted .cancelled w')
  | going {w : Walk V} {w' : Walk V'} : w.Matches R w' → Follows R (.going w) (.going w')
  | halted (h : Halt) {w : Walk V} {w' : Walk V'} :
      w.Matches R w' → Follows R (.halted h w) (.halted h w')

namespace Walk

variable {n : Nat} {I : Identification} {Valid : V → Prop} {R : V → V' → Prop}
  {rules : WalkRules V} {rules' : WalkRules V'} {seed m next : ExchangeMatrix} {k : Nat}
  {w : Walk V} {w' : Walk V'} {L : Ledger}

/-! ### The parts of a step -/

theorem Matches.closeEdge (sim : Simulates n Valid R rules rules') (h : Matches R w w')
    (m : ExchangeMatrix) (k : Nat) : Matches R (closeEdge w m k) (closeEdge w' m k) := by
  obtain ⟨visited, frontier, current, stats, token⟩ := w
  obtain ⟨visited', frontier', current', stats', token'⟩ := w'
  obtain ⟨hvisited, rfl, rfl, rfl⟩ := h
  have hmark := sim.mark m k hvisited
  exact ⟨hmark, rfl, rfl, by simp only [Walk.closeEdge, sim.size hmark]⟩

theorem Matches.discover (sim : Simulates n Valid R rules rules') (h : Matches R w w')
    (m : ExchangeMatrix) (k : Nat) (next : ExchangeMatrix) :
    Follows R (discover rules w m k next) (discover rules' w' m k next) := by
  obtain ⟨visited, frontier, current, stats, token⟩ := w
  obtain ⟨visited', frontier', current', stats', token'⟩ := w'
  obtain ⟨hvisited, rfl, rfl, rfl⟩ := h
  obtain ⟨hfound, hasked⟩ := sim.isTarget (m := next) hvisited
  rcases hask : rules.isTarget visited next with ⟨found, v⟩
  rcases hask' : rules'.isTarget visited' next with ⟨found', v'⟩
  rw [hask, hask'] at hfound hasked
  obtain rfl : found' = found := hfound
  cases found' with
  | true =>
      simp only [Walk.discover, hask, hask']
      exact .halted _ ⟨hasked, rfl, rfl, rfl⟩
  | false =>
      simp only [Walk.discover, hask, hask', sim.stopOnCertificate]
      split
      · exact .halted _ ⟨hasked, rfl, rfl, rfl⟩
      · exact .going (Matches.closeEdge sim ⟨sim.insert next (some k) hasked, rfl, rfl, rfl⟩ m k)

theorem Matches.crossEdge (sim : Simulates n Valid R rules rules') (h : Matches R w w')
    (hvalid : Valid w.visited) (hm : m.rank = n) (hk : k < n) :
    Follows R (crossEdge rules w m k) (crossEdge rules' w' m k) := by
  unfold Walk.crossEdge
  cases hto : m.mutate? k with
  | error e => exact .halted _ h
  | ok next =>
      obtain ⟨visited, frontier, current, stats, token⟩ := w
      obtain ⟨visited', frontier', current', stats', token'⟩ := w'
      obtain ⟨hvisited, rfl, rfl, rfl⟩ := h
      have hrank : next.rank = n := (mutatesTo_of_mutate? hto).shape.rank_eq.trans hm
      obtain ⟨hfound, hreached⟩ := sim.reach hvisited hvalid hrank hk
      rcases hreach : Visited.reach visited next k with ⟨answer, v⟩
      rcases hreach' : Visited.reach visited' next k with ⟨answer', v'⟩
      rw [hreach, hreach'] at hfound hreached
      simp only [hreach, hreach']
      have hmatches : Matches R ⟨v, frontier', current', stats', token⟩
          ⟨v', frontier', current', stats', token'⟩ := ⟨hreached, rfl, rfl, rfl⟩
      cases answer <;> cases answer'
      · exact hmatches.discover sim m k next
      · cases hfound
      · cases hfound
      · exact .going (hmatches.closeEdge sim m k)

omit [Visited V] [Visited V'] in
theorem Matches.counting (h : Matches R w w') (token token' : Token) :
    Matches R (w.counting token) (w'.counting token') :=
  ⟨h.visited, h.frontier, h.current, by simp only [Walk.counting, h.stats]⟩

/-- The token of the following walk may stop it before it crosses the edge. -/
theorem Matches.followEdge (sim : Simulates n Valid R rules rules') (h : Matches R w w')
    (ht : w.token.NeverStops) (hvalid : Valid w.visited) (hm : m.rank = n) (hk : k < n) :
    Follows R (followEdge rules w m k) (followEdge rules' w' m k) := by
  obtain ⟨token, -, hleads⟩ := followEdge_eq ht rules m k
  rw [hleads]
  rcases followEdge_cases rules' w' m k with ⟨token', heq⟩ | ⟨token', heq⟩
  · rw [heq]
    exact .stopped _ _
  · rw [heq]
    exact (h.counting token token').crossEdge sim hvalid hm hk

omit [Visited V] [Visited V'] in
theorem Matches.takeUp (h : Matches R w w') (ht : w.token.NeverStops) :
    Follows R (takeUp w) (takeUp w') := by
  obtain ⟨visited, frontier, current, stats, token⟩ := w
  obtain ⟨visited', frontier', current', stats', token'⟩ := w'
  obtain ⟨hvisited, rfl, rfl, rfl⟩ := h
  simp only [Walk.takeUp]
  split
  · exact .halted _ ⟨hvisited, rfl, rfl, rfl⟩
  · simp only [ht.poll.1, Bool.false_eq_true, if_false]
    split
    · exact .stopped _ _
    · exact .going ⟨hvisited, rfl, rfl, rfl⟩

theorem Matches.giveUp (sim : Simulates n Valid R rules rules') (h : Matches R w w')
    (m : ExchangeMatrix) : Matches R (giveUp w m) (giveUp w' m) := by
  obtain ⟨visited, frontier, current, stats, token⟩ := w
  obtain ⟨visited', frontier', current', stats', token'⟩ := w'
  obtain ⟨hvisited, rfl, rfl, rfl⟩ := h
  obtain ⟨hremoved, hleft⟩ := sim.remove m hvisited
  exact ⟨hleft, rfl, rfl, by simp only [Walk.giveUp, hremoved]⟩

/-! ### Steps, runs and explorations -/

/-- **A step keeps two walks together**, or the following one is stopped. -/
theorem Matches.step (sim : Simulates seed.rank Valid R rules rules')
    (laws : StoreLaws I seed.rank Valid) (h : Matches R w w')
    (htracks : Tracks I Valid rules seed w L) (ht : w.token.NeverStops) :
    Follows R (step rules w) (step rules' w') := by
  unfold Walk.step
  rw [h.current]
  split
  · exact h.takeUp ht
  · next m hcur =>
    rw [sim.record? m h.visited]
    split
    · exact .going (h.giveUp sim m)
    · next k hsome =>
      obtain ⟨hm, hk, -⟩ := htracks.unmarked_of_lowest laws hcur hsome
      have hrank : m.rank = seed.rank := (htracks.shape hm).rank_eq
      exact h.followEdge sim ht htracks.valid hrank (hrank ▸ hk)

/-- The answer of the following walk is that of the leading one, or the walk was stopped. -/
def Agree (R : V → V' → Prop) (leads : Halt × Walk V) (follows : Halt × Walk V') : Prop :=
  follows.1 = .cancelled ∨ (follows.1 = leads.1 ∧ leads.2.Matches R follows.2)

theorem Matches.run (sim : Simulates seed.rank Valid R rules rules')
    (laws : StoreLaws I seed.rank Valid) (asks : AsksOnly Valid rules) (fuel : Nat)
    (h : Matches R w w') (htracks : Tracks I Valid rules seed w L) (ht : w.token.NeverStops) :
    Agree R (run rules fuel w) (run rules' fuel w') := by
  induction fuel generalizing w w' L with
  | zero => exact .inr ⟨rfl, h⟩
  | succ fuel ih =>
      have hstep := h.step sim laws htracks ht
      have hleads := htracks.step laws asks ht
      unfold Walk.run
      generalize Walk.step rules w = p at hstep hleads
      generalize Walk.step rules' w' = p' at hstep
      cases hstep with
      | stopped p w' => exact .inl rfl
      | going h =>
          obtain ⟨ht', L', htracks', -⟩ := hleads
          exact ih h htracks' ht'
      | halted halt h => exact .inr ⟨rfl, h⟩

theorem opening_follows (sim : Simulates n Valid R rules rules') {visited : V} {visited' : V'}
    (hR : R visited visited') (seed : ExchangeMatrix) (token token' : Token) :
    Follows R (opening rules seed visited token) (opening rules' seed visited' token') := by
  obtain ⟨hfound, hasked⟩ := sim.isTarget (m := seed) hR
  rcases hask : rules.isTarget visited seed with ⟨found, v⟩
  rcases hask' : rules'.isTarget visited' seed with ⟨found', v'⟩
  rw [hask, hask'] at hfound hasked
  obtain rfl : found' = found := hfound
  cases found' with
  | true =>
      simp only [Walk.opening, hask, hask']
      exact .halted _ ⟨hasked, rfl, rfl, rfl⟩
  | false =>
      simp only [Walk.opening, hask, hask', sim.stopOnCertificate]
      split
      · exact .halted _ ⟨hasked, rfl, rfl, rfl⟩
      · exact .going ⟨sim.insert seed none hasked, rfl, rfl, rfl⟩

end Walk

/-- **An exploration over a store that cannot be told from another halts where the other one does**,
for the same reason and with the same counters, or it is stopped. -/
theorem explore_follows {I : Identification} {Valid : V → Prop} {R : V → V' → Prop}
    {rules : WalkRules V} {rules' : WalkRules V'} {seed : ExchangeMatrix} {visited : V}
    {visited' : V'} {token : Token} (sim : Simulates seed.rank Valid R rules rules')
    (laws : StoreLaws I seed.rank Valid) (asks : Walk.AsksOnly Valid rules)
    (hvalid : Valid visited) (hempty : ∀ y, Visited.record? visited y = none)
    (ht : token.NeverStops) (hR : R visited visited') (token' : Token) :
    Walk.Agree R (explore rules seed visited token) (explore rules' seed visited' token') := by
  have hopen := Walk.opening_follows sim hR seed token token'
  have hleads : Walk.Tracked I Valid rules seed (.start seed) _ :=
    tracked_opening laws asks hvalid hempty ht
  unfold explore
  generalize Walk.opening rules seed visited token = p at hopen hleads
  generalize Walk.opening rules' seed visited' token' = p' at hopen
  cases hopen with
  | stopped p w' => exact .inl rfl
  | going h =>
      obtain ⟨ht', L, htracks, -⟩ := hleads
      exact h.run sim laws asks _ htracks ht'
  | halted halt h => exact .inr ⟨rfl, h⟩

end MutationFinite
