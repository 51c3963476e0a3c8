import MutationFinite.Proofs.RandomWalk.Soundness

/-!
# Random walks that somebody stops

A walk that finds its token stopped ends as one that has found nothing.  Such an end is not to be
told from a fruitless walk by its outcome, but by its token, which stays stopped.

* `Token.Polled`: a token after some more polls.
* `Token.Stopped`: every later poll says that the token is stopped.
* `FoundUnlessStopped`: what a walk finds next to the walk that nobody stops.
* `proveInfinite_found`: walks find what they would have found, or their token is stopped.
-/

namespace MutationFinite

open ExchangeMatrix

/-! ### Tokens after some polls -/

namespace Token

variable {t t' t'' : Token}

/-- The token `t'` is `t` after some more polls. -/
structure Polled (t t' : Token) : Prop where
  answers : t'.answers = t.answers
  polls : t.polls ≤ t'.polls

theorem Polled.refl (t : Token) : t.Polled t := ⟨rfl, Nat.le_refl _⟩

theorem Polled.trans (h : t.Polled t') (h' : t'.Polled t'') : t.Polled t'' :=
  ⟨h'.answers.trans h.answers, h.polls.trans h'.polls⟩

theorem polled_poll (t : Token) : t.Polled t.poll.2 := ⟨rfl, Nat.le_succ _⟩

theorem polled_poll_if (t : Token) (p : Prop) [Decidable p] :
    t.Polled (if p then t.poll else (false, t)).2 := by
  split
  · exact t.polled_poll
  · exact .refl t

theorem Monotone.polled (h : t.Monotone) (hp : t.Polled t') : t'.Monotone := by
  unfold Monotone
  rw [hp.answers]
  exact h

theorem NeverStops.polled (h : t.NeverStops) (hp : t.Polled t') : t'.NeverStops := by
  unfold NeverStops
  rw [hp.answers]
  exact h

/-- Every later poll says that the token is stopped. -/
def Stopped (t : Token) : Prop := ∀ i, t.polls ≤ i → t.answers i = true

theorem Stopped.polled (h : t.Stopped) (hp : t.Polled t') : t'.Stopped := by
  intro i hi
  rw [hp.answers]
  exact h i (hp.polls.trans hi)

theorem Stopped.poll (h : t.Stopped) : t.poll.1 = true := h t.polls (Nat.le_refl _)

/-- A monotone token that is found stopped once is stopped. -/
theorem Monotone.stopped_of_poll (h : t.Monotone) (hstop : t.poll.1 = true) : t.poll.2.Stopped :=
  fun i hi => h t.polls i ((Nat.le_succ _).trans hi) hstop

theorem Monotone.stopped_of_poll_if (h : t.Monotone) {p : Prop} [Decidable p]
    (hstop : (if p then t.poll else (false, t)).1 = true) :
    (if p then t.poll else (false, t)).2.Stopped := by
  split at hstop
  · next hp =>
    rw [if_pos hp]
    exact h.stopped_of_poll hstop
  · cases hstop

end Token

/-! ### Walks -/

/-- A walk finds what the walk that nobody stops finds, or it finds nothing and is stopped. -/
def FoundUnlessStopped (found found' : Bool) (token' : Token) : Prop :=
  found' = found ∨ (found' = false ∧ token'.Stopped)

section Walk

variable {σ : Type} {draw : Nat → σ → Nat × σ} {n : Nat}

/-- A walk does no more to its token than to poll it. -/
theorem polled_walkSteps (remaining done : Nat) (current spare : ExchangeMatrix)
    (last : Option Nat) (s : σ) (token : Token) :
    token.Polled (walkSteps draw n remaining done current spare last s token).2.2 := by
  induction remaining generalizing done current spare last s token with
  | zero => exact .refl token
  | succ remaining ih =>
      have hpolled := token.polled_poll_if ((done + 1) % walkPollEvery = 0)
      rcases hpoll : (if (done + 1) % walkPollEvery = 0 then token.poll else (false, token))
        with ⟨stopped, token'⟩
      rw [hpoll] at hpolled
      simp only [walkSteps, hpoll]
      split
      · exact hpolled
      · split
        · exact hpolled
        · split
          · exact hpolled
          · exact hpolled.trans (ih _ _ _ _ _ _)

theorem polled_randomWalk (draw : Nat → σ → Nat × σ) (seed : ExchangeMatrix) (maxSteps : Nat)
    (s : σ) (token : Token) : token.Polled (randomWalk draw seed maxSteps s token).2.2 := by
  unfold randomWalk
  split
  · exact .refl token
  · exact polled_walkSteps maxSteps 0 seed _ none s token

/-- Step by step the two walks are at the same matrix, until the poll that stops one of them. -/
theorem walkSteps_found (remaining done : Nat) (current spare : ExchangeMatrix)
    (last : Option Nat) (s : σ) (token token' : Token) (ht : token.NeverStops)
    (ht' : token'.Monotone) :
    let leads := walkSteps draw n remaining done current spare last s token
    let follows := walkSteps draw n remaining done current spare last s token'
    follows.1 = leads.1 ∨ (follows.1 = none ∧ follows.2.2.Stopped) := by
  intro leads follows
  induction remaining generalizing done current spare last s token token' with
  | zero => exact .inl rfl
  | succ remaining ih =>
      obtain ⟨t, hpoll, ht⟩ := ht.poll_if ((done + 1) % walkPollEvery = 0)
      have hpolled := token'.polled_poll_if ((done + 1) % walkPollEvery = 0)
      have hstopped := ht'.stopped_of_poll_if (p := (done + 1) % walkPollEvery = 0)
      rcases hpoll' : (if (done + 1) % walkPollEvery = 0 then token'.poll else (false, token'))
        with ⟨stopped, t'⟩
      rw [hpoll'] at hpolled hstopped
      simp only [leads, follows, walkSteps, hpoll, hpoll', Bool.false_eq_true, if_false]
      cases stopped with
      | true => exact .inr ⟨rfl, hstopped rfl⟩
      | false =>
          simp only [Bool.false_eq_true, if_false]
          split
          · exact .inl rfl
          · split
            · exact .inl rfl
            · exact ih _ _ _ _ _ t t' ht (ht'.polled hpolled)

theorem randomWalk_found (draw : Nat → σ → Nat × σ) (seed : ExchangeMatrix) (maxSteps : Nat)
    (s : σ) {token token' : Token} (ht : token.NeverStops) (ht' : token'.Monotone) :
    (randomWalk draw seed maxSteps s token').1 = (randomWalk draw seed maxSteps s token).1 ∨
      ((randomWalk draw seed maxSteps s token').1 = none ∧
        (randomWalk draw seed maxSteps s token').2.2.Stopped) := by
  unfold randomWalk
  split
  · exact .inl rfl
  · exact walkSteps_found maxSteps 0 seed _ none s token token' ht ht'

end Walk

/-! ### Several walks -/

variable [Generator] {seed : ExchangeMatrix}

theorem polled_runChains (base : UInt64) (seed : ExchangeMatrix) (maxSteps count chain : Nat)
    (token : Token) : token.Polled (runChains base seed maxSteps count chain token).2 := by
  induction count generalizing chain token with
  | zero => exact .refl token
  | succ count ih =>
      have hpolled := polled_randomWalk Generator.draw seed maxSteps
        (chainGenerator base chain) token
      unfold runChains runChain
      rcases hr : randomWalk Generator.draw seed maxSteps (chainGenerator base chain) token
        with ⟨found, g, t⟩
      rw [hr] at hpolled
      cases found with
      | some steps => exact hpolled
      | none => exact hpolled.trans (ih (chain + 1) t)

/-- A walk that is stopped leaves the success to a later one, or the token is stopped in the end. -/
theorem runChains_found (base : UInt64) (maxSteps count chain : Nat) (token token' : Token)
    (ht : token.NeverStops) (ht' : token'.Monotone) :
    FoundUnlessStopped (runChains base seed maxSteps count chain token).1.isInfinite
      (runChains base seed maxSteps count chain token').1.isInfinite
      (runChains base seed maxSteps count chain token').2 := by
  induction count generalizing chain token token' with
  | zero => exact .inl rfl
  | succ count ih =>
      have hfound := randomWalk_found Generator.draw seed maxSteps
        (chainGenerator base chain) ht ht'
      have hleft := ht.polled (polled_randomWalk Generator.draw seed maxSteps
        (chainGenerator base chain) token)
      have hpolled := polled_randomWalk Generator.draw seed maxSteps
        (chainGenerator base chain) token'
      unfold runChains runChain
      rcases hr : randomWalk Generator.draw seed maxSteps (chainGenerator base chain) token
        with ⟨found, g, t⟩
      rcases hr' : randomWalk Generator.draw seed maxSteps (chainGenerator base chain) token'
        with ⟨found', g', t'⟩
      rw [hr] at hfound hleft
      rw [hr'] at hfound hpolled
      cases found with
      | none =>
          obtain rfl : found' = none := by
            rcases hfound with h | ⟨h, -⟩ <;> exact h
          exact ih (chain + 1) t t' hleft (ht'.polled hpolled)
      | some steps =>
          rcases hfound with h | ⟨h, hstopped⟩
          · obtain rfl : found' = some steps := h
            exact .inl rfl
          · -- the walks after the stopped one may still succeed
            obtain rfl : found' = none := h
            have hlater := polled_runChains base seed maxSteps count (chain + 1) t'
            rcases Bool.eq_false_or_eq_true
              (runChains base seed maxSteps count (chain + 1) t').1.isInfinite with hrest | hrest
            · exact .inl hrest
            · exact .inr ⟨hrest, hstopped.polled hlater⟩

/-- **Walks find what they would have found if nobody had stopped them**, or they find nothing and
their token is stopped. -/
theorem proveInfinite_found (cfg : HeuristicConfig) (base : UInt64) (seed : ExchangeMatrix)
    {token token' : Token} (ht : token.NeverStops) (ht' : token'.Monotone) :
    FoundUnlessStopped (proveInfinite cfg base seed token).1.isInfinite
      (proveInfinite cfg base seed token').1.isInfinite (proveInfinite cfg base seed token').2 := by
  unfold proveInfinite
  split_ifs
  · exact .inl rfl
  · exact .inl rfl
  · exact runChains_found base cfg.maxSteps _ 0 token token' ht ht'

end MutationFinite
