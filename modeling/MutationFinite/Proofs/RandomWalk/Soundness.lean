import MutationFinite.Proofs.Matrix.Certificate
import MutationFinite.RandomWalk.Basic

/-!
# What random walks prove

* `DrawsBelow`: draws below a bound are below it, as those of a generator are; `pickVertex_lt` says
  that so are the vertices that are picked with them.
* `Proves`: what an outcome of walks says about the seed, and what is left of the token.
* `walkSteps_proves`: one step after another, a walk stays among reachable matrices.
* `proveInfinite_proves`: walks succeed on matrices that escape only.
* `proveInfinite_agree`: the tokens of walks that nobody stops make no difference.
-/

namespace MutationFinite

open ExchangeMatrix

/-! ### Draws -/

section Pick

variable {σ : Type} {draw : Nat → σ → Nat × σ} {n : Nat}

/-- Draws below a bound between 1 and `n` are below it. -/
def DrawsBelow (draw : Nat → σ → Nat × σ) (n : Nat) : Prop :=
  ∀ bound s, 0 < bound → bound ≤ n → (draw bound s).1 < bound

/-- A vertex that is picked is a vertex. -/
theorem pickVertex_lt (hdraw : DrawsBelow draw n) (hn : 2 ≤ n) (last : Option Nat) (s : σ) :
    (pickVertex draw n last s).1 < n := by
  cases last with
  | none => exact hdraw n s (by omega) (Nat.le_refl n)
  | some l =>
      -- a draw among the `n - 1` other vertices skips the last one
      have hlt := hdraw (n - 1) s (by omega) (by omega)
      rcases hd : draw (n - 1) s with ⟨k, s'⟩
      rw [hd] at hlt
      simp only [pickVertex, hd]
      split <;> omega

end Pick

/-! ### Walks -/

/-- A success shows that the seed escapes, and the token still never stops. -/
structure Proves (seed : ExchangeMatrix) (success : Bool) (token : Token) : Prop where
  escapes : success = true → seed.Escapes
  token : token.NeverStops

theorem Proves.none {seed : ExchangeMatrix} {token : Token} (ht : token.NeverStops) :
    Proves seed false token :=
  ⟨nofun, ht⟩

/-- A poll now and then does not stop a walk that nobody stops. -/
theorem Token.NeverStops.poll_if {token : Token} (ht : token.NeverStops) (p : Prop) [Decidable p] :
    ∃ token', (if p then token.poll else (false, token)) = (false, token') ∧
      token'.NeverStops := by
  split
  · exact ⟨token.poll.2, Prod.ext ht.poll.1 rfl, ht.poll.2⟩
  · exact ⟨token, rfl, ht⟩

section Walk

variable {σ : Type} {draw : Nat → σ → Nat × σ} {n : Nat} {seed current spare : ExchangeMatrix}

/-- **A walk stays among reachable matrices**, so that its success shows that the seed escapes. -/
theorem walkSteps_proves (hdraw : DrawsBelow draw n) (hn : 2 ≤ n) (hrank : n = seed.rank)
    (remaining done : Nat) (hreached : Reaches seed current) (hspare : SameShape spare current)
    (last : Option Nat) (s : σ) (token : Token) (ht : token.NeverStops) :
    Proves seed (walkSteps draw n remaining done current spare last s token).1.isSome
      (walkSteps draw n remaining done current spare last s token).2.2 := by
  induction remaining generalizing done current spare last s token with
  | zero => exact .none ht
  | succ remaining ih =>
      obtain ⟨token', hpoll, ht'⟩ := ht.poll_if ((done + 1) % walkPollEvery = 0)
      have hlt := pickVertex_lt hdraw hn last s
      rcases hpick : pickVertex draw n last s with ⟨k, s'⟩
      rw [hpick, hrank, ← hreached.shape.rank_eq] at hlt
      simp only [walkSteps, hpoll, hpick, Bool.false_eq_true, if_false]
      rcases hwrite : current.overwriteMutated k spare with ⟨next, done'⟩
      cases done' with
      | false =>
          have hover := mutate?_error_of_overwriteMutated hspare hlt (by rw [hwrite])
          exact ⟨fun _ => ⟨current, hreached, .inr ⟨k, hlt, hover⟩⟩, ht'⟩
      | true =>
          have hto := mutate?_of_overwriteMutated hspare hlt hwrite
          have hnext : Reaches seed next := .step hreached hto
          by_cases hcert : next.certifiesInfinite = true
          · simp only [hcert, if_true]
            exact ⟨fun _ => ⟨next, hnext, .inl hcert⟩, ht'⟩
          · simp only [hcert]
            exact ih (done + 1) hnext (mutatesTo_of_mutate? hto).shape.symm (some k) s' token' ht'

theorem randomWalk_proves (hdraw : DrawsBelow draw seed.rank) (maxSteps : Nat) (s : σ)
    (token : Token) (ht : token.NeverStops) :
    Proves seed (randomWalk draw seed maxSteps s token).1.isSome
      (randomWalk draw seed maxSteps s token).2.2 := by
  unfold randomWalk
  split
  · exact .none ht
  · exact walkSteps_proves hdraw (by omega) rfl maxSteps 0 (.refl seed) seed.sameShape_zeros none s
      token ht

theorem walkSteps_agree (remaining done : Nat) (current spare : ExchangeMatrix) (last : Option Nat)
    (s : σ) (token token' : Token) (ht : token.NeverStops) (ht' : token'.NeverStops) :
    (walkSteps draw n remaining done current spare last s token').1 =
      (walkSteps draw n remaining done current spare last s token).1 := by
  induction remaining generalizing done current spare last s token token' with
  | zero => rfl
  | succ remaining ih =>
      obtain ⟨t, hpoll, ht⟩ := ht.poll_if ((done + 1) % walkPollEvery = 0)
      obtain ⟨t', hpoll', ht'⟩ := ht'.poll_if ((done + 1) % walkPollEvery = 0)
      simp only [walkSteps, hpoll, hpoll', Bool.false_eq_true, if_false]
      split
      · rfl
      · split
        · rfl
        · exact ih _ _ _ _ _ t t' ht ht'

theorem randomWalk_agree (draw : Nat → σ → Nat × σ) (seed : ExchangeMatrix) (maxSteps : Nat) (s : σ)
    {token token' : Token} (ht : token.NeverStops) (ht' : token'.NeverStops) :
    (randomWalk draw seed maxSteps s token').1 = (randomWalk draw seed maxSteps s token).1 := by
  unfold randomWalk
  split
  · rfl
  · exact walkSteps_agree maxSteps 0 seed _ none s token token' ht ht'

end Walk

/-! ### Several walks -/

section Chains

theorem drawsBelow_draw [Generator] (n : Nat) : DrawsBelow Generator.draw n :=
  fun bound s hpos _ => Generator.draw_lt bound s hpos

variable [Generator] {seed : ExchangeMatrix}

theorem runChains_proves (base : UInt64) (maxSteps count chain : Nat) (token : Token)
    (ht : token.NeverStops) :
    Proves seed (runChains base seed maxSteps count chain token).1.isInfinite
      (runChains base seed maxSteps count chain token).2 := by
  induction count generalizing chain token with
  | zero => exact .none ht
  | succ count ih =>
      have hwalk := randomWalk_proves (drawsBelow_draw seed.rank) maxSteps
        (chainGenerator base chain) token ht
      unfold runChains runChain
      rcases hr : randomWalk Generator.draw seed maxSteps (chainGenerator base chain) token
        with ⟨found, s', token'⟩
      rw [hr] at hwalk
      cases found with
      | some steps => exact ⟨fun _ => hwalk.escapes rfl, hwalk.token⟩
      | none => exact ih (chain + 1) token' hwalk.token

/-- **Walks succeed on matrices that escape only.** -/
theorem proveInfinite_proves (cfg : HeuristicConfig) (base : UInt64) (seed : ExchangeMatrix)
    (token : Token) (ht : token.NeverStops) :
    Proves seed (proveInfinite cfg base seed token).1.isInfinite
      (proveInfinite cfg base seed token).2 := by
  unfold proveInfinite
  split_ifs with hcert
  · exact ⟨fun _ => ⟨seed, .refl seed, .inl hcert⟩, ht⟩
  · exact .none ht
  · exact runChains_proves base cfg.maxSteps _ 0 token ht

theorem runChains_agree (base : UInt64) (maxSteps count chain : Nat) (token token' : Token)
    (ht : token.NeverStops) (ht' : token'.NeverStops) :
    (runChains base seed maxSteps count chain token').1 =
      (runChains base seed maxSteps count chain token).1 := by
  induction count generalizing chain token token' with
  | zero => rfl
  | succ count ih =>
      have hsame := randomWalk_agree Generator.draw seed maxSteps
        (chainGenerator base chain) ht ht'
      have hleft := (randomWalk_proves (drawsBelow_draw seed.rank) maxSteps
        (chainGenerator base chain) token ht).token
      have hleft' := (randomWalk_proves (drawsBelow_draw seed.rank) maxSteps
        (chainGenerator base chain) token' ht').token
      unfold runChains runChain
      rcases hr : randomWalk Generator.draw seed maxSteps (chainGenerator base chain) token
        with ⟨found, g, t⟩
      rcases hr' : randomWalk Generator.draw seed maxSteps (chainGenerator base chain) token'
        with ⟨found', g', t'⟩
      rw [hr] at hsame hleft
      rw [hr'] at hsame hleft'
      obtain rfl : found' = found := hsame
      cases found' with
      | some steps => rfl
      | none => exact ih (chain + 1) t t' hleft hleft'

/-- **The tokens of walks that nobody stops make no difference.** -/
theorem proveInfinite_agree (cfg : HeuristicConfig) (base : UInt64) (seed : ExchangeMatrix)
    {token token' : Token} (ht : token.NeverStops) (ht' : token'.NeverStops) :
    (proveInfinite cfg base seed token').1 = (proveInfinite cfg base seed token).1 := by
  unfold proveInfinite
  split_ifs
  · rfl
  · rfl
  · exact runChains_agree base cfg.maxSteps _ 0 token token' ht ht'

end Chains

end MutationFinite
