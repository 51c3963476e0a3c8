import MutationFinite.Proofs.Classification.Cancellation
import MutationFinite.Proofs.RandomWalk.PlainRun

/-!
# Refused matrices

The rank of a matrix is checked by the enumeration alone, which comes last.  So a matrix with more
than 64 mutable vertices is refused unless its class was proved infinite before.

* `proveInfinite_escapes`: a proof by walks shows that the matrix escapes, whoever stops them.
* `enumerate_answers`, `checkFinite_answers`: up to 64 mutable vertices there is an answer.
* `checkFinite_of_tooMany`: the answer for more than 64.
* `checkFinite_eq_error_iff`: when a matrix is refused, and with which error.
-/

namespace MutationFinite

open ExchangeMatrix

/-! ### Proofs by walks -/

section Walks

variable {seed : ExchangeMatrix} {token : Token}

/-- A walk that somebody stops finds nothing but what it finds when nobody does. -/
theorem randomWalk_escapes {σ : Type} {draw : Nat → σ → Nat × σ} (hdraw : DrawsBelow draw seed.rank)
    (maxSteps : Nat) (s : σ) (token : Token)
    (h : (randomWalk draw seed maxSteps s token).1.isSome = true) : seed.Escapes := by
  refine (randomWalk_proves hdraw maxSteps s .running Token.neverStops_running).escapes ?_
  unfold randomWalk at h ⊢
  split at h
  · cases h
  · next hrank =>
      have hlate : (walkSteps draw seed.rank maxSteps 0 seed (.zeros seed.rows seed.cols) none s
          token).1 = _ ∨ _ = none ∧ _ := walkSteps_late maxSteps 0 Token.neverStops_running
      rw [if_neg hrank]
      rcases hlate with hsame | ⟨hnone, -⟩
      · rwa [hsame] at h
      · rw [hnone] at h
        cases h

variable [Generator]

theorem runChains_escapes (base : UInt64) (maxSteps count chain : Nat) (token : Token)
    (h : (runChains base seed maxSteps count chain token).1.isInfinite = true) : seed.Escapes := by
  induction count generalizing chain token with
  | zero => cases h
  | succ count ih =>
      have hwalk := randomWalk_escapes (drawsBelow_draw seed.rank) maxSteps
        (chainGenerator base chain) token
      unfold runChains runChain at h
      rcases hr : randomWalk Generator.draw seed maxSteps (chainGenerator base chain) token
        with ⟨found, g, token'⟩
      rw [hr] at h hwalk
      cases found with
      | some steps => exact hwalk rfl
      | none => exact ih (chain + 1) token' h

/-- **What the certificate and the walks prove is true**, whatever the rank and the token. -/
theorem proveInfinite_escapes (cfg : HeuristicConfig) (base : UInt64) (token : Token)
    (h : (proveInfinite cfg base seed token).1.isInfinite = true) : seed.Escapes := by
  unfold proveInfinite at h
  split at h
  · next hcert => exact ⟨seed, .refl seed, .inl hcert⟩
  · split at h
    · cases h
    · exact runChains_escapes base cfg.maxSteps _ 0 token h

theorem isInfinite_proveInfinite_of_certified (cfg : HeuristicConfig) (base : UInt64)
    (token : Token) (h : seed.certifiesInfinite = true) :
    (proveInfinite cfg base seed token).1.isInfinite = true := by
  rw [proveInfinite, if_pos h]
  rfl

end Walks

/-! ### Up to 64 mutable vertices -/

section Answers

variable {m : ExchangeMatrix}

theorem enumerate_answers (cfg : EnumerationConfig) (hrank : m.rank ≤ 64) (s : Session) :
    ∃ e, (s.ask (enumerate cfg m)).1 = .ok e := by
  cases hmode : cfg.mode with
  | exact => exact ⟨_, Session.ask_enumerate_exact hmode hrank⟩
  | upToEquivalence =>
      -- a checker that the context cannot hold is replaced by direct search
      obtain ⟨oracle, -, -, -, hask⟩ := Session.ask_enumerate_acquired s hmode hrank
      exact ⟨_, hask⟩

variable [Generator]

theorem checkFinite_answers (cfg : ClassifierConfig) (hrank : m.rank ≤ 64) (s : Session) :
    ∃ verdict, (s.ask (checkFinite cfg m)).1 = .ok verdict := by
  have henumerate (cfg : EnumerationConfig) (s : Session) :
      ∃ verdict, (s.ask (do return Finiteness.ofSize (← enumerate cfg m).outcome)).1 =
        .ok verdict := by
    obtain ⟨e, he⟩ := enumerate_answers cfg hrank s
    exact ⟨_, Session.ask_ofSize he⟩
  cases hsmall : m.isSmall with
  | true =>
      simp only [checkFinite, hsmall, if_true]
      exact henumerate (.withMode cfg.mode) s
  | false =>
      cases hcert : m.certifiesInfinite with
      | true =>
          simp only [checkFinite, hsmall, hcert, Bool.false_eq_true, if_false, if_true]
          exact ⟨.infinite, rfl⟩
      | false =>
          rw [Session.ask_checkFinite_of_walk hsmall hcert (Session.walkToInfinity_run cfg m s)]
          split
          · exact ⟨.infinite, rfl⟩
          · exact henumerate _ _

/-! ### More than 64 mutable vertices -/

/-- **A matrix with more than 64 mutable vertices is proved infinite or refused.** -/
theorem checkFinite_of_tooMany (cfg : ClassifierConfig) (h : 64 < m.rank) (s : Session) :
    (s.ask (checkFinite cfg m)).1 =
      if (proveInfinite cfg.heuristic cfg.baseSeed m s.token).1.isInfinite = true then
        .ok .infinite
      else .error (.tooManyMutableVertices m.rank) := by
  have hsmall : m.isSmall = false := by
    rw [ExchangeMatrix.isSmall, decide_eq_false (by omega), Bool.and_false]
  have hrefused : m.checkedRank = .error (.tooManyMutableVertices m.rank) := if_pos h
  cases hcert : m.certifiesInfinite with
  | true =>
      rw [if_pos (isInfinite_proveInfinite_of_certified _ _ _ hcert)]
      simp only [Session.ask, checkFinite, hsmall, hcert, Bool.false_eq_true, if_false, if_true]
      rfl
  | false =>
      rw [Session.ask_checkFinite_of_walk hsmall hcert (Session.walkToInfinity_run cfg m s)]
      refine ite_congr rfl (fun _ => rfl) fun _ => ?_
      simp only [Session.ask, enumerate, hrefused]
      rfl

end Answers

/-- **Which matrices are refused.**  The only error is that of more than 64 mutable vertices, and it
is answered unless the certificate or a walk proves the class infinite first; then the answer is
infinite.  The certificate always does, and what is proved is true. -/
theorem checkFinite_eq_error_iff [Generator] (cfg : ClassifierConfig) (m : ExchangeMatrix)
    (s : Session) :
    let answer := (s.ask (checkFinite cfg m)).1
    let proof := (proveInfinite cfg.heuristic cfg.baseSeed m s.token).1
    (∀ e, answer = .error e ↔
      e = .tooManyMutableVertices m.rank ∧ 64 < m.rank ∧ proof.isInfinite = false) ∧
    (64 < m.rank → proof.isInfinite = true → answer = .ok .infinite) ∧
    (m.certifiesInfinite = true → proof.isInfinite = true) ∧
    (proof.isInfinite = true → m.Escapes) := by
  intro answer proof
  refine ⟨fun e => ?_, fun hrank hproof => ?_, isInfinite_proveInfinite_of_certified _ _ _,
    proveInfinite_escapes _ _ _⟩
  · by_cases hrank : 64 < m.rank
    · rw [show answer = _ from checkFinite_of_tooMany cfg hrank s]
      cases hproof : proof.isInfinite with
      | true => simp
      | false => simp [hrank, eq_comm]
    · obtain ⟨verdict, hverdict⟩ := checkFinite_answers cfg (Nat.not_lt.mp hrank) s
      rw [show answer = _ from hverdict]
      simp [hrank]
  · rw [show answer = _ from checkFinite_of_tooMany cfg hrank s, if_pos hproof]

/-! ### A matrix that is refused, and one that is not -/

theorem values_zeros (rows cols i j : Nat) : (zeros rows cols).values i j = 0 := by
  by_cases h : i < rows ∧ j < cols
  · rw [values, cell_eq_getElem _ h.1 h.2]
    simp only [zeros, Array.getElem_replicate]
    rfl
  · exact values_eq_zero _ (show rows ≤ i ∨ cols ≤ j by omega)

/-- A quiver without arrows is left alone by mutation. -/
theorem mutate?_zeros {rows cols k : Nat} (hk : k < (zeros rows cols).rank) :
    (zeros rows cols).mutate? k = .ok (zeros rows cols) := by
  have hcell (i j : Nat) : (zeros rows cols).cell i j = 0 := Entry.ext (values_zeros rows cols i j)
  refine mutate?_eq_ok_iff.mpr ⟨hk, ⟨rfl, rfl⟩, fun i _ j _ => ?_⟩
  simp only [mutatedCell?, hcell]
  split <;> rfl

theorem eq_zeros_of_reaches {rows cols : Nat} {x : ExchangeMatrix}
    (h : Reaches (zeros rows cols) x) : x = zeros rows cols := by
  induction h with
  | refl => rfl
  | step _ hto ih =>
      subst ih
      rw [mutate?_zeros (mutatesTo_of_mutate? hto).pivot] at hto
      exact (Except.ok.inj hto).symm

theorem not_escapes_zeros (rows cols : Nat) : ¬ (zeros rows cols).Escapes := by
  rintro ⟨x, hx, hescape⟩
  obtain rfl := eq_zeros_of_reaches hx
  rcases hescape with hcert | ⟨k, hk, hover⟩
  · obtain ⟨i, -, j, -, hweight, -⟩ := certifiesInfinite_iff.mp hcert
    rw [values_zeros, Int.zero_mul, abs_zero] at hweight
    omega
  · cases (mutate?_zeros hk).symm.trans hover

/-- A quiver of 65 vertices without arrows is refused. -/
theorem checkFinite_eq_error_iff_zeros :
    let s := Session.new .standard .running
    ¬ (zeros 65 65).Escapes ∧ 64 < (zeros 65 65).rank ∧
      (s.ask (checkFinite (.standard 1 0) (zeros 65 65))).1 =
        .error (.tooManyMutableVertices 65) := by
  intro s
  obtain ⟨herror, -, -, hescapes⟩ := checkFinite_eq_error_iff (.standard 1 0) (zeros 65 65) s
  refine ⟨not_escapes_zeros 65 65, by decide, (herror _).mpr ⟨rfl, by decide, ?_⟩⟩
  exact Bool.eq_false_iff.mpr fun hproof =>
    not_escapes_zeros 65 65 (hescapes hproof)

/-- A certified quiver of 65 vertices is not refused: the certificate is looked for first. -/
theorem checkFinite_heavyPath :
    let s := Session.new .standard .running
    64 < (heavyPath 65).rank ∧
      (s.ask (checkFinite (.standard 1 0) (heavyPath 65))).1 = .ok .infinite ∧
      ∀ e, (s.ask (checkFinite (.standard 1 0) (heavyPath 65))).1 ≠ .error e := by
  intro s
  have hrank : 64 < (heavyPath 65).rank := by decide
  have hcert : (heavyPath 65).certifiesInfinite = true := certifiesInfinite_heavyPath (by decide)
  have hanswer : (s.ask (checkFinite (.standard 1 0) (heavyPath 65))).1 = .ok .infinite := by
    rw [checkFinite_of_tooMany (.standard 1 0) hrank s,
      if_pos (isInfinite_proveInfinite_of_certified _ _ _ hcert)]
  exact ⟨hrank, hanswer, fun e => by rw [hanswer]; nofun⟩

end MutationFinite
