import MutationFinite.Proofs.Classification.Finiteness
import MutationFinite.Proofs.MutationClass.Unstopped

/-!
# Verdicts

With the settings fixed, the verdict on a matrix is the same in every session that nobody stops,
whatever the matrix is and whatever the session was asked before.

* `HasVerdict`: the verdict on a matrix in all these sessions.
* `exists_hasVerdict`: each matrix of at most 64 mutable vertices has one, and it is decided.
* `HasVerdict.later_iff`: when the seed is fixed, the verdict is the same in later checks.
* `hasVerdict_infinite_iff`, `hasVerdict_finite_iff`: on symmetrizable matrices it says whether they
  escape.
-/

namespace MutationFinite

open ExchangeMatrix

/-- What an enumeration that is not cancelled finds is decided. -/
theorem ofSize_ne_unknown {size : ClassSize} (h : size ≠ .cancelled) :
    Finiteness.ofSize size ≠ .unknown := by
  cases size with
  | finite n => nofun
  | infinite => nofun
  | cancelled => exact absurd rfl h

/-- The verdict that is read off an enumeration. -/
theorem exists_returns_ofSize {m : ExchangeMatrix} (cfg : EnumerationConfig)
    (hrank : m.rank ≤ 64) :
    ∃ v, v ≠ .unknown ∧
      Session.Returns (do return Finiteness.ofSize (← enumerate cfg m).outcome) (· = v) := by
  obtain ⟨e, he, hreturns⟩ := enumerate_returns cfg hrank
  exact ⟨.ofSize e.outcome, ofSize_ne_unknown he, hreturns.bind_eq (.pure rfl)⟩

variable [Generator]

/-- In every session that nobody stops, the verdict on `m` is `verdict`. -/
def HasVerdict (cfg : ClassifierConfig) (m : ExchangeMatrix) (verdict : Finiteness) : Prop :=
  Session.Returns (checkFinite cfg m) (· = verdict)

section Verdict

variable {cfg cfg' : ClassifierConfig} {m : ExchangeMatrix} {v v' : Finiteness} {s : Session}

theorem HasVerdict.ask_eq (h : HasVerdict cfg m v) (ht : s.token.NeverStops) :
    (s.ask (checkFinite cfg m)).1 = .ok v :=
  Session.Returns.ask_eq h ht

/-- A matrix has one verdict. -/
theorem HasVerdict.unique (h : HasVerdict cfg m v) (h' : HasVerdict cfg m v') : v = v' :=
  Session.Returns.unique h h'

/-- Random walks that nobody stops find the same in every session. -/
theorem walkToInfinity_returns (cfg : ClassifierConfig) (m : ExchangeMatrix) :
    Session.Returns (walkToInfinity cfg m)
      (· = (proveInfinite cfg.heuristic cfg.baseSeed m .running).1.isInfinite) := by
  refine .withToken fun token ht => ⟨?_, ?_⟩
  · exact (proveInfinite_proves cfg.heuristic cfg.baseSeed m token ht).token
  · exact congrArg Heuristic.isInfinite
      (proveInfinite_agree cfg.heuristic cfg.baseSeed m Token.neverStops_running ht)

/-- **Each matrix of at most 64 mutable vertices has a verdict**, and it is decided. -/
theorem exists_hasVerdict (cfg : ClassifierConfig) (hrank : m.rank ≤ 64) :
    ∃ v, v ≠ .unknown ∧ HasVerdict cfg m v := by
  unfold HasVerdict checkFinite
  by_cases hsmall : m.isSmall = true
  · simp only [hsmall, if_true]
    exact exists_returns_ofSize _ hrank
  · by_cases hcert : m.certifiesInfinite = true
    · simp only [hsmall, hcert, if_true]
      exact ⟨.infinite, nofun, .pure rfl⟩
    · simp only [hsmall, hcert]
      have hwalk := walkToInfinity_returns cfg m
      cases hfound : (proveInfinite cfg.heuristic cfg.baseSeed m .running).1.isInfinite with
      | true =>
          rw [hfound] at hwalk
          exact ⟨.infinite, nofun, hwalk.bind_eq (.pure rfl)⟩
      | false =>
          rw [hfound] at hwalk
          obtain ⟨v, hv, hreturns⟩ := exists_returns_ofSize
            (EnumerationConfig.withMode cfg.mode).stoppingOnCertificate hrank
          exact ⟨v, hv, hwalk.bind_eq hreturns⟩

/-- Of the settings a check reads the mode, those of the walks, and the base seed. -/
theorem checkFinite_congr (hmode : cfg.mode = cfg'.mode) (hwalks : cfg.heuristic = cfg'.heuristic)
    (hbase : cfg.baseSeed = cfg'.baseSeed) (m : ExchangeMatrix) :
    checkFinite cfg m = checkFinite cfg' m := by
  simp only [checkFinite, walkToInfinity, hmode, hwalks, hbase]

/-- **With a fixed seed later checks are made like the first.** -/
theorem HasVerdict.later_iff (hseed : cfg.heuristic.seed.isSome = true) (count : Nat) :
    HasVerdict (cfg.later count) m v ↔ HasVerdict cfg m v := by
  obtain ⟨seed, hseed⟩ := Option.isSome_iff_exists.mp hseed
  have hbase : (cfg.later count).baseSeed = cfg.baseSeed := by
    simp only [ClassifierConfig.baseSeed, ClassifierConfig.later, hseed, Option.getD_some]
  have hsame : checkFinite (cfg.later count) m = checkFinite cfg m :=
    checkFinite_congr (by rfl) (by rfl) hbase m
  rw [HasVerdict, hsame, HasVerdict]

/-- The verdict is finite or infinite. -/
theorem hasVerdict_cases (cfg : ClassifierConfig) (hrank : m.rank ≤ 64) :
    (∃ size, HasVerdict cfg m (.finite size)) ∨ HasVerdict cfg m .infinite := by
  obtain ⟨v, hv, hverdict⟩ := exists_hasVerdict cfg hrank
  cases v with
  | finite size => exact .inl ⟨size, hverdict⟩
  | infinite => exact .inr hverdict
  | unknown => exact absurd rfl hv

/-- A verdict given once, in a session that nobody stops, is given in all of them. -/
theorem HasVerdict.of_ask (hrank : m.rank ≤ 64) (ht : s.token.NeverStops)
    (hask : (s.ask (checkFinite cfg m)).1 = .ok v) : HasVerdict cfg m v := by
  obtain ⟨v', -, hverdict⟩ := exists_hasVerdict cfg hrank
  obtain rfl : v = v' := Except.ok.inj (hask.symm.trans (hverdict.ask_eq ht))
  exact hverdict

/-- The verdict on a symmetrizable matrix says whether it escapes, and counts if it does not. -/
theorem hasVerdict_decides (cfg : ClassifierConfig) (hm : Symmetrizable m) (hrank : m.rank ≤ 64) :
    (HasVerdict cfg m .infinite ∧ m.Escapes) ∨
      ∃ size : Nat, HasVerdict cfg m (.finite size) ∧ ¬ m.Escapes ∧
        m.classCount cfg.mode = size := by
  have hrunning : (Session.new .standard .running).token.NeverStops := Token.neverStops_running
  rcases checkFinite_decides cfg hm hrank hrunning with ⟨hask, hesc⟩ | ⟨size, hask, hesc, hcount⟩
  · exact .inl ⟨.of_ask hrank hrunning hask, hesc⟩
  · exact .inr ⟨size, .of_ask hrank hrunning hask, hesc, hcount⟩

/-- **A symmetrizable matrix is called infinite exactly when it escapes.** -/
theorem hasVerdict_infinite_iff (cfg : ClassifierConfig) (hm : Symmetrizable m)
    (hrank : m.rank ≤ 64) : HasVerdict cfg m .infinite ↔ m.Escapes := by
  rcases hasVerdict_decides cfg hm hrank with ⟨hverdict, hesc⟩ | ⟨size, hverdict, hesc, -⟩
  · exact iff_of_true hverdict hesc
  · exact iff_of_false (fun h => nomatch h.unique hverdict) hesc

/-- **Otherwise it is called finite, with the number of matrices or classes that it reaches.** -/
theorem hasVerdict_finite_iff (cfg : ClassifierConfig) (hm : Symmetrizable m) (hrank : m.rank ≤ 64)
    {size : Nat} :
    HasVerdict cfg m (.finite size) ↔ ¬ m.Escapes ∧ m.classCount cfg.mode = size := by
  rcases hasVerdict_decides cfg hm hrank with ⟨hverdict, hesc⟩ | ⟨size', hverdict, hesc, hcount⟩
  · exact iff_of_false (fun h => nomatch h.unique hverdict) fun h => h.1 hesc
  · rw [and_iff_right hesc, hcount]
    constructor
    · intro h
      exact congrArg _ (Finiteness.finite.inj (hverdict.unique h))
    · intro h
      rwa [← show size' = size by exact_mod_cast h]

end Verdict

end MutationFinite
