import MutationFinite.Classification.Finiteness
import MutationFinite.Proofs.MutationClass.Enumeration
import MutationFinite.Proofs.RandomWalk.Soundness
import MutationFinite.Proofs.Relabelling.Transport
import MutationFinite.RandomWalk.Xoshiro

/-!
# Verdicts of finiteness

The certificate, the random walks and the enumeration agree: each of them calls a symmetrizable
matrix infinite only when it escapes, and an enumeration that is exhausted has seen that it does
not.

* `Walk.Tracks.not_escapes`: an exhausted walk over uncertified matrices shows that the seed does
  not escape.
* `classCount`: the number of matrices, or of classes, that a mode counts.
* `enumerate_decides`, `checkFinite_decides`: the verdict is infinite exactly on matrices that
  escape, and a finite one comes with the count.
* `escapes_iff_of_reaches`, `mutationClass_eq_of_reaches`: escape is shared by a whole class, and a
  class that does not escape can be entered anywhere.
* `checkFinite_of_reaches`: so verdicts depend on the mutation class only.
-/

namespace MutationFinite

open ExchangeMatrix

/-! ### Exhausted walks -/

/-- A matrix of rank at most 2 has no certificate. -/
theorem ExchangeMatrix.Symmetrizable.uncertified_of_rank_le {m : ExchangeMatrix}
    (hm : Symmetrizable m) (h : m.rank ≤ 2) : m.certifiesInfinite = false := by
  rw [← Bool.not_eq_true, hm.mutablePart.certifiesInfinite_iff (h.trans (by decide))]
  rintro ⟨i, j, u, hseen⟩
  have := hseen.left
  have := hseen.right
  have := hseen.third
  have := hseen.distinct
  have := hseen.outer_left
  have := hseen.outer_right
  omega

namespace Walk

variable {V : Type} [Visited V] {I : Identification} {Valid : V → Prop} {rules : WalkRules V}
  {seed : ExchangeMatrix} {w : Walk V} {L : Ledger} {halt : Halt}

/-- Every mutation of a matrix found by an exhausted walk is defined, when those that were followed
can be undone. -/
theorem Tracks.crossable_of_back (h : Tracks I Valid rules seed w L) (hq : w.queue = [])
    (hundo : ∀ z ∈ L.found, ∀ k c, z.mutate? k = .ok c → c.mutate? k = .ok z) :
    ∀ y ∈ L.found, ∀ k < y.rank, y.Crossable k := by
  intro y hy k hk
  obtain ⟨z, w', hedge, hmark, hcross⟩ := h.paired.paired y k (h.all_marked hq y hy k hk)
  rcases hcross with hcross | ⟨c, hto⟩
  · exact hcross
  · -- the edge was crossed from its far end `z`, and comes back to `y`
    have hz : z ∈ L.found := h.paired.found z w' hmark
    obtain ⟨c', p, hto', -, hc, rfl⟩ := hedge.symm
    obtain rfl := (mutatesTo_of_mutate? hto).unique hto'
    exact ⟨_, hc.mutate? (hundo z hz w' c hto)⟩

/-- The mutations of uncertified symmetrizable matrices can be undone. -/
theorem Tracks.crossable (h : Tracks I Valid rules seed w L) (hq : w.queue = [])
    (hm : Symmetrizable seed) (hrank : seed.rank ≤ 64)
    (hcert : ∀ x ∈ L.found, x.certifiesInfinite = false) :
    ∀ y ∈ L.found, ∀ k < y.rank, y.Crossable k :=
  h.crossable_of_back hq fun z hz _ _ hto => (hm.reaches (h.reached z hz)).mutate?_symm
    ((h.shape hz).rank_eq.trans_le hrank) (hcert z hz) hto

/-- Then so is every mutation of a reachable matrix, which counts as one that is found. -/
theorem Tracks.crossable_of_reaches (h : Tracks I Valid rules seed w L) (hq : w.queue = [])
    (hcross : ∀ y ∈ L.found, ∀ k < y.rank, y.Crossable k) {x : ExchangeMatrix}
    (hx : Reaches seed x) {k : Nat} (hk : k < x.rank) : x.Crossable k := by
  obtain ⟨y, hy, p, -, hc⟩ := h.paired.complete (h.all_marked hq) h.seed_found hx
  exact hc.exists_mutate?_iff.mp (hcross y hy _ (hc.pivot_lt.mpr hk))

/-- **An exhausted walk over uncertified matrices shows that the seed does not escape.** -/
theorem Tracks.not_escapes (h : Tracks I Valid rules seed w L) (hq : w.queue = [])
    (hm : Symmetrizable seed) (hrank : seed.rank ≤ 64)
    (hcert : ∀ x ∈ L.found, x.certifiesInfinite = false) : ¬ seed.Escapes := by
  rintro ⟨x, hx, hcertified | ⟨k, hk, hover⟩⟩
  · -- the certified matrix counts as one that is found
    obtain ⟨y, hy, p, -, hc⟩ := h.paired.complete (h.all_marked hq) h.seed_found hx
    have hxrank : x.rank ≤ 64 := (Reaches.shape hx).rank_eq.trans_le hrank
    exact absurd (hc.certifiesInfinite hxrank hcertified) (Bool.eq_false_iff.mp (hcert y hy))
  · obtain ⟨c, hto⟩ := h.crossable_of_reaches hq (h.crossable hq hm hrank hcert) hx hk
    cases hover.symm.trans hto

/-- What an exploration that looks for no matrix decides about a symmetrizable matrix, if it stops
on the certificate or the matrix has none. -/
theorem Justified.decides (h : Justified I Valid rules seed halt w)
    (hnone : ∀ v x, (rules.isTarget v x).1 = false) (hm : Symmetrizable seed)
    (hrank : seed.rank ≤ 64) (hstop : rules.stopOnCertificate = true ∨ seed.rank ≤ 2) :
    (ClassSize.ofHalt halt w.stats.discovered = .infinite ∧ seed.Escapes) ∨
      ∃ c, ClassSize.ofHalt halt w.stats.discovered = .finite c ∧ ¬ seed.Escapes ∧
        (I.classes seed.mutationClass).encard = c := by
  cases hsize : ClassSize.ofHalt halt w.stats.discovered with
  | cancelled => exact (h.decided hsize).elim
  | infinite =>
      refine .inl ⟨rfl, ?_⟩
      rcases h.infinite_cause hsize with ⟨x, hx, k, hk, hover⟩ | ⟨-, x, hx, hcert⟩
      · exact ⟨x, hx, .inr ⟨k, hk, hover⟩⟩
      · exact ⟨x, hx, .inl hcert⟩
  | finite c =>
      obtain ⟨hqueue, ⟨L, htracks⟩, rfl⟩ := h.exhausted hnone hsize
      refine .inr ⟨_, rfl, htracks.not_escapes hqueue hm hrank fun x hx => ?_,
        htracks.encard_classes hqueue⟩
      rcases hstop with hstop | htwo
      · exact htracks.uncertified hstop x hx
      · exact (hm.reaches (htracks.reached x hx)).uncertified_of_rank_le
          ((htracks.shape hx).rank_eq.trans_le htwo)

end Walk

/-! ### Verdicts -/

/-- What a mode counts: the reachable matrices, or their classes up to relabelling. -/
noncomputable def ExchangeMatrix.classCount (m : ExchangeMatrix) : EnumerationMode → ENat
  | .exact => m.mutationClass.encard
  | .upToEquivalence => (Identification.relabelling.classes m.mutationClass).encard

section Verdicts

variable {m m' : ExchangeMatrix} {s s' : Session}

/-- **An enumeration decides**, in either mode. -/
theorem enumerate_decides (cfg : EnumerationConfig) (hm : Symmetrizable m) (hrank : m.rank ≤ 64)
    (hstop : cfg.stopOnCertificate = true ∨ m.rank ≤ 2) (ht : s.token.NeverStops) :
    ∃ e, (s.ask (enumerate cfg m)).1 = .ok e ∧
      ((e.outcome = .infinite ∧ m.Escapes) ∨
        ∃ c, e.outcome = .finite c ∧ ¬ m.Escapes ∧ m.classCount cfg.mode = c) := by
  cases hmode : cfg.mode with
  | exact =>
      refine ⟨_, Session.ask_enumerate_exact hmode hrank, ?_⟩
      have hdecides := (exploreExact_justified cfg m ht).decides (fun _ _ => rfl) hm hrank hstop
      rwa [Identification.encard_classes_equality] at hdecides
  | upToEquivalence =>
      obtain ⟨halt, w, hj, hask⟩ := Session.ask_enumerate_collapsed hmode hrank ht
      exact ⟨_, hask, hj.decides (fun _ _ => rfl) hm hrank hstop⟩

/-- The verdict that `checkFinite` reads off an enumeration. -/
theorem Session.ask_ofSize {cfg : EnumerationConfig} {e : Enumeration}
    (h : (s.ask (enumerate cfg m)).1 = .ok e) :
    (s.ask (do return Finiteness.ofSize (← enumerate cfg m).outcome)).1 =
      .ok (.ofSize e.outcome) := by
  rcases hrun : s.ask (enumerate cfg m) with ⟨answer, s'⟩
  rw [hrun] at h
  obtain rfl : answer = .ok e := h
  unfold Session.ask
  rw [Session.run_bind hrun]
  rfl

/-- The verdict of an enumeration, when it decides. -/
theorem verdict_of_enumeration {cfg : EnumerationConfig}
    (h : ∃ e, (s.ask (enumerate cfg m)).1 = .ok e ∧
      ((e.outcome = .infinite ∧ m.Escapes) ∨
        ∃ c, e.outcome = .finite c ∧ ¬ m.Escapes ∧ m.classCount cfg.mode = c)) :
    let verdict := (s.ask (do return Finiteness.ofSize (← enumerate cfg m).outcome)).1
    (verdict = .ok .infinite ∧ m.Escapes) ∨
      ∃ size, verdict = .ok (.finite size) ∧ ¬ m.Escapes ∧ m.classCount cfg.mode = size := by
  obtain ⟨e, hask, hcases⟩ := h
  intro verdict
  have hverdict : verdict = .ok (.ofSize e.outcome) := Session.ask_ofSize hask
  rcases hcases with ⟨he, hescapes⟩ | ⟨c, he, hnot, hcount⟩
  · rw [he] at hverdict
    exact .inl ⟨hverdict, hescapes⟩
  · rw [he] at hverdict
    exact .inr ⟨c, hverdict, hnot, hcount⟩

variable [Generator]

/-- What random walks report shows that the matrix escapes. -/
theorem run_walkToInfinity (cfg : ClassifierConfig) (ht : s.token.NeverStops) :
    ∃ found s', (walkToInfinity cfg m).run s = (.ok found, s') ∧ s'.token.NeverStops ∧
      (found = true → m.Escapes) := by
  have hproves := proveInfinite_proves cfg.heuristic cfg.baseSeed m s.token ht
  exact ⟨_, _, Session.run_withToken _ s, hproves.token, hproves.escapes⟩

/-- **`checkFinite` decides whether a symmetrizable matrix escapes**, whatever the settings and the
session, and counts if it does not. -/
theorem checkFinite_decides (cfg : ClassifierConfig) (hm : Symmetrizable m) (hrank : m.rank ≤ 64)
    (ht : s.token.NeverStops) :
    ((s.ask (checkFinite cfg m)).1 = .ok .infinite ∧ m.Escapes) ∨
      ∃ size, (s.ask (checkFinite cfg m)).1 = .ok (.finite size) ∧ ¬ m.Escapes ∧
        m.classCount cfg.mode = size := by
  by_cases hsmall : m.isSmall = true
  · have htwo : m.rank ≤ 2 := by
      rw [isSmall, Bool.and_eq_true, decide_eq_true_eq] at hsmall
      exact hsmall.2
    simp only [checkFinite, hsmall, if_true]
    exact verdict_of_enumeration (enumerate_decides (.withMode cfg.mode) hm hrank (.inr htwo) ht)
  · by_cases hcert : m.certifiesInfinite = true
    · refine .inl ⟨?_, m, .refl m, .inl hcert⟩
      simp only [checkFinite, hsmall, hcert, if_true]
      rfl
    · obtain ⟨found, s', hwalk, ht', hproves⟩ := run_walkToInfinity (m := m) cfg ht
      have hask : (s.ask (checkFinite cfg m)).1 = (s'.ask (if found = true then return .infinite
          else return .ofSize (← enumerate
            (EnumerationConfig.withMode cfg.mode).stoppingOnCertificate m).outcome)).1 := by
        simp only [checkFinite, hsmall, hcert, Session.ask]
        exact congrArg Prod.fst (Session.run_bind hwalk)
      rw [hask]
      cases found with
      | true => exact .inl ⟨rfl, hproves rfl⟩
      | false =>
          exact verdict_of_enumeration (enumerate_decides
            (EnumerationConfig.withMode cfg.mode).stoppingOnCertificate hm hrank (.inl rfl) ht')

end Verdicts

/-! ### The doubled cycle -/

/-- The cycle of three vertices with double arrows in the direction of `sign`. -/
def doubledCycle (sign : Int) : ExchangeMatrix :=
  .ofFn 3 3 fun i j =>
    .ofInt (if j = (i + 1) % 3 then 2 * sign else if i = (j + 1) % 3 then -2 * sign else 0)

theorem symmetrizable_doubledCycle : Symmetrizable (doubledCycle 1) :=
  ⟨rfl, fun _ => 1, by decide, by decide⟩

/-- Each mutation of the doubled cycle turns it around. -/
theorem mutate?_doubledCycle : ∀ k < 3,
    (doubledCycle 1).mutate? k = .ok (doubledCycle (-1)) ∧
      (doubledCycle (-1)).mutate? k = .ok (doubledCycle 1) := by
  intro k hk
  rw [mutate?_eq_ok_iff, mutate?_eq_ok_iff]
  revert k
  decide

theorem mutationClass_doubledCycle :
    (doubledCycle 1).mutationClass = {doubledCycle 1, doubledCycle (-1)} :=
  mutationClass_eq_pair (by decide) mutate?_doubledCycle

/-- The doubled cycle is not certified, and all its mutations are defined. -/
theorem not_escapes_doubledCycle : ¬ (doubledCycle 1).Escapes := by
  rintro ⟨x, hx, hescape⟩
  rw [mutationClass_doubledCycle] at hx
  rcases hx with rfl | rfl <;> rcases hescape with hcert | ⟨k, hk, hover⟩
  · exact absurd hcert (by decide)
  · cases hover.symm.trans (mutate?_doubledCycle k hk).1
  · exact absurd hcert (by decide)
  · cases hover.symm.trans (mutate?_doubledCycle k hk).2

/-! ### One verdict for a class -/

section Class

variable {m m' : ExchangeMatrix}

/-- A mutation that is defined can be undone, or the way back overflows. -/
theorem ExchangeMatrix.mutate?_back {k : Nat} (h : m.mutate? k = .ok m') :
    m'.mutate? k = .ok m ∨ m'.mutate? k = .error (.entryOverflow k) :=
  (mutatesTo_of_mutate? h).symm.mutate?_eq

/-- **Escape is shared by a whole class.** -/
theorem escapes_iff_of_reaches (h : Reaches m m') : m.Escapes ↔ m'.Escapes := by
  refine ⟨fun hm => ?_, Escapes.of_reaches h⟩
  induction h with
  | refl => exact hm
  | @step b c k _ hto ih =>
      rcases mutate?_back hto with hback | hover
      · exact ih.of_reaches (.one hback)
      · exact ⟨c, .refl c, .inr ⟨k, (mutatesTo_of_mutate? hto).symm.pivot, hover⟩⟩

/-- A matrix that does not escape can be reached from all that it reaches. -/
theorem reaches_symm_of_not_escapes (h : Reaches m m') (hm : ¬ m.Escapes) : Reaches m' m := by
  induction h with
  | refl => exact .refl m
  | @step b c k hb hto ih =>
      rcases mutate?_back hto with hback | hover
      · exact (Reaches.one hback).trans ih
      · have hk := (mutatesTo_of_mutate? hto).symm.pivot
        exact absurd ⟨c, Reaches.step hb hto, .inr ⟨k, hk, hover⟩⟩ hm

theorem mutationClass_eq_of_reaches (h : Reaches m m') (hm : ¬ m.Escapes) :
    m'.mutationClass = m.mutationClass :=
  Set.Subset.antisymm (fun _ hx => h.trans hx)
    fun _ hx => (reaches_symm_of_not_escapes h hm).trans hx

/-- **Verdicts depend on the mutation class only.**  Whatever the settings, the sessions and the
matrices of one class that are asked about: all verdicts are infinite, or all are finite, with one
size for each mode. -/
theorem checkFinite_of_reaches [Generator] (hm : Symmetrizable m) (hrank : m.rank ≤ 64)
    (hr : Reaches m m') (cfg cfg' : ClassifierConfig) (s s' : Session) (ht : s.token.NeverStops)
    (ht' : s'.token.NeverStops) :
    ((s.ask (checkFinite cfg m)).1 = .ok .infinite ∧
        (s'.ask (checkFinite cfg' m')).1 = .ok .infinite) ∨
      ∃ size size', (s.ask (checkFinite cfg m)).1 = .ok (.finite size) ∧
        (s'.ask (checkFinite cfg' m')).1 = .ok (.finite size') ∧
        (cfg.mode = cfg'.mode → size = size') := by
  have hrank' : m'.rank ≤ 64 := hr.shape.rank_eq.trans_le hrank
  have hiff := escapes_iff_of_reaches hr
  rcases checkFinite_decides cfg hm hrank ht with ⟨hask, hesc⟩ | ⟨size, hask, hesc, hcount⟩ <;>
    rcases checkFinite_decides cfg' (hm.reaches hr) hrank' ht' with
      ⟨hask', hesc'⟩ | ⟨size', hask', hesc', hcount'⟩
  · exact .inl ⟨hask, hask'⟩
  · exact absurd (hiff.mp hesc) hesc'
  · exact absurd (hiff.mpr hesc') hesc
  · refine .inr ⟨size, size', hask, hask', fun hmode => ?_⟩
    have hclass : m'.classCount cfg'.mode = m.classCount cfg.mode := by
      unfold classCount
      rw [hmode, mutationClass_eq_of_reaches hr hesc]
    rw [hcount, hcount'] at hclass
    exact_mod_cast hclass.symm

/-- The doubled cycle and its mutation, asked about with single matrices counted: once after one
long walk, and once, where the cache is small, after three short ones from a fixed seed. -/
theorem checkFinite_of_reaches_doubledCycle :
    let cfg := ClassifierConfig.standard 1 0
    let cfg' := { cfg with heuristic := ⟨5, 3, some 9⟩, equivalence := ⟨2, 1⟩ }
    let s := Session.new cfg.equivalence .running
    let s' := Session.new cfg'.equivalence .running
    (doubledCycle 1).rank ≤ 64 ∧ (doubledCycle 1).mutate? 0 = .ok (doubledCycle (-1)) ∧
      cfg.mode = cfg'.mode ∧ (s.ask (checkFinite cfg (doubledCycle 1))).1 = .ok (.finite 2) ∧
      (s'.ask (checkFinite cfg' (doubledCycle (-1)))).1 = .ok (.finite 2) := by
  intro cfg cfg' s s'
  have hto := (mutate?_doubledCycle 0 (by decide)).1
  have hask : (s.ask (checkFinite cfg (doubledCycle 1))).1 = .ok (.finite 2) := by
    rcases checkFinite_decides (s := s) cfg symmetrizable_doubledCycle (by decide)
      Token.neverStops_running with ⟨-, hesc⟩ | ⟨size, hask, -, hcount⟩
    · exact absurd hesc not_escapes_doubledCycle
    · rw [show cfg.mode = .exact from rfl, classCount, mutationClass_doubledCycle,
        Set.encard_pair (by decide)] at hcount
      rw [hask, show size = 2 by exact_mod_cast hcount.symm]
  refine ⟨by decide, hto, rfl, hask, ?_⟩
  rcases checkFinite_of_reaches symmetrizable_doubledCycle (by decide) (.one hto) cfg cfg' s s'
    Token.neverStops_running Token.neverStops_running with
      ⟨hinfinite, -⟩ | ⟨size, size', h, h', hsize⟩
  · cases hask.symm.trans hinfinite
  · cases hask.symm.trans h
    rw [h', ← hsize rfl]

end Class

end MutationFinite
