import MutationFinite.Proofs.Mutation.RankTwo
import MutationFinite.Proofs.MutationClass.Enumeration

/-!
# What a search for a relabelling answers

`areMutationEquivalent? a b` is one exploration from `a` up to relabelling that looks for `b`.  Its
steps need not be invertible, so that reaching is not symmetric; its answers are.

* `ReachesRelabelling`: defined mutations lead to a relabelling of a matrix.
* `Oracle.recognises`: the test for the matrix looked for; `Oracle.recognises_iff` says that it
  recognises relabellings.
* `Session.ask_areMutationEquivalent?`: the search is one exploration, which halts for a reason.
* `not_reachesRelabelling_of_exhausted`: an exhausted search shows that neither matrix reaches the
  other.
* `SearchAnswer`, `exists_searchAnswer`: what each answer says, and that there is one.
* `areMutationEquivalent?_decides`: so answers are sound, and two of them agree.
-/

namespace MutationFinite

open ExchangeMatrix

/-- Defined mutations of `a` lead to a matrix that is `b` up to relabelling. -/
def ReachesRelabelling (a b : ExchangeMatrix) : Prop :=
  ∃ x, Reaches a x ∧ Identification.relabelling.Same x b

theorem ReachesRelabelling.shape {a b : ExchangeMatrix} (h : ReachesRelabelling a b) :
    SameShape a b := by
  obtain ⟨x, hx, p, -, hc⟩ := h
  exact hx.shape.symm.trans hc.shape

/-! ### The test for the matrix looked for -/

namespace Oracle

variable {o : Oracle} {n : Nat} {b m : ExchangeMatrix}

/-- Tests whether `m` is `b` up to relabelling, by fingerprints first. -/
def recognises (b : ExchangeMatrix) (o : Oracle) (m : ExchangeMatrix) : Bool × Oracle :=
  if Fingerprint.of m = Fingerprint.of b then
    let (found, o) := o.witness m b
    (found.isSome, o)
  else (false, o)

theorem serves_recognises (ho : o.Serves n) (b m : ExchangeMatrix) :
    (o.recognises b m).2.Serves n := by
  unfold recognises
  split
  · exact serves_witness ho m b
  · exact ho

/-- The test recognises the relabellings of `b`. -/
theorem recognises_iff (ho : o.Serves n) (hm : m.rank = n) :
    (recognises b o m).1 = true ↔ Identification.relabelling.Same m b := by
  have hanswer := (witness_isAnswer (b := b) ho hm).1
  unfold recognises
  split
  · rcases hw : o.witness m b with ⟨found, o'⟩
    rw [hw] at hanswer
    cases found with
    | some p => exact iff_of_true rfl ⟨p, trivial, hanswer⟩
    | none => exact iff_of_false Bool.false_ne_true fun ⟨p, _, hc⟩ => hanswer p hc
  · next hkey => exact iff_of_false Bool.false_ne_true fun ⟨p, _, hc⟩ => hkey hc.fingerprint_eq

end Oracle

/-! ### The search as an exploration -/

/-- What a search that halts for a reason answers. -/
def Halt.answer : Halt → Option Bool
  | .target => some true
  | .exhausted => some false
  | _ => none

/-- What the search for `b` looks out for. -/
def searchRules (b : ExchangeMatrix) : WalkRules CollapsedVisited :=
  (EnumerationConfig.withMode .upToEquivalence).collapsedRules (Oracle.recognises b)

section Search

variable {a b x : ExchangeMatrix} {s : Session} {halt : Halt} {w : Walk CollapsedVisited}

/-- The search, with its test and its answers by name. -/
theorem areMutationEquivalent?_eq (hs : SameShape a b) (hrank : a.rank ≤ 64) :
    areMutationEquivalent? a b = (do
      let oracle ← acquireOracle a.rank
      let found ← Session.withToken fun token =>
        let found := explore (searchRules b) a (.new a.rank oracle) token
        ((found.1, found.2.visited.oracle), found.2.token)
      releaseOracle found.2
      return found.1.answer) := by
  simp only [areMutationEquivalent?, hs, not_true, if_false, checkedRank_eq hrank]
  refine congrArg (acquireOracle a.rank >>= ·) (funext fun oracle => ?_)
  refine congrArg₂ (· >>= ·) rfl (funext fun ⟨halt, oracle⟩ => ?_)
  refine congrArg (releaseOracle oracle >>= ·) (funext fun _ => ?_)
  cases halt <;> rfl

/-- A search for a relabelling of a matrix of the same shape is one exploration, which halts for a
reason. -/
theorem Session.ask_areMutationEquivalent? (hs : SameShape a b) (hrank : a.rank ≤ 64)
    (ht : s.token.NeverStops) :
    ∃ halt w, Walk.Justified .relabelling (CollapsedVisited.Valid a.rank) (searchRules b) a halt w ∧
      (s.ask (areMutationEquivalent? a b)).1 = .ok halt.answer := by
  obtain ⟨oracle, context, hacquire, hserves⟩ := acquireOracle_eq a.rank s
  refine ⟨_, _, exploreCollapsed_justified (.withMode .upToEquivalence) a
    (fun o m ho => Oracle.serves_recognises ho b m) hserves ht, ?_⟩
  rw [areMutationEquivalent?_eq hs hrank, Session.ask, Session.run_bind hacquire,
    Session.run_bind (Session.run_withToken _ _)]
  obtain ⟨context', hrelease⟩ := releaseOracle_eq
    (explore (searchRules b) a (.new a.rank oracle) s.token).2.visited.oracle
    ⟨context, (explore (searchRules b) a (.new a.rank oracle) s.token).2.token⟩
  rw [Session.run_bind hrelease]
  rfl

/-- A store that is valid for the rank recognises the relabellings of the matrix looked for. -/
theorem isTarget_searchRules_iff {v : CollapsedVisited} (hv : v.Valid a.rank)
    (hx : SameShape x a) :
    ((searchRules b).isTarget v x).1 = true ↔ Identification.relabelling.Same x b :=
  Oracle.recognises_iff hv.oracle hx.rank_eq

/-- A search that finds its target has reached it. -/
theorem reachesRelabelling_of_target
    (h : Walk.Justified .relabelling (CollapsedVisited.Valid a.rank) (searchRules b) a .target w) :
    ReachesRelabelling a b := by
  obtain ⟨x, v, hx, hv, hfound⟩ := h
  exact ⟨x, hx, (isTarget_searchRules_iff hv hx.shape).mp hfound⟩

/-- What an exhausted search has found is no relabelling of the matrix looked for. -/
theorem not_same_of_found {L : Ledger}
    (h : Walk.Tracks .relabelling (CollapsedVisited.Valid a.rank) (searchRules b) a w L)
    (hx : x ∈ L.found) : ¬ Identification.relabelling.Same x b := by
  obtain ⟨v, hv, hpass⟩ := h.passed x hx
  rw [← isTarget_searchRules_iff hv (h.shape hx), hpass]
  exact Bool.false_ne_true

/-- **An exhausted search shows that neither matrix reaches the other.**  It has found all that `a`
reaches and all that reaches `a`. -/
theorem not_reachesRelabelling_of_exhausted
    (h : Walk.Justified .relabelling (CollapsedVisited.Valid a.rank) (searchRules b) a .exhausted
      w) : ¬ ReachesRelabelling a b ∧ ¬ ReachesRelabelling b a := by
  obtain ⟨hq, L, htracks⟩ := h
  have hall := htracks.all_marked hq
  constructor
  · rintro ⟨x, hx, hs⟩
    obtain ⟨y, hy, hxy⟩ := htracks.paired.complete hall htracks.seed_found hx
    exact not_same_of_found htracks hy (hxy.symm.trans hs)
  · rintro ⟨x, hx, hs⟩
    obtain ⟨y, hy, hby⟩ := htracks.paired.complete_back hall hx ⟨a, htracks.seed_found, hs⟩
    exact not_same_of_found htracks hy hby.symm

/-- What the answer to the search for `b` from `a` says. -/
def SearchAnswer (a b : ExchangeMatrix) : Option Bool → Prop
  | some true => ReachesRelabelling a b
  | some false => ¬ ReachesRelabelling a b ∧ ¬ ReachesRelabelling b a
  | none => ∃ x, Reaches a x ∧ ∃ k < x.rank, x.mutate? k = .error (.entryOverflow k)

/-- An exploration answers by the reason for which it halts. -/
theorem searchAnswer_of_justified
    (h : Walk.Justified .relabelling (CollapsedVisited.Valid a.rank) (searchRules b) a halt w) :
    SearchAnswer a b halt.answer := by
  cases halt with
  | target => exact reachesRelabelling_of_target h
  | exhausted => exact not_reachesRelabelling_of_exhausted h
  | overflow =>
      obtain ⟨x, k, hx, hk, hover⟩ := h
      exact ⟨x, hx, k, hk, hover⟩
  -- the search does not ask for certificates
  | certificate => exact absurd h.1 Bool.false_ne_true
  | cancelled => exact h.elim
  | outOfSteps => exact h.elim

/-- **The search answers**, and its answer says what it should. -/
theorem exists_searchAnswer (b : ExchangeMatrix) (hrank : a.rank ≤ 64) (ht : s.token.NeverStops) :
    ∃ answer, (s.ask (areMutationEquivalent? a b)).1 = .ok answer ∧ SearchAnswer a b answer := by
  by_cases hs : SameShape a b
  · obtain ⟨halt, w, hj, hask⟩ := Session.ask_areMutationEquivalent? hs hrank ht
    exact ⟨halt.answer, hask, searchAnswer_of_justified hj⟩
  · -- matrices of different shapes are never asked about
    refine ⟨some false, ?_, fun h => hs h.shape, fun h => hs h.shape.symm⟩
    simp only [Session.ask, areMutationEquivalent?, hs, not_false_eq_true, if_true]
    rfl

/-- **Searches are sound and agree.**  The search for a relabelling of `b` from `a` answers.  Yes
means that `a` reaches one, no that it does not, and no decision that some matrix that `a` reaches
overflows.  If the search for a relabelling of `a` from `b` decides as well, in whatever session,
then it decides the same. -/
theorem areMutationEquivalent?_decides (a b : ExchangeMatrix) (ha : a.rank ≤ 64) (hb : b.rank ≤ 64)
    (s s' : Session) (ht : s.token.NeverStops) (ht' : s'.token.NeverStops) :
    ∃ answer, (s.ask (areMutationEquivalent? a b)).1 = .ok answer ∧
      (answer = some true → ReachesRelabelling a b) ∧
      (answer = some false → ¬ ReachesRelabelling a b) ∧
      (answer = none →
        ∃ x, Reaches a x ∧ ∃ k < x.rank, x.mutate? k = .error (.entryOverflow k)) ∧
      ∀ v v', answer = some v → (s'.ask (areMutationEquivalent? b a)).1 = .ok (some v') →
        v = v' := by
  obtain ⟨answer, hask, hanswer⟩ := exists_searchAnswer b ha ht
  refine ⟨answer, hask, ?_, ?_, ?_, fun v v' hv hback => ?_⟩
  · rintro rfl
    exact hanswer
  · rintro rfl
    exact hanswer.1
  · rintro rfl
    exact hanswer
  · obtain ⟨answer', hask', hanswer'⟩ := exists_searchAnswer a hb ht'
    obtain rfl : answer' = some v' := Except.ok.inj (hask'.symm.trans hback)
    subst hv
    cases v <;> cases v'
    · rfl
    · exact absurd hanswer' hanswer.2
    · exact absurd hanswer hanswer'.2
    · rfl

/-- Mutation turns a valued arrow around, which no relabelling does; a quiver without arrows is not
found. -/
theorem areMutationEquivalent?_valuedArrow :
    let s := Session.new .standard .running
    let arrow := rankTwo (.ofInt 1) (.ofInt (-4))
    let reverse := rankTwo (.ofInt (-1)) (.ofInt 4)
    arrow.rank ≤ 64 ∧ reverse.rank ≤ 64 ∧ (rankTwo 0 0).rank ≤ 64 ∧
      (s.ask (areMutationEquivalent? arrow reverse)).1 = .ok (some true) ∧
      (s.ask (areMutationEquivalent? arrow (rankTwo 0 0))).1 = .ok (some false) := by
  intro s arrow reverse
  have hopposed : Opposed (.ofInt 1) (.ofInt (-4)) := by decide
  have hfits : abs ((Entry.ofInt 1).val * (Entry.ofInt (-4)).val) ≤ 2147483647 := by decide
  have hdefined :
      ¬ ∃ x, Reaches arrow x ∧ ∃ k < x.rank, x.mutate? k = .error (.entryOverflow k) := by
    rintro ⟨x, hx, k, hk, hover⟩
    obtain ⟨c, hto⟩ := exists_mutate?_of_reaches_rankTwo hopposed hfits hx hk
    cases hto.symm.trans hover
  refine ⟨by decide, by decide, by decide, ?_, ?_⟩
  · obtain ⟨answer, hask, -, hno, hnone, -⟩ := areMutationEquivalent?_decides arrow reverse
      (by decide) (by decide) s s Token.neverStops_running Token.neverStops_running
    have hreach : ReachesRelabelling arrow reverse :=
      ⟨_, .one (mutate?_rankTwo hopposed hfits Nat.zero_lt_two), .refl _⟩
    rw [hask]
    rcases answer with _ | _ | _
    · exact absurd (hnone rfl) hdefined
    · exact absurd hreach (hno rfl)
    · rfl
  · obtain ⟨answer, hask, hyes, -, hnone, -⟩ := areMutationEquivalent?_decides arrow (rankTwo 0 0)
      (by decide) (by decide) s s Token.neverStops_running Token.neverStops_running
    have hreach : ¬ ReachesRelabelling arrow (rankTwo 0 0) := by
      rintro ⟨x, hx, p, -, hc⟩
      have hpair : x ∈ arrow.mutationClass := hx
      rw [mutationClass_rankTwo hopposed hfits] at hpair
      have hzero : x.values 0 1 = 0 := by
        rw [← hc.values, values, rankTwo, cell_ofFn, ite_self, ite_self, ite_self]
        rfl
      rcases hpair with rfl | rfl <;> exact absurd hzero (by decide)
    rw [hask]
    rcases answer with _ | _ | _
    · exact absurd (hnone rfl) hdefined
    · rfl
    · exact absurd (hyes rfl) hreach

end Search

end MutationFinite
