import MutationFinite.Proofs.MutationClass.Enumeration
import MutationFinite.Proofs.MutationClass.Lockstep
import MutationFinite.Proofs.MutationClass.Transitions
import Mathlib.Order.SetAccumulate

/-!
# Edges are explored once

The representatives of a walk are the matrices that it stores at any time, and the ends of its edges
are the pairs of a representative and a vertex orbit of its record.

* `Progress.stored`, `representatives`, `edgeEnds`: what the states of a walk store.
* `Walk.Accounted`: what is known of a state; `accounted_iterate` says that it is known of all
  states, whatever the token answers.
* `edgeEnds_eq_ends`: an exhausted walk has marked all ends of edges.
* `ExploresOnce`: the walk marks no edge twice, gives up complete records only, and has counted the
  edges when it is exhausted.
* `enumerate_exploresOnce`: enumerations do so in both modes.
-/

namespace MutationFinite

open ExchangeMatrix

section States

variable {V : Type} [Visited V]

/-- The matrices that a state stores. -/
def Progress.stored : Progress V → Set ExchangeMatrix
  | .going w => {x | (Visited.record? w.visited x).isSome}
  | .halted _ _ => ∅

variable (states : ℕ → Progress V)

/-- At some time the walk has the record `r` of `x`. -/
def Recorded (x : ExchangeMatrix) (r : LinkRecord) : Prop :=
  ∃ t w, states t = .going w ∧ Visited.record? w.visited x = some r

/-- The matrices of which the walk has a record at some time. -/
def representatives : Set ExchangeMatrix := {x | ∃ r, Recorded states x r}

/-- The pairs of a representative and a vertex orbit of its record. -/
def edgeEnds : Set (ExchangeMatrix × VertexSet) :=
  {e | ∃ r k, Recorded states e.1 r ∧ k < r.size ∧ e.2 = r.orbit k}

/-- The walk from `seed` that goes through `states` and answers `e` explores every edge once.  Its
records are those of reachable matrices.  The far end of an edge that leads to a stored matrix is
fresh, and a matrix that is given up has a complete record.  When the walk ends with a finite size,
it has given up all representatives, and twice the number of explored edges is the number of their
ends, those whose edges lead back to them counted twice. -/
structure ExploresOnce (I : Identification) (seed : ExchangeMatrix) (states : ℕ → Progress V)
    (e : Enumeration) : Prop where
  halts : ∃ t halt w, states t = .halted halt w ∧ e = ⟨.ofHalt halt w.stats.discovered, w.stats⟩
  records : ∀ x r, Recorded states x r → x ∈ seed.mutationClass ∧ RecordOf I x r
  fresh : ∀ t w m k next fresh, states t = .going w → w.Crosses m k next →
    (Visited.reach w.visited next k).1 = some fresh → fresh = true
  complete : ∀ t w m, states t = .going w → w.GivesUp m →
    ∃ r, Visited.record? w.visited m = some r ∧ r.isComplete = true
  counts : ∀ c, e.outcome = .finite c → (representatives states).encard = c ∧ e.stats.evicted = c ∧
    2 * (e.stats.exploredEdges : ℕ∞) =
      (edgeEnds states).encard + (edgeEnds states ∩ I.loops).encard

end States

section Accounts

variable {V : Type} [Visited V] {I : Identification} {Valid : V → Prop} {rules : WalkRules V}
  {seed x : ExchangeMatrix} {visited : V} {token : Token} {p : Progress V}
  {stored : Set ExchangeMatrix} {states : ℕ → Progress V} {w : Walk V} {L : Ledger} {t : ℕ}
  {r : LinkRecord}

/-- What is known of a state after the matrices of `stored` have been stored. -/
def Walk.Accounted (I : Identification) (Valid : V → Prop) (rules : WalkRules V)
    (seed : ExchangeMatrix) (stored : Set ExchangeMatrix) : Progress V → Prop
  | .going w => ∃ L, Walk.Tracks I Valid rules seed w L ∧ Walk.Counted I w L ∧
      {x | x ∈ L.found} = stored
  | .halted h w => h = .exhausted → w.queue = [] ∧ ∃ L, Walk.Tracks I Valid rules seed w L ∧
      Walk.Counted I w L ∧ {x | x ∈ L.found} = stored

theorem Walk.Tracks.stored_going (h : Walk.Tracks I Valid rules seed w L) :
    (Progress.going w).stored = {x | x ∈ w.queue} :=
  Set.ext h.stored

theorem accounted_opening (laws : StoreLaws I seed.rank Valid) (asks : Walk.AsksOnly Valid rules)
    (hvalid : Valid visited) (hempty : ∀ y, Visited.record? visited y = none) :
    Walk.Accounted I Valid rules seed (Walk.opening rules seed visited token).stored
      (Walk.opening rules seed visited token) := by
  cases hp : Walk.opening rules seed visited token with
  | halted halt w =>
      rintro rfl
      exact absurd hp Walk.opening_ne_exhausted
  | going w =>
      obtain ⟨v, hask, hcert, rfl⟩ := Walk.opening_going hp
      have htracks : Walk.Tracks I Valid rules seed (Walk.start seed v token) (.start seed) :=
        tracks_opening laws asks hvalid hempty hask hcert token
      exact ⟨.start seed, htracks, Walk.counted_start I seed v token, htracks.stored_going.symm⟩

/-- A step keeps what is known of a state. -/
theorem Walk.Accounted.next (laws : StoreLaws I seed.rank Valid) (asks : Walk.AsksOnly Valid rules)
    (h : Walk.Accounted I Valid rules seed stored p) :
    Walk.Accounted I Valid rules seed (stored ∪ (p.next rules).stored) (p.next rules) := by
  cases p with
  | halted halt w =>
      show Walk.Accounted I Valid rules seed (stored ∪ ∅) (.halted halt w)
      rwa [Set.union_empty]
  | going w =>
      obtain ⟨L, htracks, hcounted, rfl⟩ := h
      show Walk.Accounted I Valid rules seed (_ ∪ (Walk.step rules w).stored) (Walk.step rules w)
      cases hp : Walk.step rules w with
      | going w' =>
          obtain ⟨L', htracks', hcounted', hfound⟩ :=
            htracks.goes laws asks hcounted (Walk.goes_of_step hp)
          refine ⟨L', htracks', hcounted', ?_⟩
          rw [htracks'.stored_going]
          exact Set.ext hfound
      | halted halt w' =>
          rintro rfl
          obtain ⟨hempty, hqueue, hvisited, hstats⟩ := Walk.step_exhausted hp
          exact ⟨hqueue.trans hempty, L, htracks.congr hvisited hqueue (by rw [hstats]),
            hcounted.congr hstats hqueue, (Set.union_empty _).symm⟩

/-- So it is known of all states, whatever the token answers. -/
theorem accounted_iterate (laws : StoreLaws I seed.rank Valid) (asks : Walk.AsksOnly Valid rules)
    (hopen : Walk.Accounted I Valid rules seed (states 0).stored (states 0))
    (hnext : ∀ t, states (t + 1) = (states t).next rules) (t : ℕ) :
    Walk.Accounted I Valid rules seed (Set.accumulate (fun s => (states s).stored) t)
      (states t) := by
  induction t with
  | zero => rwa [Set.accumulate_zero_nat]
  | succ t ih =>
      rw [Set.accumulate_succ, hnext]
      exact ih.next laws asks

/-! ### What is recorded -/

theorem mem_representatives_iff :
    x ∈ representatives states ↔ ∃ t, x ∈ (states t).stored := by
  constructor
  · rintro ⟨r, t, w, hstate, hr⟩
    refine ⟨t, ?_⟩
    rw [hstate]
    exact Option.isSome_of_eq_some hr
  · rintro ⟨t, hx⟩
    cases hstate : states t with
    | halted halt w =>
        rw [hstate] at hx
        exact hx.elim
    | going w =>
        rw [hstate] at hx
        obtain ⟨r, hr⟩ := Option.isSome_iff_exists.mp hx
        exact ⟨r, t, w, hstate, hr⟩

/-- A walk that has halted stays as it is. -/
theorem states_eq_of_halted (hnext : ∀ t, states (t + 1) = (states t).next rules) {halt : Halt}
    (hhalted : states t = .halted halt w) {s : ℕ} (hts : t ≤ s) : states s = .halted halt w := by
  induction s, hts using Nat.le_induction with
  | base => exact hhalted
  | succ s _ ih =>
      rw [hnext, ih]
      rfl

/-- So it stores nothing more. -/
theorem representatives_eq_accumulate (hnext : ∀ t, states (t + 1) = (states t).next rules)
    {halt : Halt} (hhalted : states t = .halted halt w) :
    representatives states = Set.accumulate (fun s => (states s).stored) t := by
  ext x
  rw [mem_representatives_iff, Set.mem_accumulate]
  constructor
  · rintro ⟨s, hx⟩
    refine ⟨s, ?_, hx⟩
    by_contra hlt
    rw [states_eq_of_halted hnext hhalted (Nat.le_of_not_le hlt)] at hx
    exact hx
  · rintro ⟨s, -, hx⟩
    exact ⟨s, hx⟩

section Recorded

variable (hacc : ∀ t, Walk.Accounted I Valid rules seed
  (Set.accumulate (fun s => (states s).stored) t) (states t))

include hacc in
/-- A walk that goes on is tracked. -/
theorem tracks_of_going (hstate : states t = .going w) :
    ∃ L, Walk.Tracks I Valid rules seed w L := by
  have ht := hacc t
  rw [hstate] at ht
  obtain ⟨L, htracks, -⟩ := ht
  exact ⟨L, htracks⟩

include hacc in
/-- Records are those of reachable matrices. -/
theorem Recorded.spec (laws : StoreLaws I seed.rank Valid) (h : Recorded states x r) :
    Reaches seed x ∧ RecordOf I x r := by
  obtain ⟨t, w, hstate, hr⟩ := h
  obtain ⟨L, htracks⟩ := tracks_of_going hacc hstate
  have hfound : x ∈ L.found := htracks.queue_found x (htracks.mem_queue_of_record hr)
  exact ⟨htracks.reached x hfound, laws.recordOf htracks.valid hr⟩

include hacc in
/-- **An exhausted walk has marked all ends of edges.** -/
theorem edgeEnds_eq_ends (laws : StoreLaws I seed.rank Valid)
    (htracks : Walk.Tracks I Valid rules seed w L) (hqueue : w.queue = [])
    (hfound : {x | x ∈ L.found} = representatives states) :
    edgeEnds states = L.ends I := by
  have hrepresents : ∀ x, x ∈ L.found ↔ x ∈ representatives states := fun x =>
    Set.ext_iff.mp hfound x
  ext ⟨x, O⟩
  constructor
  · rintro ⟨r, k, hrecorded, hk, rfl⟩
    have hr := (hrecorded.spec hacc laws).2
    rw [hr.size] at hk
    have hx : x ∈ L.found := (hrepresents x).mpr ⟨r, hrecorded⟩
    exact ⟨k, htracks.all_marked hqueue x hx k hk, hr.orbit k hk⟩
  · rintro ⟨k, hm, hO⟩
    obtain ⟨r, hrecorded⟩ := (hrepresents x).mp (htracks.paired.found x k hm)
    have hr := (hrecorded.spec hacc laws).2
    obtain ⟨z, w, he, -⟩ := htracks.paired.paired x k hm
    exact ⟨r, k, hrecorded, hr.size ▸ he.lt, hO.unique (hr.orbit k he.lt)⟩

include hacc in
/-- The counters of an exhausted walk. -/
theorem counts_of_exhausted (laws : StoreLaws I seed.rank Valid)
    (hnext : ∀ t, states (t + 1) = (states t).next rules)
    (hhalted : states t = .halted .exhausted w) :
    (representatives states).encard = w.stats.discovered ∧
      w.stats.evicted = w.stats.discovered ∧
      2 * (w.stats.exploredEdges : ℕ∞) =
        (edgeEnds states).encard + (edgeEnds states ∩ I.loops).encard := by
  have ht := hacc t
  rw [hhalted] at ht
  obtain ⟨hqueue, L, htracks, hcounted, hfound⟩ := ht rfl
  rw [← representatives_eq_accumulate hnext hhalted] at hfound
  refine ⟨hfound ▸ htracks.encard_found, ?_, ?_⟩
  · have hevicted := hcounted.evicted
    rw [hqueue, ← htracks.discovered] at hevicted
    exact hevicted
  · rw [edgeEnds_eq_ends hacc laws htracks hqueue hfound]
    exact hcounted.edges

end Recorded

/-- Up to equality, a representative has as many ends of edges as it has mutable vertices. -/
theorem ExploresOnce.encard_edgeEnds {e : Enumeration} (h : ExploresOnce .equality seed states e)
    {c : ℕ} (hc : e.outcome = .finite c) : (edgeEnds states).encard = seed.rank * c := by
  have hspec : ∀ x r, Recorded states x r → x.rank = seed.rank ∧ RecordOf .equality x r :=
    fun x r hr => ⟨(h.records x r hr).1.shape.rank_eq, (h.records x r hr).2⟩
  let single : ExchangeMatrix × ℕ → ExchangeMatrix × VertexSet := fun e => (e.1, {e.2})
  have hsingle : Function.Injective single := by
    rintro ⟨x, j⟩ ⟨y, k⟩ h
    obtain ⟨rfl, hjk⟩ := Prod.mk.inj h
    have hj : j ∈ ({k} : VertexSet) := hjk ▸ VertexSet.mem_singleton.mpr rfl
    rw [VertexSet.mem_singleton.mp hj]
  have horbit : ∀ {x r k}, Recorded states x r → k < seed.rank → r.orbit k = {k} := by
    intro x r k hr hk
    obtain ⟨hrank, hrecord⟩ := hspec x r hr
    exact Identification.isOrbit_equality.mp (hrecord.orbit k (hrank.symm ▸ hk))
  have hends : edgeEnds states = single '' (representatives states ×ˢ {k | k < seed.rank}) := by
    ext ⟨x, O⟩
    constructor
    · rintro ⟨r, k, hr, hk, rfl⟩
      obtain ⟨hrank, hrecord⟩ := hspec x r hr
      rw [hrecord.size, hrank] at hk
      exact ⟨(x, k), ⟨⟨r, hr⟩, hk⟩, Prod.ext rfl (horbit hr hk).symm⟩
    · rintro ⟨⟨y, k⟩, ⟨⟨r, hr⟩, hk⟩, hx⟩
      obtain ⟨rfl, rfl⟩ := Prod.mk.inj hx
      obtain ⟨hrank, hrecord⟩ := hspec y r hr
      exact ⟨r, k, hr, (hrecord.size.trans hrank).symm ▸ hk, (horbit hr hk).symm⟩
  rw [hends, hsingle.encard_image, Set.encard_prod, Set.Nat.encard_range, (h.counts c hc).1,
    mul_comm]

/-! ### Explorations -/

/-- Whatever the token answers, an exploration has the reason of the one that nobody stops, unless
it was stopped. -/
theorem explore_stopped_or_justified (laws : StoreLaws I seed.rank Valid)
    (asks : Walk.AsksOnly Valid rules) (hvalid : Valid visited)
    (hempty : ∀ y, Visited.record? visited y = none) (token : Token) :
    (explore rules seed visited token).1 = .cancelled ∨
      ∃ w, Walk.Justified I Valid rules seed (explore rules seed visited token).1 w ∧
        (explore rules seed visited token).2.stats = w.stats := by
  have hleads := explore_justified laws asks hvalid hempty Token.neverStops_running
  refine (explore_follows (simulates_eq seed.rank Valid rfl rfl) laws asks hvalid hempty
    Token.neverStops_running rfl token).imp_right fun ⟨hhalt, hmatches⟩ => ?_
  rw [hhalt]
  exact ⟨_, hleads, hmatches.stats⟩

/-- **An exploration explores every edge once**, whatever the token answers. -/
theorem exploresOnce_explore (laws : StoreLaws I seed.rank Valid)
    (asks : Walk.AsksOnly Valid rules) (hnone : ∀ v x, (rules.isTarget v x).1 = false)
    (hvalid : Valid visited) (hempty : ∀ y, Visited.record? visited y = none)
    (hstates : ∀ t, states t =
      (Progress.next rules)^[t] (Walk.opening rules seed visited token)) :
    ExploresOnce I seed states
      ⟨.ofHalt (explore rules seed visited token).1
          (explore rules seed visited token).2.stats.discovered,
        (explore rules seed visited token).2.stats⟩ := by
  have hnext : ∀ t, states (t + 1) = (states t).next rules := fun t => by
    rw [hstates, hstates, Function.iterate_succ_apply']
  have hopen : Walk.Accounted I Valid rules seed (states 0).stored (states 0) :=
    hstates 0 ▸ accounted_opening laws asks hvalid hempty
  have hacc := accounted_iterate laws asks hopen hnext
  have hreason := explore_stopped_or_justified laws asks hvalid hempty token
  have hsteps : (explore rules seed visited token).1 ≠ .outOfSteps := by
    intro hout
    rw [hout] at hreason
    obtain hstopped | ⟨w, hj, -⟩ := hreason
    · cases hstopped
    · exact hj
  obtain ⟨t, hhalted⟩ := explore_eq_iterate hsteps
  rw [← hstates] at hhalted
  refine ⟨⟨t, _, _, hhalted, rfl⟩, fun x r hr => hr.spec hacc laws,
    fun s w m k next fresh hstate hcrosses hreach => ?_, fun s w m hstate hgives => ?_,
    fun c hc => ?_⟩
  · obtain ⟨L, htracks⟩ := tracks_of_going hacc hstate
    exact htracks.fresh_of_crosses laws hcrosses (Prod.ext hreach rfl)
  · obtain ⟨L, htracks⟩ := tracks_of_going hacc hstate
    obtain ⟨r, hr, hall⟩ := htracks.exists_complete hgives.current hgives.none_left
    exact ⟨r, hr, r.isComplete_iff.mpr hall⟩
  · -- a finite size is that of an exhausted walk
    obtain hstopped | ⟨u, hj, hstats⟩ := hreason
    · rw [hstopped] at hc
      cases hc
    · have hdiscovered : (explore rules seed visited token).2.stats.discovered = c := by
        rw [hstats] at hc ⊢
        exact (hj.exhausted hnone hc).2.2
      rw [hj.eq_exhausted hnone (hstats ▸ hc)] at hhalted
      rw [← hdiscovered]
      exact counts_of_exhausted hacc laws hnext hhalted

end Accounts

/-! ### Enumerations -/

/-- The states of the walk up to relabelling that asks `oracle`. -/
def collapsedStates (cfg : EnumerationConfig) (seed : ExchangeMatrix) (oracle : Oracle)
    (token : Token) (t : Nat) : Progress CollapsedVisited :=
  (Progress.next (cfg.collapsedRules fun o _ => (false, o)))^[t]
    (Walk.opening (cfg.collapsedRules fun o _ => (false, o)) seed (.new seed.rank oracle) token)

/-- **An enumeration explores every mutation edge once**, in either mode, with all settings and
whatever the token answers.  In exact mode the representatives have as many ends of edges as they
have mutable vertices together. -/
theorem enumerate_exploresOnce (cfg : EnumerationConfig) (seed : ExchangeMatrix) (s : Session)
    (hrank : seed.rank ≤ 64) :
    ∃ e, (s.ask (enumerate cfg seed)).1 = .ok e ∧
      (cfg.mode = .exact →
        ExploresOnce .equality seed (exactStates cfg seed s.token) e ∧
          ∀ c, e.outcome = .finite c →
            (edgeEnds (exactStates cfg seed s.token)).encard = seed.rank * c) ∧
      (cfg.mode = .upToEquivalence →
        ∃ oracle context, (acquireOracle seed.rank).run s = (.ok oracle, ⟨context, s.token⟩) ∧
          ExploresOnce .relabelling seed (collapsedStates cfg seed oracle s.token) e) := by
  cases hmode : cfg.mode with
  | exact =>
      have honce := exploresOnce_explore (exactLaws seed.rank) (asksOnly_exactRules cfg seed.rank)
        (fun _ _ => rfl) (ExactVisited.valid_new seed.rank) ExactVisited.record?_new
        (fun _ => rfl : ∀ t, exactStates cfg seed s.token t = _)
      exact ⟨_, Session.ask_enumerate_exact hmode hrank,
        fun _ => ⟨honce, fun _ => honce.encard_edgeEnds⟩, nofun⟩
  | upToEquivalence =>
      obtain ⟨oracle, context, hacquire, hserves, hask⟩ :=
        Session.ask_enumerate_acquired s hmode hrank
      have honce := exploresOnce_explore (collapsedLaws seed.rank)
        (asksOnly_collapsedRules cfg fun _ _ h => h) (fun _ _ => rfl)
        (CollapsedVisited.valid_new hserves) (CollapsedVisited.record?_new _ _)
        (fun _ => rfl : ∀ t, collapsedStates cfg seed oracle s.token t = _)
      exact ⟨_, hask, nofun, fun _ => ⟨oracle, context, hacquire, honce⟩⟩

/-- No edge of the framed arrow leads back to where it starts. -/
theorem framedArrow_not_mem_loops {x : ExchangeMatrix} (hx : x ∈ (framedArrow 1).mutationClass)
    (O : VertexSet) : (x, O) ∉ Identification.equality.loops := by
  rintro ⟨k, -, c, p, hto, hp, hc, -⟩
  obtain rfl : c = x := hc.eq_of_apply_eq hp
  have hk := (mutatesTo_of_mutate? hto).pivot
  rw [mutationClass_framedArrow] at hx
  rcases hx with rfl | rfl
  · exact absurd (Except.ok.inj ((mutate?_framedArrow k hk).1.symm.trans hto)) (by decide)
  · exact absurd (Except.ok.inj ((mutate?_framedArrow k hk).2.symm.trans hto)) (by decide)

theorem framedArrow_outcome {e : Enumeration}
    (hask : ((Session.new .standard .running).ask
      (enumerate (.withMode .exact) (framedArrow 1))).1 = .ok e) : e.outcome = .finite 2 := by
  have hj := exploreExact_justified (.withMode .exact) (framedArrow 1) Token.neverStops_running
  obtain rfl := Except.ok.inj (hask.symm.trans (Session.ask_enumerate_exact rfl (by decide)))
  refine (hj.framedArrow_finite (fun _ _ => rfl) rfl ?_).1
  rw [Identification.encard_classes_equality, mutationClass_framedArrow,
    Set.encard_pair (by decide)]
  rfl

/-- The framed arrow and its reverse are joined by two edges. -/
theorem enumerate_exploresOnce_framed :
    (framedArrow 1).rank ≤ 64 ∧
      ∃ e, ((Session.new .standard .running).ask
        (enumerate (.withMode .exact) (framedArrow 1))).1 = .ok e ∧ e.outcome = .finite 2 ∧
          e.stats.evicted = 2 ∧ e.stats.exploredEdges = 2 := by
  obtain ⟨e, hask, hexact, -⟩ :=
    enumerate_exploresOnce (.withMode .exact) (framedArrow 1) (.new .standard .running) (by decide)
  obtain ⟨honce, hends⟩ := hexact rfl
  have hfinite := framedArrow_outcome hask
  obtain ⟨-, hevicted, hedges⟩ := honce.counts 2 hfinite
  have hloops : edgeEnds (exactStates (.withMode .exact) (framedArrow 1) .running) ∩
      Identification.equality.loops = ∅ := by
    refine Set.eq_empty_of_forall_notMem fun ⟨x, O⟩ ⟨⟨r, _, hr, _⟩, hloop⟩ => ?_
    exact framedArrow_not_mem_loops (honce.records x r hr).1 O hloop
  rw [hends 2 hfinite, show (framedArrow 1).rank = 2 by decide,
    show (Session.new .standard .running).token = .running from rfl, hloops, Set.encard_empty,
    add_zero] at hedges
  refine ⟨by decide, e, hask, hfinite, hevicted, ?_⟩
  have htwice : 2 * e.stats.exploredEdges = 2 * 2 := by exact_mod_cast hedges
  exact Nat.eq_of_mul_eq_mul_left (by decide) htwice

end MutationFinite
