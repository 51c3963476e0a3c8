import MutationFinite.Proofs.MutationClass.Enumeration
import MutationFinite.Proofs.MutationClass.Lockstep

/-!
# Remembered and searched witnesses

Two oracles may give different witnesses for one pair of matrices: a checker that is asked the
reversed question first answers with an inverse.  Two witnesses differ by an automorphism, and marks
cover orbits, so that a store of matrices up to relabelling comes out the same with either oracle.

* `CollapsedVisited.reachSlots_agree`: two oracles mark the same vertices of the same slot.
* `CollapsedVisited.SameSlots`: two stores differ in their oracles only;
  `simulates_sameSlots` says that no walk can tell them apart.
* `enumerateDirectly`: the enumeration that searches for every witness.
* `enumerate_eq_enumerateDirectly`: every enumeration up to relabelling answers as this one does.
-/

namespace MutationFinite

open ExchangeMatrix

namespace CollapsedVisited

variable {n rank size k : Nat} {o o' : Oracle} {m : ExchangeMatrix} {slots : List Slot}
  {v v' : CollapsedVisited}

/-- Two witnesses send a vertex into one orbit. -/
theorem mark_eq_of_carries {z : ExchangeMatrix} {r : LinkRecord} {p q : Permutation}
    (hr : RecordOf .relabelling z r) (hk : k < m.rank) (hp : Carries p m z) (hq : Carries q m z) :
    (r.mark (p.apply k)).2 = (r.mark (q.apply k)).2 := by
  have hv : Identification.relabelling.SameVertex z (p.apply k) (q.apply k) := by
    refine ⟨_, trivial, hp.inverse.compose hq, ?_⟩
    rw [Permutation.apply_compose, p.inverse_apply]
  unfold LinkRecord.mark
  rw [hr.orbit_eq (hp.pivot_lt.mpr hk) hv]

/-- **Two oracles mark the same vertices of the same slot.** -/
theorem reachSlots_agree (ho : o.Serves n) (ho' : o'.Serves n) (hm : m.rank = n) (hk : k < n)
    (hrecords : ∀ slot ∈ slots, RecordOf .relabelling slot.representative slot.links) :
    (reachSlots o' m k slots).1.isSome = (reachSlots o m k slots).1.isSome ∧
      (reachSlots o' m k slots).2.1 = (reachSlots o m k slots).2.1 := by
  induction slots generalizing o o' with
  | nil => exact ⟨rfl, rfl⟩
  | cons slot rest ih =>
      obtain ⟨hanswer, hserves⟩ := Oracle.witness_isAnswer (b := slot.representative) ho hm
      obtain ⟨hanswer', hserves'⟩ := Oracle.witness_isAnswer (b := slot.representative) ho' hm
      rcases hw : o.witness m slot.representative with ⟨found, u⟩
      rcases hw' : o'.witness m slot.representative with ⟨found', u'⟩
      rw [hw] at hanswer hserves
      rw [hw'] at hanswer' hserves'
      have hslot := hrecords slot List.mem_cons_self
      cases found with
      | some p =>
          cases found' with
          | none => exact absurd hanswer (hanswer' p)
          | some q =>
              have hmark : (slot.links.mark (q.apply k)).2 = (slot.links.mark (p.apply k)).2 :=
                mark_eq_of_carries hslot (hm.symm ▸ hk) hanswer' hanswer
              simp only [reachSlots, hw, hw', hmark, Option.isSome_some, and_self]
      | none =>
          cases found' with
          | some q => exact absurd hanswer' (hanswer q)
          | none =>
              obtain ⟨hfound, hrest⟩ := ih hserves hserves' fun s hs =>
                hrecords s (List.mem_cons_of_mem _ hs)
              simp only [reachSlots, hw, hw', hfound, hrest, and_self]

/-- Two stores of matrices of rank `n` differ in their oracles only. -/
structure SameSlots (n : Nat) (v v' : CollapsedVisited) : Prop where
  rank : v'.rank = v.rank
  oracle : v'.oracle.Serves n
  buckets : v'.buckets = v.buckets
  size : v'.size = v.size

theorem sameSlots_new (o : Oracle) (ho' : o'.Serves n) : SameSlots n (new n o) (new n o') :=
  ⟨rfl, ho', rfl, rfl⟩

theorem SameSlots.reach (h : SameSlots n v v') (hvalid : Valid n v) (hm : m.rank = n)
    (hk : k < n) :
    (Visited.reach v' m k).1.isSome = (Visited.reach v m k).1.isSome ∧
      SameSlots n (Visited.reach v m k).2 (Visited.reach v' m k).2 := by
  obtain ⟨rank, o, buckets, size⟩ := v
  obtain ⟨rank', o', buckets', size'⟩ := v'
  obtain ⟨rfl, hserves, rfl, rfl⟩ := h
  simp only [Visited.reach]
  split
  · exact ⟨rfl, rfl, hserves, rfl, rfl⟩
  · next slots hslots =>
    have hb : Bucket (Fingerprint.of m) slots := hvalid.bucket hslots
    obtain ⟨hfound, hmarked⟩ := reachSlots_agree hvalid.oracle hserves hm hk hb.records
    have hserves' := (reachSlots_spec (k := k) hserves hm hb.different).1
    exact ⟨hfound, rfl, hserves', congrArg (buckets'.insert (Fingerprint.of m)) hmarked, rfl⟩

/-- No walk can tell such stores apart. -/
theorem simulates_sameSlots (cfg : EnumerationConfig) (n : Nat) :
    Simulates n (Valid n) (SameSlots n) (cfg.collapsedRules fun o _ => (false, o))
      (cfg.collapsedRules fun o _ => (false, o)) where
  stopOnCertificate := rfl
  isTarget h := ⟨rfl, h⟩
  reach := SameSlots.reach
  insert := by
    rintro ⟨rank, o, buckets, size⟩ ⟨rank', o', buckets', size'⟩ m back ⟨rfl, ho, rfl, rfl⟩
    exact ⟨rfl, ho, rfl, rfl⟩
  record? := by
    rintro ⟨rank, o, buckets, size⟩ ⟨rank', o', buckets', size'⟩ m ⟨rfl, ho, rfl, rfl⟩
    rfl
  mark := by
    rintro ⟨rank, o, buckets, size⟩ ⟨rank', o', buckets', size'⟩ m k ⟨rfl, ho, rfl, rfl⟩
    simp only [Visited.mark]
    split <;> exact ⟨rfl, ho, rfl, rfl⟩
  remove := by
    rintro ⟨rank, o, buckets, size⟩ ⟨rank', o', buckets', size'⟩ m ⟨rfl, ho, rfl, rfl⟩
    simp only [Visited.remove]
    split
    · exact ⟨rfl, rfl, ho, rfl, rfl⟩
    · split
      · split <;> exact ⟨rfl, rfl, ho, rfl, rfl⟩
      · exact ⟨rfl, rfl, ho, rfl, rfl⟩
  size h := h.size

end CollapsedVisited

/-- Explorations with two oracles go together. -/
theorem exploreCollapsed_agree {o o' : Oracle} {token : Token} (cfg : EnumerationConfig)
    (seed : ExchangeMatrix) (ho : o.Serves seed.rank) (ho' : o'.Serves seed.rank)
    (ht : token.NeverStops) (token' : Token) :
    Walk.Agree (CollapsedVisited.SameSlots seed.rank)
      (exploreCollapsed cfg seed o (fun o _ => (false, o)) token)
      (exploreCollapsed cfg seed o' (fun o _ => (false, o)) token') :=
  explore_follows (CollapsedVisited.simulates_sameSlots cfg seed.rank) (collapsedLaws seed.rank)
    (asksOnly_collapsedRules cfg fun _ _ h => h) (CollapsedVisited.valid_new ho)
    (CollapsedVisited.record?_new _ _) ht (CollapsedVisited.sameSlots_new o ho') token'

/-- The enumeration up to relabelling that searches for every witness. -/
def enumerateDirectly (cfg : EnumerationConfig) (seed : ExchangeMatrix) (token : Token) :
    Enumeration :=
  let (halt, w) := exploreCollapsed cfg seed .direct (fun o _ => (false, o)) token
  ⟨.ofHalt halt w.stats.discovered, w.stats⟩

/-- **An enumeration up to relabelling does not depend on where its witnesses come from.**  Whatever
the session may hold and has been asked before, its outcome and its counters are those of direct
search, unless somebody stops it. -/
theorem enumerate_eq_enumerateDirectly (cfg : EnumerationConfig) (seed : ExchangeMatrix)
    (s : Session) (token : Token) (hmode : cfg.mode = .upToEquivalence) (hrank : seed.rank ≤ 64)
    (hs : s.token.NeverStops) (ht : token.NeverStops) :
    (s.ask (enumerate cfg seed)).1 = .ok (enumerateDirectly cfg seed token) ∧
      (enumerateDirectly cfg seed token).outcome ≠ .cancelled := by
  have hdirect : Oracle.direct.Serves seed.rank := trivial
  obtain ⟨oracle, -, -, hserves, hask⟩ := Session.ask_enumerate_acquired s hmode hrank
  refine ⟨?_, (countCollapsed_justified cfg seed hdirect ht).decided⟩
  rcases exploreCollapsed_agree cfg seed hdirect hserves ht s.token with
    hstopped | ⟨hhalt, hmatches⟩
  · -- nobody stops it
    have hj := countCollapsed_justified cfg seed hserves hs
    rw [hstopped] at hj
    exact hj.elim
  · rw [hask, hhalt, hmatches.stats]
    rfl

/-- The framed arrow, asked about when the session has room for no checker of rank 2, and when it
has: the arrow is the only matrix that is discovered, as its reverse is a relabelling. -/
theorem enumerate_eq_enumerateDirectly_framed :
    let e := enumerateDirectly (.withMode .upToEquivalence) (framedArrow 1) .running
    (EnumerationConfig.withMode .upToEquivalence).mode = .upToEquivalence ∧
      (framedArrow 1).rank ≤ 64 ∧ Token.running.NeverStops ∧
      e.outcome = .finite 1 ∧ e.stats.discovered = 1 ∧
      ∀ limit ∈ [7, 8],
        ((Session.new ⟨limit, 1⟩ .running).ask
          (enumerate (.withMode .upToEquivalence) (framedArrow 1))).1 = .ok e := by
  have hserves : Oracle.direct.Serves (framedArrow 1).rank := trivial
  have hj := countCollapsed_justified (.withMode .upToEquivalence) (framedArrow 1) hserves
    Token.neverStops_running
  have hone : (Identification.relabelling.classes (framedArrow 1).mutationClass).encard =
      (1 : ℕ) := by
    rw [classes_framedArrow, Set.encard_singleton]
    rfl
  obtain ⟨houtcome, hdiscovered⟩ := hj.framedArrow_finite (fun _ _ => rfl) rfl hone
  refine ⟨rfl, by decide, Token.neverStops_running, houtcome, hdiscovered, fun limit _ => ?_⟩
  exact (enumerate_eq_enumerateDirectly _ _ (.new ⟨limit, 1⟩ .running) .running rfl (by decide)
    Token.neverStops_running Token.neverStops_running).1

end MutationFinite
