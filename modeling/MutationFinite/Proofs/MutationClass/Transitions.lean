import MutationFinite.Proofs.MutationClass.Ends
import MutationFinite.Proofs.MutationClass.Exploration

/-!
# How a walk goes on

What one step of a walk does, whatever its token answers, and what it does to the counters.

* `Walk.Crosses`, `Walk.GivesUp`: what the walk is about to do.
* `Walk.Goes`: the four ways in which a walk goes on; `goes_of_step`, `step_exhausted`.
* `Walk.Counted`: what the counters say of the ledger.
* `Walk.Tracks.goes`: a walk that goes on is tracked and counted.
* `Walk.Tracks.fresh_of_crosses`: the far end of the edge to be crossed is unmarked.
-/

namespace MutationFinite

open ExchangeMatrix

namespace Walk

variable {V : Type} [Visited V]

/-- The walk is about to cross the edge at `k` of `m`, the lowest unmarked one, to `next`. -/
structure Crosses (w : Walk V) (m : ExchangeMatrix) (k : Nat) (next : ExchangeMatrix) : Prop where
  current : w.current = some m
  lowest : (Visited.record? w.visited m).bind LinkRecord.nextUnmarked? = some k
  mutates : m.mutate? k = .ok next

/-- The walk is about to give up `m`. -/
structure GivesUp (w : Walk V) (m : ExchangeMatrix) : Prop where
  current : w.current = some m
  none_left : (Visited.record? w.visited m).bind LinkRecord.nextUnmarked? = none

/-- How a walk goes on: it takes a matrix up or gives one up, or it crosses an edge, to a stored
matrix or to a new one. -/
inductive Goes (rules : WalkRules V) (w : Walk V) : Walk V → Prop
  | takes {m : ExchangeMatrix} {f : Frontier} (token : Token) (hcur : w.current = none)
      (hpop : w.frontier.pop? = some (m, f)) :
      Goes rules w ⟨w.visited, f, some m, w.stats, token⟩
  | gives {m : ExchangeMatrix} (hgives : w.GivesUp m) : Goes rules w (giveUp w m)
  | meets {m next : ExchangeMatrix} {k : Nat} {fresh : Bool} {v : V} (token : Token)
      (hcrosses : w.Crosses m k next) (hreach : Visited.reach w.visited next k = (some fresh, v)) :
      Goes rules w (closeEdge { w.counting token with visited := v } m k)
  | finds {m next : ExchangeMatrix} {k : Nat} {v v' : V} (token : Token)
      (hcrosses : w.Crosses m k next) (hreach : Visited.reach w.visited next k = (none, v))
      (hask : rules.isTarget v next = (false, v'))
      (hcert : (rules.stopOnCertificate && next.certifiesInfinite) = false) :
      Goes rules w (closeEdge
        { w.counting token with
          visited := Visited.insert v' next (some k)
          frontier := w.frontier.push next
          stats := { (w.counting token).stats with discovered := w.stats.discovered + 1 } } m k)

variable {rules : WalkRules V} {w w' : Walk V} {m next : ExchangeMatrix} {k : Nat}

/-! ### Steps -/

theorem discover_going {v : V} (token : Token) (hcrosses : w.Crosses m k next)
    (hreach : Visited.reach w.visited next k = (none, v))
    (h : discover rules { w.counting token with visited := v } m k next = .going w') :
    Goes rules w w' := by
  rcases hask : rules.isTarget v next with ⟨found, v'⟩
  cases found with
  | true =>
      simp only [discover, counting, hask] at h
      cases h
  | false =>
      simp only [discover, counting, hask] at h
      split at h
      · cases h
      · next hcert =>
        cases h
        exact .finds token hcrosses hreach hask (Bool.eq_false_iff.mpr hcert)

theorem crossEdge_going (token : Token) (hcur : w.current = some m)
    (hsome : (Visited.record? w.visited m).bind LinkRecord.nextUnmarked? = some k)
    (h : crossEdge rules (w.counting token) m k = .going w') : Goes rules w w' := by
  cases hto : m.mutate? k with
  | error e =>
      simp only [crossEdge, hto] at h
      cases h
  | ok next =>
      rcases hreach : Visited.reach w.visited next k with ⟨answer, v⟩
      cases answer with
      | none =>
          simp only [crossEdge, counting, hto, hreach] at h
          exact discover_going token ⟨hcur, hsome, hto⟩ hreach h
      | some fresh =>
          simp only [crossEdge, counting, hto, hreach] at h
          cases h
          exact .meets token ⟨hcur, hsome, hto⟩ hreach

/-- A step of which the walk goes on is one of the four. -/
theorem goes_of_step (h : step rules w = .going w') : Goes rules w w' := by
  unfold step at h
  split at h
  · next hcur =>
    cases hpop : w.frontier.pop? with
    | none =>
        simp only [takeUp, hpop] at h
        cases h
    | some p =>
        simp only [takeUp, hpop] at h
        split at h
        · cases h
        · cases h
          exact .takes _ hcur hpop
  · next m hcur =>
    split at h
    · next hnone =>
      cases h
      exact .gives ⟨hcur, hnone⟩
    · next k hsome =>
      rcases followEdge_cases rules w m k with ⟨token, heq⟩ | ⟨token, heq⟩
      · rw [heq] at h
        cases h
      · exact crossEdge_going token hcur hsome (heq ▸ h)

theorem followEdge_ne_exhausted : followEdge rules w m k ≠ .halted .exhausted w' := by
  have hcross : ∀ u : Walk V, crossEdge rules u m k ≠ .halted .exhausted w' := by
    intro u
    unfold crossEdge
    split
    · nofun
    · dsimp only
      split
      · nofun
      · unfold discover
        dsimp only
        split
        · nofun
        · split <;> nofun
  rcases followEdge_cases rules w m k with ⟨token, heq⟩ | ⟨token, heq⟩
  · rw [heq]
    nofun
  · rw [heq]
    exact hcross _

/-- A walk is exhausted when it finds the queue empty. -/
theorem step_exhausted (h : step rules w = .halted .exhausted w') :
    w.queue = [] ∧ w'.queue = w.queue ∧ w'.visited = w.visited ∧ w'.stats = w.stats := by
  unfold step at h
  split at h
  · next hcur =>
    cases hpop : w.frontier.pop? with
    | none =>
        simp only [takeUp, hpop] at h
        cases h
        have hempty : w.frontier.toList = [] := Frontier.pop?_eq_none.mp hpop
        exact ⟨by simp [queue, hcur, hempty], by simp [queue, hcur], rfl, rfl⟩
    | some p =>
        simp only [takeUp, hpop] at h
        split at h <;> cases h
  · split at h
    · cases h
    · exact absurd h followEdge_ne_exhausted

/-- An exploration that goes on has stored its seed. -/
theorem opening_going {seed : ExchangeMatrix} {visited : V} {token : Token}
    (h : opening rules seed visited token = .going w) :
    ∃ v, rules.isTarget visited seed = (false, v) ∧
      (rules.stopOnCertificate && seed.certifiesInfinite) = false ∧ w = start seed v token := by
  rcases hask : rules.isTarget visited seed with ⟨found, v⟩
  cases found with
  | true =>
      simp only [opening, hask] at h
      cases h
  | false =>
      simp only [opening, hask] at h
      split at h
      · cases h
      · next hcert =>
        cases h
        exact ⟨v, rfl, Bool.eq_false_iff.mpr hcert, rfl⟩

theorem opening_ne_exhausted {seed : ExchangeMatrix} {visited : V} {token : Token} :
    opening rules seed visited token ≠ .halted .exhausted w := by
  unfold opening
  split
  · nofun
  · split <;> nofun

/-! ### Counters -/

variable {I : Identification} {Valid : V → Prop} {seed : ExchangeMatrix} {L : Ledger}

/-- Every edge crossed has two ends, and every matrix found is stored or was given up. -/
structure Counted (I : Identification) (w : Walk V) (L : Ledger) : Prop where
  edges : 2 * (w.stats.exploredEdges : ℕ∞) = L.tally I
  evicted : w.stats.evicted + w.queue.length = L.found.length

theorem counted_start (I : Identification) (seed : ExchangeMatrix) (visited : V) (token : Token) :
    Counted I (start seed visited token) (.start seed) :=
  ⟨(Ledger.tally_start seed).symm, rfl⟩

omit [Visited V] in
/-- What the ledger counts depends on the counters and the queue. -/
theorem Counted.congr (h : Counted I w L) (hstats : w'.stats = w.stats) (hq : w'.queue = w.queue) :
    Counted I w' L :=
  ⟨hstats ▸ h.edges, by rw [hstats, hq, h.evicted]⟩

/-- The edge that the walk is about to cross is unmarked. -/
theorem Tracks.unmarked_of_crosses (laws : StoreLaws I seed.rank Valid)
    (h : Tracks I Valid rules seed w L) (hc : w.Crosses m k next) :
    m ∈ L.found ∧ k < m.rank ∧ ¬ L.marks m k :=
  h.unmarked_of_lowest laws hc.current hc.lowest

/-- Its far end is unmarked, too. -/
theorem Tracks.fresh_of_crosses (laws : StoreLaws I seed.rank Valid)
    (h : Tracks I Valid rules seed w L) (hc : w.Crosses m k next) {fresh : Bool} {v : V}
    (hreach : Visited.reach w.visited next k = (some fresh, v)) : fresh = true := by
  obtain ⟨hm, hk, hunmarked⟩ := h.unmarked_of_crosses laws hc
  obtain ⟨z, j, -, hedge, hfresh, -⟩ := h.met laws hc.current hk hc.mutates hreach
  exact hfresh.mpr (h.paired.unmarked hm hedge hunmarked)

/-- **A walk that goes on is tracked and counted**, and has found what it had found before and what
is stored now. -/
theorem Tracks.goes (laws : StoreLaws I seed.rank Valid) (asks : AsksOnly Valid rules)
    (h : Tracks I Valid rules seed w L) (hc : Counted I w L) (hg : Goes rules w w') :
    ∃ L', Tracks I Valid rules seed w' L' ∧ Counted I w' L' ∧
      ∀ x, x ∈ L'.found ↔ x ∈ L.found ∨ x ∈ w'.queue := by
  cases hg with
  | takes token hcur hpop =>
      have hqueue := queue_taken hcur hpop token
      refine ⟨L, h.taken hcur hpop token, ⟨hc.edges, hqueue ▸ hc.evicted⟩, fun x => ?_⟩
      rw [hqueue]
      exact (or_iff_left_of_imp (h.queue_found x)).symm
  | gives hgives =>
      obtain ⟨r, hr, -⟩ := h.exists_complete hgives.current hgives.none_left
      have htracks := h.given laws hgives.current hgives.none_left
      have hqueue := queue_of_current hgives.current
      have hremoved := (laws.remove h.valid hr).1
      refine ⟨L, htracks, ⟨hc.edges, ?_⟩, fun x => ?_⟩
      · have hevicted := hc.evicted
        rw [hqueue, List.length_cons] at hevicted
        simp only [Walk.giveUp, hremoved, if_true, queue, Option.toList, List.nil_append]
        omega
      · exact (or_iff_left_of_imp (htracks.queue_found x)).symm
  | meets token hcrosses hreach =>
      obtain ⟨hm, hk, hunmarked⟩ := h.unmarked_of_crosses laws hcrosses
      obtain ⟨z, j, hz, hedge, -, htracks⟩ :=
        (h.counting token).met laws hcrosses.current hk hcrosses.mutates hreach
      have htally := h.paired.tally_cross hm hz hedge ⟨_, hcrosses.mutates⟩ hunmarked
      refine ⟨_, htracks, ⟨?_, hc.evicted⟩, fun x => ?_⟩
      · rw [htally, ← hc.edges]
        simp only [closeEdge, Walk.counting, Nat.cast_add, Nat.cast_one, mul_add, mul_one]
      · exact (or_iff_left_of_imp (htracks.queue_found x)).symm
  | finds token hcrosses hreach hask hcert =>
      rename_i m next k v v'
      obtain ⟨hm, hk, hunmarked⟩ := h.unmarked_of_crosses laws hcrosses
      obtain ⟨hnew, htracks⟩ := (h.counting token).found laws asks hcrosses.current hk hunmarked
        hcrosses.mutates hreach hask hcert
      have htally := (h.paired.add hnew).tally_cross (List.mem_append_left _ hm)
        (List.mem_append_right _ (List.mem_singleton_self _))
        (.of_mutatesTo (mutatesTo_of_mutate? hcrosses.mutates)) ⟨_, hcrosses.mutates⟩ hunmarked
      refine ⟨_, htracks, ⟨?_, ?_⟩, fun x => ?_⟩
      · rw [htally, show (L.add next).tally I = L.tally I from rfl, ← hc.edges]
        simp only [closeEdge, Walk.counting, Nat.cast_add, Nat.cast_one, mul_add, mul_one]
      · have hevicted := hc.evicted
        simp only [closeEdge, Walk.counting, queue, Frontier.toList_push, Ledger.cross, Ledger.mark,
          Ledger.add, List.length_append, List.length_singleton] at hevicted ⊢
        omega
      · constructor
        · intro hx
          rcases List.mem_append.mp hx with hx | hx
          · exact .inl hx
          · refine .inr ?_
            simp [closeEdge, Walk.counting, queue, List.mem_singleton.mp hx]
        · rintro (hx | hx)
          · exact List.mem_append_left _ hx
          · exact htracks.queue_found x hx

end Walk

end MutationFinite
