import MutationFinite.MutationClass.Walk
import MutationFinite.Proofs.MutationClass.Ledger
import MutationFinite.Proofs.MutationClass.Store

/-!
# The invariant of the walk

A walk over a store that keeps its contract is tracked by a ledger with paired marks.

* `Agrees`: the marks of the ledger are those of the records; a found matrix that is no longer
  stored has all of its edges marked.
* `Walk.Tracks`: the invariant.
* `Walk.Tracks.taken`, `.given`, `.met`, `.found`: what each way of going on does to the ledger.
* `Walk.Advances`, `Walk.Tracks.step`: a step keeps the invariant and does some work, or halts the
  walk for a reason that the walk has seen.
* `Walk.Tracks.run`: a walk halts within the steps that its work bounds.
* `Walk.tracks_start`: the walk that has found its seed alone is tracked.
-/

namespace MutationFinite

open ExchangeMatrix

/-- The marks of the ledger are those of the records, and all edges of a found matrix without a
record are marked. -/
def Agrees (record : ExchangeMatrix → Option LinkRecord) (L : Ledger) : Prop :=
  ∀ x ∈ L.found, ∀ k < x.rank, L.marks x k ↔ ∀ r, record x = some r → k ∈ r.marked

section Agrees

variable {record record' : ExchangeMatrix → Option LinkRecord} {L : Ledger} {I : Identification}
  {z : ExchangeMatrix} {r : LinkRecord} {w : Nat}

theorem Agrees.mark (h : Agrees record L) (hz : z ∈ L.found) (hr : record z = some r)
    (hrec : RecordOf I z r) (hw : w < z.rank)
    (hset : ∀ y, record' y = if y = z then some (r.mark w).2 else record y) :
    Agrees record' (L.mark I z w) := by
  intro x hx k hk
  rw [hset]
  by_cases hxz : x = z
  · subst hxz
    have hold : L.marks x k ↔ k ∈ r.marked := by simp [h x hz k hk, hr]
    have hnew : (L.mark I x w).marks x k ↔ L.marks x k ∨ I.SameVertex x w k := by
      simp [Ledger.mark]
    simp [hnew, hold, LinkRecord.mem_marked_mark, hrec.orbit w hw]
  · rw [if_neg hxz, ← h x hx k hk]
    simp [Ledger.mark, hxz]

theorem Agrees.add (h : Agrees record L) (hp : L.Paired I) (hz : z ∉ L.found) (hr : r.marked = ∅)
    (hset : ∀ y, record' y = if y = z then some r else record y) : Agrees record' (L.add z) := by
  intro x hx k hk
  rw [hset]
  rcases List.mem_append.mp hx with hx | hx
  · have hxz : x ≠ z := fun he => hz (he ▸ hx)
    rw [if_neg hxz]
    exact h x hx k hk
  · obtain rfl := List.mem_singleton.mp hx
    have hunmarked : ¬ L.marks x k := fun hm => hz (hp.found x k hm)
    simp [Ledger.add, hunmarked, hr]

theorem Agrees.of_complete (h : Agrees record L) (hr : record z = some r) (hsize : r.size = z.rank)
    (hall : ∀ k < r.size, k ∈ r.marked)
    (hset : ∀ y, record' y = if y = z then none else record y) : Agrees record' L := by
  intro x hx k hk
  rw [hset, h x hx k hk]
  by_cases hxz : x = z
  · subst hxz
    have hmem : k ∈ r.marked := hall k (hsize ▸ hk)
    simp [hr, hmem]
  · rw [if_neg hxz]

end Agrees

namespace Walk

variable {V : Type} [Visited V]

/-- The stored matrices: the one being expanded and those waiting for it. -/
def queue (w : Walk V) : List ExchangeMatrix := w.current.toList ++ w.frontier.toList

variable (I : Identification) (Valid : V → Prop) (rules : WalkRules V) (seed : ExchangeMatrix)

/-- Asking whether a matrix is the one looked for leaves the records alone. -/
def AsksOnly : Prop := ∀ v m, Valid v →
  Valid (rules.isTarget v m).2 ∧
    ∀ y, Visited.record? (rules.isTarget v m).2 y = Visited.record? v y

/-- What the walk knows of the matrices found so far, the marks apart. -/
structure Keeps (w : Walk V) (found : List ExchangeMatrix) : Prop where
  valid : Valid w.visited
  seed_found : seed ∈ found
  reached : ∀ x ∈ found, Reaches seed x
  uncertified : rules.stopOnCertificate = true → ∀ x ∈ found, x.certifiesInfinite = false
  passed : ∀ x ∈ found, ∃ v, Valid v ∧ (rules.isTarget v x).1 = false
  queue_nodup : w.queue.Nodup
  queue_found : ∀ x ∈ w.queue, x ∈ found
  stored : ∀ x, (Visited.record? w.visited x).isSome ↔ x ∈ w.queue
  discovered : w.stats.discovered = found.length

/-- **The invariant.**  The ledger `L` tracks the walk `w` from `seed`. -/
structure Tracks (w : Walk V) (L : Ledger) : Prop extends
    Keeps Valid rules seed w L.found where
  paired : L.Paired I
  agrees : Agrees (Visited.record? w.visited) L

/-- The work done: matrices taken up, matrices given up, and edges marked. -/
noncomputable def work (w : Walk V) (L : Ledger) (n : Nat) : Nat :=
  (L.found.length - w.frontier.toList.length) + (L.found.length - w.queue.length) + L.count n

/-- The reason for which a walk halts. -/
def Justified (h : Halt) (w : Walk V) : Prop :=
  match h with
  | .exhausted => w.queue = [] ∧ ∃ L, Tracks I Valid rules seed w L
  | .certificate =>
    rules.stopOnCertificate = true ∧ ∃ x, Reaches seed x ∧ x.certifiesInfinite = true
  | .overflow =>
    ∃ x k, Reaches seed x ∧ k < x.rank ∧ x.mutate? k = .error (.entryOverflow k)
  | .target => ∃ x v, Reaches seed x ∧ Valid v ∧ (rules.isTarget v x).1 = true
  | .cancelled | .outOfSteps => False

/-- A step from `w` keeps the invariant and does some work, or halts the walk for a reason. -/
def Advances (w : Walk V) (L : Ledger) : Progress V → Prop
  | .going w' => w'.token.NeverStops ∧ ∃ L', Tracks I Valid rules seed w' L' ∧
      L.found ⊆ L'.found ∧ work w L seed.rank < work w' L' seed.rank
  | .halted h w' => Justified I Valid rules seed h w'

variable {I Valid rules seed} {w : Walk V} {L : Ledger} {m next : ExchangeMatrix} {k : Nat}

theorem Keeps.shape {found : List ExchangeMatrix} (h : Keeps Valid rules seed w found)
    {x : ExchangeMatrix} (hx : x ∈ found) : SameShape x seed :=
  (h.reached x hx).shape

/-- The queue is no longer than the list of found matrices. -/
theorem Keeps.queue_le {found : List ExchangeMatrix} (h : Keeps Valid rules seed w found) :
    w.queue.length ≤ found.length :=
  h.queue_nodup.length_le_of_subset h.queue_found

/-- What is known depends on the parts of the walk that a poll leaves alone. -/
theorem Tracks.congr {w' : Walk V} (h : Tracks I Valid rules seed w L)
    (hv : w'.visited = w.visited) (hq : w'.queue = w.queue)
    (hd : w'.stats.discovered = w.stats.discovered) : Tracks I Valid rules seed w' L where
  valid := hv ▸ h.valid
  seed_found := h.seed_found
  reached := h.reached
  uncertified := h.uncertified
  passed := h.passed
  queue_nodup := hq ▸ h.queue_nodup
  queue_found := hq ▸ h.queue_found
  stored := by rw [hv, hq]; exact h.stored
  discovered := hd ▸ h.discovered
  paired := h.paired
  agrees := hv ▸ h.agrees

/-! ### Taking up and giving up -/

omit [Visited V] in
/-- A matrix that is taken up stays in the queue. -/
theorem queue_taken (hcur : w.current = none) {f : Frontier}
    (hpop : w.frontier.pop? = some (m, f)) (token : Token) :
    queue (V := V) ⟨w.visited, f, some m, w.stats, token⟩ = w.queue := by
  simp [queue, hcur, Frontier.toList_of_pop? hpop]

theorem Tracks.taken (h : Tracks I Valid rules seed w L) (hcur : w.current = none) {f : Frontier}
    (hpop : w.frontier.pop? = some (m, f)) (token : Token) :
    Tracks I Valid rules seed ⟨w.visited, f, some m, w.stats, token⟩ L :=
  h.congr rfl (queue_taken hcur hpop token) rfl

theorem Tracks.takeUp (h : Tracks I Valid rules seed w L) (hcur : w.current = none)
    (ht : w.token.NeverStops) : Advances I Valid rules seed w L (takeUp w) := by
  cases hpop : w.frontier.pop? with
  | none =>
      have hempty : w.frontier.toList = [] := Frontier.pop?_eq_none.mp hpop
      simp only [Walk.takeUp, hpop]
      exact ⟨by simp [queue, hempty], L, h.congr rfl (by simp [queue, hcur]) rfl⟩
  | some p =>
      obtain ⟨m, f⟩ := p
      have hqueue := queue_taken hcur hpop w.token.poll.2
      have hlist : w.frontier.toList = m :: f.toList := Frontier.toList_of_pop? hpop
      have hle : w.frontier.toList.length ≤ L.found.length := by
        have := h.queue_le
        simpa [queue, hcur] using this
      simp only [Walk.takeUp, hpop, ht.poll.1, Bool.false_eq_true, if_false]
      -- the queue stays the same, and one matrix fewer waits in it
      refine ⟨ht.poll.2, L, h.taken hcur hpop _, fun _ hx => hx, ?_⟩
      simp only [work, hqueue]
      rw [hlist, List.length_cons] at *
      omega

omit [Visited V] in
theorem queue_of_current (hcur : w.current = some m) : w.queue = m :: w.frontier.toList := by
  simp [queue, hcur]

/-- A matrix in the queue is stored. -/
theorem Keeps.exists_record {found : List ExchangeMatrix} (h : Keeps Valid rules seed w found)
    {x : ExchangeMatrix} (hx : x ∈ w.queue) : ∃ r, Visited.record? w.visited x = some r :=
  Option.isSome_iff_exists.mp ((h.stored x).mpr hx)

theorem Keeps.mem_queue_of_record {found : List ExchangeMatrix}
    (h : Keeps Valid rules seed w found) {x : ExchangeMatrix} {r : LinkRecord}
    (hr : Visited.record? w.visited x = some r) : x ∈ w.queue :=
  (h.stored x).mp (Option.isSome_of_eq_some hr)

/-- A matrix is given up when its record is complete. -/
theorem Keeps.exists_complete {found : List ExchangeMatrix} (h : Keeps Valid rules seed w found)
    (hcur : w.current = some m)
    (hnone : (Visited.record? w.visited m).bind LinkRecord.nextUnmarked? = none) :
    ∃ r, Visited.record? w.visited m = some r ∧ ∀ k < r.size, k ∈ r.marked := by
  obtain ⟨r, hr⟩ := h.exists_record (x := m) (by simp [queue_of_current hcur])
  rw [hr] at hnone
  exact ⟨r, hr, LinkRecord.nextUnmarked?_eq_none_iff.mp hnone⟩

/-- The ledger keeps the matrix that the store forgets. -/
theorem Tracks.given (laws : StoreLaws I seed.rank Valid) (h : Tracks I Valid rules seed w L)
    (hcur : w.current = some m)
    (hnone : (Visited.record? w.visited m).bind LinkRecord.nextUnmarked? = none) :
    Tracks I Valid rules seed (giveUp w m) L := by
  obtain ⟨r, hr, hall⟩ := h.exists_complete hcur hnone
  obtain ⟨-, hvalid, hset⟩ := laws.remove h.valid hr
  have hleft : queue (giveUp w m) = w.frontier.toList := rfl
  have hnodup := h.queue_nodup
  rw [queue_of_current hcur, List.nodup_cons] at hnodup
  refine ⟨⟨hvalid, h.seed_found, h.reached, h.uncertified, h.passed, hleft ▸ hnodup.2,
    fun x hx => ?_, fun x => ?_, h.discovered⟩, h.paired,
    h.agrees.of_complete hr (laws.recordOf h.valid hr).size hall hset⟩
  · rw [hleft] at hx
    exact h.queue_found x (queue_of_current hcur ▸ List.mem_cons_of_mem m hx)
  · rw [show Visited.record? (Walk.giveUp w m).visited x = _ from hset x, hleft]
    by_cases hx : x = m
    · simpa [hx] using hnodup.1
    · rw [if_neg hx, h.stored x, queue_of_current hcur, List.mem_cons, or_iff_right hx]

theorem Tracks.giveUp (laws : StoreLaws I seed.rank Valid) (h : Tracks I Valid rules seed w L)
    (ht : w.token.NeverStops) (hcur : w.current = some m)
    (hnone : (Visited.record? w.visited m).bind LinkRecord.nextUnmarked? = none) :
    Advances I Valid rules seed w L (.going (giveUp w m)) := by
  have hle := h.queue_le
  rw [queue_of_current hcur, List.length_cons] at hle
  refine ⟨ht, L, h.given laws hcur hnone, fun _ hx => hx, ?_⟩
  simp only [work, queue_of_current hcur, List.length_cons]
  simp only [queue, Walk.giveUp, Option.toList, List.nil_append]
  omega

/-! ### Following an edge -/

/-- A change of one record leaves the set of stored matrices alone. -/
theorem Keeps.of_sets {found : List ExchangeMatrix} {w' : Walk V} {x : ExchangeMatrix}
    {r r' : LinkRecord} (h : Keeps Valid rules seed w found)
    (hr : Visited.record? w.visited x = some r) (hvalid : Valid w'.visited)
    (hset : Sets w.visited w'.visited x (some r'))
    (hq : w'.queue = w.queue) (hd : w'.stats.discovered = w.stats.discovered) :
    Keeps Valid rules seed w' found where
  valid := hvalid
  seed_found := h.seed_found
  reached := h.reached
  uncertified := h.uncertified
  passed := h.passed
  queue_nodup := hq ▸ h.queue_nodup
  queue_found := hq ▸ h.queue_found
  stored y := by
    rw [hset y, hq, ← h.stored y]
    by_cases hy : y = x
    · simp [hy, hr]
    · rw [if_neg hy]
  discovered := hd ▸ h.discovered

/-- Marking the near end completes an edge of which the far end is marked. -/
theorem Keeps.closeEdge (laws : StoreLaws I seed.rank Valid)
    (h : Keeps Valid rules seed w L.found) (hag : Agrees (Visited.record? w.visited) L)
    (hm : m ∈ w.queue) (hk : k < m.rank) (hp : (L.mark I m k).Paired I) :
    Tracks I Valid rules seed (closeEdge w m k) (L.mark I m k) := by
  obtain ⟨r, hr⟩ := h.exists_record hm
  obtain ⟨hvalid, hset⟩ := laws.mark k h.valid hr
  exact ⟨h.of_sets hr hvalid hset rfl rfl, hp,
    hag.mark (h.queue_found m hm) hr (laws.recordOf h.valid hr) hk hset⟩

/-- Crossing an edge that leads to a stored matrix marks both of its ends; the store says whether
the far end was unmarked. -/
theorem Tracks.met (laws : StoreLaws I seed.rank Valid) (h : Tracks I Valid rules seed w L)
    (hcur : w.current = some m) (hk : k < m.rank) (hto : m.mutate? k = .ok next) {fresh : Bool}
    {v' : V} (hreach : Visited.reach w.visited next k = (some fresh, v')) :
    ∃ z j, z ∈ L.found ∧ I.Edge m k z j ∧ (fresh = true ↔ ¬ L.marks z j) ∧
      Tracks I Valid rules seed
        (Walk.closeEdge ⟨v', w.frontier, w.current, w.stats, w.token⟩ m k) (L.cross I m k z j) := by
  have hqueue : m ∈ w.queue := by simp [queue, hcur]
  have hfound := h.queue_found m hqueue
  have hmto := mutatesTo_of_mutate? hto
  have hrank : m.rank = seed.rank := (h.shape hfound).rank_eq
  obtain ⟨z, r, p, hr, hp, hc, hfresh, hvalid, hset⟩ := laws.reach_some h.valid
    (hmto.shape.rank_eq.trans hrank) (hrank ▸ hk) hreach
  have hz : z ∈ L.found := h.queue_found z (h.mem_queue_of_record hr)
  -- both ends may be the same, or lie in one orbit of one matrix: paired marks allow for that
  have hedge : I.Edge m k z (p.apply k) := ⟨next, p, hmto, hp, hc, rfl⟩
  have hpk : p.apply k < z.rank := hc.pivot_lt.mpr (hmto.shape.rank_eq ▸ hk)
  have hcross := h.paired.cross hfound hz hedge ⟨next, hto⟩
  have hkeeps : Keeps Valid rules seed ⟨v', w.frontier, w.current, w.stats, w.token⟩ L.found :=
    h.of_sets hr hvalid hset rfl rfl
  have hagrees := h.agrees.mark hz hr (laws.recordOf h.valid hr) hpk hset
  refine ⟨z, p.apply k, hz, hedge, ?_,
    Keeps.closeEdge (L := L.mark I z (p.apply k)) laws hkeeps hagrees hqueue hk hcross⟩
  rw [h.agrees z hz _ hpk, hfresh]
  simp [hr, LinkRecord.isMarked]

/-- The edge at `k` of a matrix in the queue leads to a matrix that is stored. -/
theorem Tracks.reach (laws : StoreLaws I seed.rank Valid) (h : Tracks I Valid rules seed w L)
    (ht : w.token.NeverStops) (hcur : w.current = some m) (hk : k < m.rank)
    (hunmarked : ¬ L.marks m k) (hto : m.mutate? k = .ok next) {fresh : Bool} {v' : V}
    (hreach : Visited.reach w.visited next k = (some fresh, v')) :
    Advances I Valid rules seed w L
      (.going (Walk.closeEdge ⟨v', w.frontier, w.current, w.stats, w.token⟩ m k)) := by
  have hfound := h.queue_found m (by simp [queue, hcur])
  have hrank : m.rank = seed.rank := (h.shape hfound).rank_eq
  obtain ⟨z, j, -, -, -, htracks⟩ := h.met laws hcur hk hto hreach
  refine ⟨ht, _, htracks, fun _ hx => hx, ?_⟩
  have hcount : L.count seed.rank < (L.cross I m k z j).count seed.rank :=
    Ledger.count_lt_count_cross hfound (hrank ▸ hk) hunmarked
  exact Nat.add_lt_add_left hcount _

/-- A matrix that the store does not recognise was never found before. -/
theorem Tracks.not_same_of_reach (laws : StoreLaws I seed.rank Valid)
    (h : Tracks I Valid rules seed w L) (hm : m ∈ L.found) (hunmarked : ¬ L.marks m k)
    (hto : MutatesTo m k next) {v' : V} (hreach : Visited.reach w.visited next k = (none, v')) :
    ∀ z ∈ L.found, ¬ I.Same z next := by
  intro z hz hs
  obtain ⟨p, hp, hc⟩ := hs.symm
  have hrank : next.rank = seed.rank := hto.shape.rank_eq.trans (h.shape hm).rank_eq
  have hpk : p.apply k < z.rank := hc.pivot_lt.mpr (hto.shape.rank_eq ▸ hto.pivot)
  -- the far end is unmarked, so that `z` is still stored
  have hfar := h.paired.unmarked hm ⟨next, p, hto, hp, hc, rfl⟩ hunmarked
  rw [h.agrees z hz _ hpk] at hfar
  push Not at hfar
  obtain ⟨r, hr, -⟩ := hfar
  exact (laws.reach_none h.valid hrank hreach).2.2 z r hr ⟨p, hp, hc⟩

/-- A matrix that joins the found ones and the end of the queue. -/
theorem Keeps.push {found : List ExchangeMatrix} (h : Keeps Valid rules seed w found)
    (hnew : next ∉ found) (hreached : Reaches seed next)
    (hcert : rules.stopOnCertificate = true → next.certifiesInfinite = false)
    (hpass : ∃ v, Valid v ∧ (rules.isTarget v next).1 = false) {u : Walk V} {r : LinkRecord}
    (hvalid : Valid u.visited)
    (hset : ∀ y, Visited.record? u.visited y =
      if y = next then some r else Visited.record? w.visited y)
    (hqueue : u.queue = w.queue ++ [next])
    (hstats : u.stats.discovered = w.stats.discovered + 1) :
    Keeps Valid rules seed u (found ++ [next]) where
  valid := hvalid
  seed_found := List.mem_append_left _ h.seed_found
  reached x hx := by
    rcases List.mem_append.mp hx with hx | hx
    · exact h.reached x hx
    · exact List.mem_singleton.mp hx ▸ hreached
  uncertified hs x hx := by
    rcases List.mem_append.mp hx with hx | hx
    · exact h.uncertified hs x hx
    · exact List.mem_singleton.mp hx ▸ hcert hs
  passed x hx := by
    rcases List.mem_append.mp hx with hx | hx
    · exact h.passed x hx
    · exact List.mem_singleton.mp hx ▸ hpass
  queue_nodup := by
    rw [hqueue]
    refine List.nodup_append.mpr ⟨h.queue_nodup, List.nodup_singleton _, fun x hx y hy he => ?_⟩
    exact hnew (List.mem_singleton.mp hy ▸ he ▸ h.queue_found x hx)
  queue_found x hx := by
    rw [hqueue] at hx
    rcases List.mem_append.mp hx with hx | hx
    · exact List.mem_append_left _ (h.queue_found x hx)
    · exact List.mem_append_right _ hx
  stored x := by
    rw [hset x, hqueue, List.mem_append, List.mem_singleton]
    by_cases hx : x = next
    · simp [hx]
    · rw [if_neg hx, h.stored x]
      simp [hx]
  discovered := by
    rw [hstats, h.discovered]
    simp

/-- A matrix that was never found before joins the ledger and the queue. -/
theorem Tracks.insert (laws : StoreLaws I seed.rank Valid) (h : Tracks I Valid rules seed w L)
    (hm : m ∈ L.found) (hto : m.mutate? k = .ok next) (hnew : ∀ z ∈ L.found, ¬ I.Same z next)
    {v₁ : V} (hrec : ∀ y, Visited.record? v₁ y = Visited.record? w.visited y) (hvalid : Valid v₁)
    (hcert : rules.stopOnCertificate = true → next.certifiesInfinite = false)
    (hpass : ∃ v, Valid v ∧ (rules.isTarget v next).1 = false) {u : Walk V}
    (hvisited : u.visited = Visited.insert v₁ next (some k)) (hcur : u.current = w.current)
    (hfrontier : u.frontier = w.frontier.push next)
    (hstats : u.stats.discovered = w.stats.discovered + 1) :
    Keeps Valid rules seed u (L.add next).found ∧
      Agrees (Visited.record? u.visited) ((L.add next).mark I next k) := by
  have hmto := mutatesTo_of_mutate? hto
  have hrank : next.rank = seed.rank := hmto.shape.rank_eq.trans (h.shape hm).rank_eq
  have hnext : next ∉ L.found := fun hx => hnew next hx (.refl next)
  have hnone : Visited.record? v₁ next = none := by
    rw [hrec, ← Option.not_isSome_iff_eq_none, h.stored]
    exact fun hx => hnext (h.queue_found next hx)
  obtain ⟨r, hr, hempty, hvalid', hset⟩ := laws.insert (some k) hvalid hrank hnone
  have hset' : ∀ y, Visited.record? u.visited y =
      if y = next then some (r.markBack (some k)) else Visited.record? w.visited y := by
    intro y
    rw [hvisited, hset y, hrec]
  constructor
  · exact h.toKeeps.push hnext (.step (h.reached m hm) hto) hcert hpass (hvisited ▸ hvalid') hset'
      (by simp [queue, hcur, hfrontier]) hstats
  · -- the new record is a fresh one with the edge back marked
    have hfresh : Agrees (fun y => if y = next then some r else Visited.record? w.visited y)
        (L.add next) := h.agrees.add h.paired hnext hempty fun _ => rfl
    refine hfresh.mark (List.mem_append_right _ (List.mem_singleton_self _)) (by simp) hr
      (hmto.shape.rank_eq ▸ hmto.pivot) fun y => ?_
    rw [hset' y]
    by_cases hy : y = next
    · simp [hy, LinkRecord.markBack]
    · simp [hy]

omit [Visited V] in
/-- A matrix that is found and queued leaves the number of matrices taken up and given up alone. -/
theorem work_lt_of_push {w' : Walk V} {L' : Ledger} {n : Nat}
    (hle : w.queue.length ≤ L.found.length) (hcur : w'.current = w.current)
    (hfrontier : w'.frontier = w.frontier.push next)
    (hlen : L'.found.length = L.found.length + 1) (hcount : L.count n < L'.count n) :
    work w L n < work w' L' n := by
  simp only [work, queue, hcur, hfrontier, Frontier.toList_push, List.length_append,
    List.length_singleton, hlen] at hle ⊢
  omega

/-- Crossing an edge that leads to a matrix never found before stores the matrix and marks both ends
of the edge. -/
theorem Tracks.found (laws : StoreLaws I seed.rank Valid) (asks : AsksOnly Valid rules)
    (h : Tracks I Valid rules seed w L) (hcur : w.current = some m) (hk : k < m.rank)
    (hunmarked : ¬ L.marks m k) (hto : m.mutate? k = .ok next) {v v' : V}
    (hreach : Visited.reach w.visited next k = (none, v))
    (hask : rules.isTarget v next = (false, v'))
    (hcert : (rules.stopOnCertificate && next.certifiesInfinite) = false) :
    (∀ z ∈ L.found, ¬ I.Same z next) ∧
      Tracks I Valid rules seed
        (Walk.closeEdge ⟨Visited.insert v' next (some k), w.frontier.push next, w.current,
          { w.stats with discovered := w.stats.discovered + 1 }, w.token⟩ m k)
        ((L.add next).cross I m k next k) := by
  have hfound := h.queue_found m (by simp [queue, hcur])
  have hmto := mutatesTo_of_mutate? hto
  have hrank : m.rank = seed.rank := (h.shape hfound).rank_eq
  obtain ⟨hvalid, hrec, -⟩ := laws.reach_none h.valid (hmto.shape.rank_eq.trans hrank) hreach
  have hnew := h.not_same_of_reach laws hfound hunmarked hmto hreach
  obtain ⟨hvalid', hrec'⟩ := asks v next hvalid
  rw [hask] at hvalid' hrec'
  obtain ⟨hkeeps, hagrees⟩ := h.insert laws hfound hto hnew (fun y => (hrec' y).trans (hrec y))
    hvalid' (fun hs => by simpa [hs] using hcert) ⟨v, hvalid, by rw [hask]⟩
    (u := ⟨Visited.insert v' next (some k), w.frontier.push next, w.current,
      { w.stats with discovered := w.stats.discovered + 1 }, w.token⟩) rfl rfl rfl rfl
  -- the edge ends in `next` itself, at `k`
  have hcross := (h.paired.add hnew).cross (List.mem_append_left _ hfound)
    (List.mem_append_right _ (List.mem_singleton_self _)) (.of_mutatesTo hmto) ⟨next, hto⟩
  exact ⟨hnew, Keeps.closeEdge (L := (L.add next).mark I next k) laws hkeeps hagrees
    (by simp [queue, hcur]) hk hcross⟩

/-- The edge at `k` of a matrix in the queue leads to a matrix that is not stored. -/
theorem Tracks.discover (laws : StoreLaws I seed.rank Valid) (asks : AsksOnly Valid rules)
    (h : Tracks I Valid rules seed w L) (ht : w.token.NeverStops) (hcur : w.current = some m)
    (hk : k < m.rank) (hunmarked : ¬ L.marks m k) (hto : m.mutate? k = .ok next) {v' : V}
    (hreach : Visited.reach w.visited next k = (none, v')) :
    Advances I Valid rules seed w L
      (Walk.discover rules ⟨v', w.frontier, w.current, w.stats, w.token⟩ m k next) := by
  have hfound := h.queue_found m (by simp [queue, hcur])
  have hmto := mutatesTo_of_mutate? hto
  have hrank : m.rank = seed.rank := (h.shape hfound).rank_eq
  have hreached : Reaches seed next := .step (h.reached m hfound) hto
  obtain ⟨hvalid, -, -⟩ := laws.reach_none h.valid (hmto.shape.rank_eq.trans hrank) hreach
  rcases hask : rules.isTarget v' next with ⟨found, v''⟩
  cases found with
  | true =>
      simp only [Walk.discover, hask]
      exact ⟨next, v', hreached, hvalid, by rw [hask]⟩
  | false =>
      by_cases hstop : rules.stopOnCertificate && next.certifiesInfinite
      · simp only [Walk.discover, hask, hstop, if_true]
        rw [Bool.and_eq_true] at hstop
        exact ⟨hstop.1, next, hreached, hstop.2⟩
      · simp only [Walk.discover, hask, hstop, Bool.false_eq_true, if_false]
        obtain ⟨-, htracks⟩ := h.found laws asks hcur hk hunmarked hto hreach hask
          (Bool.eq_false_iff.mpr hstop)
        refine ⟨ht, _, htracks, List.subset_append_left _ _, ?_⟩
        have hcount : (L.add next).count seed.rank <
            ((L.add next).cross I m k next k).count seed.rank :=
          Ledger.count_lt_count_cross (List.mem_append_left _ hfound) (hrank ▸ hk) hunmarked
        exact work_lt_of_push h.queue_le rfl rfl (by simp [Ledger.add, Ledger.cross, Ledger.mark])
          ((L.count_le_count_add next seed.rank).trans_lt hcount)

theorem Tracks.crossEdge (laws : StoreLaws I seed.rank Valid) (asks : AsksOnly Valid rules)
    (h : Tracks I Valid rules seed w L) (ht : w.token.NeverStops) (hcur : w.current = some m)
    (hk : k < m.rank) (hunmarked : ¬ L.marks m k) :
    Advances I Valid rules seed w L (crossEdge rules w m k) := by
  have hfound : m ∈ L.found := h.queue_found m (by simp [queue, hcur])
  cases hto : m.mutate? k with
  | error e =>
      simp only [Walk.crossEdge, hto]
      obtain ⟨rfl, -⟩ := (mutate?_eq_error_iff hk).mp hto
      exact ⟨m, k, h.reached m hfound, hk, hto⟩
  | ok next =>
      rcases hreach : Visited.reach w.visited next k with ⟨answer, v'⟩
      cases answer with
      | none =>
          simp only [Walk.crossEdge, hto, hreach]
          exact h.discover laws asks ht hcur hk hunmarked hto hreach
      | some fresh =>
          simp only [Walk.crossEdge, hto, hreach]
          exact h.reach laws ht hcur hk hunmarked hto hreach

/-- The walk after it has counted an edge, with the token that is left after a poll or none. -/
def counting (w : Walk V) (token : Token) : Walk V :=
  { w with stats := { w.stats with exploredEdges := w.stats.exploredEdges + 1 }, token }

/-- The edge is counted; then the walk is stopped or crosses the edge. -/
theorem followEdge_cases (rules : WalkRules V) (w : Walk V) (m : ExchangeMatrix) (k : Nat) :
    (∃ token, followEdge rules w m k = .halted .cancelled (w.counting token)) ∨
      ∃ token, followEdge rules w m k = crossEdge rules (w.counting token) m k := by
  unfold Walk.followEdge
  dsimp only
  split
  · split
    · exact .inl ⟨_, rfl⟩
    · exact .inr ⟨_, rfl⟩
  · exact .inr ⟨_, rfl⟩

/-- A poll of a token that nobody stops lets the edge be crossed. -/
theorem followEdge_eq (ht : w.token.NeverStops) (rules : WalkRules V) (m : ExchangeMatrix)
    (k : Nat) :
    ∃ token : Token, token.NeverStops ∧
      followEdge rules w m k = crossEdge rules (w.counting token) m k := by
  unfold Walk.followEdge
  dsimp only
  split
  · simp only [ht.poll.1, Bool.false_eq_true, if_false]
    exact ⟨_, ht.poll.2, rfl⟩
  · exact ⟨_, ht, rfl⟩

/-- Counting an edge changes nothing that the ledger tracks. -/
theorem Tracks.counting (h : Tracks I Valid rules seed w L) (token : Token) :
    Tracks I Valid rules seed (w.counting token) L :=
  h.congr rfl rfl rfl

theorem Tracks.followEdge (laws : StoreLaws I seed.rank Valid) (asks : AsksOnly Valid rules)
    (h : Tracks I Valid rules seed w L) (ht : w.token.NeverStops) (hcur : w.current = some m)
    (hk : k < m.rank) (hunmarked : ¬ L.marks m k) :
    Advances I Valid rules seed w L (followEdge rules w m k) := by
  obtain ⟨token, ht', heq⟩ := followEdge_eq ht rules m k
  rw [heq]
  exact (h.counting token).crossEdge laws asks ht' hcur hk hunmarked

/-- The record and the ledger agree that the edge to be followed is unmarked. -/
theorem Tracks.unmarked_of_lowest (laws : StoreLaws I seed.rank Valid)
    (h : Tracks I Valid rules seed w L) (hcur : w.current = some m)
    (hsome : (Visited.record? w.visited m).bind LinkRecord.nextUnmarked? = some k) :
    m ∈ L.found ∧ k < m.rank ∧ ¬ L.marks m k := by
  obtain ⟨r, hr, hnext⟩ := Option.bind_eq_some_iff.mp hsome
  obtain ⟨hk, hfree⟩ := LinkRecord.nextUnmarked?_eq_some hnext
  have hm : m ∈ L.found := h.queue_found m (by simp [queue, hcur])
  rw [(laws.recordOf h.valid hr).size] at hk
  exact ⟨hm, hk, fun hmark => hfree ((h.agrees m hm k hk).mp hmark r hr)⟩

/-- **A step keeps the invariant and does some work, or halts the walk for a reason.** -/
theorem Tracks.step (laws : StoreLaws I seed.rank Valid) (asks : AsksOnly Valid rules)
    (h : Tracks I Valid rules seed w L) (ht : w.token.NeverStops) :
    Advances I Valid rules seed w L (step rules w) := by
  unfold Walk.step
  split
  · next hcur => exact h.takeUp hcur ht
  · next m hcur =>
    split
    · next hnone => exact h.giveUp laws ht hcur hnone
    · next k hsome =>
      obtain ⟨-, hk, hunmarked⟩ := h.unmarked_of_lowest laws hcur hsome
      exact h.followEdge laws asks ht hcur hk hunmarked

/-! ### Runs -/

/-- There is only so much work. -/
theorem Tracks.work_le (h : Tracks I Valid rules seed w L) :
    work w L seed.rank ≤ (seed.rank + 2) * 2 ^ (32 * (seed.rows * seed.cols)) := by
  have hlen : L.found.length ≤ 2 ^ (32 * (seed.rows * seed.cols)) :=
    length_le_of_nodup h.paired.nodup fun x hx => h.shape hx
  have hcount := L.count_le seed.rank
  calc work w L seed.rank ≤ (seed.rank + 2) * L.found.length := by
        rw [work, Nat.add_mul]
        omega
    _ ≤ _ := Nat.mul_le_mul_left _ hlen

/-- **A walk halts for a reason**, within as many steps as there is work left. -/
theorem Tracks.run (laws : StoreLaws I seed.rank Valid) (asks : AsksOnly Valid rules) (fuel : Nat)
    (h : Tracks I Valid rules seed w L) (ht : w.token.NeverStops)
    (hfuel : (seed.rank + 2) * 2 ^ (32 * (seed.rows * seed.cols)) <
      fuel + work w L seed.rank) :
    Justified I Valid rules seed (run rules fuel w).1 (run rules fuel w).2 := by
  induction fuel generalizing w L with
  | zero =>
      have := h.work_le
      omega
  | succ fuel ih =>
      have hstep := h.step laws asks ht
      unfold Walk.run
      cases hp : Walk.step rules w with
      | going w' =>
          rw [hp] at hstep
          obtain ⟨ht', L', h', -, hwork⟩ := hstep
          exact ih h' ht' (by omega)
      | halted halt w' =>
          rw [hp] at hstep
          exact hstep

/-- The walk that has found the seed alone is tracked. -/
theorem tracks_start (laws : StoreLaws I seed.rank Valid) {visited : V} (hvalid : Valid visited)
    (hempty : ∀ y, Visited.record? visited y = none)
    (hpass : ∃ v, Valid v ∧ (rules.isTarget v seed).1 = false)
    (hcert : rules.stopOnCertificate = true → seed.certifiesInfinite = false) (token : Token) :
    Tracks I Valid rules seed (start seed visited token) (.start seed) := by
  obtain ⟨r, -, hmarked, hvalid', hset⟩ := laws.insert none hvalid rfl (hempty seed)
  have hrecord : ∀ y, Visited.record? (start seed visited token).visited y =
      if y = seed then some r else none := fun y => by
    rw [show Visited.record? (start seed visited token).visited y = _ from hset y, hempty]
    rfl
  have hqueue : queue (start seed visited token) = [seed] := rfl
  refine ⟨⟨hvalid', List.mem_singleton_self _, fun x hx => ?_, fun hs x hx => ?_, fun x hx => ?_,
    List.nodup_singleton _, fun x hx => hx, fun x => ?_, rfl⟩, Ledger.paired_start seed,
    fun x hx k _ => ?_⟩
  · exact List.mem_singleton.mp hx ▸ .refl seed
  · exact List.mem_singleton.mp hx ▸ hcert hs
  · exact List.mem_singleton.mp hx ▸ hpass
  · rw [hrecord, hqueue, List.mem_singleton]
    by_cases hx : x = seed <;> simp [hx]
  · rw [hrecord, List.mem_singleton.mp hx]
    simp [Ledger.start, hmarked]

end Walk

end MutationFinite
