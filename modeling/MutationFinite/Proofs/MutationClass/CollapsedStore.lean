import MutationFinite.Proofs.Equivalence.Oracle
import MutationFinite.Proofs.MutationClass.Store

/-!
# The store of matrices up to relabelling

Slots lie in buckets by fingerprint, and a bucket has one slot for each of its representatives.

* `recordIn`: the record that a list of slots holds for a representative.
* `Bucket`: what the slots of one fingerprint satisfy.
* `CollapsedVisited.Valid`: the invariant of the store.
* `collapsedLaws`: the store keeps the contract.
-/

namespace MutationFinite

open ExchangeMatrix

namespace CollapsedVisited

/-! ### Slots -/

/-- The record of representative `m` among the slots. -/
def recordIn (slots : List Slot) (m : ExchangeMatrix) : Option LinkRecord :=
  (slots.find? fun slot => slot.representative = m).map Slot.links

/-- Slots with the fingerprint `key`: their representatives are different, and their records are
records of them. -/
structure Bucket (key : Fingerprint) (slots : List Slot) : Prop where
  different : (slots.map Slot.representative).Nodup
  keyed : ∀ slot ∈ slots, Fingerprint.of slot.representative = key
  records : ∀ slot ∈ slots, RecordOf .relabelling slot.representative slot.links

variable {slots slots' rest : List Slot} {slot : Slot} {m x y : ExchangeMatrix} {r : LinkRecord}
  {key : Fingerprint} {k : Nat}

@[simp] theorem recordIn_nil (m : ExchangeMatrix) : recordIn [] m = none := rfl

theorem recordIn_cons (slot : Slot) (rest : List Slot) (m : ExchangeMatrix) :
    recordIn (slot :: rest) m =
      if m = slot.representative then some slot.links else recordIn rest m := by
  by_cases h : slot.representative = m
  · simp [recordIn, h]
  · rw [if_neg (Ne.symm h)]
    simp [recordIn, h]

theorem mem_of_recordIn (h : recordIn slots m = some r) : ⟨m, r⟩ ∈ slots := by
  obtain ⟨slot, hslot, rfl⟩ := Option.map_eq_some_iff.mp h
  have hm : slot.representative = m := by simpa using List.find?_some hslot
  exact hm ▸ List.mem_of_find?_eq_some hslot

theorem recordIn_eq_some_iff (hd : (slots.map Slot.representative).Nodup) :
    recordIn slots m = some r ↔ ⟨m, r⟩ ∈ slots := by
  refine ⟨mem_of_recordIn, fun h => ?_⟩
  induction slots with
  | nil => cases h
  | cons slot rest ih =>
      rw [List.map_cons, List.nodup_cons] at hd
      rw [recordIn_cons]
      rcases List.mem_cons.mp h with rfl | h
      · exact if_pos rfl
      · have hm : m ≠ slot.representative := fun he => hd.1 (he ▸ List.mem_map_of_mem h)
        rw [if_neg hm]
        exact ih hd.2 h

theorem recordIn_eq_none_iff : recordIn slots m = none ↔ m ∉ slots.map Slot.representative := by
  rw [recordIn, Option.map_eq_none_iff, List.find?_eq_none]
  simp

theorem recordIn_append_singleton (hm : recordIn slots m = none) :
    recordIn (slots ++ [⟨m, r⟩]) y = if y = m then some r else recordIn slots y := by
  induction slots with
  | nil => rw [List.nil_append, recordIn_cons]
  | cons slot rest ih =>
      rw [recordIn_cons] at hm
      split at hm
      · cases hm
      · next hne =>
        rw [List.cons_append, recordIn_cons, recordIn_cons, ih hm]
        by_cases hy : y = m
        · subst hy
          rw [if_neg hne, if_pos rfl, if_pos rfl]
        · rw [if_neg hy, if_neg hy]

/-- The slots with the record of `m` changed. -/
theorem Bucket.replace (h : Bucket key slots)
    (hreps : slots'.map Slot.representative = slots.map Slot.representative)
    {r' : LinkRecord} (hr' : RecordOf .relabelling x r')
    (hrec : ∀ y, recordIn slots' y = if y = x then some r' else recordIn slots y) :
    Bucket key slots' := by
  have hd : (slots'.map Slot.representative).Nodup := hreps ▸ h.different
  refine ⟨hd, fun slot hslot => ?_, fun slot hslot => ?_⟩
  · have hmem : slot.representative ∈ slots.map Slot.representative :=
      hreps ▸ List.mem_map_of_mem hslot
    obtain ⟨old, hold, he⟩ := List.mem_map.mp hmem
    exact he ▸ h.keyed old hold
  · have hslot' := (recordIn_eq_some_iff hd).mpr hslot
    rw [hrec] at hslot'
    split at hslot'
    · next he => exact he ▸ Option.some.inj hslot' ▸ hr'
    · exact h.records _ (mem_of_recordIn hslot')

theorem Bucket.append (h : Bucket key slots) (hm : recordIn slots m = none)
    (hkey : Fingerprint.of m = key) (hr : RecordOf .relabelling m r) :
    Bucket key (slots ++ [⟨m, r⟩]) := by
  refine ⟨?_, fun slot hslot => ?_, fun slot hslot => ?_⟩
  · rw [List.map_append, List.map_singleton]
    refine List.nodup_append.mpr ⟨h.different, List.nodup_singleton _, fun x hx y hy he => ?_⟩
    obtain rfl : x = m := he.trans (List.mem_singleton.mp hy)
    exact recordIn_eq_none_iff.mp hm hx
  · rcases List.mem_append.mp hslot with hslot | hslot
    · exact h.keyed slot hslot
    · exact List.mem_singleton.mp hslot ▸ hkey
  · rcases List.mem_append.mp hslot with hslot | hslot
    · exact h.records slot hslot
    · exact List.mem_singleton.mp hslot ▸ hr

theorem Bucket.nil (key : Fingerprint) : Bucket key [] :=
  ⟨List.nodup_nil, nofun, nofun⟩

/-! ### Marking -/

theorem map_representative_markSlot (m : ExchangeMatrix) (k : Nat) (slots : List Slot) :
    (markSlot m k slots).map Slot.representative = slots.map Slot.representative := by
  induction slots with
  | nil => rfl
  | cons slot rest ih =>
      rw [markSlot]
      split
      · next h => rw [List.map_cons, List.map_cons, h]
      · rw [List.map_cons, List.map_cons, ih]

theorem recordIn_markSlot (hm : recordIn slots m = some r) :
    recordIn (markSlot m k slots) y = if y = m then some (r.mark k).2 else recordIn slots y := by
  induction slots with
  | nil => cases hm
  | cons slot rest ih =>
      rw [recordIn_cons] at hm
      rw [markSlot, recordIn_cons]
      by_cases hslot : slot.representative = m
      · rw [if_pos hslot.symm] at hm
        rw [if_pos hslot, recordIn_cons, ← hslot, ← Option.some.inj hm]
        split <;> rfl
      · rw [if_neg (Ne.symm hslot)] at hm
        rw [if_neg hslot, recordIn_cons, ih hm]
        by_cases hy : y = m
        · subst hy
          rw [if_neg (Ne.symm hslot), if_pos rfl, if_pos rfl]
        · rw [if_neg hy, if_neg hy]

/-! ### Removing -/

/-- The slots that are left are those of the other representatives, in some order. -/
theorem removeSlot_perm (hd : (slots.map Slot.representative).Nodup)
    (hm : slot ∈ slots) (he : slot.representative = m) :
    (removeSlot m slots).Perm (slots.filter fun s => s.representative ≠ m) := by
  obtain ⟨before, after, rfl⟩ := List.append_of_mem hm
  have hothers : ∀ s ∈ before ++ after, s.representative ≠ m := by
    intro s hs hsm
    rw [List.map_append, List.map_cons, List.nodup_middle, List.nodup_cons, ← List.map_append] at hd
    exact hd.1 (he.trans hsm.symm ▸ List.mem_map_of_mem hs)
  have hbefore : ∀ s ∈ before, decide (s.representative ≠ m) = true := fun s hs =>
    decide_eq_true (hothers s (List.mem_append_left _ hs))
  have hafter : ∀ s ∈ after, decide (s.representative ≠ m) = true := fun s hs =>
    decide_eq_true (hothers s (List.mem_append_right _ hs))
  have htake : ((before ++ slot :: after).takeWhile fun s => s.representative ≠ m) = before := by
    rw [List.takeWhile_append_of_pos hbefore, List.takeWhile_cons_of_neg (by simp [he]),
      List.append_nil]
  have hfilter : ((before ++ slot :: after).filter fun s => s.representative ≠ m) =
      before ++ after := by
    rw [List.filter_append, List.filter_cons_of_neg (by simp [he]),
      List.filter_eq_self.mpr hbefore, List.filter_eq_self.mpr hafter]
  rw [hfilter]
  -- the last slot takes the place of the removed one
  simp only [removeSlot, htake, List.drop_left]
  cases after with
  | nil => simp
  | cons next rest =>
      refine List.Perm.append_left before ?_
      have hlast := List.dropLast_concat_getLast (List.cons_ne_nil next rest)
      exact (List.perm_append_singleton _ _).symm.trans (.of_eq hlast)

theorem Bucket.remove (h : Bucket key slots) (hm : recordIn slots m = some r) :
    Bucket key (removeSlot m slots) ∧
      ∀ y, recordIn (removeSlot m slots) y = if y = m then none else recordIn slots y := by
  have hperm := removeSlot_perm h.different (mem_of_recordIn hm) rfl
  have hmem : ∀ s, s ∈ removeSlot m slots ↔ s ∈ slots ∧ s.representative ≠ m := fun s => by
    rw [hperm.mem_iff, List.mem_filter, decide_eq_true_eq]
  have hd : ((removeSlot m slots).map Slot.representative).Nodup :=
    (hperm.map _).nodup_iff.mpr (h.different.sublist (List.filter_sublist.map _))
  refine ⟨⟨hd, fun s hs => h.keyed s ((hmem s).mp hs).1,
    fun s hs => h.records s ((hmem s).mp hs).1⟩, fun y => Option.ext fun q => ?_⟩
  rw [recordIn_eq_some_iff hd, hmem]
  by_cases hy : y = m
  · simp [hy]
  · rw [if_neg hy, recordIn_eq_some_iff h.different]
    exact and_iff_left hy

/-! ### Reaching -/

/-- A bucket recognises the matrices that its representatives are equivalent to, and marks the image
of the vertex in the one that it recognises. -/
theorem reachSlots_spec {n : Nat} {oracle : Oracle} (ho : oracle.Serves n) (hm : m.rank = n)
    (hd : (slots.map Slot.representative).Nodup) :
    (reachSlots oracle m k slots).2.2.Serves n ∧
      match (reachSlots oracle m k slots).1 with
      | none => (reachSlots oracle m k slots).2.1 = slots ∧
          ∀ slot ∈ slots, ∀ p, ¬ Carries p m slot.representative
      | some fresh => ∃ slot p, slot ∈ slots ∧ Carries p m slot.representative ∧
          fresh = !slot.links.isMarked (p.apply k) ∧
          (reachSlots oracle m k slots).2.1 = markSlot slot.representative (p.apply k) slots := by
  induction slots generalizing oracle with
  | nil => exact ⟨ho, rfl, nofun⟩
  | cons slot rest ih =>
      obtain ⟨hanswer, ho'⟩ := Oracle.witness_isAnswer (b := slot.representative) ho hm
      rw [List.map_cons, List.nodup_cons] at hd
      rcases hw : oracle.witness m slot.representative with ⟨found, oracle'⟩
      rw [hw] at hanswer ho'
      cases found with
      | some p =>
          simp only [reachSlots, hw]
          refine ⟨ho', slot, p, List.mem_cons_self, hanswer, rfl, ?_⟩
          rw [markSlot, if_pos rfl]
      | none =>
          obtain ⟨hserves, hrest⟩ := ih ho' hd.2
          simp only [reachSlots, hw]
          refine ⟨hserves, ?_⟩
          cases hr : (reachSlots oracle' m k rest).1 with
          | none =>
              rw [hr] at hrest
              refine ⟨by rw [hrest.1], fun s hs => ?_⟩
              rcases List.mem_cons.mp hs with rfl | hs
              · exact hanswer
              · exact hrest.2 s hs
          | some fresh =>
              rw [hr] at hrest
              obtain ⟨s, p, hs, hc, hfresh, hmark⟩ := hrest
              have hne : slot.representative ≠ s.representative := fun he =>
                hd.1 (he ▸ List.mem_map_of_mem hs)
              refine ⟨s, p, List.mem_cons_of_mem _ hs, hc, hfresh, ?_⟩
              rw [hmark, markSlot, if_neg hne]

/-! ### The invariant -/

/-- The store holds records of matrices of rank `n`, in buckets by fingerprint. -/
structure Valid (n : Nat) (v : CollapsedVisited) : Prop where
  rank : v.rank = n
  oracle : v.oracle.Serves n
  buckets : ∀ key, Bucket key (v.buckets.getD key [])

theorem record?_eq (v : CollapsedVisited) (m : ExchangeMatrix) :
    Visited.record? v m = recordIn (v.buckets.getD (Fingerprint.of m) []) m := rfl

theorem valid_new {n : Nat} {oracle : Oracle} (ho : oracle.Serves n) : Valid n (.new n oracle) :=
  ⟨rfl, ho, fun key => by simpa [new] using Bucket.nil key⟩

theorem record?_new (n : Nat) (oracle : Oracle) (m : ExchangeMatrix) :
    Visited.record? (new n oracle) m = none := by
  simp [record?_eq, new]

section Buckets

variable {n rank size : Nat} {oracle : Oracle} {v v' : CollapsedVisited}

/-- What changes when one bucket does. -/
theorem Valid.setBucket (h : Valid n v) {newRecord : Option LinkRecord}
    (hrank : v'.rank = v.rank) (ho : v'.oracle.Serves n) (hb : Bucket (Fingerprint.of x) slots')
    (hbuckets : ∀ key, v'.buckets.getD key [] =
      if key = Fingerprint.of x then slots' else v.buckets.getD key [])
    (hrec : ∀ y, recordIn slots' y =
      if y = x then newRecord else recordIn (v.buckets.getD (Fingerprint.of x) []) y) :
    Valid n v' ∧ Sets v v' x newRecord := by
  refine ⟨⟨hrank.trans h.rank, ho, fun key => ?_⟩, fun y => ?_⟩
  · rw [hbuckets]
    split
    · next he => exact he ▸ hb
    · exact h.buckets key
  · rw [record?_eq, record?_eq, hbuckets]
    by_cases hkey : Fingerprint.of y = Fingerprint.of x
    · rw [if_pos hkey, hrec, hkey]
    · rw [if_neg hkey, if_neg fun he => hkey (congrArg _ he)]

theorem getD_insert (buckets : Std.HashMap Fingerprint (List Slot)) (key key' : Fingerprint)
    (slots : List Slot) :
    (buckets.insert key slots).getD key' [] =
      if key' = key then slots else buckets.getD key' [] := by
  rw [Std.HashMap.getD_insert]
  exact if_congr (beq_iff_eq.trans eq_comm) rfl rfl

theorem getD_erase (buckets : Std.HashMap Fingerprint (List Slot)) (key key' : Fingerprint) :
    (buckets.erase key).getD key' [] = if key' = key then [] else buckets.getD key' [] := by
  rw [Std.HashMap.getD_erase]
  exact if_congr (beq_iff_eq.trans eq_comm) rfl rfl

theorem getD_of_getElem? {buckets : Std.HashMap Fingerprint (List Slot)}
    (h : buckets[key]? = some slots) : buckets.getD key [] = slots := by
  rw [Std.HashMap.getD_eq_getD_getElem?, h, Option.getD_some]

/-- A stored matrix has a bucket. -/
theorem exists_bucket (hr : Visited.record? v m = some r) :
    ∃ slots, v.buckets[Fingerprint.of m]? = some slots ∧ recordIn slots m = some r := by
  rw [record?_eq, Std.HashMap.getD_eq_getD_getElem?] at hr
  cases h : v.buckets[Fingerprint.of m]? with
  | none =>
      rw [h] at hr
      cases hr
  | some slots =>
      rw [h] at hr
      exact ⟨slots, rfl, hr⟩

/-- The matrices of the other buckets are not equivalent to `m`. -/
theorem not_same_of_forall (h : ∀ slot ∈ v.buckets.getD (Fingerprint.of m) [],
    ∀ p, ¬ Carries p m slot.representative) {z : ExchangeMatrix}
    (hz : Visited.record? v z = some r) :
    ¬ Identification.relabelling.Same m z := by
  rintro ⟨p, -, hc⟩
  rw [record?_eq, ← hc.fingerprint_eq] at hz
  exact h _ (mem_of_recordIn hz) p hc

/-- The slots of a bucket of a valid store. -/
theorem Valid.bucket (h : Valid n v) (hslots : v.buckets[key]? = some slots) :
    Bucket key slots :=
  getD_of_getElem? hslots ▸ h.buckets key

end Buckets

/-! ### The contract, operation by operation -/

section Laws

variable {n k : Nat} {v v' : CollapsedVisited} {m : ExchangeMatrix} {r : LinkRecord}

theorem reach_none (h : Valid n v) (hm : m.rank = n) (hreach : Visited.reach v m k = (none, v')) :
    Valid n v' ∧ (∀ y, Visited.record? v' y = Visited.record? v y) ∧
      ∀ z r, Visited.record? v z = some r → ¬ Identification.relabelling.Same m z := by
  obtain ⟨rank, oracle, buckets, size⟩ := v
  simp only [Visited.reach] at hreach
  split at hreach
  · next hnone =>
    cases hreach
    refine ⟨h, fun _ => rfl, fun z r hz => not_same_of_forall (fun slot hslot => ?_) hz⟩
    rw [Std.HashMap.getD_eq_getD_getElem?, hnone] at hslot
    cases hslot
  · next slots hslots =>
    have hget := getD_of_getElem? hslots
    obtain ⟨hserves, hspec⟩ := reachSlots_spec (k := k) h.oracle hm (h.bucket hslots).different
    rcases hr : reachSlots oracle m k slots with ⟨answer, slots', oracle'⟩
    rw [hr] at hreach hserves hspec
    cases hreach
    obtain ⟨hsame, hnot⟩ := hspec
    obtain rfl : slots' = slots := hsame
    -- the bucket is written back as it was, and the oracle has learned
    have hbuckets : ∀ key, (buckets.insert (Fingerprint.of m) slots').getD key [] =
        buckets.getD key [] := by
      intro key
      rw [getD_insert]
      split
      · next he => rw [he, hget]
      · rfl
    refine ⟨⟨h.rank, hserves, fun key => hbuckets key ▸ h.buckets key⟩, fun y => ?_,
      fun z r hz => not_same_of_forall (hget ▸ hnot) hz⟩
    rw [record?_eq, record?_eq, hbuckets]

theorem reach_some {fresh : Bool} (h : Valid n v) (hm : m.rank = n)
    (hreach : Visited.reach v m k = (some fresh, v')) :
    ∃ z r p, Visited.record? v z = some r ∧ Identification.relabelling.admits p ∧ Carries p m z ∧
      fresh = !r.isMarked (p.apply k) ∧ Valid n v' ∧ Sets v v' z (some (r.mark (p.apply k)).2) := by
  obtain ⟨rank, oracle, buckets, size⟩ := v
  simp only [Visited.reach] at hreach
  split at hreach
  · cases hreach
  · next slots hslots =>
    have hget := getD_of_getElem? hslots
    have hb : Bucket (Fingerprint.of m) slots := h.bucket hslots
    obtain ⟨hserves, hspec⟩ := reachSlots_spec (k := k) h.oracle hm hb.different
    rcases hr : reachSlots oracle m k slots with ⟨answer, slots', oracle'⟩
    rw [hr] at hreach hserves hspec
    cases hreach
    obtain ⟨slot, p, hslot, hc, hfresh, rfl⟩ := hspec
    -- the representative lies in the bucket of `m`, for it has the same fingerprint
    have hkey := hc.fingerprint_eq
    have hrecord := (recordIn_eq_some_iff hb.different).mpr hslot
    have hset := fun y => recordIn_markSlot (k := p.apply k) (y := y) hrecord
    have hb' := hb.replace (map_representative_markSlot _ _ _)
      ((hb.records slot hslot).mark (p.apply k)) hset
    rw [hkey] at hget hb'
    refine ⟨slot.representative, slot.links, p, ?_, trivial, hc, hfresh,
      h.setBucket rfl hserves hb' (fun key => ?_) (hget ▸ hset)⟩
    · rw [record?_eq, hget]
      exact hrecord
    · rw [hkey]
      exact getD_insert _ _ _ _

/-- A new record has the orbits of the automorphisms. -/
theorem recordOf_withOrbits (m : ExchangeMatrix) :
    RecordOf .relabelling m (.withOrbits m.rank m.automorphismOrbits) := by
  refine ⟨rfl, fun k hk w => ?_⟩
  obtain ⟨orbit, horbit, hmem⟩ := mem_automorphismOrbits (w := w) hk
  simp [LinkRecord.orbit, LinkRecord.withOrbits, horbit, hmem]

theorem insert (back : Option Nat) (h : Valid n v) (hm : m.rank = n)
    (hnone : Visited.record? v m = none) :
    ∃ r, RecordOf .relabelling m r ∧ r.marked = ∅ ∧ Valid n (Visited.insert v m back) ∧
      Sets v (Visited.insert v m back) m (some (r.markBack back)) := by
  obtain ⟨rank, oracle, buckets, size⟩ := v
  obtain rfl : rank = m.rank := h.rank.trans hm.symm
  have hr := recordOf_withOrbits m
  refine ⟨_, hr, rfl, h.setBucket rfl h.oracle ?_ (fun key => getD_insert _ _ _ _) fun y => ?_⟩
  · exact (h.buckets _).append hnone rfl (hr.markBack back)
  · exact recordIn_append_singleton hnone

theorem mark (k : Nat) (h : Valid n v) (hr : Visited.record? v m = some r) :
    Valid n (Visited.mark v m k) ∧ Sets v (Visited.mark v m k) m (some (r.mark k).2) := by
  obtain ⟨rank, oracle, buckets, size⟩ := v
  obtain ⟨slots, hslots, hrecord⟩ := exists_bucket hr
  have hslots' : buckets[Fingerprint.of m]? = some slots := hslots
  have hget := getD_of_getElem? hslots'
  have hb : Bucket (Fingerprint.of m) slots := h.bucket hslots
  have hset := fun y => recordIn_markSlot (k := k) (y := y) hrecord
  simp only [Visited.mark, hslots']
  refine h.setBucket rfl h.oracle ?_ (fun key => getD_insert _ _ _ _) (hget ▸ hset)
  exact hb.replace (map_representative_markSlot _ _ _)
    ((hb.records _ (mem_of_recordIn hrecord)).mark k) hset

theorem remove (h : Valid n v) (hr : Visited.record? v m = some r) :
    (Visited.remove v m).1 = true ∧ Valid n (Visited.remove v m).2 ∧
      Sets v (Visited.remove v m).2 m none := by
  obtain ⟨rank, oracle, buckets, size⟩ := v
  obtain ⟨slots, hslots, hrecord⟩ := exists_bucket hr
  have hslots' : buckets[Fingerprint.of m]? = some slots := hslots
  have hget := getD_of_getElem? hslots'
  obtain ⟨hb, hset⟩ := (h.bucket hslots).remove hrecord
  have hany : (slots.any fun slot => slot.representative = m) = true :=
    List.any_eq_true.mpr ⟨_, mem_of_recordIn hrecord, by simp⟩
  simp only [Visited.remove, hslots', hany, if_true]
  -- a bucket that is left empty is erased
  cases hleft : removeSlot m slots with
  | nil =>
      rw [hleft] at hb hset
      exact ⟨rfl, h.setBucket rfl h.oracle hb (fun key => getD_erase _ _ _) (hget ▸ hset)⟩
  | cons slot rest =>
      rw [hleft] at hb hset
      exact ⟨rfl, h.setBucket rfl h.oracle hb (fun key => getD_insert _ _ _ _) (hget ▸ hset)⟩

end Laws

end CollapsedVisited

/-- **The store of matrices up to relabelling keeps the contract.** -/
theorem collapsedLaws (n : Nat) :
    StoreLaws (V := CollapsedVisited) .relabelling n (CollapsedVisited.Valid n) where
  recordOf h hr := (h.buckets _).records _ (CollapsedVisited.mem_of_recordIn hr)
  reach_none := CollapsedVisited.reach_none
  reach_some h hm _ hreach := CollapsedVisited.reach_some h hm hreach
  insert := CollapsedVisited.insert
  mark := CollapsedVisited.mark
  remove := CollapsedVisited.remove

end MutationFinite
