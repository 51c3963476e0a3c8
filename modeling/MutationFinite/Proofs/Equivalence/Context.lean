import MutationFinite.Equivalence.Context
import MutationFinite.Proofs.Equivalence.Oracle
import Mathlib.Algebra.Order.BigOperators.Group.Finset
import Mathlib.Data.List.Dedup

/-!
# The checkers that a context holds

A context keeps its checkers in a map, their ranks in a list by last use, and their total weight in
a counter.  The three are changed one after another, and agree after every call.

* `PermutationSet.weight`, `weight?_eq_asWord?`: what a checker weighs; a weight is a 64-bit word
  for at most 18 points, and all of these together weigh less than one.
* `EquivalenceContext.Accounted`: map, list and counter agree.
* `ShortestEviction`: the ranks that are given up are the shortest part at the front of the list
  without which the rest is within the limit.
* `EquivalenceContext.acquire?`: the call with sums and differences that must be 64-bit words.
* `Accounted.hold`, `Accounted.evict`, `Accounted.trim`: what the parts of a call do.
* `EquivalenceContext.call_afterCalls`: what holds after any calls.
-/

namespace MutationFinite

/-! ### Weights -/

namespace PermutationSet

/-- What the permutations of `n` points weigh. -/
def weight (n : Nat) : Nat := factorial n * (n * n)

theorem weight_mono {m n : Nat} (h : m ≤ n) : weight m ≤ weight n :=
  Nat.mul_le_mul (factorial_mono h) (Nat.mul_le_mul h h)

/-- The weights that are 64-bit words. -/
theorem weight_lt_iff {n : Nat} : weight n < UInt64.size ↔ n ≤ 18 := by
  constructor
  · intro h
    by_contra hn
    have hmono : weight 19 ≤ weight n := weight_mono (by omega)
    have : UInt64.size ≤ weight 19 := by decide
    omega
  · intro h
    have hmono : weight n ≤ weight 18 := weight_mono h
    have : weight 18 < UInt64.size := by decide
    omega

theorem weight?_eq_asWord? (n : Nat) : weight? n = asWord? (weight n) := by
  unfold weight? factorial?
  split
  · rfl
  · next hn =>
    have : ¬ weight n < UInt64.size := fun h => hn (by have := weight_lt_iff.mp h; omega)
    rw [asWord?, if_neg this]
    rfl

theorem weight?_of_le {n : Nat} (h : n ≤ 18) : weight? n = some (weight n) := by
  rw [weight?_eq_asWord?, asWord?, if_pos (weight_lt_iff.mpr h)]

theorem weight?_of_lt {n : Nat} (h : 18 < n) : weight? n = none := by
  rw [weight?_eq_asWord?, asWord?, if_neg fun hlt => by have := weight_lt_iff.mp hlt; omega]

end PermutationSet

/-- What checkers of the ranks `ns` weigh together. -/
def weightOf (ns : List Nat) : Nat := (ns.map PermutationSet.weight).sum

@[simp] theorem weightOf_nil : weightOf [] = 0 := rfl

@[simp] theorem weightOf_cons (n : Nat) (ns : List Nat) :
    weightOf (n :: ns) = PermutationSet.weight n + weightOf ns := by
  simp [weightOf]

@[simp] theorem weightOf_append (ms ns : List Nat) :
    weightOf (ms ++ ns) = weightOf ms + weightOf ns := by
  simp [weightOf]

theorem weightOf_erase {n : Nat} {ns : List Nat} (h : n ∈ ns) :
    weightOf ns = PermutationSet.weight n + weightOf (ns.erase n) := by
  rw [← weightOf_cons]
  exact ((List.perm_cons_erase h).map _).sum_nat

/-- Different ranks whose weights are words weigh less than 2⁶⁴ together. -/
theorem weightOf_lt {ns : List Nat} (hd : ns.Nodup) (h : ∀ n ∈ ns, n ≤ 18) :
    weightOf ns < UInt64.size := by
  have hsub : ns.toFinset ⊆ (List.range 19).toFinset := by
    intro n hn
    simpa [Nat.lt_succ_iff] using h n (List.mem_toFinset.mp hn)
  calc weightOf ns = ∑ n ∈ ns.toFinset, PermutationSet.weight n := (List.sum_toFinset _ hd).symm
    _ ≤ ∑ n ∈ (List.range 19).toFinset, PermutationSet.weight n :=
        Finset.sum_le_sum_of_subset hsub
    _ = weightOf (List.range 19) := List.sum_toFinset _ List.nodup_range
    _ < UInt64.size := by decide

/-- Without `evicted`, and with no shorter part at the front left out, the ranks `older` and after
them `n` weigh no more than `limit`; `kept` is what is left of `older`. -/
structure ShortestEviction (limit : Nat) (older : List Nat) (n : Nat) (evicted kept : List Nat) :
    Prop where
  split : older = evicted ++ kept
  within : weightOf (kept ++ [n]) ≤ limit
  shortest : ∀ i < evicted.length, limit < weightOf (older.drop i ++ [n])

/-- Nothing is given up when all ranks are within the limit. -/
theorem ShortestEviction.eq_nil {limit n : Nat} {older evicted kept : List Nat}
    (h : ShortestEviction limit older n evicted kept) (hle : weightOf (older ++ [n]) ≤ limit) :
    evicted = [] ∧ kept = older := by
  cases evicted with
  | nil => exact ⟨rfl, h.split.symm⟩
  | cons victim evicted => exact absurd hle (Nat.not_le.mpr (h.shortest 0 (Nat.succ_pos _)))

namespace EquivalenceContext

variable {x : EquivalenceContext} {n victim : Nat} {older rest : List Nat}

/-! ### Calls -/

/-- Asks for the checker of rank `n`. -/
def call (x : EquivalenceContext) (n : Nat) :
    Except Error EquivalenceChecker × EquivalenceContext :=
  x.withChecker n fun c => (c, c)

/-- The context after the checkers of the ranks `calls` are asked for, one after another. -/
def afterCalls (x : EquivalenceContext) (calls : List Nat) : EquivalenceContext :=
  calls.foldl (fun x n => (x.call n).2) x

/-- The checker of rank `n` may be held: its weight is a 64-bit word within the limit. -/
def fits (limit n : Nat) : Bool := n ≤ 18 && PermutationSet.weight n ≤ limit

/-! ### Calls in 64-bit arithmetic -/

/-- `hold`, if the sum that it forms is a 64-bit word. -/
def hold? (x : EquivalenceContext) (n weight : Nat) : Option EquivalenceContext :=
  if n ∈ x.checkers then some (x.hold n weight)
  else (asWord? (x.totalWeight + weight)).map fun totalWeight =>
    { x.putChecker (.new n x.config.maxCachedPairs) with
      recency := x.recency.erase n ++ [n]
      totalWeight }

/-- `trim`, if no difference that it forms is negative. -/
def trim? (x : EquivalenceContext) : Option EquivalenceContext :=
  match _h : x.recency with
  | victim :: next :: rest =>
    if x.config.maxInstanceWeight < x.totalWeight then
      let weight := (PermutationSet.weight? victim).getD 0
      if weight ≤ x.totalWeight then
        trim? { x.drop victim with
          recency := next :: rest
          totalWeight := x.totalWeight - weight }
      else none
    else some x
  | _ => some x
termination_by x.recency.length
decreasing_by simp [_h]

/-- `acquire`, if all sums and differences that it forms are 64-bit words. -/
def acquire? (x : EquivalenceContext) (n : Nat) : Option (Except Error EquivalenceContext) :=
  let limit := x.config.maxInstanceWeight
  match PermutationSet.weight? n with
  | none => some (.error (.permutationSetTooLarge n (UInt64.size - 1) limit))
  | some weight =>
    if weight ≤ limit then ((x.hold? n weight).bind trim?).map .ok
    else some (.error (.permutationSetTooLarge n weight limit))

/-! ### The accounts -/

/-- The list names the ranks of the map, each once, and the counter is their weight. -/
structure Accounted (x : EquivalenceContext) : Prop where
  nodup : x.recency.Nodup
  mem_checkers : ∀ k, k ∈ x.checkers ↔ k ∈ x.recency
  le_of_mem : ∀ k ∈ x.recency, k ≤ 18
  totalWeight : x.totalWeight = weightOf x.recency

theorem accounted_new (config : EquivalenceConfig) : (new config).Accounted :=
  ⟨List.nodup_nil, by simp [new], nofun, rfl⟩

/-- Putting back a checker that is held changes no account. -/
theorem Accounted.putChecker (h : x.Accounted) {c : EquivalenceChecker}
    (hc : c.degree ∈ x.recency) : (x.putChecker c).Accounted := by
  refine ⟨h.nodup, fun k => ?_, h.le_of_mem, h.totalWeight⟩
  show k ∈ x.checkers.insert c.degree c ↔ k ∈ x.recency
  rw [Std.HashMap.mem_insert, beq_iff_eq, h.mem_checkers, or_iff_right_of_imp]
  rintro rfl
  exact hc

theorem recency_hold (x : EquivalenceContext) (n weight : Nat) :
    (x.hold n weight).recency = x.recency.erase n ++ [n] := by
  unfold hold
  split <;> rfl

theorem config_hold (x : EquivalenceContext) (n weight : Nat) :
    (x.hold n weight).config = x.config := by
  unfold hold
  split <;> rfl

theorem nodup_erase_append (h : x.Accounted) : (x.recency.erase n ++ [n]).Nodup := by
  refine List.nodup_append.mpr ⟨h.nodup.erase n, List.nodup_singleton n, fun k hk m hm he => ?_⟩
  obtain rfl := List.mem_singleton.mp hm
  exact (h.nodup.mem_erase_iff.mp hk).1 he

theorem le_of_mem_erase_append (h : x.Accounted) (hn : n ≤ 18) :
    ∀ k ∈ x.recency.erase n ++ [n], k ≤ 18 := by
  intro k hk
  rcases List.mem_append.mp hk with hk | hk
  · exact h.le_of_mem k (List.mem_of_mem_erase hk)
  · exact List.mem_singleton.mp hk ▸ hn

theorem Accounted.hold (h : x.Accounted) (hn : n ≤ 18) :
    (x.hold n (PermutationSet.weight n)).Accounted := by
  have hnodup := nodup_erase_append h (n := n)
  have hle := le_of_mem_erase_append h hn
  unfold EquivalenceContext.hold
  split
  · next hheld =>
    have hmem : n ∈ x.recency := (h.mem_checkers n).mp hheld
    refine ⟨hnodup, fun k => ?_, hle, ?_⟩
    · rw [h.mem_checkers, List.mem_append, List.mem_singleton, h.nodup.mem_erase_iff]
      by_cases hk : k = n <;> simp [hk, hmem]
    · show x.totalWeight = _
      rw [h.totalWeight, weightOf_erase hmem]
      simp [Nat.add_comm]
  · next hmissing =>
    have hmem : n ∉ x.recency := fun hn => hmissing ((h.mem_checkers n).mpr hn)
    refine ⟨hnodup, fun k => ?_, hle, ?_⟩
    · show k ∈ x.checkers.insert n _ ↔ _
      rw [Std.HashMap.mem_insert, beq_iff_eq, h.mem_checkers, List.erase_of_not_mem hmem,
        List.mem_append, List.mem_singleton, or_comm, eq_comm]
    · show x.totalWeight + PermutationSet.weight n = _
      rw [h.totalWeight, List.erase_of_not_mem hmem]
      simp

/-- The sum of a call is a word, for it is the weight of different ranks. -/
theorem Accounted.hold?_eq (h : x.Accounted) (hn : n ≤ 18) :
    x.hold? n (PermutationSet.weight n) = some (x.hold n (PermutationSet.weight n)) := by
  unfold hold?
  split
  · rfl
  · next hmissing =>
    have htotal : (x.hold n (PermutationSet.weight n)).totalWeight =
        x.totalWeight + PermutationSet.weight n := by
      rw [EquivalenceContext.hold, if_neg hmissing]
    have hword : x.totalWeight + PermutationSet.weight n < UInt64.size := by
      rw [← htotal, (h.hold hn).totalWeight]
      exact weightOf_lt (h.hold hn).nodup (h.hold hn).le_of_mem
    rw [asWord?, if_pos hword, EquivalenceContext.hold, if_neg hmissing]
    rfl

/-! ### Eviction -/

/-- The context without its least recently used checker. -/
def evict (x : EquivalenceContext) (victim : Nat) (rest : List Nat) : EquivalenceContext :=
  { x.drop victim with
    recency := rest
    totalWeight := x.totalWeight - (PermutationSet.weight? victim).getD 0 }

theorem Accounted.weight?_victim (h : x.Accounted) (hx : x.recency = victim :: rest) :
    (PermutationSet.weight? victim).getD 0 = PermutationSet.weight victim := by
  rw [PermutationSet.weight?_of_le (h.le_of_mem victim (hx ▸ List.mem_cons_self)), Option.getD_some]

/-- The victim weighs no more than all. -/
theorem Accounted.weight_victim_le (h : x.Accounted) (hx : x.recency = victim :: rest) :
    (PermutationSet.weight? victim).getD 0 ≤ x.totalWeight := by
  rw [h.weight?_victim hx, h.totalWeight, hx, weightOf_cons]
  exact Nat.le_add_right _ _

theorem Accounted.evict (h : x.Accounted) (hx : x.recency = victim :: rest) :
    (x.evict victim rest).Accounted := by
  have hnodup := h.nodup
  rw [hx, List.nodup_cons] at hnodup
  refine ⟨hnodup.2, fun k => ?_, fun k hk => h.le_of_mem k (hx ▸ List.mem_cons_of_mem _ hk), ?_⟩
  · show k ∈ x.checkers.erase victim ↔ k ∈ rest
    rw [Std.HashMap.mem_erase, h.mem_checkers, hx, List.mem_cons, beq_eq_false_iff_ne]
    constructor
    · rintro ⟨hne, rfl | hk⟩
      · exact absurd rfl hne
      · exact hk
    · intro hk
      exact ⟨fun he => hnodup.1 (he ▸ hk), .inr hk⟩
  · show x.totalWeight - (PermutationSet.weight? victim).getD 0 = weightOf rest
    rw [h.weight?_victim hx, h.totalWeight, hx, weightOf_cons, Nat.add_sub_cancel_left]

/-- A context within its limit is left as it is. -/
theorem trim_of_le (h : x.totalWeight ≤ x.config.maxInstanceWeight) :
    x.trim = x ∧ x.trim? = some x := by
  constructor
  · rw [trim]
    split
    · exact if_neg (Nat.not_lt.mpr h)
    · rfl
  · rw [trim?]
    split
    · exact if_neg (Nat.not_lt.mpr h)
    · rfl

/-- A context over its limit gives up its least recently used checker, if that is not the last. -/
theorem trim_of_lt (hx : x.recency = victim :: rest) (hrest : rest ≠ [])
    (h : x.config.maxInstanceWeight < x.totalWeight)
    (hle : (PermutationSet.weight? victim).getD 0 ≤ x.totalWeight) :
    x.trim = (x.evict victim rest).trim ∧ x.trim? = (x.evict victim rest).trim? := by
  obtain ⟨next, rest, rfl⟩ := List.exists_cons_of_ne_nil hrest
  constructor
  · rw [trim]
    split
    · next hx' =>
      obtain ⟨rfl, rfl, rfl⟩ : _ ∧ _ ∧ _ := by simpa using hx'.symm.trans hx
      exact if_pos h
    · next hx' => exact absurd hx (hx' _ _ _)
  · rw [trim?]
    split
    · next hx' =>
      obtain ⟨rfl, rfl, rfl⟩ : _ ∧ _ ∧ _ := by simpa using hx'.symm.trans hx
      exact (if_pos h).trans (if_pos hle)
    · next hx' => exact absurd hx (hx' _ _ _)

/-- **Trimming gives up the shortest part at the front of the list** without which the rest is
within the limit, and forms no negative difference. -/
theorem Accounted.trim (h : x.Accounted) (hx : x.recency = older ++ [n])
    (hn : PermutationSet.weight n ≤ x.config.maxInstanceWeight) :
    x.trim.Accounted ∧ x.trim.config = x.config ∧ x.trim? = some x.trim ∧
      ∃ evicted kept, ShortestEviction x.config.maxInstanceWeight older n evicted kept ∧
        x.trim.recency = kept ++ [n] := by
  induction older generalizing x with
  | nil =>
      have hle : x.totalWeight ≤ x.config.maxInstanceWeight := by
        simpa [h.totalWeight, hx] using hn
      obtain ⟨htrim, htrim?⟩ := trim_of_le hle
      rw [htrim, htrim?]
      exact ⟨h, rfl, rfl, [], [], ⟨rfl, by simpa using hn, nofun⟩, hx⟩
  | cons victim older ih =>
      by_cases hover : x.config.maxInstanceWeight < x.totalWeight
      · obtain ⟨htrim, htrim?⟩ := trim_of_lt hx (by simp) hover (h.weight_victim_le hx)
        obtain ⟨hacc, hconfig, hwords, evicted, kept, hshort, hrecency⟩ :=
          ih (h.evict hx) rfl hn
        rw [htrim, htrim?]
        refine ⟨hacc, hconfig, hwords, victim :: evicted, kept, ⟨?_, hshort.within, ?_⟩, hrecency⟩
        · rw [hshort.split, List.cons_append]
        · intro i hi
          cases i with
          | zero =>
              rw [h.totalWeight, hx] at hover
              exact hover
          | succ i => exact hshort.shortest i (Nat.lt_of_succ_lt_succ hi)
      · obtain ⟨htrim, htrim?⟩ := trim_of_le (Nat.not_lt.mp hover)
        rw [htrim, htrim?]
        refine ⟨h, rfl, rfl, [], victim :: older, ⟨rfl, ?_, nofun⟩, hx⟩
        rw [← hx, ← h.totalWeight]
        exact Nat.not_lt.mp hover

/-! ### One call -/

/-- A context after any calls: its accounts agree, and it is within its limit. -/
structure Balanced (x : EquivalenceContext) : Prop extends Accounted x where
  within : x.totalWeight ≤ x.config.maxInstanceWeight

theorem fits_iff {limit : Nat} :
    fits limit n = true ↔ n ≤ 18 ∧ PermutationSet.weight n ≤ limit := by
  rw [fits, Bool.and_eq_true, decide_eq_true_eq, decide_eq_true_eq]

/-- A call for a rank that fits. -/
theorem Accounted.acquire (h : x.Accounted) (hfits : fits x.config.maxInstanceWeight n = true) :
    ∃ y, x.acquire n = .ok y ∧ x.acquire? n = some (.ok y) ∧ y.Balanced ∧ y.config = x.config ∧
      ∃ evicted kept,
        ShortestEviction x.config.maxInstanceWeight (x.recency.erase n) n evicted kept ∧
          y.recency = kept ++ [n] := by
  obtain ⟨hn, hlimit⟩ := fits_iff.mp hfits
  have hconfig := x.config_hold n (PermutationSet.weight n)
  obtain ⟨hacc, hconfig', hwords, evicted, kept, hshort, hrecency⟩ :=
    (h.hold hn).trim (x.recency_hold n _) (by rw [hconfig]; exact hlimit)
  rw [hconfig] at hconfig' hshort
  refine ⟨(x.hold n (PermutationSet.weight n)).trim, ?_, ?_, ⟨hacc, ?_⟩, hconfig', evicted, kept,
    hshort, hrecency⟩
  · simp only [EquivalenceContext.acquire, PermutationSet.weight?_of_le hn, hlimit, if_true]
  · simp only [acquire?, PermutationSet.weight?_of_le hn, hlimit, if_true, h.hold?_eq hn,
      Option.bind_some, hwords, Option.map_some]
  · rw [hacc.totalWeight, hrecency, hconfig']
    exact hshort.within

/-- A call for a rank that does not fit. -/
theorem acquire_of_not_fits (h : fits x.config.maxInstanceWeight n = false) :
    x.acquire n = .error (.permutationSetTooLarge n
        (min (PermutationSet.weight n) (UInt64.size - 1)) x.config.maxInstanceWeight) ∧
      x.acquire? n = some (x.acquire n) := by
  have hfits : ¬ (n ≤ 18 ∧ PermutationSet.weight n ≤ x.config.maxInstanceWeight) := by
    rw [← fits_iff, h]
    exact Bool.false_ne_true
  by_cases hn : n ≤ 18
  · have hlt := PermutationSet.weight_lt_iff.mpr hn
    have hover : ¬ PermutationSet.weight n ≤ x.config.maxInstanceWeight := fun hle =>
      hfits ⟨hn, hle⟩
    rw [Nat.min_eq_left (by omega)]
    simp only [EquivalenceContext.acquire, acquire?, PermutationSet.weight?_of_le hn, hover,
      if_false, and_self]
  · have hlt : ¬ PermutationSet.weight n < UInt64.size := fun hlt =>
      hn (PermutationSet.weight_lt_iff.mp hlt)
    rw [Nat.min_eq_right (by omega)]
    simp only [EquivalenceContext.acquire, acquire?,
      PermutationSet.weight?_of_lt (Nat.not_le.mp hn), and_self]

/-- A call for a rank that fits is answered with a checker of this rank. -/
theorem Accounted.call (h : x.Accounted) (hfits : fits x.config.maxInstanceWeight n = true) :
    (∃ c, (x.call n).1 = .ok c ∧ c.degree = n) ∧ (x.call n).2.Balanced ∧
      (x.call n).2.config = x.config ∧
      ∃ evicted kept,
        ShortestEviction x.config.maxInstanceWeight (x.recency.erase n) n evicted kept ∧
          (x.call n).2.recency = kept ++ [n] := by
  obtain ⟨y, hy, -, hbalanced, hconfig, evicted, kept, hshort, hrecency⟩ := h.acquire hfits
  have hcall : x.call n = (.ok (y.checker n), y.putChecker (y.checker n)) := by
    simp only [EquivalenceContext.call, withChecker, hy]
  have hdegree := y.degree_checker n
  have hmem : (y.checker n).degree ∈ y.recency := by simp [hdegree, hrecency]
  rw [hcall]
  exact ⟨⟨_, rfl, hdegree⟩, ⟨hbalanced.putChecker hmem, hbalanced.within⟩, hconfig, evicted, kept,
    hshort, hrecency⟩

/-- A call for a rank that does not fit changes nothing. -/
theorem call_of_not_fits (h : fits x.config.maxInstanceWeight n = false) :
    x.call n = (.error (.permutationSetTooLarge n
      (min (PermutationSet.weight n) (UInt64.size - 1)) x.config.maxInstanceWeight), x) := by
  simp only [EquivalenceContext.call, withChecker, (acquire_of_not_fits h).1]

/-! ### Any calls -/

/-- The last of some ranks is the one used last. -/
theorem dedup_append_singleton (ns : List Nat) (n : Nat) :
    (ns ++ [n]).dedup = ns.dedup.erase n ++ [n] := by
  induction ns with
  | nil => rfl
  | cons k ns ih =>
      rw [List.cons_append]
      by_cases hk : k ∈ ns
      · rw [List.dedup_cons_of_mem hk, List.dedup_cons_of_mem (List.mem_append_left _ hk), ih]
      · rw [List.dedup_cons_of_notMem hk]
        by_cases hkn : k = n
        · subst hkn
          have hdedup : k ∉ ns.dedup := fun h => hk (List.mem_dedup.mp h)
          rw [List.dedup_cons_of_mem (by simp), ih, List.erase_cons_head,
            List.erase_of_not_mem hdedup]
        · rw [List.dedup_cons_of_notMem (by simp [hk, hkn]), ih, List.erase_cons_tail (by simpa),
            List.cons_append]

/-- Erasing from a list with a suffix of the list leaves a suffix. -/
theorem suffix_erase {ms ns : List Nat} (hns : ns.Nodup) (h : ms <:+ ns) (n : Nat) :
    ms.erase n <:+ ns.erase n := by
  obtain ⟨before, rfl⟩ := h
  by_cases hn : n ∈ before
  · have hms : n ∉ ms := fun hm => (List.nodup_append.mp hns).2.2 n hn n hm rfl
    rw [List.erase_append_left _ hn, List.erase_of_not_mem hms]
    exact List.suffix_append _ _
  · rw [List.erase_append_right _ hn]
    exact List.suffix_append _ _

theorem afterCalls_append (x : EquivalenceContext) (calls : List Nat) (n : Nat) :
    x.afterCalls (calls ++ [n]) = ((x.afterCalls calls).call n).2 := by
  rw [afterCalls, List.foldl_append]
  rfl

/-- After any calls a context is balanced, and its list is the end of the list of all ranks called
for, by last use. -/
theorem balanced_afterCalls (config : EquivalenceConfig) (calls : List Nat) :
    ((new config).afterCalls calls).Balanced ∧ ((new config).afterCalls calls).config = config ∧
      ((new config).afterCalls calls).recency <:+
        (calls.filter (fits config.maxInstanceWeight)).dedup := by
  induction calls using List.reverseRecOn with
  | nil => exact ⟨⟨accounted_new config, Nat.zero_le _⟩, rfl, List.nil_suffix⟩
  | append_singleton calls n ih =>
      obtain ⟨hbalanced, hconfig, hsuffix⟩ := ih
      rw [afterCalls_append, List.filter_append]
      cases hfits : fits config.maxInstanceWeight n with
      | false =>
          rw [call_of_not_fits (by rw [hconfig]; exact hfits)]
          simpa [hfits] using ⟨hbalanced, hconfig, hsuffix⟩
      | true =>
          obtain ⟨-, hbalanced', hconfig', evicted, kept, hshort, hrecency⟩ :=
            hbalanced.call (by rw [hconfig]; exact hfits)
          refine ⟨hbalanced', hconfig'.trans hconfig, ?_⟩
          rw [List.filter_singleton, hfits, cond_true, dedup_append_singleton, hrecency]
          -- what is kept is the end of what was there before, without `n`
          obtain ⟨before, hbefore⟩ : kept <:+ (calls.filter _).dedup.erase n :=
            (hshort.split ▸ List.suffix_append evicted kept).trans
              (suffix_erase (List.nodup_dedup _) hsuffix n)
          exact ⟨before, by rw [← hbefore, List.append_assoc]⟩

/-- **The accounts of a context agree after any calls.**  The list names the ranks of the map, each
once and by last use, and the counter is their weight, within the limit.  The next call forms only
sums and differences that are 64-bit words.  If its rank fits, the call is answered, the rank comes
last, and the ranks given up are the shortest part at the front of the list without which the rest
is within the limit; otherwise the call is refused and changes nothing. -/
theorem call_afterCalls (config : EquivalenceConfig) (calls : List Nat) (n : Nat) :
    let limit := config.maxInstanceWeight
    let x := (new config).afterCalls calls
    x.recency.Nodup ∧ (∀ k, k ∈ x.checkers ↔ k ∈ x.recency) ∧
      x.totalWeight = weightOf x.recency ∧ x.totalWeight ≤ limit ∧
      x.recency <:+ (calls.filter (fits limit)).dedup ∧ x.acquire? n = some (x.acquire n) ∧
      (fits limit n = true → (∃ c, (x.call n).1 = .ok c ∧ c.degree = n) ∧
        ∃ evicted kept, ShortestEviction limit (x.recency.erase n) n evicted kept ∧
          (x.call n).2.recency = kept ++ [n]) ∧
      (fits limit n = false → x.call n = (.error (.permutationSetTooLarge n
        (min (PermutationSet.weight n) (UInt64.size - 1)) limit), x)) := by
  intro limit x
  obtain ⟨hbalanced, hconfig, hsuffix⟩ := balanced_afterCalls config calls
  have hlimit : x.config.maxInstanceWeight = limit := congrArg _ hconfig
  refine ⟨hbalanced.nodup, hbalanced.mem_checkers, hbalanced.totalWeight,
    hlimit ▸ hbalanced.within, hsuffix, ?_, fun hfits => ?_, fun hfits => ?_⟩
  · cases hfits : fits x.config.maxInstanceWeight n with
    | false => exact (acquire_of_not_fits hfits).2
    | true =>
        obtain ⟨y, hy, hy?, -⟩ := hbalanced.acquire hfits
        rw [hy]
        exact hy?
  · obtain ⟨hanswer, -, -, hevicted⟩ := hbalanced.call (hlimit.symm ▸ hfits)
    exact ⟨hanswer, hlimit ▸ hevicted⟩
  · exact hlimit ▸ call_of_not_fits (hlimit.symm ▸ hfits)

/-- With room for 400, the checkers of ranks 3 and 2 are held until the one of rank 4 takes the
place of the first; the one of rank 5 is refused. -/
theorem call_afterCalls_evicts :
    let x := (new ⟨400, 1⟩).afterCalls [3, 2]
    fits 400 4 = true ∧ fits 400 5 = false ∧ x.recency = [3, 2] ∧ x.totalWeight = 62 ∧
      (x.call 4).2.recency = [2, 4] ∧ (x.call 5).2 = x := by
  intro x
  have hfirst : ((new ⟨400, 1⟩).afterCalls [3]).recency = [3] := by
    obtain ⟨-, -, -, -, -, -, hcall, -⟩ := call_afterCalls ⟨400, 1⟩ [] 3
    obtain ⟨-, evicted, kept, hshort, hrecency⟩ := hcall (by decide)
    obtain ⟨-, rfl⟩ := hshort.eq_nil (by decide)
    exact hrecency
  have hboth : x.recency = [3, 2] := by
    obtain ⟨-, -, -, -, -, -, hcall, -⟩ := call_afterCalls ⟨400, 1⟩ [3] 2
    rw [hfirst] at hcall
    obtain ⟨-, evicted, kept, hshort, hrecency⟩ := hcall (by decide)
    obtain ⟨-, rfl⟩ := hshort.eq_nil (by decide)
    exact hrecency
  obtain ⟨-, -, htotal, -, -, -, hcall, -⟩ := call_afterCalls ⟨400, 1⟩ [3, 2] 4
  obtain ⟨-, -, -, -, -, -, -, hrefused⟩ := call_afterCalls ⟨400, 1⟩ [3, 2] 5
  obtain ⟨-, evicted, kept, hshort, hrecency⟩ := hcall (by decide)
  have hsame : (x.call 5).2 = x := by rw [hrefused (by decide)]
  refine ⟨by decide, by decide, hboth, htotal.trans (congrArg weightOf hboth), ?_, hsame⟩
  rw [show (new ⟨400, 1⟩).afterCalls [3, 2] = x from rfl, hboth] at hshort
  rw [show x.call 4 = ((new ⟨400, 1⟩).afterCalls [3, 2]).call 4 from rfl, hrecency]
  -- leaving out the first rank is enough, and necessary
  match evicted, hshort with
  | [], h =>
    obtain rfl : [3, 2] = kept := h.split
    exact absurd h.within (by decide)
  | [_], h =>
    obtain ⟨-, rfl⟩ := List.cons.inj h.split
    rfl
  | _ :: _ :: _, h => exact absurd (h.shortest 1 (by simp)) (by decide)

end EquivalenceContext

end MutationFinite
