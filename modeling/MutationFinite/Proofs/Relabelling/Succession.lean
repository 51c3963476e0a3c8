import MutationFinite.Proofs.Iteration
import MutationFinite.Proofs.Relabelling.Search
import Mathlib.Data.List.Chain
import Mathlib.Data.List.Find
import Mathlib.Data.Nat.Factorial.Basic

/-!
# Permutations in lexicographic order

The list of arrangements is sorted, and the arrangement after one of its members is the next member.
So the iteration from the identity on yields each permutation once, and a scan of all permutations
finds the lexicographically first one that passes a test.

* `pairwise_arrangements`, `length_arrangements`: the list is sorted and has factorial length.
* `next?_eq_none`, `next?_swap`: the step at the last arrangement of what is left to write.
* `isChain_arrangements`: **each member is followed by the arrangement after it.**
* `yields_arrangements`, `slice_eq`: the iteration, and the parts of it.
* `findWitness?_eq_find?`, `PermutationSet.findWitness?_eq`: both searches are one scan.
* `PermutationSet.tableRows_eq`: the rows of the table are the members of the list.
-/

namespace MutationFinite

variable {n v w : Nat} {rest xs ys : List Nat} {items : List (List Nat)}

/-! ### The list of arrangements -/

/-- **The arrangements of increasing numbers are listed in lexicographic order.** -/
theorem pairwise_arrangements (h : rest.Pairwise (· < ·)) :
    (arrangements n rest).Pairwise (· < ·) := by
  induction n generalizing rest with
  | zero => exact List.pairwise_singleton _ _
  | succ n ih =>
      rw [arrangements, List.pairwise_flatMap]
      constructor
      · intro v _
        rw [List.pairwise_map]
        refine (ih (h.sublist List.erase_sublist)).imp fun hlt => ?_
        exact List.cons_lt_cons_iff.mpr (.inr ⟨rfl, hlt⟩)
      · refine h.imp fun hlt xs hxs ys hys => ?_
        obtain ⟨xs, -, rfl⟩ := List.mem_map.mp hxs
        obtain ⟨ys, -, rfl⟩ := List.mem_map.mp hys
        exact List.cons_lt_cons_iff.mpr (.inl hlt)

theorem length_arrangements (h : rest.length = n) : (arrangements n rest).length = n.factorial := by
  induction n generalizing rest with
  | zero => rfl
  | succ n ih =>
      have hblock : ∀ v ∈ rest,
          ((arrangements n (rest.erase v)).map (v :: ·)).length = n.factorial := by
        intro v hv
        rw [List.length_map, ih (by rw [List.length_erase_of_mem hv, h, Nat.add_sub_cancel])]
      rw [arrangements, List.length_flatMap, List.map_congr_left hblock, List.map_const',
        List.sum_replicate_nat, h, Nat.factorial_succ]

theorem factorial_eq (n : Nat) : factorial n = n.factorial := by
  induction n with
  | zero => rfl
  | succ n ih => rw [factorial, ih, Nat.factorial_succ]

/-! ### From one arrangement to the next -/

namespace Arrangement

/-- Decreasing numbers are the last of their arrangements. -/
theorem next?_eq_none (h : xs.Pairwise (· > ·)) : next? xs = none := by
  induction xs with
  | nil => rfl
  | cons x xs ih =>
      obtain ⟨hx, hxs⟩ := List.pairwise_cons.mp h
      have hfind : xs.reverse.find? (x < ·) = none := by
        refine List.find?_eq_none.mpr fun y hy => ?_
        have := hx y (List.mem_reverse.mp hy)
        simpa using this.le
      rw [next?, ih hxs, hfind]

/-- A step behind the first number. -/
theorem next?_cons (h : next? xs = some ys) : next? (v :: xs) = some (v :: ys) := by
  rw [next?, h]

/-- **The step as a swap.**  The last number `v` with a greater one behind it and the last greater
one `w` change places, and the numbers behind are reversed. -/
theorem next?_swap {pre mid post : List Nat} (h : (mid ++ w :: post).Pairwise (· > ·)) (hvw : v < w)
    (hpost : ∀ u ∈ post, u ≤ v) :
    next? (pre ++ v :: (mid ++ w :: post)) = some (pre ++ w :: (mid ++ v :: post).reverse) := by
  induction pre with
  | nil =>
      have hreverse : ∀ u, (mid ++ u :: post).reverse = post.reverse ++ u :: mid.reverse := by simp
      have hfind : (post.reverse ++ w :: mid.reverse).find? (v < ·) = some w := by
        refine List.find?_eq_some_iff_append.mpr
          ⟨decide_eq_true hvw, post.reverse, mid.reverse, rfl, fun u hu => ?_⟩
        simpa using hpost u (List.mem_reverse.mp hu)
      have hw : w ∉ post.reverse := fun hmem =>
        (hpost w (List.mem_reverse.mp hmem)).not_gt hvw
      rw [List.nil_append, next?, next?_eq_none h, hreverse, hfind]
      simp only
      rw [List.replace_append_right hw, List.replace_cons_self, List.nil_append, hreverse]
  | cons u pre ih => exact next?_cons ih

end Arrangement

open Arrangement

/-! ### The list as an iteration -/

theorem erase_append_cons {pre post : List Nat} (h : (pre ++ v :: post).Pairwise (· < ·)) :
    (pre ++ v :: post).erase v = pre ++ post := by
  have hv : v ∉ pre := fun hmem =>
    ((List.pairwise_append.mp h).2.2 v hmem v List.mem_cons_self).false
  rw [List.erase_append_right _ hv, List.erase_cons_head]

/-- The list starts with the increasing arrangement. -/
theorem head?_arrangements (h : rest.length = n) : (arrangements n rest).head? = some rest := by
  induction n generalizing rest with
  | zero => rw [List.length_eq_zero_iff.mp h, arrangements, List.head?_cons]
  | succ n ih =>
      obtain ⟨v, others, rfl⟩ := List.exists_cons_of_length_eq_add_one h
      rw [arrangements, List.head?_flatMap, List.findSome?_cons, List.head?_map,
        List.erase_cons_head, ih (Nat.succ.inj h), Option.map_some]

/-- The list ends with the decreasing arrangement. -/
theorem getLast?_arrangements (hlength : rest.length = n) (h : rest.Pairwise (· < ·)) :
    (arrangements n rest).getLast? = some rest.reverse := by
  induction n generalizing rest with
  | zero => rw [List.length_eq_zero_iff.mp hlength, arrangements, List.getLast?_singleton,
      List.reverse_nil]
  | succ n ih =>
      rcases rest.eq_nil_or_concat' with rfl | ⟨others, v, rfl⟩
      · cases hlength
      · have hothers := (List.pairwise_append.mp h).1
        rw [arrangements, List.getLast?_flatMap, List.reverse_append, List.reverse_singleton,
          List.singleton_append, List.findSome?_cons, List.getLast?_map, erase_append_cons h,
          List.append_nil, ih (by simpa using hlength) hothers, Option.map_some]

/-- The step from the last arrangement that starts with `v` to the first that starts with `w`. -/
theorem next?_last_first {pre post : List Nat} (h : (pre ++ v :: w :: post).Pairwise (· < ·)) :
    next? (v :: (pre ++ w :: post).reverse) = some (w :: (pre ++ v :: post)) := by
  obtain ⟨-, hvw, hpre⟩ := List.pairwise_append.mp h
  have hothers : (pre ++ w :: post).Pairwise (· < ·) :=
    h.sublist ((List.sublist_cons_self _ _).append_left pre)
  have hstep : next? ([] ++ v :: (post.reverse ++ w :: pre.reverse)) =
      some ([] ++ w :: (post.reverse ++ v :: pre.reverse).reverse) := by
    refine next?_swap ?_ (List.rel_of_pairwise_cons hvw List.mem_cons_self) fun u hu => ?_
    · simpa using List.pairwise_reverse.mpr hothers
    · exact (hpre u (List.mem_reverse.mp hu) v List.mem_cons_self).le
  simpa using hstep

/-- **Each member of the list is followed by the arrangement after it.** -/
theorem isChain_arrangements (hlength : rest.length = n) (h : rest.Pairwise (· < ·)) :
    (arrangements n rest).IsChain fun xs ys => next? xs = some ys := by
  induction n generalizing rest with
  | zero => exact List.isChain_singleton _
  | succ n ih =>
      have hblock : ∀ v ∈ rest, (rest.erase v).length = n ∧ (rest.erase v).Pairwise (· < ·) := by
        intro v hv
        rw [List.length_erase_of_mem hv, hlength]
        exact ⟨rfl, h.sublist List.erase_sublist⟩
      rw [arrangements, List.flatMap_def, List.isChain_flatten]
      · constructor
        · -- within a block the first number stays
          intro block hmem
          obtain ⟨v, hv, rfl⟩ := List.mem_map.mp hmem
          rw [List.isChain_map]
          exact (ih (hblock v hv).1 (hblock v hv).2).imp fun _ _ => next?_cons
        · -- from the end of one block to the start of the next
          rw [List.isChain_map, List.isChain_iff_forall_rel_of_append_cons_cons]
          rintro v w pre post rfl xs hxs ys hys
          obtain ⟨hv, hv'⟩ := hblock v (by simp)
          obtain ⟨hw, -⟩ := hblock w (by simp)
          rw [List.getLast?_map, getLast?_arrangements hv hv', Option.map_some] at hxs
          rw [List.head?_map, head?_arrangements hw, Option.map_some] at hys
          obtain rfl := Option.some.inj hxs
          obtain rfl := Option.some.inj hys
          have hfirst : (pre ++ v :: w :: post).erase w = pre ++ v :: post := by
            rw [List.append_cons, erase_append_cons (List.append_cons .. ▸ h), ← List.append_cons]
          rw [erase_append_cons h, hfirst]
          exact next?_last_first h
      · -- no block is empty
        intro hmem
        obtain ⟨v, hv, hnil⟩ := List.mem_map.mp hmem
        have := head?_arrangements (hblock v hv).1
        rw [List.map_eq_nil_iff.mp hnil] at this
        cases this

/-! ### The iteration -/

namespace Arrangement

/-- A chain of arrangements, each after the one before it, is what the iteration yields. -/
theorem yields_of_isChain (hchain : items.IsChain fun xs ys => next? xs = some ys)
    (hlast : ∀ xs ∈ items.getLast?, next? xs = none) : Yields turn? items.head? items := by
  induction items with
  | nil => exact .ends rfl
  | cons xs items ih =>
      have hnext : next? xs = items.head? := by
        cases items with
        | nil => exact hlast xs rfl
        | cons ys items => exact hchain.rel
      have hturn : turn? (some xs) = some (xs, items.head?) := by rw [← hnext]; rfl
      refine .item hturn (ih hchain.tail fun ys hys => hlast ys ?_)
      rw [List.getLast?_cons, Option.mem_def.mp hys, Option.getD_some]
      rfl

/-- **The iteration from the identity on yields the list.** -/
theorem yields_arrangements (n : Nat) :
    Yields turn? (some (List.range n)) (arrangements n (List.range n)) := by
  have hsorted : (List.range n).Pairwise (· < ·) := List.pairwise_lt_range
  rw [← head?_arrangements List.length_range]
  refine yields_of_isChain (isChain_arrangements List.length_range hsorted) fun xs hxs => ?_
  rw [getLast?_arrangements List.length_range hsorted] at hxs
  rw [← Option.some.inj hxs]
  exact next?_eq_none (List.pairwise_reverse.mpr hsorted)

theorem eq_nil_of_yields_none (h : Yields turn? none items) : items = [] := h.unique (.ends rfl)

theorem upFrom_eq_take (h : Yields turn? (some xs) items) (most : Nat) :
    upFrom most xs = items.take most := by
  induction most generalizing xs items with
  | zero => rfl
  | succ most ih =>
      cases h with
      | ends hnone => cases hnone
      | item hsome hrest =>
          obtain ⟨rfl, rfl⟩ := Prod.mk.inj (Option.some.inj hsome)
          rw [upFrom, List.take_succ_cons]
          split
          · next ys hys => rw [ih (hys ▸ hrest)]
          · next hnone =>
            rw [hnone] at hrest
            rw [eq_nil_of_yields_none hrest, List.take_nil]

/-- What is `k` places further yields the items without the first `k`. -/
theorem yields_advance? (h : Yields turn? (some xs) items) (k : Nat) :
    Yields turn? (advance? k xs) (items.drop k) := by
  induction k generalizing xs items with
  | zero => exact h
  | succ k ih =>
      cases h with
      | ends hnone => cases hnone
      | item hsome hrest =>
          obtain ⟨rfl, rfl⟩ := Prod.mk.inj (Option.some.inj hsome)
          rw [advance?, List.drop_succ_cons]
          cases hnext : next? xs with
          | none =>
              rw [hnext] at hrest
              rw [eq_nil_of_yields_none hrest, List.drop_nil]
              exact .ends rfl
          | some ys => exact ih (hnext ▸ hrest)

/-- A part of the iteration is that part of the list. -/
theorem slice_eq (n first most : Nat) :
    slice n first most = ((arrangements n (List.range n)).drop first).take most := by
  have h := yields_advance? (yields_arrangements n) first
  rw [slice]
  cases hstart : advance? first (List.range n) with
  | none =>
      rw [hstart] at h
      rw [eq_nil_of_yields_none h, List.take_nil, Option.map_none, Option.getD_none]
  | some xs => rw [Option.map_some, Option.getD_some, upFrom_eq_take (hstart ▸ h)]

end Arrangement

/-! ### Searches as scans -/

/-- The first member of a sorted list that passes a test comes before the others that pass it. -/
theorem eq_or_rel_of_find? {α : Type} {r : α → α → Prop} {p : α → Bool} {l : List α} {x y : α}
    (h : l.Pairwise r) (hx : l.find? p = some x) (hy : y ∈ l) (hpass : p y = true) :
    x = y ∨ r x y := by
  obtain ⟨-, before, after, rfl, hno⟩ := List.find?_eq_some_iff_append.mp hx
  rcases List.mem_append.mp hy with hbefore | hafter
  · simpa [hpass] using hno y hbefore
  · rcases List.mem_cons.mp hafter with rfl | hafter
    · exact .inl rfl
    · exact .inr (List.rel_of_pairwise_cons (List.pairwise_append.mp h).2.1 hafter)

namespace ExchangeMatrix

variable {a b : ExchangeMatrix} {p q : Permutation}

/-- The test of a scan, made of all cells. -/
theorem mapsTo_iff_carries (hs : SameShape a b) (hp : p.size = a.rank) :
    a.mapsTo b p.images = true ↔ Carries p a b := by
  simp only [mapsTo, all_iff, beq_iff_eq]
  exact ⟨carries_of_inside hs hp, fun h i _ j _ => h.cells i j⟩

/-- **The search without a set of permutations is a scan of all.** -/
theorem findWitness?_eq_find? (hs : SameShape a b) :
    findWitness? a b = ((arrangements a.rank (List.range a.rank)).find? fun images =>
      a.mapsTo b images.toArray).bind fun images => Permutation.ofImages? images.toArray := by
  rw [findWitness?, if_pos hs, search?, complete?_eq_find, Option.bind_map]
  refine congrArg₂ Option.bind (List.find?_congr fun images hmem => ?_) ?_
  · -- prefixes that cannot be completed are cut off, but no arrangement that passes the test
    obtain ⟨hlength, harr⟩ := mem_arrangements_range.mp hmem
    have hadmissible : admissible a b (fun _ _ => true) #[] images = true ↔
        Carries ⟨images.toArray, harr⟩ a b ∧ ∀ i < a.rank, true = true :=
      admissible_iff_carries (p := ⟨images.toArray, harr⟩) hs hlength
    rw [Bool.eq_iff_iff, hadmissible, mapsTo_iff_carries (p := ⟨images.toArray, harr⟩) hs hlength]
    exact and_iff_left fun _ _ => rfl
  · funext images
    simp

/-- **The first witness is the lexicographically first one.** -/
theorem findWitness?_first (h : findWitness? a b = some p) (hq : Carries q a b) :
    p = q ∨ p.images.toList < q.images.toList := by
  rw [findWitness?_eq_find? hq.shape] at h
  obtain ⟨images, hfind, himages⟩ := Option.bind_eq_some_iff.mp h
  obtain ⟨hlength, harr⟩ := mem_arrangements_range.mp (List.mem_of_find?_eq_some hfind)
  rw [Permutation.ofImages?, dif_pos harr] at himages
  obtain rfl := Option.some.inj himages
  have hmem : q.images.toList ∈ arrangements a.rank (List.range a.rank) :=
    mem_arrangements_range.mpr ⟨hq.size, q.isArrangement⟩
  rcases eq_or_rel_of_find? (pairwise_arrangements List.pairwise_lt_range) hfind hmem
    ((mapsTo_iff_carries hq.shape hq.size).mpr hq) with he | hlt
  · exact .inl (Permutation.ext (congrArg List.toArray he))
  · exact .inr hlt

end ExchangeMatrix

/-! ### Sets of permutations -/

/-- A row of a table, read off at its place. -/
theorem take_drop_flatten {lists : List (List Nat)} (h : ∀ xs ∈ lists, xs.length = n) {p : Nat}
    (hp : p < lists.length) : (lists.flatten.drop (p * n)).take n = lists[p] := by
  induction lists generalizing p with
  | nil => cases hp
  | cons xs lists ih =>
      obtain ⟨hxs, hlists⟩ := List.forall_mem_cons.mp h
      rw [List.flatten_cons]
      cases p with
      | zero => rw [Nat.zero_mul, List.drop_zero, List.take_left' hxs, List.getElem_cons_zero]
      | succ p =>
          rw [Nat.succ_mul, Nat.add_comm, ← List.drop_drop, List.drop_left' hxs,
            ih hlists (Nat.lt_of_succ_lt_succ hp), List.getElem_cons_succ]

theorem length_flatten_of_forall {lists : List (List Nat)} (h : ∀ xs ∈ lists, xs.length = n) :
    lists.flatten.length = lists.length * n := by
  rw [List.length_flatten, List.map_congr_left h, List.map_const', List.sum_replicate_nat]

namespace PermutationSet

theorem length_of_mem_toList (s : PermutationSet) : ∀ xs ∈ s.toList, xs.length = s.degree :=
  fun _ hxs => (mem_arrangements.mp hxs).1

theorem rowCount_eq (s : PermutationSet) : s.rowCount = s.toList.length := by
  rw [rowCount]
  split
  · next hzero => rw [toList, hzero]; rfl
  · next hpos =>
    rw [table, length_flatten_of_forall s.length_of_mem_toList, Nat.mul_div_cancel _ (by omega)]

/-- **The rows of the table are the permutations.** -/
theorem tableRows_eq (s : PermutationSet) : s.tableRows = s.toList := by
  refine List.ext_getElem ?_ fun p hp hp' => ?_
  · rw [tableRows, List.length_map, List.length_range, rowCount_eq]
  · simp only [tableRows, List.getElem_map, List.getElem_range]
    split
    · next hzero =>
      have hempty := (s.length_of_mem_toList _ (List.getElem_mem hp')).trans hzero
      exact (List.length_eq_zero_iff.mp hempty).symm
    · exact take_drop_flatten s.length_of_mem_toList hp'

end PermutationSet

/-- **The search in a set of permutations** finds what the search without it finds. -/
theorem PermutationSet.findWitness?_eq (a b : ExchangeMatrix) :
    PermutationSet.findWitness? ⟨a.rank⟩ a b = ExchangeMatrix.findWitness? a b := by
  by_cases hs : ExchangeMatrix.SameShape a b
  · rw [findWitness?, if_pos ⟨hs, rfl⟩, ExchangeMatrix.findWitness?_eq_find? hs, toList]
  · rw [findWitness?, if_neg fun h => hs h.1, ExchangeMatrix.findWitness?, if_neg hs]

open ExchangeMatrix (Carries findWitness? findWitness?_eq_some findWitness?_first
  findWitness?_eq_none_iff)

/-- **Permutations are enumerated completely, in lexicographic order.**  The iteration from the
identity on ends, and it yields each permutation of the numbers below `n` once, in increasing order;
its parts and the set of permutations, also as the rows of its table, are the same list; and the
searches with and without the set find the same witness, which is the first of all. -/
theorem permutations_enumerated (n : Nat) :
    ∃ items : List (List Nat),
      Yields Arrangement.turn? (some (List.range n)) items ∧
      items.head? = some (List.range n) ∧ items.Pairwise (· < ·) ∧
      (∀ xs, xs ∈ items ↔ xs.Perm (List.range n)) ∧ items.length = n.factorial ∧
      (∀ first most, Arrangement.slice n first most = (items.drop first).take most) ∧
      PermutationSet.toList ⟨n⟩ = items ∧ PermutationSet.tableRows ⟨n⟩ = items ∧
      PermutationSet.size ⟨n⟩ = items.length ∧ PermutationSet.rowCount ⟨n⟩ = items.length ∧
      ∀ a b : ExchangeMatrix, a.rank = n →
        PermutationSet.findWitness? ⟨n⟩ a b = findWitness? a b ∧
        (∀ p, findWitness? a b = some p →
          Carries p a b ∧ ∀ q, Carries q a b → p = q ∨ p.images.toList < q.images.toList) ∧
        (findWitness? a b = none → ∀ q, ¬ Carries q a b) := by
  have hlength : (arrangements n (List.range n)).length = n.factorial :=
    length_arrangements List.length_range
  refine ⟨arrangements n (List.range n), Arrangement.yields_arrangements n,
    head?_arrangements List.length_range, pairwise_arrangements List.pairwise_lt_range,
    fun xs => ?_, hlength, Arrangement.slice_eq n, rfl, PermutationSet.tableRows_eq ⟨n⟩, ?_,
    PermutationSet.rowCount_eq ⟨n⟩, ?_⟩
  · rw [mem_arrangements]
    constructor
    · rintro ⟨hxs, hsub⟩
      exact hsub.perm_of_length_le (by rw [hxs, List.length_range])
    · intro hperm
      exact ⟨hperm.length_eq.trans List.length_range, hperm.subperm⟩
  · exact (factorial_eq n).trans hlength.symm
  · rintro a b rfl
    exact ⟨PermutationSet.findWitness?_eq a b,
      fun p hp => ⟨findWitness?_eq_some hp, fun q => findWitness?_first hp⟩,
      findWitness?_eq_none_iff.mp⟩

end MutationFinite
