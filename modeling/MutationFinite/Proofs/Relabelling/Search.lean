import MutationFinite.Proofs.Relabelling.Action
import MutationFinite.Proofs.Vertices
import MutationFinite.Relabelling.Witness
import Mathlib.Data.List.Perm.Subperm

/-!
# The search for a witness

* `mem_arrangements`: the arrangements of `n` members of a list.
* `complete?_eq_find`: the search with its early refusals finds the first arrangement, in
  lexicographic order, of which every choice is admissible.
* `admissible_iff_carries`: an arrangement of all mutable vertices is admissible when it carries one
  matrix to the other.
* `search?_eq_some`, `search?_isSome_iff`: the search is sound and complete.
* `findWitness?_eq_some`, `findWitness?_eq_none_iff`: so is the search for any witness.
* `mem_automorphismOrbits`: the orbits are those of the automorphisms.
-/

namespace MutationFinite

/-! ### Arrangements -/

theorem cons_subperm_iff {v : Nat} {l rest : List Nat} :
    (v :: l).Subperm rest ↔ v ∈ rest ∧ l.Subperm (rest.erase v) := by
  constructor
  · intro h
    have hv : v ∈ rest := h.subset List.mem_cons_self
    refine ⟨hv, (List.subperm_cons v).mp ?_⟩
    exact h.trans (List.perm_cons_erase hv).subperm
  · rintro ⟨hv, h⟩
    exact ((List.subperm_cons v).mpr h).trans (List.perm_cons_erase hv).symm.subperm

theorem mem_arrangements {n : Nat} {rest l : List Nat} :
    l ∈ arrangements n rest ↔ l.length = n ∧ l.Subperm rest := by
  induction n generalizing rest l with
  | zero =>
      rw [arrangements, List.mem_singleton, List.length_eq_zero_iff, iff_self_and]
      rintro rfl
      exact List.nil_subperm
  | succ n ih =>
      simp only [arrangements, List.mem_flatMap, List.mem_map]
      constructor
      · rintro ⟨v, hv, l, hl, rfl⟩
        obtain ⟨hlength, hsub⟩ := ih.mp hl
        exact ⟨congrArg (· + 1) hlength, cons_subperm_iff.mpr ⟨hv, hsub⟩⟩
      · rintro ⟨hlength, hsub⟩
        cases l with
        | nil => cases hlength
        | cons v l =>
            obtain ⟨hv, hsub⟩ := cons_subperm_iff.mp hsub
            exact ⟨v, hv, l, ih.mpr ⟨Nat.succ.inj hlength, hsub⟩, rfl⟩

/-- The arrangements of all numbers below `n` are the image lists of permutations. -/
theorem mem_arrangements_range {n : Nat} {l : List Nat} :
    l ∈ arrangements n (List.range n) ↔ l.length = n ∧ IsArrangement l.toArray := by
  rw [mem_arrangements]
  refine and_congr_right fun hlength => ?_
  constructor
  · intro h
    have hperm : l.Perm (List.range n) := h.perm_of_length_le (by simp [hlength])
    refine ⟨hperm.nodup_iff.mpr List.nodup_range, fun v hv => ?_⟩
    have := List.mem_range.mp (hperm.subset hv)
    simpa [hlength] using this
  · rintro ⟨hnodup, hlt⟩
    refine List.subperm_of_subset hnodup fun v hv => List.mem_range.mpr ?_
    simpa [hlength] using hlt v hv

namespace ExchangeMatrix

variable {a b m : ExchangeMatrix} {allowed : Nat → Nat → Bool}

/-! ### The search as a scan -/

/-- The images `l`, chosen one after another when `chosen` are, are allowed and agree with the ones
before them. -/
def admissible (a b : ExchangeMatrix) (allowed : Nat → Nat → Bool) :
    (chosen : Array Nat) → List Nat → Bool
  | _, [] => true
  | chosen, v :: l =>
    (allowed chosen.size v && a.agreesAt b chosen v) && admissible a b allowed (chosen.push v) l

/-- **The search is a scan**: it finds the first admissible arrangement. -/
theorem complete?_eq_find (k : Nat) (rest : List Nat) (chosen : Array Nat) :
    complete? a b allowed k rest chosen =
      ((arrangements k rest).find? (admissible a b allowed chosen)).map
        fun l => chosen ++ l.toArray := by
  induction k generalizing rest chosen with
  | zero => simp [complete?, arrangements, admissible]
  | succ k ih =>
      simp only [complete?, arrangements, List.find?_flatMap, List.find?_map, List.map_findSome?]
      refine congrArg (fun f => rest.findSome? f) (funext fun v => ?_)
      rw [Function.comp_apply]
      by_cases hv : (allowed chosen.size v && a.agreesAt b chosen v) = true
      · have htest : admissible a b allowed chosen ∘ (fun l => v :: l) =
            admissible a b allowed (chosen.push v) := by
          funext l
          simp [admissible, hv]
        rw [if_pos hv, ih, htest]
        simp [Function.comp_def]
      · have htest : admissible a b allowed chosen ∘ (fun l => v :: l) = fun _ => false := by
          funext l
          simp [admissible, hv]
        rw [if_neg hv, htest]
        simp [Function.comp_def]

/-- All choices of an admissible arrangement, each seen when it is made. -/
theorem admissible_iff {chosen : Array Nat} {l : List Nat} :
    admissible a b allowed chosen l = true ↔
      ∀ i, (h : i < l.length) → allowed (chosen.size + i) l[i] = true ∧
        a.agreesAt b (chosen ++ (l.take i).toArray) l[i] = true := by
  induction l generalizing chosen with
  | nil => simp [admissible]
  | cons v l ih =>
      rw [admissible, Bool.and_eq_true, Bool.and_eq_true, ih]
      constructor
      · rintro ⟨hv, hl⟩ i hi
        cases i with
        | zero => simpa using hv
        | succ i =>
            have := hl i (Nat.lt_of_succ_lt_succ hi)
            simpa [Nat.add_assoc, Nat.add_comm 1] using this
      · intro h
        refine ⟨by simpa using h 0 (Nat.succ_pos _), fun i hi => ?_⟩
        have := h (i + 1) (Nat.succ_lt_succ hi)
        simpa [Nat.add_assoc, Nat.add_comm 1] using this

/-! ### Admissible permutations -/

variable {p : Permutation}

/-- Vertex `i` agrees with the vertices before it and with the frozen ones. -/
def AgreesAt (a b : ExchangeMatrix) (p : Permutation) (i : Nat) : Prop :=
  ∀ j, j ≤ i ∨ a.rank ≤ j →
    b.cell (p.apply i) (p.apply j) = a.cell i j ∧ b.cell (p.apply j) (p.apply i) = a.cell j i

/-- A cell beyond the columns or the rows is the same in matrices of one shape. -/
theorem SameShape.cell_eq_of_le (hs : SameShape a b) {i j i' j' : Nat}
    (h : a.rows ≤ i ∨ a.cols ≤ j) (h' : a.rows ≤ i' ∨ a.cols ≤ j') :
    b.cell i' j' = a.cell i j := by
  rw [a.cell_eq_zero h, b.cell_eq_zero (by rw [← hs.1, ← hs.2]; exact h')]

/-- The check of the search, made when the vertices before `i` are chosen. -/
theorem agreesAt_iff (hs : SameShape a b) (hp : p.size = a.rank) {chosen : Array Nat} {i : Nat}
    (hi : i < a.rank) (hsize : chosen.size = i) (hchosen : ∀ j < i, chosen.getD j j = p.apply j) :
    a.agreesAt b chosen (p.apply i) = true ↔ AgreesAt a b p i := by
  have hfrozen : ∀ f, p.apply (a.rank + f) = a.rank + f := fun f =>
    Permutation.apply_of_le (by omega)
  simp only [agreesAt, hsize, Bool.and_eq_true, all_iff, beq_iff_eq]
  constructor
  · rintro ⟨⟨⟨hdiag, hbefore⟩, hcols⟩, hrows⟩ j hj
    rcases hj with hj | hj
    · rcases Nat.lt_or_eq_of_le hj with hj | rfl
      · have := hbefore j hj
        rw [hchosen j hj] at this
        exact ⟨this.1.symm, this.2.symm⟩
      · exact ⟨hdiag.symm, hdiag.symm⟩
    · obtain ⟨f, rfl⟩ := Nat.exists_eq_add_of_le hj
      rw [hfrozen]
      constructor
      · by_cases hf : f < a.cols - a.rank
        · exact (hcols f hf).symm
        · exact hs.cell_eq_of_le (by omega) (by omega)
      · by_cases hf : f < a.rows - a.rank
        · exact (hrows f hf).symm
        · exact hs.cell_eq_of_le (by omega) (by omega)
  · intro h
    refine ⟨⟨⟨(h i (.inl (Nat.le_refl i))).1.symm, fun j hj => ?_⟩, fun f _ => ?_⟩, fun f _ => ?_⟩
    · rw [hchosen j hj]
      have := h j (.inl hj.le)
      exact ⟨this.1.symm, this.2.symm⟩
    · have := (h (a.rank + f) (.inr (Nat.le_add_right _ _))).1
      rw [hfrozen] at this
      exact this.symm
    · have := (h (a.rank + f) (.inr (Nat.le_add_right _ _))).2
      rw [hfrozen] at this
      exact this.symm

/-- A permutation carries `a` to `b` when each vertex agrees with those before it. -/
theorem carries_iff_agreesAt (hs : SameShape a b) (hp : p.size = a.rank) :
    Carries p a b ↔ ∀ i < a.rank, AgreesAt a b p i := by
  constructor
  · intro h i _ j _
    exact ⟨h.cells i j, h.cells j i⟩
  · intro h
    refine ⟨hs, hp, fun i j => ?_⟩
    rcases Nat.lt_or_ge i a.rank with hi | hi
    · rcases Nat.lt_or_ge i j with hij | hij
      · rcases Nat.lt_or_ge j a.rank with hj | hj
        · exact (h j hj i (.inl hij.le)).2
        · exact (h i hi j (.inr hj)).1
      · exact (h i hi j (.inl hij)).1
    · rcases Nat.lt_or_ge j a.rank with hj | hj
      · exact (h j hj i (.inr hi)).2
      · -- a frozen row and a frozen column meet outside the matrix
        have hout : a.rows ≤ i ∨ a.cols ≤ j := by
          have : a.rank = min a.rows a.cols := rfl
          omega
        rw [Permutation.apply_of_le (hp ▸ hi), Permutation.apply_of_le (hp ▸ hj)]
        exact hs.cell_eq_of_le hout hout

/-- **Admissible arrangements are those that carry `a` to `b`** by allowed choices. -/
theorem admissible_iff_carries (hs : SameShape a b) (hp : p.size = a.rank) :
    admissible a b allowed #[] p.images.toList = true ↔
      Carries p a b ∧ ∀ i < a.rank, allowed i (p.apply i) = true := by
  have hlength : p.images.toList.length = a.rank := hp
  have hchoice : ∀ i, (h : i < p.images.toList.length) →
      (allowed i p.images.toList[i] = true ∧
        a.agreesAt b (p.images.toList.take i).toArray p.images.toList[i] = true ↔
        AgreesAt a b p i ∧ allowed i (p.apply i) = true) := by
    intro i hi
    have hlt : i < p.images.size := hi
    have hget : p.images.toList[i] = p.apply i := by
      simp [Permutation.apply, Array.getD, hlt]
    rw [hget, and_comm, agreesAt_iff hs hp (hlength ▸ hi) (by simp; omega)]
    intro j hj
    have : j < p.images.size := hj.trans hlt
    simp [Permutation.apply, Array.getD, hj, this]
  rw [admissible_iff, carries_iff_agreesAt hs hp, ← forall₂_and]
  simp only [List.size_toArray, List.length_nil, Nat.zero_add, Array.empty_append]
  exact ⟨fun h i hi => (hchoice i (hlength ▸ hi)).mp (h i _),
    fun h i hi => (hchoice i hi).mpr (h i (hlength ▸ hi))⟩

/-! ### The search -/

/-- The search is sound. -/
theorem search?_eq_some {images : Array Nat} (hs : SameShape a b)
    (h : search? a b allowed = some images) :
    ∃ p : Permutation, p.images = images ∧ Carries p a b ∧
      ∀ i < a.rank, allowed i (p.apply i) = true := by
  rw [search?, complete?_eq_find, Option.map_eq_some_iff] at h
  obtain ⟨l, hl, rfl⟩ := h
  obtain ⟨hlength, harr⟩ := mem_arrangements_range.mp (List.mem_of_find?_eq_some hl)
  refine ⟨⟨l.toArray, harr⟩, by simp, ?_⟩
  exact (admissible_iff_carries (p := ⟨l.toArray, harr⟩) hs hlength).mp (List.find?_some hl)

/-- The search is complete. -/
theorem search?_isSome_iff (hs : SameShape a b) :
    (search? a b allowed).isSome ↔
      ∃ p, Carries p a b ∧ ∀ i < a.rank, allowed i (p.apply i) = true := by
  constructor
  · intro h
    obtain ⟨images, himages⟩ := Option.isSome_iff_exists.mp h
    obtain ⟨p, -, hp⟩ := search?_eq_some hs himages
    exact ⟨p, hp⟩
  · rintro ⟨p, hc, hallowed⟩
    rw [search?, complete?_eq_find, Option.isSome_map, List.find?_isSome]
    refine ⟨p.images.toList, mem_arrangements_range.mpr ⟨hc.size, p.isArrangement⟩, ?_⟩
    exact (admissible_iff_carries hs hc.size).mpr ⟨hc, hallowed⟩

/-- A witness that is found carries `a` to `b`. -/
theorem findWitness?_eq_some (h : findWitness? a b = some p) : Carries p a b := by
  unfold findWitness? at h
  split at h
  · next hs =>
    obtain ⟨images, himages, hp⟩ := Option.bind_eq_some_iff.mp h
    obtain ⟨q, rfl, hc, -⟩ := search?_eq_some hs himages
    rw [Permutation.ofImages?, dif_pos q.isArrangement] at hp
    exact Option.some.inj hp ▸ hc
  · cases h

/-- A witness is found when there is one. -/
theorem findWitness?_eq_none_iff : findWitness? a b = none ↔ ∀ p, ¬ Carries p a b := by
  constructor
  · intro h p hc
    have hfound : (search? a b fun _ _ => true).isSome :=
      (search?_isSome_iff hc.shape).mpr ⟨p, hc, fun _ _ => rfl⟩
    obtain ⟨images, himages⟩ := Option.isSome_iff_exists.mp hfound
    obtain ⟨q, rfl, -, -⟩ := search?_eq_some hc.shape himages
    rw [findWitness?, if_pos hc.shape, himages, Option.bind_some, Permutation.ofImages?,
      dif_pos q.isArrangement] at h
    cases h
  · intro h
    cases hf : findWitness? a b with
    | none => rfl
    | some p => exact (h p (findWitness?_eq_some hf)).elim

/-! ### Orbits -/

/-- An automorphism sends `k` to `w`. -/
theorem isAutomorphic_iff {k w : Nat} (hk : k < m.rank) :
    m.isAutomorphic k w = true ↔ Identification.relabelling.SameVertex m k w := by
  rw [isAutomorphic, search?_isSome_iff ⟨rfl, rfl⟩]
  refine exists_congr fun p => ?_
  show _ ↔ True ∧ Carries p m m ∧ p.apply k = w
  rw [true_and]
  refine and_congr_right fun hc => ?_
  simp only [Bool.beq_eq_decide_eq, decide_eq_true_eq]
  constructor
  · intro h
    simpa using h k hk
  · rintro rfl i _
    simp [p.apply_injective.eq_iff]

/-- The orbits of the mutable vertices are those of the automorphisms. -/
theorem mem_automorphismOrbits {k w : Nat} (hk : k < m.rank) :
    ∃ orbit, m.automorphismOrbits[k]? = some orbit ∧
      (w ∈ orbit ↔ Identification.relabelling.SameVertex m k w) := by
  refine ⟨VertexSet.filterBelow m.rank (m.isAutomorphic k), by simp [automorphismOrbits, hk], ?_⟩
  rw [VertexSet.mem_filterBelow, isAutomorphic_iff hk, and_iff_right_of_imp]
  rintro ⟨p, -, hc, rfl⟩
  exact hc.pivot_lt.mpr hk

end ExchangeMatrix

end MutationFinite
