import MutationFinite.Proofs.Relabelling.Succession
import MutationFinite.Relabelling.Tables

/-!
# Orbits of automorphisms

The orbits are collected from single automorphisms, and nothing is closed under composition: the
automorphisms form a group, and all of them are scanned.

* `VertexSet.toWord_union`, `toWord_singleton`: masks of 64 bits and the sets that they stand for.
* `mem_foldl_joinImages`: what a scan has joined with a vertex.
* `PermutationSet.exists_mem_automorphismOrbits`: the orbits of a set of permutations;
  `automorphismOrbits_eq` says that they are those that a search finds.
* `VertexSet.Partitions`: sets that fall into the same or disjoint ones and cover the numbers below
  a bound.
* `orbitMasks_eq`: the masks of a scan are those of the orbits.
* `automorphismOrbits_partition`: **the orbits are a partition of the mutable vertices.**
-/

namespace MutationFinite

open ExchangeMatrix

/-! ### Masks -/

namespace VertexSet

variable {s t : VertexSet} {v : Nat}

theorem toWord_union (s t : VertexSet) : (s ∪ t).toWord = s.toWord ||| t.toWord :=
  UInt64.ofNat_or s.bits t.bits

theorem toWord_singleton (h : v < 64) : ({v} : VertexSet).toWord = 1 <<< UInt64.ofNat v :=
  UInt64.ofNat_shiftLeft 1 v h

/-- A mask of 64 bits holds a set of numbers below 64. -/
theorem toNat_toWord (h : ∀ v ∈ s, v < 64) : s.toWord.toNat = s.bits := by
  have hlt : s.bits < 2 ^ 64 := Nat.lt_pow_two_of_testBit _ fun v hv => by
    have hnot : v ∉ s := fun hmem => Nat.not_lt.mpr hv (h v hmem)
    exact Bool.eq_false_iff.mpr hnot
  rw [toWord, UInt64.toNat_ofNat', Nat.mod_eq_of_lt hlt]

end VertexSet

/-! ### Scans -/

section Scan

open PermutationSet (joinImages)

variable {orbits : List VertexSet} {images : List Nat} {items : List (List Nat)} {k w : Nat}

theorem length_joinImages (h : images.length = orbits.length) :
    (joinImages orbits images).length = orbits.length := by
  rw [joinImages, List.length_zipWith, h, Nat.min_self]

/-- A list of images joins each set with one number. -/
theorem mem_joinImages (h : images.length = orbits.length) :
    (∃ o, (joinImages orbits images)[k]? = some o ∧ w ∈ o) ↔
      (∃ o, orbits[k]? = some o ∧ w ∈ o) ∨ images[k]? = some w := by
  simp only [joinImages, List.getElem?_zipWith_eq_some]
  constructor
  · rintro ⟨_, ⟨o, v, ho, hv, rfl⟩, hw⟩
    rcases VertexSet.mem_union.mp hw with hw | hw
    · exact .inl ⟨o, ho, hw⟩
    · exact .inr (VertexSet.mem_singleton.mp hw ▸ hv)
  · rintro (⟨o, ho, hw⟩ | hw)
    · obtain ⟨hk, -⟩ := List.getElem?_eq_some_iff.mp ho
      exact ⟨_, ⟨o, _, ho, List.getElem?_eq_getElem (h ▸ hk), rfl⟩,
        VertexSet.mem_union.mpr (.inl hw)⟩
    · obtain ⟨hk, -⟩ := List.getElem?_eq_some_iff.mp hw
      exact ⟨_, ⟨_, w, List.getElem?_eq_getElem (h ▸ hk), hw, rfl⟩,
        VertexSet.mem_union.mpr (.inr (VertexSet.mem_singleton.mpr rfl))⟩

theorem length_foldl_joinImages (h : ∀ images ∈ items, images.length = orbits.length) :
    (items.foldl joinImages orbits).length = orbits.length := by
  induction items generalizing orbits with
  | nil => rfl
  | cons images items ih =>
      obtain ⟨himages, hitems⟩ := List.forall_mem_cons.mp h
      have hlength := length_joinImages himages
      rw [List.foldl_cons, ih (by rwa [hlength]), hlength]

/-- **A scan joins each set with what stands at its place in the lists.** -/
theorem mem_foldl_joinImages (h : ∀ images ∈ items, images.length = orbits.length) :
    (∃ o, (items.foldl joinImages orbits)[k]? = some o ∧ w ∈ o) ↔
      (∃ o, orbits[k]? = some o ∧ w ∈ o) ∨ ∃ images ∈ items, images[k]? = some w := by
  induction items generalizing orbits with
  | nil => simp
  | cons images items ih =>
      obtain ⟨himages, hitems⟩ := List.forall_mem_cons.mp h
      rw [List.foldl_cons, ih (by rwa [length_joinImages himages]), mem_joinImages himages,
        or_assoc, List.exists_mem_cons_iff]

/-- One list of numbers below 64 joins masks as it joins the sets that they stand for. -/
theorem joinMasks_map_toWord (h : ∀ v ∈ images, v < 64) :
    joinMasks (orbits.map VertexSet.toWord) images =
      (joinImages orbits images).map VertexSet.toWord := by
  induction orbits generalizing images with
  | nil => rfl
  | cons o orbits ih =>
      cases images with
      | nil => rfl
      | cons v images =>
          obtain ⟨hv, himages⟩ := List.forall_mem_cons.mp h
          have hword : (o ∪ {v}).toWord = o.toWord ||| 1 <<< UInt64.ofNat v := by
            rw [VertexSet.toWord_union, VertexSet.toWord_singleton hv]
          exact congrArg₂ List.cons hword.symm (ih himages)

theorem foldl_joinMasks_map_toWord (h : ∀ images ∈ items, ∀ v ∈ images, v < 64) :
    items.foldl joinMasks (orbits.map VertexSet.toWord) =
      (items.foldl joinImages orbits).map VertexSet.toWord := by
  induction items generalizing orbits with
  | nil => rfl
  | cons images items ih =>
      obtain ⟨himages, hitems⟩ := List.forall_mem_cons.mp h
      rw [List.foldl_cons, List.foldl_cons, joinMasks_map_toWord himages, ih hitems]

end Scan

/-! ### Orbits -/

namespace ExchangeMatrix

variable {m : ExchangeMatrix} {k w : Nat}

/-- The permutations of a set that are automorphisms have `w` at place `k` when an automorphism
sends `k` to `w`. -/
theorem exists_automorphism_iff (hk : k < m.rank) :
    (∃ images ∈ (PermutationSet.toList ⟨m.rank⟩).filter fun images => m.mapsTo m images.toArray,
        images[k]? = some w) ↔ Identification.relabelling.SameVertex m k w := by
  simp only [List.mem_filter, PermutationSet.toList]
  constructor
  · rintro ⟨images, ⟨hmem, hmaps⟩, hw⟩
    obtain ⟨hlength, harr⟩ := mem_arrangements_range.mp hmem
    have hc : Carries ⟨images.toArray, harr⟩ m m :=
      (mapsTo_iff_carries (p := ⟨images.toArray, harr⟩) ⟨rfl, rfl⟩ hlength).mp hmaps
    refine ⟨_, trivial, hc, ?_⟩
    simp [Permutation.apply, hw]
  · rintro ⟨p, -, hc, rfl⟩
    refine ⟨p.images.toList, ⟨?_, (mapsTo_iff_carries hc.shape hc.size).mpr hc⟩, ?_⟩
    · exact mem_arrangements_range.mpr ⟨hc.size, p.isArrangement⟩
    · rw [Array.getElem?_toList, Permutation.getElem?_images (hk.trans_eq hc.size.symm)]

theorem length_automorphismOrbits (m : ExchangeMatrix) :
    m.automorphismOrbits.length = m.rank := by
  rw [automorphismOrbits, List.length_map, List.length_range]

/-- The orbit of a mutable vertex, as a search finds it. -/
theorem mem_of_getElem?_automorphismOrbits {orbit : VertexSet}
    (h : m.automorphismOrbits[k]? = some orbit) :
    k < m.rank ∧ (w ∈ orbit ↔ Identification.relabelling.SameVertex m k w) := by
  have hk : k < m.rank := by
    obtain ⟨hk, -⟩ := List.getElem?_eq_some_iff.mp h
    rwa [length_automorphismOrbits] at hk
  obtain ⟨orbit', horbit', hmem⟩ := mem_automorphismOrbits (w := w) hk
  obtain rfl := Option.some.inj (h.symm.trans horbit')
  exact ⟨hk, hmem⟩

end ExchangeMatrix

namespace PermutationSet

variable {m : ExchangeMatrix} {k w : Nat}

theorem length_of_mem_filter {p : List Nat → Bool} {images : List Nat}
    (h : images ∈ (toList ⟨m.rank⟩).filter p) :
    images.length = ((List.range m.rank).map fun k => ({k} : VertexSet)).length := by
  rw [length_of_mem_toList ⟨m.rank⟩ images (List.mem_of_mem_filter h), List.length_map,
    List.length_range]

theorem length_automorphismOrbits (m : ExchangeMatrix) :
    (automorphismOrbits ⟨m.rank⟩ m).length = m.rank := by
  rw [automorphismOrbits, length_foldl_joinImages fun _ => length_of_mem_filter, List.length_map,
    List.length_range]

/-- The orbit of a mutable vertex, as a scan of all permutations collects it. -/
theorem exists_mem_automorphismOrbits (hk : k < m.rank) :
    (∃ o, (automorphismOrbits ⟨m.rank⟩ m)[k]? = some o ∧ w ∈ o) ↔
      Identification.relabelling.SameVertex m k w := by
  rw [automorphismOrbits, mem_foldl_joinImages fun _ => length_of_mem_filter,
    exists_automorphism_iff hk]
  -- a vertex is in its mask from the start, and the identity sends it there
  refine or_iff_right_of_imp ?_
  rintro ⟨o, ho, hw⟩
  rw [List.getElem?_map, List.getElem?_range hk, Option.map_some] at ho
  obtain rfl := Option.some.inj ho
  exact VertexSet.mem_singleton.mp hw ▸ .refl m w

/-- **The scan of all permutations and the search find the same orbits.** -/
theorem automorphismOrbits_eq (m : ExchangeMatrix) :
    automorphismOrbits ⟨m.rank⟩ m = m.automorphismOrbits := by
  refine List.ext_getElem ?_ fun k hk hk' => VertexSet.ext_mem fun w => ?_
  · rw [length_automorphismOrbits, m.length_automorphismOrbits]
  · obtain ⟨hlt, hmem⟩ := mem_of_getElem?_automorphismOrbits (w := w) (List.getElem?_eq_getElem hk')
    rw [hmem, ← exists_mem_automorphismOrbits hlt]
    simp [List.getElem?_eq_getElem hk]

end PermutationSet

/-! ### The partition -/

/-- The sets hold each its own place, two of them are equal or disjoint, and together they cover the
numbers below `n`. -/
structure VertexSet.Partitions (n : Nat) (orbits : List VertexSet) : Prop where
  length : orbits.length = n
  self_mem : ∀ (k : Nat) (orbit : VertexSet), orbits[k]? = some orbit → k ∈ orbit
  eq_or_disjoint : ∀ o ∈ orbits, ∀ o' ∈ orbits, o = o' ∨ ∀ v ∈ o, v ∉ o'
  cover : ∀ v, (∃ o ∈ orbits, v ∈ o) ↔ v < n

namespace ExchangeMatrix

variable {m : ExchangeMatrix}

/-- **The orbits of the automorphisms are a partition of the mutable vertices.** -/
theorem partitions_automorphismOrbits (m : ExchangeMatrix) :
    VertexSet.Partitions m.rank m.automorphismOrbits where
  length := m.length_automorphismOrbits
  self_mem k orbit h := (mem_of_getElem?_automorphismOrbits h).2.mpr (.refl m k)
  eq_or_disjoint o ho o' ho' := by
    obtain ⟨j, hj⟩ := List.mem_iff_getElem?.mp ho
    obtain ⟨k, hk⟩ := List.mem_iff_getElem?.mp ho'
    have hmem := fun w => (mem_of_getElem?_automorphismOrbits (w := w) hj).2
    have hmem' := fun w => (mem_of_getElem?_automorphismOrbits (w := w) hk).2
    refine or_iff_not_imp_right.mpr fun hcommon => VertexSet.ext_mem fun w => ?_
    push Not at hcommon
    obtain ⟨v, hv, hv'⟩ := hcommon
    -- both are the orbit of a common vertex
    have hjk : Identification.relabelling.SameVertex m j k :=
      ((hmem v).mp hv).trans ((hmem' v).mp hv').symm
    rw [hmem, hmem']
    exact ⟨hjk.symm.trans, hjk.trans⟩
  cover v := by
    constructor
    · rintro ⟨o, ho, hv⟩
      obtain ⟨k, hk⟩ := List.mem_iff_getElem?.mp ho
      obtain ⟨hlt, hmem⟩ := mem_of_getElem?_automorphismOrbits (w := v) hk
      exact (hmem.mp hv).lt hlt
    · intro hv
      obtain ⟨orbit, horbit, hmem⟩ := mem_automorphismOrbits (w := v) hv
      exact ⟨orbit, List.mem_of_getElem? horbit, hmem.mpr (.refl m v)⟩

/-- The masks that a scan of all permutations collects are those of the orbits. -/
theorem orbitMasks_eq (hrank : m.rank ≤ 64) :
    m.orbitMasks (PermutationSet.toList ⟨m.rank⟩) =
      m.automorphismOrbits.map VertexSet.toWord := by
  have hstart : ((List.range m.rank).map fun k => (1 : UInt64) <<< UInt64.ofNat k) =
      ((List.range m.rank).map fun k => ({k} : VertexSet)).map VertexSet.toWord := by
    rw [List.map_map]
    refine List.map_congr_left fun k hk => ?_
    exact (VertexSet.toWord_singleton ((List.mem_range.mp hk).trans_le hrank)).symm
  rw [orbitMasks, hstart, foldl_joinMasks_map_toWord, ← PermutationSet.automorphismOrbits_eq,
    PermutationSet.automorphismOrbits]
  intro images himages v hv
  obtain ⟨hlength, harr⟩ := mem_arrangements_range.mp (List.mem_of_mem_filter himages)
  have hlt : v < m.rank := (harr.2 v hv).trans_eq hlength
  exact hlt.trans_le hrank

/-- **The orbit masks are a partition by the automorphisms.**  The scan of the permutations one
after another, and that of the rows of their table, collect the same masks of 64 bits, and these are
the orbits that a search finds; the orbit of a vertex has just those to which a relabelling that
leaves the matrix as it is sends the vertex; and the orbits are a partition of the mutable
vertices. -/
theorem automorphismOrbits_partition (m : ExchangeMatrix) (hrank : m.rank ≤ 64) :
    (∃ items, Yields Arrangement.turn? (some (List.range m.rank)) items ∧
      m.orbitMasks items = m.automorphismOrbits.map VertexSet.toWord) ∧
    m.orbitMasks (PermutationSet.tableRows ⟨m.rank⟩) =
      m.automorphismOrbits.map VertexSet.toWord ∧
    PermutationSet.automorphismOrbits ⟨m.rank⟩ m = m.automorphismOrbits ∧
    (∀ orbit ∈ m.automorphismOrbits, orbit.toWord.toNat = orbit.bits) ∧
    (∀ k orbit, m.automorphismOrbits[k]? = some orbit → ∀ w, w ∈ orbit ↔
      ∃ s : Permutation, s.size = m.rank ∧ m.relabel s = m ∧ s.apply k = w) ∧
    VertexSet.Partitions m.rank m.automorphismOrbits := by
  have hpartition := m.partitions_automorphismOrbits
  refine ⟨⟨_, Arrangement.yields_arrangements m.rank, orbitMasks_eq hrank⟩, ?_,
    PermutationSet.automorphismOrbits_eq m, fun orbit horbit => ?_, fun k orbit h w => ?_,
    hpartition⟩
  · rw [PermutationSet.tableRows_eq, orbitMasks_eq hrank]
  · refine VertexSet.toNat_toWord fun v hv => ?_
    exact ((hpartition.cover v).mp ⟨orbit, horbit, hv⟩).trans_le hrank
  · rw [(mem_of_getElem?_automorphismOrbits h).2]
    show (∃ p, True ∧ Carries p m m ∧ p.apply k = w) ↔ _
    simp only [true_and, carries_iff, and_assoc]

/-- A cycle of three vertices, all of which a frozen row sees alike. -/
def framedCycle : ExchangeMatrix :=
  .ofFn 4 3 fun i j =>
    let rows : List (List Int) := [[0, 1, -1], [-1, 0, 1], [1, -1, 0], [5, 5, 5]]
    .ofInt ((rows.getD i []).getD j 0)

/-- The cycle can be turned: all its vertices are one orbit. -/
theorem automorphismOrbits_partition_framedCycle :
    framedCycle.rank ≤ 64 ∧ framedCycle.orbitMasks (PermutationSet.tableRows ⟨3⟩) = [7, 7, 7] ∧
      VertexSet.Partitions 3 framedCycle.automorphismOrbits ∧
      ∃ s : Permutation, s.size = 3 ∧ framedCycle.relabel s = framedCycle ∧ s.apply 0 = 2 := by
  have horbits : framedCycle.automorphismOrbits = [⟨7⟩, ⟨7⟩, ⟨7⟩] := by decide
  obtain ⟨-, htable, -, -, hmem, hpartition⟩ :=
    automorphismOrbits_partition framedCycle (by decide)
  refine ⟨by decide, ?_, hpartition, ?_⟩
  · rw [horbits] at htable
    exact htable
  · exact (hmem 0 ⟨7⟩ (by rw [horbits]; rfl) 2).mp (by decide)

end ExchangeMatrix

end MutationFinite
