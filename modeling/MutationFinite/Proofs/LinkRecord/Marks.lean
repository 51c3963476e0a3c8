import MutationFinite.LinkRecord
import MutationFinite.Proofs.Iteration
import Mathlib.Data.Finset.Card
import Mathlib.Data.Finset.Image
import Mathlib.Order.Bounds.Basic

/-!
# Marks on link records

* `mem_marked_mark`, `mem_marked_markAll`: marking joins orbits to the marks.
* `nextUnmarked?_eq_some_iff`, `nextUnmarked?_eq_none_iff`, `isComplete_iff`,
  `openCount_eq_zero_iff`: what the questions say about the marks.
* `Grouped`: the orbits of a record are a partition.
* `Sound`: the vertices of an orbit are marked together, which each mark keeps.
* `openOrbits`: the orbits that are not marked; a mark takes away one of them, so that
  `Sound.exists_yields` counts the marks up to a complete record.
* `Fresh`: a record without marks, and what its marks are after marking at some vertices.
-/

namespace MutationFinite

namespace LinkRecord

variable {r : LinkRecord} {ks : List Nat} {j k w : Nat}

theorem mem_marked_mark : w ∈ (r.mark k).2.marked ↔ w ∈ r.marked ∨ w ∈ r.orbit k :=
  VertexSet.mem_union

@[simp] theorem size_markAll : (r.markAll ks).size = r.size := by
  induction ks generalizing r with
  | nil => rfl
  | cons k ks ih => exact ih (r := (r.mark k).2)

@[simp] theorem orbit_markAll : (r.markAll ks).orbit k = r.orbit k := by
  induction ks generalizing r with
  | nil => rfl
  | cons j ks ih => exact ih (r := (r.mark j).2)

/-- The marks after several are the orbits of all vertices marked at. -/
theorem mem_marked_markAll :
    w ∈ (r.markAll ks).marked ↔ w ∈ r.marked ∨ ∃ k ∈ ks, w ∈ r.orbit k := by
  induction ks generalizing r with
  | nil => simp [markAll]
  | cons k ks ih =>
      show w ∈ ((r.mark k).2.markAll ks).marked ↔ _
      rw [ih, mem_marked_mark, or_assoc, List.exists_mem_cons_iff]
      rfl

/-! ### Questions -/

theorem isMarked_iff : r.isMarked k = true ↔ k ∈ r.marked := decide_eq_true_iff

theorem mark_fst_iff : (r.mark k).1 = true ↔ k ∉ r.marked := by
  rw [mark, Bool.not_eq_true', ← Bool.not_eq_true, isMarked_iff]

theorem nextUnmarked?_eq_some {k : Nat} (h : r.nextUnmarked? = some k) :
    k < r.size ∧ k ∉ r.marked := by
  have hk := List.find?_some h
  have hmem := List.mem_of_find?_eq_some h
  simpa [isMarked] using And.intro (List.mem_range.mp hmem) hk

theorem nextUnmarked?_eq_none_iff : r.nextUnmarked? = none ↔ ∀ k < r.size, k ∈ r.marked := by
  simp [nextUnmarked?, isMarked]

theorem isComplete_iff : r.isComplete = true ↔ ∀ k < r.size, k ∈ r.marked := by
  simp [isComplete, isMarked]

theorem openCount_eq_zero_iff : r.openCount = 0 ↔ ∀ k < r.size, k ∈ r.marked := by
  simp [openCount, isMarked]

theorem nextUnmarked?_eq_some_iff :
    r.nextUnmarked? = some k ↔ IsLeast {k | k < r.size ∧ k ∉ r.marked} k := by
  simp only [nextUnmarked?, List.find?_range_eq_some, Bool.not_eq_true', ← Bool.not_eq_true,
    isMarked_iff, Bool.not_not, List.mem_range]
  constructor
  · rintro ⟨hfree, hk, hbelow⟩
    exact ⟨⟨hk, hfree⟩, fun j hj => Nat.le_of_not_lt fun hlt => hj.2 (hbelow j hlt)⟩
  · rintro ⟨⟨hk, hfree⟩, hleast⟩
    refine ⟨hfree, hk, fun j hj => ?_⟩
    by_contra hmarked
    exact Nat.not_le.mpr hj (hleast ⟨hj.trans hk, hmarked⟩)

/-! ### Orbits -/

/-- The orbits are a partition of the vertices of the record: each vertex is in its orbit, and its
orbit is that of every vertex in it. -/
structure Grouped (r : LinkRecord) : Prop where
  self_mem : ∀ k < r.size, k ∈ r.orbit k
  lt_size : ∀ k < r.size, ∀ j ∈ r.orbit k, j < r.size
  orbit_eq : ∀ k < r.size, ∀ j ∈ r.orbit k, r.orbit j = r.orbit k

theorem grouped_new (n : Nat) : (new n).Grouped where
  self_mem _ _ := VertexSet.mem_singleton.mpr rfl
  lt_size _ hk _ hj := VertexSet.mem_singleton.mp hj ▸ hk
  orbit_eq _ _ _ hj := by rw [VertexSet.mem_singleton.mp hj]

namespace Grouped

theorem mem_comm (h : r.Grouped) (hj : j < r.size) (hk : k < r.size) :
    j ∈ r.orbit k ↔ k ∈ r.orbit j :=
  ⟨fun hmem => h.orbit_eq k hk j hmem ▸ h.self_mem k hk,
    fun hmem => h.orbit_eq j hj k hmem ▸ h.self_mem j hj⟩

theorem mark (h : r.Grouped) (k : Nat) : (r.mark k).2.Grouped :=
  ⟨h.self_mem, h.lt_size, h.orbit_eq⟩

end Grouped

/-- The orbits are a partition, and the vertices of an orbit are marked together. -/
structure Sound (r : LinkRecord) : Prop where
  grouped : r.Grouped
  together : ∀ k < r.size, k ∈ r.marked → ∀ j ∈ r.orbit k, j ∈ r.marked

/-- The orbits with a vertex that is not marked. -/
def openOrbits (r : LinkRecord) : Finset VertexSet :=
  ((Finset.range r.size).filter (· ∉ r.marked)).image r.orbit

theorem mem_openOrbits {o : VertexSet} :
    o ∈ r.openOrbits ↔ ∃ k < r.size, k ∉ r.marked ∧ r.orbit k = o := by
  simp [openOrbits, and_assoc]

/-- A record is complete when no orbit is open. -/
theorem openOrbits_eq_empty_iff : r.openOrbits = ∅ ↔ ∀ k < r.size, k ∈ r.marked := by
  rw [Finset.eq_empty_iff_forall_notMem]
  constructor
  · intro h k hk
    by_contra hfree
    exact h _ (mem_openOrbits.mpr ⟨k, hk, hfree, rfl⟩)
  · intro h o ho
    obtain ⟨k, hk, hfree, -⟩ := mem_openOrbits.mp ho
    exact hfree (h k hk)

namespace Sound

theorem mark (h : r.Sound) (hk : k < r.size) : (r.mark k).2.Sound := by
  refine ⟨h.grouped.mark k, fun i hi hmarked j hj => mem_marked_mark.mpr ?_⟩
  rcases mem_marked_mark.mp hmarked with hold | hnew
  · exact .inl (h.together i hi hold j hj)
  -- the orbit of `i` is the one that was marked
  · exact .inr (h.grouped.orbit_eq k hk i hnew ▸ hj)

theorem markAll (h : r.Sound) (hks : ∀ k ∈ ks, k < r.size) : (r.markAll ks).Sound := by
  induction ks generalizing r with
  | nil => exact h
  | cons k ks ih =>
      obtain ⟨hk, hks⟩ := List.forall_mem_cons.mp hks
      exact ih (h.mark hk) hks

/-- A vertex is unmarked when its whole orbit is. -/
theorem not_mem_marked_iff (h : r.Sound) (hk : k < r.size) :
    k ∉ r.marked ↔ ∀ j ∈ r.orbit k, j ∉ r.marked := by
  refine ⟨fun hfree j hj hmarked => hfree ?_, fun hall => hall k (h.grouped.self_mem k hk)⟩
  have hjs := h.grouped.lt_size k hk j hj
  exact h.together j hjs hmarked k ((h.grouped.mem_comm hjs hk).mp hj)

/-- A mark takes away the orbit of its vertex. -/
theorem openOrbits_mark (h : r.Sound) (hk : k < r.size) :
    (r.mark k).2.openOrbits = r.openOrbits.erase (r.orbit k) := by
  ext o
  rw [Finset.mem_erase, mem_openOrbits, mem_openOrbits]
  constructor
  · rintro ⟨j, hj, hfree, rfl⟩
    rw [mem_marked_mark, not_or] at hfree
    exact ⟨fun he => hfree.2 (he ▸ h.grouped.self_mem j hj), j, hj, hfree.1, rfl⟩
  · rintro ⟨hne, j, hj, hfree, rfl⟩
    refine ⟨j, hj, fun hmarked => ?_, rfl⟩
    rcases mem_marked_mark.mp hmarked with hold | hnew
    · exact hfree hold
    · exact hne (h.grouped.orbit_eq k hk j hnew)

/-- **Marks at the least unmarked vertex, again and again, come to a complete record after as many
marks as there were open orbits.** -/
theorem exists_yields (h : r.Sound) :
    ∃ rest, Yields markNext? r rest ∧ (∀ k ∈ rest, k < r.size) ∧
      (r.markAll rest).isComplete = true ∧ rest.length = r.openOrbits.card := by
  induction hcard : r.openOrbits.card generalizing r with
  | zero =>
      have hall := openOrbits_eq_empty_iff.mp (Finset.card_eq_zero.mp hcard)
      have hnone : r.markNext? = none := by rw [markNext?, nextUnmarked?_eq_none_iff.mpr hall]; rfl
      exact ⟨[], .ends hnone, by simp, isComplete_iff.mpr hall, rfl⟩
  | succ c ih =>
      cases hnext : r.nextUnmarked? with
      | none =>
          rw [openOrbits_eq_empty_iff.mpr (nextUnmarked?_eq_none_iff.mp hnext)] at hcard
          cases hcard
      | some k =>
          obtain ⟨hk, hfree⟩ := nextUnmarked?_eq_some hnext
          have hmem : r.orbit k ∈ r.openOrbits := mem_openOrbits.mpr ⟨k, hk, hfree, rfl⟩
          have hleft : (r.mark k).2.openOrbits.card = c := by
            rw [h.openOrbits_mark hk, Finset.card_erase_of_mem hmem, hcard, Nat.add_sub_cancel]
          obtain ⟨rest, hyields, hrest, hcomplete, hlength⟩ := ih (h.mark hk) hleft
          have hturn : r.markNext? = some (k, (r.mark k).2) := by rw [markNext?, hnext]; rfl
          exact ⟨k :: rest, .item hturn hyields, List.forall_mem_cons.mpr ⟨hk, hrest⟩, hcomplete,
            congrArg Nat.succ hlength⟩

end Sound

/-! ### Marks on a record without any -/

/-- The orbits are a partition, and nothing is marked. -/
structure Fresh (r : LinkRecord) : Prop where
  grouped : r.Grouped
  marked : r.marked = ∅

namespace Fresh

theorem sound (h : r.Fresh) : r.Sound :=
  ⟨h.grouped, fun k _ hk => absurd (h.marked ▸ hk) (VertexSet.not_mem_empty k)⟩

/-- The marks are the union of the orbits of the vertices marked at. -/
theorem mem_marked_markAll (h : r.Fresh) :
    w ∈ (r.markAll ks).marked ↔ ∃ k ∈ ks, w ∈ r.orbit k := by
  rw [LinkRecord.mem_marked_markAll, h.marked, or_iff_right (VertexSet.not_mem_empty w)]

/-- A vertex is unmarked when no mark was at its orbit. -/
theorem not_mem_marked_iff (h : r.Fresh) (hks : ∀ k ∈ ks, k < r.size) (hk : k < r.size) :
    k ∉ (r.markAll ks).marked ↔ ∀ j ∈ r.orbit k, j ∉ ks := by
  rw [h.mem_marked_markAll]
  constructor
  · intro hfree j hj hmem
    exact hfree ⟨j, hmem, (h.grouped.mem_comm (hks j hmem) hk).mp hj⟩
  · rintro hall ⟨j, hmem, hj⟩
    exact hall j ((h.grouped.mem_comm (hks j hmem) hk).mpr hj) hmem

theorem nextUnmarked?_eq_some_iff (h : r.Fresh) (hks : ∀ k ∈ ks, k < r.size) :
    (r.markAll ks).nextUnmarked? = some k ↔
      IsLeast {k | k < r.size ∧ ∀ j ∈ r.orbit k, j ∉ ks} k := by
  have hset : {k | k < (r.markAll ks).size ∧ k ∉ (r.markAll ks).marked} =
      {k | k < r.size ∧ ∀ j ∈ r.orbit k, j ∉ ks} :=
    Set.ext fun k => by
      rw [Set.mem_ofPred_eq, size_markAll]
      exact and_congr_right (h.not_mem_marked_iff hks)
  rw [LinkRecord.nextUnmarked?_eq_some_iff, hset]

/-- The open orbits are those at which no mark was. -/
theorem coe_openOrbits (h : r.Fresh) (hks : ∀ k ∈ ks, k < r.size) :
    ((r.markAll ks).openOrbits : Set VertexSet) =
      {o | (∃ k < r.size, r.orbit k = o) ∧ ∀ j ∈ ks, j ∉ o} := by
  ext o
  simp only [Finset.mem_coe, mem_openOrbits, size_markAll, orbit_markAll, Set.mem_ofPred_eq]
  constructor
  · rintro ⟨k, hk, hfree, rfl⟩
    have hall := (h.not_mem_marked_iff hks hk).mp hfree
    exact ⟨⟨k, hk, rfl⟩, fun j hmem hj => hall j hj hmem⟩
  · rintro ⟨⟨k, hk, rfl⟩, hall⟩
    have hfree := (h.not_mem_marked_iff hks hk).mpr fun j hj hmem => hall j hmem hj
    exact ⟨k, hk, hfree, rfl⟩

end Fresh

end LinkRecord

end MutationFinite
