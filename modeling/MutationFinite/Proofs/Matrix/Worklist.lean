import MutationFinite.Matrix.Worklist
import MutationFinite.Proofs.Matrix.Component
import MutationFinite.Proofs.Mutation.Involution
import Mathlib.Data.Set.Card

/-!
# What a worklist finds

* `Searching`: what the loop knows of the vertices that are marked and of those on its stack.
* `Searching.mem_search_iff`, `search_eq_component`: it ends with the vertices linked to the first
  one.
* `searchedComponents_eq`, `scanCertifies_eq`: so searches find the list of components, and the scan
  of the rows is the certificate.
* `certifiesInfinite_eq_isInfiniteLocally`: on a connected skew-symmetric matrix of rank at least 3
  the certificate is the bound on single entries.
* `components_exact`: the components are the classes of linked vertices.
-/

namespace MutationFinite

namespace ExchangeMatrix

variable {m : ExchangeMatrix} {i v w start : Nat} {marked : VertexSet} {stack : List Nat}

/-! ### Marks -/

theorem mem_look (v u : Nat) (found : VertexSet × List Nat) :
    (w ∈ (m.look v found u).1 ↔ w ∈ found.1 ∨ w = u ∧ m.adjacent v w = true) ∧
      (w ∈ (m.look v found u).2 ↔
        w ∈ found.2 ∨ w = u ∧ m.adjacent v w = true ∧ w ∉ found.1) := by
  rw [look]
  by_cases hwu : w = u
  · subst hwu
    split
    all_goals
      simp only [VertexSet.mem_union, VertexSet.mem_singleton, List.mem_cons]
      tauto
  · split <;> simp [hwu]

theorem mem_foldl_look (v : Nat) (vertices : List Nat) (found : VertexSet × List Nat) :
    (w ∈ (vertices.foldl (m.look v) found).1 ↔
        w ∈ found.1 ∨ w ∈ vertices ∧ m.adjacent v w = true) ∧
      (w ∈ (vertices.foldl (m.look v) found).2 ↔
        w ∈ found.2 ∨ w ∈ vertices ∧ m.adjacent v w = true ∧ w ∉ found.1) := by
  induction vertices generalizing found with
  | nil => simp
  | cons u vertices ih =>
      rw [List.foldl_cons, (ih _).1, (ih _).2, (mem_look v u found).1, (mem_look v u found).2,
        List.mem_cons]
      constructor <;> tauto

/-- A visit marks the neighbours, and pushes those that it marks. -/
theorem mem_visit (hv : v < m.trackedRank) :
    (w ∈ (m.visit v marked stack).1 ↔ w ∈ marked ∨ m.Joined v w) ∧
      (w ∈ (m.visit v marked stack).2 ↔ w ∈ stack ∨ m.Joined v w ∧ w ∉ marked) := by
  have hjoined : m.Joined v w ↔ w ∈ List.range m.trackedRank ∧ m.adjacent v w = true := by
    rw [List.mem_range]
    exact ⟨fun h => ⟨h.right, h.arrow⟩, fun h => ⟨hv, h.1, h.2⟩⟩
  rw [visit, (mem_foldl_look v _ _).1, (mem_foldl_look v _ _).2, hjoined, and_assoc]
  exact ⟨.rfl, .rfl⟩

/-! ### The loop -/

/-- What the loop knows: the marked vertices are linked to the first one, and those whose neighbours
are not all marked are on the stack. -/
structure Searching (m : ExchangeMatrix) (start : Nat) (marked : VertexSet) (stack : List Nat) :
    Prop where
  first : start ∈ marked
  linked : ∀ x ∈ marked, m.Linked start x
  pushed : ∀ x ∈ stack, x ∈ marked
  closed : ∀ x ∈ marked, x ∉ stack → ∀ y, m.Joined x y → y ∈ marked

theorem Searching.initial (m : ExchangeMatrix) (start : Nat) :
    m.Searching start {start} [start] := by
  refine ⟨VertexSet.mem_singleton.mpr rfl, fun x hx => ?_, fun x hx => ?_, fun x hx hout => ?_⟩
  · rw [VertexSet.mem_singleton.mp hx]
    exact .refl
  · rw [List.mem_singleton.mp hx]
    exact VertexSet.mem_singleton.mpr rfl
  · exact absurd (List.mem_singleton.mpr (VertexSet.mem_singleton.mp hx)) hout

/-- **One turn of the loop** keeps what it knows. -/
theorem Searching.visit (h : m.Searching start marked (v :: stack))
    (hstart : start < m.trackedRank) :
    m.Searching start (m.visit v marked stack).1 (m.visit v marked stack).2 := by
  have hv : v ∈ marked := h.pushed v (List.mem_cons_self ..)
  have hlt : v < m.trackedRank := (h.linked v hv).lt_trackedRank hstart
  refine ⟨(mem_visit hlt).1.mpr (.inl h.first), fun x hx => ?_, fun x hx => ?_,
    fun x hx hout y hxy => ?_⟩
  · rcases (mem_visit hlt).1.mp hx with hx | hvx
    · exact h.linked x hx
    · exact (h.linked v hv).tail hvx
  · rcases (mem_visit hlt).2.mp hx with hx | ⟨hvx, -⟩
    · exact (mem_visit hlt).1.mpr (.inl (h.pushed x (List.mem_cons_of_mem v hx)))
    · exact (mem_visit hlt).1.mpr (.inr hvx)
  · rw [(mem_visit hlt).2, not_or, not_and_not_right] at hout
    obtain ⟨hstack, hold⟩ := hout
    -- a vertex off the stack was marked before, since the visit pushes what it marks
    have hmarked : x ∈ marked := ((mem_visit hlt).1.mp hx).elim id hold
    by_cases hxv : x = v
    · exact (mem_visit hlt).1.mpr (.inr (hxv ▸ hxy))
    · exact (mem_visit hlt).1.mpr (.inl
        (h.closed x hmarked (List.not_mem_cons_of_ne_of_not_mem hxv hstack) y hxy))

/-- **The loop ends with the vertices linked to the first one.** -/
theorem Searching.mem_search_iff (h : m.Searching start marked stack)
    (hstart : start < m.trackedRank) : w ∈ m.search marked stack ↔ m.Linked start w := by
  induction marked, stack using search.induct m with
  | case1 marked =>
      rw [search]
      refine ⟨h.linked w, fun hw => ?_⟩
      induction hw with
      | refl => exact h.first
      | tail _ hxy ih => exact h.closed _ ih List.not_mem_nil _ hxy
  | case2 marked v stack ih =>
      rw [search]
      exact ih (h.visit hstart)

theorem search_eq_component (hv : v < m.trackedRank) : m.search {v} [v] = m.component v := by
  refine VertexSet.ext_mem fun w => ?_
  rw [(Searching.initial m v).mem_search_iff hv, mem_component hv]

/-- **Searches find the list of components.** -/
theorem searchedComponents_eq (m : ExchangeMatrix) : m.searchedComponents = m.components := by
  rw [searchedComponents, components]
  refine congrArg (fun s : List VertexSet × VertexSet => s.1.reverse) ?_
  refine List.foldl_ext _ _ _ fun found v hv => ?_
  simp only [search_eq_component (List.mem_range.mp hv)]

/-! ### The scan -/

theorem any_components (hi : i < m.trackedRank) :
    (m.components.any fun c => decide (i ∈ c) && decide (3 ≤ c.card)) = true ↔
      3 ≤ (m.component i).card := by
  simp only [List.any_eq_true, Bool.and_eq_true, decide_eq_true_eq, ← and_assoc, mem_components hi]
  exact ⟨fun ⟨c, hc, hcard⟩ => hc ▸ hcard, fun hcard => ⟨_, rfl, hcard⟩⟩

/-- **The scan finds a heavy row in a large component**, whether the list of components has been
made before or is still to be made. -/
theorem scan_iff (rows : List Nat) (hrows : ∀ i ∈ rows, i < m.trackedRank)
    (kept : Option (List VertexSet)) (hkept : kept.getD m.searchedComponents = m.components) :
    m.scan rows kept = true ↔ ∃ i ∈ rows, m.isHeavy i = true ∧ 3 ≤ (m.component i).card := by
  induction rows generalizing kept with
  | nil => simp [scan]
  | cons i rows ih =>
      obtain ⟨hi, hrows⟩ := List.forall_mem_cons.mp hrows
      simp only [scan, hkept, List.exists_mem_cons_iff]
      split
      · next hheavy =>
          split
          · next hany => simp [hheavy, (any_components hi).mp hany]
          · next hany =>
              have hsmall : ¬ 3 ≤ (m.component i).card := fun h => hany ((any_components hi).mpr h)
              rw [ih hrows (some m.components) rfl]
              simp [hsmall]
      · next hlight =>
          rw [ih hrows kept hkept]
          simp [hlight]

/-- **The scan is the certificate.** -/
theorem scanCertifies_eq (m : ExchangeMatrix) : m.scanCertifies = m.certifiesInfinite := by
  rw [scanCertifies, certifiesInfinite]
  by_cases hthree : m.trackedRank < 3
  · rw [if_pos hthree, decide_eq_false (Nat.not_le.mpr hthree), Bool.false_and]
  · rw [if_neg hthree, decide_eq_true (Nat.not_lt.mp hthree), Bool.true_and, Bool.eq_iff_iff,
      scan_iff _ (fun i hi => List.mem_range.mp hi) none m.searchedComponents_eq, any_iff]
    simp only [List.mem_range, Bool.and_eq_true, decide_eq_true_eq]

/-! ### The bound on single entries -/

theorem three_le_val_abs_iff (e : Entry) :
    3 ≤ e.abs.val ↔ 3 ≤ |e.val| ∧ e.val ≠ -2147483648 := by
  rw [Entry.val_abs, Int.abs_eq_natAbs]
  split <;> omega

/-- The bound on single entries does not see the least one. -/
theorem isInfiniteLocally_iff : m.isInfiniteLocally = true ↔
    ∃ i < m.rows, ∃ j < m.cols, 3 ≤ |m.values i j| ∧ m.values i j ≠ -2147483648 := by
  simp only [isInfiniteLocally, Array.any_eq_true, decide_eq_true_eq, three_le_val_abs_iff, values]
  constructor
  · rintro ⟨p, hp, hlarge⟩
    have hlt : p < m.rows * m.cols := m.size_entries ▸ hp
    rw [entry_eq_cell m hp] at hlarge
    exact ⟨_, div_lt_rows hlt, _, mod_lt_cols hlt, hlarge⟩
  · rintro ⟨i, hi, j, hj, hlarge⟩
    rw [cell_eq_getElem m hi hj] at hlarge
    exact ⟨_, m.size_entries ▸ pos_lt_size hi hj, hlarge⟩

/-- An integer is at least 3 in absolute value when its square is at least 5. -/
theorem five_le_abs_mul_neg_iff {x : Int} : 5 ≤ |x * -x| ↔ 3 ≤ |x| := by
  rw [mul_neg, abs_neg, abs_mul]
  have hpos : 0 ≤ |x| := abs_nonneg x
  constructor
  · intro h
    by_contra hlt
    nlinarith
  · intro h
    nlinarith

/-- On a connected skew-symmetric matrix the two thresholds are one: the product of opposite entries
is the square of one of them. -/
theorem certifiesInfinite_eq_isInfiniteLocally (hrank : m.rank ≤ 64) (hsquare : m.isSquare = true)
    (hskew : m.SkewSymmetric) (hthree : 3 ≤ m.rank) (hone : m.components.length = 1) :
    m.certifiesInfinite = m.isInfiniteLocally := by
  have htracked : m.trackedRank = m.rank := trackedRank_eq hrank
  have hlarge : ∀ i < m.rank, 3 ≤ (m.component i).card := by
    intro i hi
    refine VertexSet.le_card_iff.mpr ⟨[0, 1, 2], by decide, fun v hv => ?_, rfl⟩
    have hv : v < m.rank := by
      simp only [List.mem_cons, List.not_mem_nil, or_false] at hv
      omega
    rw [← htracked] at hi hv
    exact (mem_component hi).mpr (linked_of_components hone hi hv)
  rw [Bool.eq_iff_iff, certifiesInfinite_iff, isInfiniteLocally_iff, htracked]
  have hsides := eq_of_beq hsquare
  have hrows : m.rows = m.rank := by rw [rank, ← hsides, Nat.min_self]
  have hcols : m.cols = m.rank := by rw [← hsides, hrows]
  rw [hrows, hcols]
  constructor
  · rintro ⟨i, hi, j, hj, hweight, -⟩
    rw [hskew j hj i hi, five_le_abs_mul_neg_iff] at hweight
    exact ⟨i, hi, j, hj, hweight, (skewSymmetric_iff.mp hskew).2 i hi j hj⟩
  · rintro ⟨i, hi, j, hj, hentry, -⟩
    refine ⟨i, hi, j, hj, ?_, hlarge i hi⟩
    rwa [hskew j hj i hi, five_le_abs_mul_neg_iff]

/-- A path of three vertices whose first arrow has the least entry in both directions. -/
def leastPath : ExchangeMatrix :=
  .ofFn 3 3 fun i j =>
    let rows : List (List Int) := [[0, -2147483648, 0], [-2147483648, 0, 1], [0, -1, 0]]
    .ofInt ((rows.getD i []).getD j 0)

/-- Where the test for skew-symmetry takes the least entry for its own opposite, the thresholds
differ. -/
example : leastPath.isSkewSymmetric = true ∧ ¬ leastPath.SkewSymmetric ∧
    leastPath.components.length = 1 ∧ leastPath.certifiesInfinite = true ∧
    leastPath.isInfiniteLocally = false :=
  ⟨by decide, fun h => absurd (h 0 (by decide) 1 (by decide)) (by decide), by decide, by decide,
    Bool.eq_false_iff.mpr (mt isInfiniteLocally_iff.mp (by decide))⟩

/-! ### Exact components -/

/-- The number of members is the size of the class. -/
theorem encard_linked (hv : v < m.trackedRank) :
    {w | m.Linked v w}.encard = (m.component v).card := by
  have hset : {w | m.Linked v w} = ((m.component v).toList.toFinset : Set Nat) := by
    ext w
    simp [mem_component hv]
  rw [hset, Set.encard_coe_eq_coe_finsetCard,
    List.toFinset_card_of_nodup (m.component v).nodup_toList]
  rfl

/-- **The certificate is computed from exact components.**  The list of components holds the classes
of the vertices that chains of arrows link, each class once and ordered by least vertex; the
certificate is a heavy pair in a class of at least three vertices; and on square skew-symmetric
matrices with one component, which are those that pass the test and do not hold the least entry, it
is the bound on single entries.  A worklist finds the same list, and a scan of the rows that makes
it when needed the same certificate. -/
theorem components_exact (m : ExchangeMatrix) (hrank : m.rank ≤ 64) :
    let linked := Relation.ReflTransGen fun i j =>
      i < m.rank ∧ j < m.rank ∧ (m.values i j ≠ 0 ∨ m.values j i ≠ 0)
    (∃ leasts : List Nat, leasts.Pairwise (· < ·) ∧
      List.Forall₂ (fun c v => v < m.rank ∧ (∀ w, w ∈ c ↔ linked v w) ∧ ∀ w ∈ c, v ≤ w)
        m.components leasts) ∧
    m.components.Pairwise (fun c d => ∀ v, ¬ (v ∈ c ∧ v ∈ d)) ∧
    (∀ v, v < m.rank ↔ ∃ c ∈ m.components, v ∈ c) ∧
    (m.certifiesInfinite = true ↔ ∃ i < m.rank, ∃ j < m.rank,
      5 ≤ |m.values i j * m.values j i| ∧ 3 ≤ {w | linked i w}.encard) ∧
    (m.isSquare = true → m.SkewSymmetric → 3 ≤ m.rank → m.components.length = 1 →
      m.certifiesInfinite = m.isInfiniteLocally) ∧
    (m.SkewSymmetric ↔
      m.isSkewSymmetric = true ∧ ∀ i < m.rank, ∀ j < m.rank, m.values i j ≠ -2147483648) ∧
    m.searchedComponents = m.components ∧ m.scanCertifies = m.certifiesInfinite := by
  intro linked
  have htracked : m.trackedRank = m.rank := trackedRank_eq hrank
  have hlinked : linked = m.Linked := by
    refine congrArg Relation.ReflTransGen (funext fun i => funext fun j => propext ?_)
    rw [values_ne_zero_iff, values_ne_zero_iff, ← adjacent_iff, ← htracked]
    exact ⟨fun ⟨hi, hj, h⟩ => ⟨hi, hj, h⟩, fun h => ⟨h.left, h.right, h.arrow⟩⟩
  rw [hlinked, ← htracked]
  refine ⟨m.forall₂_components, m.pairwise_components, fun v => exists_mem_components_iff.symm, ?_,
    fun hsquare hskew hthree hone => ?_, htracked.symm ▸ skewSymmetric_iff,
    m.searchedComponents_eq, m.scanCertifies_eq⟩
  · rw [certifiesInfinite_iff]
    refine exists_congr fun i => and_congr_right fun hi => ?_
    rw [encard_linked hi]
    norm_cast
  · rw [htracked] at hthree
    exact certifiesInfinite_eq_isInfiniteLocally hrank hsquare hskew hthree hone

/-- A path of three vertices is certified, and so has an entry of absolute value at least 3. -/
theorem components_exact_heavyPath : (heavyPath 3).rank ≤ 64 ∧
    (heavyPath 3).components.length = 1 ∧ (heavyPath 3).certifiesInfinite = true ∧
    (heavyPath 3).isInfiniteLocally = true := by
  have hone : (heavyPath 3).components.length = 1 := by decide
  have hcert : (heavyPath 3).certifiesInfinite = true := certifiesInfinite_heavyPath (by decide)
  obtain ⟨-, -, -, -, hbound, hskew, -⟩ := components_exact (heavyPath 3) (by decide)
  have hsame := hbound (by decide) (hskew.mpr (by decide)) (by decide) hone
  exact ⟨by decide, hone, hcert, hsame.symm.trans hcert⟩

end ExchangeMatrix

end MutationFinite
