import MutationFinite.Matrix.Component
import MutationFinite.Proofs.Mutation.Checked
import MutationFinite.Proofs.Vertices
import Mathlib.Data.Finset.Card
import Mathlib.Logic.Relation

/-!
# Components

* `Joined`, `Linked`: two tracked vertices joined by an arrow, and by a chain of arrows.
* `SearchFrontier`: what the search level by level knows of the vertices seen.
* `spread_spec`: it stays among linked vertices, and ends closed.
* `mem_component`: the component of a vertex is what it is linked to.
* `components_eq_map`: the list holds the components of the vertices that lead theirs, in order.
* `components_length_eq_one_iff`: there is one component when all tracked vertices are linked.
* `mem_components`, `forall₂_components`, `pairwise_components`: each vertex is in one component,
  and they are listed by least vertex.
* `component_eq_of_linked`, `components_eq_of_linked`: components say which vertices are linked, and
  no more.
* `certifiesInfinite_iff`: the certificate, read over the vertices; `heavyPath`: certified matrices.
-/

namespace MutationFinite

namespace ExchangeMatrix

/-- Two tracked vertices are joined by an arrow. -/
structure Joined (m : ExchangeMatrix) (i j : Nat) : Prop where
  left : i < m.trackedRank
  right : j < m.trackedRank
  arrow : m.adjacent i j = true

/-- A chain of arrows leads from one vertex to another. -/
def Linked (m : ExchangeMatrix) : Nat → Nat → Prop := Relation.ReflTransGen m.Joined

variable {a b m : ExchangeMatrix} {i j v w : Nat} {c s seen fresh : VertexSet}

theorem trackedRank_eq (h : m.rank ≤ 64) : m.trackedRank = m.rank := Nat.min_eq_left h

theorem SameShape.trackedRank_eq (h : SameShape a b) : a.trackedRank = b.trackedRank := by
  rw [trackedRank, trackedRank, h.rank_eq]

theorem trackedRank_le (m : ExchangeMatrix) : m.trackedRank ≤ m.rank := Nat.min_le_left _ _

theorem adjacent_iff : m.adjacent i j = true ↔ m.cell i j ≠ 0 ∨ m.cell j i ≠ 0 := by
  simp [adjacent]

theorem values_ne_zero_iff : m.values i j ≠ 0 ↔ m.cell i j ≠ 0 := by
  refine not_congr ⟨fun h => Entry.ext h, fun h => ?_⟩
  rw [values, h]
  rfl

theorem joined_of_values (hi : i < m.trackedRank) (hj : j < m.trackedRank)
    (h : m.values i j ≠ 0) : m.Joined i j :=
  ⟨hi, hj, adjacent_iff.mpr (.inl (values_ne_zero_iff.mp h))⟩

theorem Joined.symm (h : m.Joined i j) : m.Joined j i :=
  ⟨h.right, h.left, adjacent_iff.mpr (adjacent_iff.mp h.arrow).symm⟩

theorem Linked.symm (h : m.Linked i j) : m.Linked j i := by
  induction h with
  | refl => exact .refl
  | tail _ hjoined ih => exact .head hjoined.symm ih

theorem mem_neighbours : w ∈ m.neighbours v ↔ w < m.trackedRank ∧ m.adjacent v w = true :=
  VertexSet.mem_filterBelow

theorem mem_foldl_neighbours (l : List Nat) (t : VertexSet) :
    w ∈ l.foldl (fun t v => t ∪ m.neighbours v) t ↔ w ∈ t ∨ ∃ v ∈ l, w ∈ m.neighbours v := by
  induction l generalizing t with
  | nil => simp
  | cons v l ih => simp [ih, or_assoc]

theorem mem_neighbourhood : w ∈ m.neighbourhood s ↔ ∃ v ∈ s, w ∈ m.neighbours v := by
  rw [neighbourhood, mem_foldl_neighbours, or_iff_right (VertexSet.not_mem_empty w)]
  simp

/-- A joined vertex is in the neighbourhood. -/
theorem Joined.mem_neighbourhood (h : m.Joined v w) (hv : v ∈ s) : w ∈ m.neighbourhood s :=
  ExchangeMatrix.mem_neighbourhood.mpr ⟨v, hv, mem_neighbours.mpr ⟨h.right, h.arrow⟩⟩

/-! ### The search -/

/-- The tracked vertices outside `s`. -/
def outside (m : ExchangeMatrix) (s : VertexSet) : Finset Nat :=
  (Finset.range m.trackedRank).filter (· ∉ s)

theorem mem_outside : v ∈ m.outside s ↔ v < m.trackedRank ∧ v ∉ s := by
  simp [outside]

/-- Fewer vertices are outside when a new one is seen. -/
theorem card_outside_lt {t : VertexSet} (hv : v < m.trackedRank) (hs : v ∉ s) (ht : v ∈ t) :
    (m.outside (s ∪ t)).card < (m.outside s).card := by
  refine Finset.card_lt_card (Finset.ssubset_iff_of_subset (fun x hx => ?_) |>.mpr
    ⟨v, mem_outside.mpr ⟨hv, hs⟩, fun h => ?_⟩)
  · rw [mem_outside, VertexSet.mem_union, not_or] at hx
    exact mem_outside.mpr ⟨hx.1, hx.2.1⟩
  · exact (mem_outside.mp h).2 (VertexSet.mem_union.mpr (.inr ht))

/-- What the search knows of the vertices seen: the fresh ones are among them, and all arrows from
the others lead to vertices seen. -/
structure SearchFrontier (m : ExchangeMatrix) (seen fresh : VertexSet) : Prop where
  sub : ∀ x ∈ fresh, x ∈ seen
  lt : ∀ x ∈ seen, x < m.trackedRank
  old : ∀ x ∈ seen, x ∉ fresh → ∀ y, m.Joined x y → y ∈ seen

/-- An arrow from a vertex seen leads to one seen or to a new one. -/
theorem SearchFrontier.mem_of_joined (h : m.SearchFrontier seen fresh) (hi : i ∈ seen)
    (hj : m.Joined i j) :
    j ∈ seen ∪ (m.neighbourhood fresh \ seen) := by
  rw [VertexSet.mem_union, VertexSet.mem_diff]
  by_cases hseen : j ∈ seen
  · exact .inl hseen
  · by_cases hfresh : i ∈ fresh
    · exact .inr ⟨hj.mem_neighbourhood hfresh, hseen⟩
    · exact .inl (h.old i hi hfresh j hj)

/-- A new vertex is linked to one seen. -/
theorem SearchFrontier.of_mem_new (h : m.SearchFrontier seen fresh)
    (hv : v ∈ m.neighbourhood fresh \ seen) :
    v < m.trackedRank ∧ v ∉ seen ∧ ∃ x ∈ seen, m.Linked x v := by
  obtain ⟨hv, hout⟩ := VertexSet.mem_diff.mp hv
  obtain ⟨x, hx, hxv⟩ := mem_neighbourhood.mp hv
  obtain ⟨hv, harrow⟩ := mem_neighbours.mp hxv
  exact ⟨hv, hout, x, h.sub x hx, .single ⟨h.lt x (h.sub x hx), hv, harrow⟩⟩

theorem SearchFrontier.advance (h : m.SearchFrontier seen fresh) :
    m.SearchFrontier (seen ∪ (m.neighbourhood fresh \ seen)) (m.neighbourhood fresh \ seen) where
  sub _ hx := VertexSet.mem_union.mpr (.inr hx)
  lt x hx := (VertexSet.mem_union.mp hx).elim (h.lt x) fun hx => (h.of_mem_new hx).1
  old _ hx hout _ hj := h.mem_of_joined ((VertexSet.mem_union.mp hx).resolve_right hout) hj

/-- **The search stays among linked vertices and ends closed**, when there are steps enough for the
vertices outside. -/
theorem spread_spec (steps : Nat) (seen fresh : VertexSet) (h : m.SearchFrontier seen fresh)
    (hsteps : (m.outside seen).card ≤ steps) :
    (∀ x ∈ seen, x ∈ m.spread steps seen fresh) ∧
      (∀ y ∈ m.spread steps seen fresh, ∃ x ∈ seen, m.Linked x y) ∧
      ∀ x ∈ m.spread steps seen fresh, ∀ y, m.Joined x y → y ∈ m.spread steps seen fresh := by
  induction steps generalizing seen fresh with
  | zero =>
      refine ⟨fun x hx => hx, fun y hy => ⟨y, hy, .refl⟩, fun x _ y hxy => ?_⟩
      -- no vertex is outside
      by_contra hy
      have hmem : y ∈ m.outside seen := mem_outside.mpr ⟨hxy.right, hy⟩
      rw [Finset.card_eq_zero.mp (Nat.le_zero.mp hsteps)] at hmem
      exact absurd hmem (Finset.notMem_empty y)
  | succ steps ih =>
      rw [spread]
      split
      · next hnone =>
        refine ⟨fun x hx => hx, fun y hy => ⟨y, hy, .refl⟩, fun x hx y hxy => ?_⟩
        have hy := h.mem_of_joined hx hxy
        rw [hnone, VertexSet.mem_union] at hy
        exact hy.resolve_right (VertexSet.not_mem_empty y)
      · next hsome =>
        obtain ⟨v, hv⟩ := VertexSet.exists_mem_of_ne_empty hsome
        have hnew := h.of_mem_new hv
        have hfuel := card_outside_lt hnew.1 hnew.2.1 hv
        obtain ⟨hincl, hlinked, hend⟩ := ih _ _ h.advance (by omega)
        refine ⟨fun x hx => hincl x (VertexSet.mem_union.mpr (.inl hx)), fun y hy => ?_, hend⟩
        obtain ⟨x, hx, hxy⟩ := hlinked y hy
        rcases VertexSet.mem_union.mp hx with hx | hx
        · exact ⟨x, hx, hxy⟩
        · obtain ⟨-, -, z, hz, hzx⟩ := h.of_mem_new hx
          exact ⟨z, hz, hzx.trans hxy⟩

/-- The component of a tracked vertex is what the vertex is linked to. -/
theorem mem_component (hv : v < m.trackedRank) : w ∈ m.component v ↔ m.Linked v w := by
  have hcard : (m.outside {v}).card ≤ m.trackedRank :=
    (Finset.card_filter_le _ _).trans (Finset.card_range _).le
  have hstart : m.SearchFrontier {v} {v} :=
    ⟨fun x hx => hx, fun x hx => VertexSet.mem_singleton.mp hx ▸ hv,
      fun x hx hout => absurd hx hout⟩
  obtain ⟨hincl, hlinked, hend⟩ := spread_spec m.trackedRank {v} {v} hstart hcard
  constructor
  · intro hw
    obtain ⟨x, hx, hxw⟩ := hlinked w hw
    exact VertexSet.mem_singleton.mp hx ▸ hxw
  · intro h
    induction h with
    | refl => exact hincl v (VertexSet.mem_singleton.mpr rfl)
    | tail _ hxy ih => exact hend _ ih _ hxy

theorem Linked.lt_trackedRank (h : m.Linked v w) (hv : v < m.trackedRank) :
    w < m.trackedRank := by
  cases h with
  | refl => exact hv
  | tail _ hjoined => exact hjoined.right

/-! ### All components -/

/-- No vertex before `v` is linked to it. -/
def Leads (m : ExchangeMatrix) (v : Nat) : Prop := ∀ u < v, ¬ m.Linked u v

theorem exists_leads (m : ExchangeMatrix) (v : Nat) : ∃ u ≤ v, m.Linked u v ∧ m.Leads u := by
  induction v using Nat.strongRecOn with
  | ind v ih =>
      by_cases hv : m.Leads v
      · exact ⟨v, Nat.le_refl v, .refl, hv⟩
      · unfold Leads at hv
        push Not at hv
        obtain ⟨w, hw, hwv⟩ := hv
        obtain ⟨u, hu, huw, hleads⟩ := ih w hw
        exact ⟨u, by omega, huw.trans hwv, hleads⟩

/-- What is known after the vertices below `k`: the components found are those of the leading ones,
and the vertices seen are those that are linked to one of them. -/
structure Covers (m : ExchangeMatrix) (k : Nat) (leaders : List Nat) (seen : VertexSet) : Prop where
  increasing : leaders.Pairwise (· < ·)
  mem_iff : ∀ v, v ∈ leaders ↔ v < k ∧ m.Leads v
  seen_iff : ∀ v, v ∈ seen ↔ ∃ u < k, m.Linked u v

theorem Covers.skip {leaders : List Nat} {k : Nat} (h : m.Covers k leaders seen) (hk : k ∈ seen) :
    m.Covers (k + 1) leaders seen := by
  obtain ⟨w, hw, hwk⟩ := (h.seen_iff k).mp hk
  refine ⟨h.increasing, fun v => ?_, fun v => ?_⟩
  · rw [h.mem_iff, Nat.lt_succ_iff_lt_or_eq, or_and_right, or_iff_left]
    rintro ⟨rfl, hleads⟩
    exact hleads w hw hwk
  · rw [h.seen_iff]
    constructor
    · rintro ⟨u, hu, huv⟩
      exact ⟨u, Nat.lt_succ_of_lt hu, huv⟩
    · rintro ⟨u, hu, huv⟩
      rcases Nat.lt_succ_iff_lt_or_eq.mp hu with hu | rfl
      · exact ⟨u, hu, huv⟩
      · exact ⟨w, hw, hwk.trans huv⟩

theorem Covers.lead {leaders : List Nat} {k : Nat} (h : m.Covers k leaders seen)
    (hk : k < m.trackedRank) (hnew : k ∉ seen) :
    m.Covers (k + 1) (leaders ++ [k]) (seen ∪ m.component k) := by
  have hleads : m.Leads k := fun u hu huk => hnew ((h.seen_iff k).mpr ⟨u, hu, huk⟩)
  refine ⟨List.pairwise_append.mpr ⟨h.increasing, List.pairwise_singleton _ _, ?_⟩, fun v => ?_,
    fun v => ?_⟩
  · intro v hv w hw
    rw [List.mem_singleton.mp hw]
    exact ((h.mem_iff v).mp hv).1
  · rw [List.mem_append, h.mem_iff, List.mem_singleton, Nat.lt_succ_iff_lt_or_eq, or_and_right]
    refine or_congr_right ⟨?_, And.left⟩
    rintro rfl
    exact ⟨rfl, hleads⟩
  · rw [VertexSet.mem_union, h.seen_iff, mem_component hk]
    constructor
    · rintro (⟨u, hu, huv⟩ | hkv)
      · exact ⟨u, Nat.lt_succ_of_lt hu, huv⟩
      · exact ⟨k, Nat.lt_succ_self k, hkv⟩
    · rintro ⟨u, hu, huv⟩
      rcases Nat.lt_succ_iff_lt_or_eq.mp hu with hu | rfl
      · exact .inl ⟨u, hu, huv⟩
      · exact .inr huv

theorem covers_foldl (m : ExchangeMatrix) {k : Nat} (hk : k ≤ m.trackedRank) :
    ∃ leaders seen, (List.range k).foldl (fun (found, seen) v =>
        if v ∈ seen then (found, seen) else (m.component v :: found, seen ∪ m.component v))
        (([] : List VertexSet), (∅ : VertexSet)) =
          ((leaders.map m.component).reverse, seen) ∧ m.Covers k leaders seen := by
  induction k with
  | zero =>
      refine ⟨[], ∅, rfl, .nil, fun v => ?_, fun v => ?_⟩
      · simp
      · simp
  | succ k ih =>
      obtain ⟨leaders, seen, hfold, hcovers⟩ := ih (by omega)
      rw [List.range_succ, List.foldl_append, hfold, List.foldl_cons, List.foldl_nil]
      by_cases hmem : k ∈ seen
      · exact ⟨leaders, seen, if_pos hmem, hcovers.skip hmem⟩
      · refine ⟨leaders ++ [k], seen ∪ m.component k, (if_neg hmem).trans ?_, hcovers.lead hk hmem⟩
        rw [List.map_append, List.reverse_append]
        rfl

/-- **The list of components** holds those of the leading vertices, in increasing order. -/
theorem components_eq_map (m : ExchangeMatrix) :
    ∃ leaders : List Nat, m.components = leaders.map m.component ∧
      leaders.Pairwise (· < ·) ∧ ∀ v, v ∈ leaders ↔ v < m.trackedRank ∧ m.Leads v := by
  obtain ⟨leaders, seen, hfold, hcovers⟩ := m.covers_foldl (Nat.le_refl _)
  refine ⟨leaders, ?_, hcovers.increasing, hcovers.mem_iff⟩
  have hlist : m.components = _ := congrArg (fun s => s.1.reverse) hfold
  rw [hlist, List.reverse_reverse]

/-- When there is one component, all tracked vertices are linked. -/
theorem linked_of_components (h : m.components.length = 1) (hi : i < m.trackedRank)
    (hj : j < m.trackedRank) : m.Linked i j := by
  obtain ⟨leaders, hlist, -, hmem⟩ := m.components_eq_map
  rw [hlist, List.length_map, List.length_eq_one_iff] at h
  obtain ⟨u, rfl⟩ := h
  have hlinked : ∀ v < m.trackedRank, m.Linked u v := by
    intro v hv
    obtain ⟨w, hw, hwv, hleads⟩ := m.exists_leads v
    rwa [List.mem_singleton.mp ((hmem w).mpr ⟨by omega, hleads⟩)] at hwv
  exact (hlinked i hi).symm.trans (hlinked j hj)

/-- Vertex 0 is the only leading one when it is linked to all tracked vertices. -/
theorem components_of_linked (hpos : 0 < m.trackedRank)
    (h : ∀ v < m.trackedRank, m.Linked 0 v) : m.components.length = 1 := by
  obtain ⟨leaders, hlist, hincreasing, hmem⟩ := m.components_eq_map
  have hzero : ∀ v ∈ leaders, v = 0 := by
    intro v hv
    obtain ⟨hlt, hleads⟩ := (hmem v).mp hv
    by_contra hne
    exact hleads 0 (Nat.pos_of_ne_zero hne) (h v hlt)
  rw [hlist, List.length_map]
  rcases leaders with _ | ⟨u, _ | ⟨v, rest⟩⟩
  · exact absurd ((hmem 0).mpr ⟨hpos, nofun⟩) List.not_mem_nil
  · rfl
  · have := hzero v (by simp)
    have := List.rel_of_pairwise_cons hincreasing (List.mem_cons_self ..)
    omega

/-- There is one component when there are vertices and all of them are linked. -/
theorem components_length_eq_one_iff :
    m.components.length = 1 ↔
      0 < m.trackedRank ∧ ∀ i < m.trackedRank, ∀ j < m.trackedRank, m.Linked i j := by
  constructor
  · intro h
    refine ⟨Nat.pos_of_ne_zero fun hzero => ?_, fun i hi j hj => linked_of_components h hi hj⟩
    rw [components, hzero] at h
    cases h
  · rintro ⟨hpos, hlinked⟩
    exact components_of_linked hpos (hlinked 0 hpos)

/-- A vertex that is linked to the same vertices in two matrices has the same component. -/
theorem component_eq_of_linked (htracked : a.trackedRank = b.trackedRank)
    (h : ∀ i j, a.Linked i j ↔ b.Linked i j) (hv : v < b.trackedRank) :
    a.component v = b.component v := by
  refine VertexSet.ext_mem fun w => ?_
  rw [mem_component (htracked ▸ hv), mem_component hv, h]

/-- Matrices whose tracked vertices are linked alike have the same list of components. -/
theorem components_eq_of_linked (htracked : a.trackedRank = b.trackedRank)
    (h : ∀ i j, a.Linked i j ↔ b.Linked i j) : a.components = b.components := by
  rw [components, components, htracked]
  refine congrArg (fun s : List VertexSet × VertexSet => s.1.reverse) ?_
  refine List.foldl_ext _ _ _ fun found v hv => ?_
  simp only [component_eq_of_linked htracked h (List.mem_range.mp hv)]

/-! ### Components and their vertices -/

theorem exists_component_eq (hc : c ∈ m.components) : ∃ v < m.trackedRank, c = m.component v := by
  obtain ⟨leaders, hlist, -, hmem⟩ := m.components_eq_map
  rw [hlist] at hc
  obtain ⟨v, hv, rfl⟩ := List.mem_map.mp hc
  exact ⟨v, ((hmem v).mp hv).1, rfl⟩

theorem component_eq (hv : v < m.trackedRank) (h : m.Linked v w) :
    m.component v = m.component w := by
  refine VertexSet.ext_mem fun u => ?_
  rw [mem_component hv, mem_component (h.lt_trackedRank hv)]
  exact ⟨h.symm.trans, h.trans⟩

/-- **The components are those of the vertices**, and a vertex is in its own one only. -/
theorem mem_components (hi : i < m.trackedRank) : c ∈ m.components ∧ i ∈ c ↔ c = m.component i := by
  constructor
  · rintro ⟨hc, hic⟩
    obtain ⟨v, hv, rfl⟩ := exists_component_eq hc
    exact component_eq hv ((mem_component hv).mp hic)
  · rintro rfl
    obtain ⟨leaders, hlist, -, hmem⟩ := m.components_eq_map
    obtain ⟨u, hu, hui, hleads⟩ := m.exists_leads i
    have hlt : u < m.trackedRank := by omega
    rw [hlist]
    refine ⟨List.mem_map.mpr ⟨u, (hmem u).mpr ⟨hlt, hleads⟩, component_eq hlt hui⟩, ?_⟩
    exact (mem_component hi).mpr .refl

theorem exists_mem_components_iff : (∃ c ∈ m.components, v ∈ c) ↔ v < m.trackedRank := by
  constructor
  · rintro ⟨c, hc, hvc⟩
    obtain ⟨u, hu, rfl⟩ := exists_component_eq hc
    exact ((mem_component hu).mp hvc).lt_trackedRank hu
  · exact fun hv => ⟨_, (mem_components hv).mpr rfl⟩

/-- The components are listed by least vertex. -/
theorem forall₂_components (m : ExchangeMatrix) :
    ∃ leasts : List Nat, leasts.Pairwise (· < ·) ∧
      List.Forall₂ (fun c v => v < m.trackedRank ∧ (∀ w, w ∈ c ↔ m.Linked v w) ∧ ∀ w ∈ c, v ≤ w)
        m.components leasts := by
  obtain ⟨leaders, hlist, hincreasing, hmem⟩ := m.components_eq_map
  refine ⟨leaders, hincreasing, ?_⟩
  rw [hlist, List.forall₂_map_left_iff]
  refine List.forall₂_same.mpr fun v hv => ?_
  obtain ⟨hlt, hleads⟩ := (hmem v).mp hv
  refine ⟨hlt, fun w => mem_component hlt, fun w hw => ?_⟩
  by_contra hless
  exact hleads w (Nat.lt_of_not_le hless) ((mem_component hlt).mp hw).symm

theorem pairwise_components (m : ExchangeMatrix) :
    m.components.Pairwise (fun c d => ∀ v, ¬ (v ∈ c ∧ v ∈ d)) := by
  obtain ⟨leaders, hlist, hincreasing, hmem⟩ := m.components_eq_map
  rw [hlist, List.pairwise_map]
  refine hincreasing.imp_of_mem fun {u w} hu hw huw v hv => ?_
  obtain ⟨hw, hleads⟩ := (hmem w).mp hw
  have huv := (mem_component ((hmem u).mp hu).1).mp hv.1
  have hwv := (mem_component hw).mp hv.2
  exact hleads u huw (huv.trans hwv.symm)

/-! ### The certificate -/

theorem card_component_le (hv : v < m.trackedRank) : (m.component v).card ≤ m.trackedRank := by
  obtain ⟨l, hl, hmem, hlength⟩ := VertexSet.le_card_iff.mp (Nat.le_refl (m.component v).card)
  rw [← hlength, ← List.length_range (n := m.trackedRank)]
  refine hl.length_le_of_subset fun w hw => List.mem_range.mpr ?_
  exact ((mem_component hv).mp (hmem w hw)).lt_trackedRank hv

/-- The certificate, read over the vertices. -/
theorem certifiesInfinite_iff :
    m.certifiesInfinite = true ↔ ∃ i < m.trackedRank, ∃ j < m.trackedRank,
      5 ≤ |m.values i j * m.values j i| ∧ 3 ≤ (m.component i).card := by
  simp only [certifiesInfinite, isHeavy, Bool.and_eq_true, any_iff, decide_eq_true_eq,
    Int.abs_eq_natAbs, values]
  constructor
  · rintro ⟨-, i, hi, ⟨j, hj, hheavy⟩, hcard⟩
    exact ⟨i, hi, j, hj, by exact_mod_cast hheavy, hcard⟩
  · rintro ⟨i, hi, j, hj, hheavy, hcard⟩
    exact ⟨hcard.trans (card_component_le hi), i, hi, ⟨j, hj, by exact_mod_cast hheavy⟩, hcard⟩

/-! ### Heavy paths -/

/-- Vertices 0, 1, 2 and so on, with an arrow of weight 3 from 0 to 1 and one of weight 1 from 1 to
2. -/
def heavyPath (n : Nat) : ExchangeMatrix :=
  .ofFn n n fun i j =>
    let rows : List (List Int) := [[0, 3], [-3, 0, 1], [0, -1]]
    .ofInt ((rows.getD i []).getD j 0)

theorem values_heavyPath {n : Nat} (hi : i < n) (hj : j < n) : (heavyPath n).values i j =
    (Entry.ofInt ((([[0, 3], [-3, 0, 1], [0, -1]] : List (List Int)).getD i []).getD j 0)).val := by
  rw [values, heavyPath, cell_ofFn, if_pos ⟨hi, hj⟩]

/-- However many vertices there are besides, the heavy arrow is in a component of three. -/
theorem certifiesInfinite_heavyPath {n : Nat} (hn : 3 ≤ n) :
    (heavyPath n).certifiesInfinite = true := by
  have hrank : (heavyPath n).rank = n := Nat.min_self n
  have htracked {i : Nat} (hi : i < 3) : i < (heavyPath n).trackedRank := by
    rw [trackedRank, hrank]
    omega
  have h01 : (heavyPath n).Joined 0 1 := by
    refine joined_of_values (htracked (by decide)) (htracked (by decide)) ?_
    rw [values_heavyPath (by omega) (by omega)]
    decide
  have h12 : (heavyPath n).Joined 1 2 := by
    refine joined_of_values (htracked (by decide)) (htracked (by decide)) ?_
    rw [values_heavyPath (by omega) (by omega)]
    decide
  refine certifiesInfinite_iff.mpr ⟨0, h01.left, 1, h01.right, ?_,
    VertexSet.le_card_iff.mpr ⟨[0, 1, 2], by decide, fun v hv => ?_, rfl⟩⟩
  · rw [values_heavyPath (by omega) (by omega), values_heavyPath (by omega) (by omega)]
    decide
  · rw [mem_component h01.left]
    simp only [List.mem_cons, List.not_mem_nil, or_false] at hv
    rcases hv with rfl | rfl | rfl
    · exact .refl
    · exact .single h01
    · exact .tail (.single h01) h12

end ExchangeMatrix

end MutationFinite
