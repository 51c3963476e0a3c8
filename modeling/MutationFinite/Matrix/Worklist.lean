import MutationFinite.Matrix.Component

/-!
# Components from a worklist

A component as a loop finds it that keeps a stack of vertices whose neighbours it has not looked at,
and the certificate as a scan of the rows that makes the list of components when it first needs it.

* `unseen_add_length_visit`: a vertex is pushed when it is marked, so that the vertices that are
  not marked and those on the stack become fewer with each turn of the loop.
* `search`: the loop; `searchedComponents`: a search from each vertex that no earlier one found.
* `scan`, `scanCertifies`: the certificate.
-/

namespace MutationFinite

namespace ExchangeMatrix

/-- Looks from `v` at vertex `w`, which is marked and pushed if it is joined to `v` and new. -/
def look (m : ExchangeMatrix) (v : Nat) (found : VertexSet × List Nat) (w : Nat) :
    VertexSet × List Nat :=
  if w ∉ found.1 ∧ m.adjacent v w = true then (found.1 ∪ {w}, w :: found.2) else found

/-- Looks from `v` at all tracked vertices. -/
def visit (m : ExchangeMatrix) (v : Nat) (marked : VertexSet) (stack : List Nat) :
    VertexSet × List Nat :=
  (List.range m.trackedRank).foldl (m.look v) (marked, stack)

/-- The number of vertices below `n` that are not marked. -/
def unseen (n : Nat) (marked : VertexSet) : Nat := (List.range n).countP (· ∉ marked)

theorem unseen_succ (n : Nat) (marked : VertexSet) :
    unseen (n + 1) marked = unseen n marked + if n ∈ marked then 0 else 1 := by
  rw [unseen, List.range_succ, List.countP_append, List.countP_singleton]
  by_cases h : n ∈ marked <;> simp [h, unseen]

theorem unseen_union_singleton {w : Nat} {marked : VertexSet} (hnew : w ∉ marked) (n : Nat) :
    unseen n (marked ∪ {w}) + (if w < n then 1 else 0) = unseen n marked := by
  induction n with
  | zero => rfl
  | succ n ih =>
      simp only [unseen_succ, VertexSet.mem_union, VertexSet.mem_singleton]
      by_cases hn : n = w
      · subst hn
        simp only [Nat.lt_irrefl, if_false, Nat.add_zero] at ih
        simp [ih, hnew]
      · have hlt : w < n + 1 ↔ w < n := by omega
        simp only [hn, hlt, or_false]
        omega

/-- A new mark leaves one vertex less without a mark, and one more on the stack. -/
theorem unseen_add_length_look {m : ExchangeMatrix} {n v w : Nat} (hw : w < n)
    (found : VertexSet × List Nat) :
    unseen n (m.look v found w).1 + (m.look v found w).2.length =
      unseen n found.1 + found.2.length := by
  rw [look]
  split
  · next hnew =>
      have := unseen_union_singleton hnew.1 n
      rw [if_pos hw] at this
      simp only [List.length_cons]
      omega
  · rfl

/-- Each vertex is pushed once. -/
theorem unseen_add_length_visit (m : ExchangeMatrix) (v : Nat) (marked : VertexSet)
    (stack : List Nat) :
    unseen m.trackedRank (m.visit v marked stack).1 + (m.visit v marked stack).2.length =
      unseen m.trackedRank marked + stack.length := by
  have hlooks : ∀ (vertices : List Nat) (found : VertexSet × List Nat),
      (∀ w ∈ vertices, w < m.trackedRank) →
      unseen m.trackedRank (vertices.foldl (m.look v) found).1 +
          (vertices.foldl (m.look v) found).2.length =
        unseen m.trackedRank found.1 + found.2.length := by
    intro vertices
    induction vertices with
    | nil => exact fun _ _ => rfl
    | cons w vertices ih =>
        intro found hlt
        rw [List.foldl_cons, ih _ fun u hu => hlt u (List.mem_cons_of_mem w hu),
          unseen_add_length_look (hlt w (List.mem_cons_self ..))]
  exact hlooks _ _ fun w hw => List.mem_range.mp hw

/-- Looks from the vertices on the stack and from those that are pushed meanwhile, the last one
first. -/
def search (m : ExchangeMatrix) (marked : VertexSet) (stack : List Nat) : VertexSet :=
  match stack with
  | [] => marked
  | v :: stack => m.search (m.visit v marked stack).1 (m.visit v marked stack).2
termination_by unseen m.trackedRank marked + stack.length
decreasing_by
  rw [unseen_add_length_visit, List.length_cons]
  omega

/-- The components, by least vertex: one search from each vertex that no earlier one found. -/
def searchedComponents (m : ExchangeMatrix) : List VertexSet :=
  ((List.range m.trackedRank).foldl (fun (found, seen) start =>
    if start ∈ seen then (found, seen)
    else
      let c := m.search {start} [start]
      (c :: found, seen ∪ c)) (([] : List VertexSet), (∅ : VertexSet))).1.reverse

/-- Scans rows for a heavy one in a component of at least three vertices.  The list of components
is made at the first heavy row and kept for the later ones. -/
def scan (m : ExchangeMatrix) : (rows : List Nat) → Option (List VertexSet) → Bool
  | [], _ => false
  | i :: rows, kept =>
    if m.isHeavy i then
      let components := kept.getD m.searchedComponents
      if components.any fun c => decide (i ∈ c) && decide (3 ≤ c.card) then true
      else m.scan rows (some components)
    else m.scan rows kept

/-- The certificate by a scan. -/
def scanCertifies (m : ExchangeMatrix) : Bool :=
  if m.trackedRank < 3 then false else m.scan (List.range m.trackedRank) none

end ExchangeMatrix

end MutationFinite
