import MutationFinite.Entry
import MutationFinite.Error

/-!
# Exchange matrices

An exchange matrix with `r` rows and `c` columns belongs to a quiver with `min r c` mutable
vertices, its rank.  The rows and columns beyond the rank belong to frozen vertices.

* `ofEntries`, `ofRows`, `ofFn`, `zeros`: construction.
* `cell`: the entry at a row and a column, `0` outside the matrix; `cell_ofFn` and `ext_cell` say
  that a matrix is its shape and its cells.
* `compare`: the order by rows, columns and then entries.
-/

namespace MutationFinite

/-- A matrix of entries, kept row by row. -/
structure ExchangeMatrix where
  rows : Nat
  cols : Nat
  entries : Array Entry
  size_entries : entries.size = rows * cols
deriving DecidableEq

namespace ExchangeMatrix

instance : Hashable ExchangeMatrix where
  hash m := m.entries.foldl (fun h e => mixHash h (hash e)) (mixHash (hash m.rows) (hash m.cols))

/-- The matrix with the given entries, row by row. -/
def ofEntries (rows cols : Nat) (entries : Array Entry) : Except Error ExchangeMatrix :=
  if h : entries.size = rows * cols then .ok ⟨rows, cols, entries, h⟩
  else .error (.dimensionMismatch (rows * cols) entries.size)

/-- The matrix whose cell at row `i` and column `j` is `f i j`. -/
def ofFn (rows cols : Nat) (f : Nat → Nat → Entry) : ExchangeMatrix where
  rows := rows
  cols := cols
  entries := Array.ofFn fun p : Fin (rows * cols) => f (p / cols) (p % cols)
  size_entries := Array.size_ofFn

/-- The matrix whose entries are all `0`. -/
def zeros (rows cols : Nat) : ExchangeMatrix where
  rows := rows
  cols := cols
  entries := Array.replicate (rows * cols) 0
  size_entries := Array.size_replicate

instance : Inhabited ExchangeMatrix := ⟨zeros 0 0⟩

/-- The number of mutable vertices. -/
def rank (m : ExchangeMatrix) : Nat := min m.rows m.cols

/-- There are no frozen vertices. -/
def isSquare (m : ExchangeMatrix) : Bool := m.rows == m.cols

/-- There are no entries. -/
def isEmpty (m : ExchangeMatrix) : Bool := m.entries.isEmpty

/-- Two matrices have the same numbers of rows and columns. -/
def SameShape (a b : ExchangeMatrix) : Prop := a.rows = b.rows ∧ a.cols = b.cols

instance (a b : ExchangeMatrix) : Decidable (SameShape a b) :=
  inferInstanceAs (Decidable (_ ∧ _))

/-- The entry at row `i` and column `j`, and `0` outside the matrix. -/
@[inline] def cell (m : ExchangeMatrix) (i j : Nat) : Entry :=
  if j < m.cols then m.entries.getD (i * m.cols + j) 0 else 0

/-- The entry at row `i` and column `j` of the matrix. -/
def cell? (m : ExchangeMatrix) (i j : Nat) : Option Entry :=
  if i < m.rows ∧ j < m.cols then some (m.cell i j) else none

/-- The entry at row `i` and column `j`, which the caller promises to exist. -/
def get (m : ExchangeMatrix) (i j : Nat) : Except Misuse Entry :=
  match m.cell? i j with
  | some e => .ok e
  | none => .error (.cellOutOfRange i j)

/-- The entries of row `i`. -/
def row (m : ExchangeMatrix) (i : Nat) : List Entry := (List.range m.cols).map (m.cell i)

/-- The entries of column `j`. -/
def col (m : ExchangeMatrix) (j : Nat) : List Entry := (List.range m.rows).map (m.cell · j)

/-- The entries of row `i`, which the caller promises to exist unless rows have no entries. -/
def rowOf (m : ExchangeMatrix) (i : Nat) : Except Misuse (List Entry) :=
  if i < m.rows ∨ m.cols = 0 then .ok (m.row i) else .error (.rowOutOfRange i)

/-- The error for an index that is no row or no column. -/
def outOfRange (m : ExchangeMatrix) (index : Nat) : Error :=
  .vertexOutOfRange index m.rows m.cols

/-- The index and the length of the first row whose length is not `cols`. -/
def raggedRow? (cols : Nat) (rows : List (List Entry)) : Option (Nat × Nat) :=
  (rows.zipIdx.find? fun (row, _) => row.length ≠ cols).map fun (row, i) => (i, row.length)

/-- The matrix with the given rows, all as long as the first. -/
def ofRows (rows : List (List Entry)) : Except Error ExchangeMatrix :=
  let cols := (rows.head?.map List.length).getD 0
  match raggedRow? cols rows with
  | some (i, length) => .error (.raggedRow i cols length)
  | none => ofEntries rows.length cols rows.flatten.toArray

/-- The matrix with the cell at `(i, j)` replaced, where `j` is a column. -/
def setCell (m : ExchangeMatrix) (i j : Nat) (e : Entry) : ExchangeMatrix where
  rows := m.rows
  cols := m.cols
  entries := m.entries.setIfInBounds (i * m.cols + j) e
  size_entries := by simp [m.size_entries]

/-- The matrix with the entry at `(i, j)` replaced. -/
def withEntry (m : ExchangeMatrix) (i j : Nat) (e : Entry) : Except Error ExchangeMatrix :=
  if m.rows ≤ i then .error (m.outOfRange i)
  else if m.cols ≤ j then .error (m.outOfRange j)
  else .ok (m.setCell i j e)

/-- The matrix with an arrow of weight `e` from `i` to `j`: `e` at `(i, j)` and its opposite at
`(j, i)`. -/
def withArrow (m : ExchangeMatrix) (i j : Nat) (e : Entry) : Except Error ExchangeMatrix :=
  if m.rank ≤ i then .error (m.outOfRange i)
  else if m.rank ≤ j then .error (m.outOfRange j)
  else .ok ((m.setCell i j e).setCell j i e.neg)

/-- The mutable part `b` satisfies `b i j = - b j i`, where the least entry is its own opposite. -/
def isSkewSymmetric (m : ExchangeMatrix) : Bool :=
  Nat.all m.rank fun i _ => Nat.all m.rank fun j _ => m.cell i j == (m.cell j i).neg

/-- The largest absolute value of an entry that has one: the least entry counts for nothing. -/
def maxAbs (m : ExchangeMatrix) : Nat :=
  m.entries.foldl (fun best e => max best e.abs.val.toNat) 0

/-- The matrix with zero rows and zero columns added at its end. -/
def enlarge (m : ExchangeMatrix) (extraRows extraCols : Nat) : ExchangeMatrix :=
  ofFn (m.rows + extraRows) (m.cols + extraCols) m.cell

/-- The order by rows, then columns, then entries row by row. -/
protected def compare (a b : ExchangeMatrix) : Ordering :=
  (compare a.rows b.rows).then
    ((compare a.cols b.cols).then (List.compareLex compare a.entries.toList b.entries.toList))

instance : Ord ExchangeMatrix := ⟨ExchangeMatrix.compare⟩

/-! ### A matrix is its shape and its cells -/

theorem pos_lt_size {rows cols i j : Nat} (hi : i < rows) (hj : j < cols) :
    i * cols + j < rows * cols :=
  calc i * cols + j < i * cols + cols := by omega
    _ = (i + 1) * cols := by rw [Nat.succ_mul]
    _ ≤ rows * cols := Nat.mul_le_mul_right _ hi

theorem div_lt_rows {rows cols p : Nat} (h : p < rows * cols) : p / cols < rows :=
  Nat.div_lt_of_lt_mul (Nat.mul_comm rows cols ▸ h)

theorem mod_lt_cols {rows cols p : Nat} (h : p < rows * cols) : p % cols < cols := by
  apply Nat.mod_lt
  rcases Nat.eq_zero_or_pos cols with rfl | hc
  · simp at h
  · exact hc

@[simp] theorem rows_ofFn (rows cols : Nat) (f : Nat → Nat → Entry) :
    (ofFn rows cols f).rows = rows := rfl

@[simp] theorem cols_ofFn (rows cols : Nat) (f : Nat → Nat → Entry) :
    (ofFn rows cols f).cols = cols := rfl

theorem pos_div_mod {rows cols i j : Nat} (hi : i < rows) (hj : j < cols) :
    i * cols + j < rows * cols ∧ (i * cols + j) / cols = i ∧ (i * cols + j) % cols = j := by
  have hc : 0 < cols := by omega
  refine ⟨pos_lt_size hi hj, ?_, ?_⟩
  · rw [Nat.mul_comm, Nat.mul_add_div hc, Nat.div_eq_of_lt hj, Nat.add_zero]
  · rw [Nat.mul_comm, Nat.mul_add_mod, Nat.mod_eq_of_lt hj]

theorem cell_eq_getElem (m : ExchangeMatrix) {i j : Nat} (hi : i < m.rows) (hj : j < m.cols) :
    m.cell i j =
      have : i * m.cols + j < m.entries.size := m.size_entries ▸ pos_lt_size hi hj
      m.entries[i * m.cols + j] := by
  have : i * m.cols + j < m.entries.size := m.size_entries ▸ pos_lt_size hi hj
  simp [cell, hj, Array.getD, this]

theorem cell_eq_zero (m : ExchangeMatrix) {i j : Nat} (h : m.rows ≤ i ∨ m.cols ≤ j) :
    m.cell i j = 0 := by
  unfold cell
  split
  · next hj =>
    have hi : m.rows ≤ i := by omega
    have : ¬ i * m.cols + j < m.entries.size := by
      have := Nat.mul_le_mul_right m.cols hi
      rw [m.size_entries]
      omega
    simp [Array.getD, this]
  · rfl

theorem entry_eq_cell (m : ExchangeMatrix) {p : Nat} (h : p < m.entries.size) :
    m.entries[p] = m.cell (p / m.cols) (p % m.cols) := by
  have h' : p < m.rows * m.cols := m.size_entries ▸ h
  rw [cell_eq_getElem m (div_lt_rows h') (mod_lt_cols h')]
  congr 1
  rw [Nat.mul_comm]
  exact (Nat.div_add_mod p m.cols).symm

theorem cell_ofFn (rows cols : Nat) (f : Nat → Nat → Entry) (i j : Nat) :
    (ofFn rows cols f).cell i j = if i < rows ∧ j < cols then f i j else 0 := by
  by_cases h : i < rows ∧ j < cols
  · rw [cell_eq_getElem _ (show i < (ofFn rows cols f).rows from h.1) h.2, if_pos h]
    obtain ⟨-, hdiv, hmod⟩ := pos_div_mod h.1 h.2
    simp [ofFn, hdiv, hmod]
  · rw [if_neg h, cell_eq_zero]
    simp only [rows_ofFn, cols_ofFn]
    omega

/-- Two matrices of one shape with the same cells are equal. -/
theorem ext_cell {a b : ExchangeMatrix} (hr : a.rows = b.rows) (hc : a.cols = b.cols)
    (h : ∀ i < a.rows, ∀ j < a.cols, a.cell i j = b.cell i j) : a = b := by
  have he : a.entries = b.entries := by
    apply Array.ext
    · rw [a.size_entries, b.size_entries, hr, hc]
    · intro p hp hp'
      have hlt : p < a.rows * a.cols := a.size_entries ▸ hp
      rw [entry_eq_cell a hp, entry_eq_cell b hp', ← hc]
      exact h _ (div_lt_rows hlt) _ (mod_lt_cols hlt)
  cases a
  cases b
  simp only at hr hc he
  subst hr hc he
  rfl

end ExchangeMatrix

end MutationFinite
