import MutationFinite.Matrix.Basic
import MutationFinite.Text.Lexeme

/-!
# Simply laced Dynkin diagrams

The diagrams `A n` for `n ≥ 1`, `D n` for `n ≥ 4` and `E n` for `n` from 6 to 8, whose quivers have
finite mutation type.

* `ofString`, `name`: reading and writing the name of a diagram.
* `matrix`: the exchange matrix of a diagram with all arrows pointing away from vertex 0.
* `knownSizes?`: the sizes of the smaller mutation classes.
-/

namespace MutationFinite

/-- A simply laced diagram on `n` vertices. -/
inductive DynkinType where
  /-- A path. -/
  | a (n : Nat)
  /-- A path with a fork at one end. -/
  | d (n : Nat)
  /-- A path with a branch at its third vertex. -/
  | e (n : Nat)
deriving DecidableEq

/-- The sizes of a mutation class: of matrices, and of matrices up to relabelling. -/
structure KnownSizes where
  exact : Nat
  collapsed : Nat
deriving DecidableEq

namespace DynkinType

/-- The number of vertices. -/
def rank : DynkinType → Nat
  | a n | d n | e n => n

/-- The diagram exists. -/
def isValid : DynkinType → Bool
  | a n => decide (1 ≤ n)
  | d n => decide (4 ≤ n)
  | e n => decide (6 ≤ n ∧ n ≤ 8)

/-- The name of a diagram. -/
def name : DynkinType → String
  | a n => s!"A{n}"
  | d n => s!"D{n}"
  | e n => s!"E{n}"

/-- The diagrams on `n` vertices. -/
def ofRank (n : Nat) : List DynkinType := [a n, d n, e n].filter isValid

/-- The number of vertices on the path from vertex 0. -/
def spine : DynkinType → Nat
  | a n => n
  | d n | e n => n - 1

/-- The vertex on the path where the last vertex hangs, if it is not on the path. -/
def fork? : DynkinType → Option Nat
  | a _ => none
  | d n => some (n - 3)
  | e _ => some 2

/-- The exchange matrix of the diagram. -/
def matrix (t : DynkinType) : Except Error ExchangeMatrix := do
  if !t.isValid then throw (.unknownType t.name)
  let n := t.rank
  let path ← (List.range (t.spine - 1)).foldlM
    (fun m i => m.withArrow i (i + 1) 1) (ExchangeMatrix.zeros n n)
  match t.fork? with
  | none => return path
  | some v => path.withArrow v (n - 1) 1

/-- The diagram with a name: a letter in either case and the number of vertices, between blanks. -/
def parse? (text : List Char) : Option DynkinType := do
  let letter :: digits := Text.trim text | none
  let n ← Text.word64? digits
  let t ← match letter.toUpper with
    | 'A' => some (a n)
    | 'D' => some (d n)
    | 'E' => some (e n)
    | _ => none
  if t.isValid then some t else none

/-- The diagram with a name. -/
def ofString (s : String) : Except Error DynkinType :=
  match parse? s.toList with
  | some t => .ok t
  | none => .error (.unknownType s)

/-- The diagrams whose class sizes are known, with these sizes. -/
def sizeTable : List (DynkinType × KnownSizes) :=
  [(a 1, ⟨1, 1⟩), (a 2, ⟨2, 1⟩), (a 3, ⟨14, 4⟩), (a 4, ⟨144, 6⟩), (a 5, ⟨1980, 19⟩),
    (a 6, ⟨34320, 49⟩), (d 4, ⟨50, 6⟩), (d 5, ⟨2184, 26⟩), (d 6, ⟨40320, 80⟩), (e 6, ⟨42840, 67⟩)]

/-- The class sizes of a diagram, if they are known. -/
def knownSizes? (t : DynkinType) : Option KnownSizes := sizeTable.lookup t

end DynkinType

end MutationFinite
