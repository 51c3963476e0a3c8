import MutationFinite.Text.Quoted

/-!
# Errors

The causes for which an operation refuses its input, and the wording of each.  `Error` holds the
causes an operation reports; `Misuse` holds the calls outside the domain of an operation that is
only defined on part of its arguments.
-/

namespace MutationFinite

/-- Why an operation has no result. -/
inductive Error where
  | mutationIndexOutOfRange (index mutableVertices : Nat)
  | vertexOutOfRange (index rows cols : Nat)
  | dimensionMismatch (expected got : Nat)
  | notSquare (rows cols : Nat)
  | emptyMatrix
  | raggedRow (row expected got : Nat)
  | invalidEntry (row col : Nat) (token : String)
  | entryOverflow (vertex : Nat)
  | tooManyMutableVertices (n : Nat)
  | permutationSetTooLarge (n weight limit : Nat)
  | unknownType (name : String)
  | catalogueMismatch (detail : String)
deriving DecidableEq, Inhabited

/-- The wording of an error. -/
def Error.message : Error → String
  | mutationIndexOutOfRange index n =>
    s!"mutation index {index} out of range: matrix has {n} mutable vertices"
  | vertexOutOfRange index rows cols =>
    s!"vertex {index} out of range for a {rows}x{cols} matrix"
  | dimensionMismatch expected got =>
    s!"dimension mismatch: expected {expected} entries, got {got}"
  | notSquare rows cols => s!"operation requires a square matrix, got {rows}x{cols}"
  | emptyMatrix => "exchange matrix is empty"
  | raggedRow row expected got => s!"row {row} has {got} entries, expected {expected}"
  | invalidEntry row col token =>
    s!"invalid entry {Text.quote token} at row {row}, column {col}"
  | entryOverflow vertex => s!"mutation at vertex {vertex} overflows the entry range"
  | tooManyMutableVertices n =>
    s!"{n} mutable vertices exceed the supported maximum of 64"
  | permutationSetTooLarge n weight limit =>
    s!"permutation set for n={n} has weight {weight}, over the cache limit {limit}"
  | unknownType name => "unknown quiver type " ++ Text.quote name
  | catalogueMismatch detail => "catalogue validation failed: " ++ detail

/-- A call outside the domain of an operation. -/
inductive Misuse where
  | cellOutOfRange (i j : Nat)
  | rowOutOfRange (i : Nat)
  | undefinedMutation (cause : Error)
  | pivotOutOfRange (k mutableVertices : Nat)
  | bufferShape
  | notPermutation (images : List Nat)
deriving DecidableEq, Inhabited

/-- The wording of a misuse, for those that have one. -/
def Misuse.message? : Misuse → Option String
  | cellOutOfRange i j => some s!"entry ({i},{j}) out of range"
  | rowOutOfRange _ => none
  | undefinedMutation cause => some cause.message
  | pivotOutOfRange k n => some s!"mutation index {k} out of range for {n} mutable vertices"
  | bufferShape => some "mutation buffer has the wrong shape"
  | notPermutation images =>
    some ("not a permutation: [" ++ ", ".intercalate (images.map toString) ++ "]")

end MutationFinite
