import MutationFinite.Matrix.Basic

/-!
# Writing a matrix

One line a row, the entries in square brackets, one space apart and right-aligned to the width of
the widest entry.
-/

namespace MutationFinite

namespace ExchangeMatrix

/-- `s` with spaces in front up to width `w`. -/
def padLeft (w : Nat) (s : List Char) : List Char := List.replicate (w - s.length) ' ' ++ s

/-- The decimal numeral of an entry. -/
def numeral (e : Entry) : List Char :=
  if e.val < 0 then '-' :: Nat.toDigits 10 e.val.natAbs else Nat.toDigits 10 e.val.natAbs

/-- The width of the widest entry. -/
def width (m : ExchangeMatrix) : Nat :=
  m.entries.foldl (fun w e => max w (numeral e).length) 0

/-- The line of row `i`. -/
def rowText (m : ExchangeMatrix) (i : Nat) : List Char :=
  ['['] ++ ([' '].intercalate ((m.row i).map fun e => padLeft m.width (numeral e))) ++ [']']

/-- The text of a matrix. -/
def text (m : ExchangeMatrix) : List Char :=
  ['\n'].intercalate ((List.range m.rows).map m.rowText)

/-- The text of a matrix. -/
def render (m : ExchangeMatrix) : String := String.ofList m.text

instance : ToString ExchangeMatrix := ⟨render⟩

end ExchangeMatrix

end MutationFinite
