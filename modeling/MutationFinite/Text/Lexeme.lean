/-!
# Blanks and numerals

The characters of the Unicode property White_Space separate the entries of a matrix and are trimmed
from both ends of a name.  A decimal numeral has at least one of the digits `0` to `9`, leading
zeros allowed, after an optional sign; a numeral of a natural number may be signed by `+` only.

* `trim`: a text without the blanks at its ends.
* `pieces`: the parts of a text between separators.
* `natural?`, `unsigned?`, `signed?`, `word64?`: the numbers that numerals denote.
* `isBlank_of_isWhitespace`: the ASCII blanks are among the blanks.
-/

namespace MutationFinite.Text

/-- The character has the Unicode property White_Space. -/
def isBlank (c : Char) : Bool :=
  let n := c.toNat
  (9 ≤ n && n ≤ 13) || n == 0x20 || n == 0x85 || n == 0xA0 || n == 0x1680 ||
    (0x2000 ≤ n && n ≤ 0x200A) || n == 0x2028 || n == 0x2029 || n == 0x202F || n == 0x205F ||
    n == 0x3000

/-- `s` without the blanks at its start and at its end. -/
def trim (s : List Char) : List Char :=
  ((s.dropWhile isBlank).reverse.dropWhile isBlank).reverse

/-- The parts of `s` between the characters that satisfy `p`, empty parts included. -/
def splitWhere (p : Char → Bool) : List Char → List (List Char)
  | [] => [[]]
  | c :: rest =>
    if p c then [] :: splitWhere p rest
    else match splitWhere p rest with
      | [] => [[c]]
      | part :: parts => (c :: part) :: parts

/-- The parts of `s` between the characters that satisfy `p`, without the empty ones. -/
def pieces (p : Char → Bool) (s : List Char) : List (List Char) :=
  (splitWhere p s).filter (· ≠ [])

theorem isBlank_of_isWhitespace {c : Char} (h : c.isWhitespace = true) : isBlank c = true := by
  simp only [Char.isWhitespace, Bool.or_eq_true, decide_eq_true_eq] at h
  rcases h with ((rfl | rfl) | rfl) | rfl <;> decide

/-- The number that a text of decimal digits denotes. -/
def natural? (s : List Char) : Option Nat :=
  if s ≠ [] ∧ s.all Char.isDigit then
    some (s.foldl (fun n c => 10 * n + (c.toNat - '0'.toNat)) 0)
  else none

/-- The number that a text of decimal digits denotes, after an optional `+`. -/
def unsigned? : List Char → Option Nat
  | '+' :: digits => natural? digits
  | digits => natural? digits

/-- The integer that a text of decimal digits denotes, after an optional sign. -/
def signed? : List Char → Option Int
  | '-' :: digits => (natural? digits).map fun n => -(n : Int)
  | digits => (unsigned? digits).map Int.ofNat

/-- The number below `2⁶⁴` that a text denotes. -/
def word64? (s : List Char) : Option Nat :=
  (unsigned? s).filter (· < UInt64.size)

end MutationFinite.Text
