import MutationFinite.Matrix.Basic
import MutationFinite.Text.Lexeme

/-!
# Reading a matrix

Rows are separated by line feeds or semicolons, and a `#` opens a comment up to the line feed.
Within a row the entries are decimal numerals separated by blanks, commas and square brackets.
Blank rows are passed over, and rows that hold separators only contribute no entries; when an entry
is malformed, its row is counted among the rows that are not blank.
-/

namespace MutationFinite

namespace ExchangeMatrix

/-- The character separates entries within a row. -/
def isSeparator (c : Char) : Bool := Text.isBlank c || c == ',' || c == '[' || c == ']'

/-- The rows of a text that are not blank, without comments and outer blanks. -/
def rowTexts (text : List Char) : List (List Char) :=
  ((Text.splitWhere (· == '\n') text).flatMap fun line =>
    (Text.splitWhere (· == ';') (line.takeWhile (· != '#'))).map Text.trim).filter (· ≠ [])

/-- The entry that a numeral denotes. -/
def readEntry? (token : List Char) : Option Entry := (Text.signed? token).bind Entry.ofInt?

/-- The entries that the tokens of row `row` denote, from column `col` on. -/
def readTokens (row : Nat) : Nat → List (List Char) → Except Error (List Entry)
  | _, [] => .ok []
  | col, token :: rest =>
    match readEntry? token with
    | none => .error (.invalidEntry row col (String.ofList token))
    | some e => (readTokens row (col + 1) rest).map (e :: ·)

/-- The rows of entries that row texts denote, the first of them numbered `row`. -/
def readRows : Nat → List (List Char) → Except Error (List (List Entry))
  | _, [] => .ok []
  | row, line :: rest => do
    let entries ← readTokens row 0 (Text.pieces isSeparator line)
    let below ← readRows (row + 1) rest
    .ok (entries :: below)

/-- The matrix that a text denotes. -/
def parse (text : List Char) : Except Error ExchangeMatrix := do
  let rows := (← readRows 0 (rowTexts text)).filter (· ≠ [])
  if rows.isEmpty then .error .emptyMatrix else ofRows rows

/-- The matrix that a string denotes. -/
def ofString (s : String) : Except Error ExchangeMatrix := parse s.toList

end ExchangeMatrix

end MutationFinite
