import MutationFinite.Matrix.Layout.Reader
import MutationFinite.Proofs.Text.Reading

/-!
# What the reader makes of rows

The rows of a text, their tokens, and the matrix that the reader makes of them.

* `textRows`: the rows of a text, blank ones included; `rowTokens`: the tokens of a row.
* `Readable`: all tokens of a row denote entries; `Contributes`: there is a token.
* `readRows_written_cons`: what one readable row adds to what the reader has, and to its count.
* `parse_of_readable`: a readable text denotes the matrix of its rows that contribute entries.
-/

namespace MutationFinite

namespace ExchangeMatrix

open Text (pieces splitWhere trim)

variable {rows tokens : List (List Char)} {row : List Char}

/-! ### Rows and their tokens -/

/-- The rows that the reader finds on a line. -/
def lineRows (line : List Char) : List (List Char) :=
  splitWhere (· == ';') (line.takeWhile (· != '#'))

/-- The rows that the reader finds in a text. -/
def textRows (s : List Char) : List (List Char) := (splitWhere (· == '\n') s).flatMap lineRows

/-- The rows that the reader goes over: those that are not blank, without their outer blanks. -/
def written (rows : List (List Char)) : List (List Char) := (rows.map trim).filter (· ≠ [])

theorem rowTexts_eq (s : List Char) : rowTexts s = written (textRows s) := by
  rw [written, textRows, List.map_flatMap]
  rfl

/-- The tokens of a row, each of which should denote an entry. -/
def rowTokens (row : List Char) : List (List Char) := pieces isSeparator row

theorem rowTokens_trim (row : List Char) : rowTokens (trim row) = rowTokens row :=
  Text.pieces_trim (fun c hblank => by simp [isSeparator, hblank]) row

theorem rowTokens_of_trim_eq_nil (h : trim row = []) : rowTokens row = [] := by
  rw [← rowTokens_trim, h]
  rfl

/-- The token denotes an entry. -/
def Denotes (token : List Char) : Prop := ( readEntry? token).isSome

instance (token : List Char) : Decidable (Denotes token) := inferInstanceAs (Decidable (_ = true))

/-- All tokens of the row denote entries. -/
def Readable (row : List Char) : Prop := ∀ token ∈ rowTokens row, Denotes token

instance (row : List Char) : Decidable (Readable row) := List.decidableBAll _ _

/-- The row has a token, and so an entry if it is readable. -/
def Contributes (row : List Char) : Prop := rowTokens row ≠ []

instance (row : List Char) : Decidable (Contributes row) := inferInstanceAs (Decidable (_ ≠ _))

/-- The entries of a row. -/
def rowEntries (row : List Char) : List Entry := (rowTokens row).filterMap readEntry?

theorem Readable.length_rowEntries (h : Readable row) :
    (rowEntries row).length = (rowTokens row).length := by
  rw [rowEntries, List.length_filterMap_eq_countP]
  exact List.countP_eq_length.mpr h

theorem Readable.rowEntries_ne_nil_iff (h : Readable row) : rowEntries row ≠ [] ↔ Contributes row :=
  not_congr (by rw [← List.length_eq_zero_iff, h.length_rowEntries, List.length_eq_zero_iff])

/-! ### Reading readable rows -/

theorem readTokens_eq_ok (h : ∀ token ∈ tokens, Denotes token) (n k : Nat) :
    readTokens n k tokens = .ok (tokens.filterMap readEntry?) := by
  induction tokens generalizing k with
  | nil => rfl
  | cons token rest ih =>
      obtain ⟨htoken, hrest⟩ := List.forall_mem_cons.mp h
      obtain ⟨e, he⟩ := Option.isSome_iff_exists.mp htoken
      rw [readTokens, he, List.filterMap_cons_some he]
      simp only [ih hrest, Except.map]

theorem readRows_written_of_blank (h : trim row = []) (rows : List (List Char)) (n : Nat) :
    readRows n (written (row :: rows)) = readRows n (written rows) := by
  rw [written, List.map_cons, List.filter_cons_of_neg (by simpa using h)]
  rfl

theorem readRows_written_of_not_blank (h : trim row ≠ []) (rows : List (List Char)) (n : Nat) :
    readRows n (written (row :: rows)) =
      (readTokens n 0 (rowTokens row)).bind fun entries =>
        (readRows (n + 1) (written rows)).map (entries :: ·) := by
  rw [written, List.map_cons, List.filter_cons_of_pos (by simpa using h), ← rowTokens_trim row]
  refine congrArg (Except.bind _) (funext fun entries => ?_)
  show (readRows (n + 1) (written rows)).bind _ = _
  cases readRows (n + 1) (written rows) <;> rfl

/-- **A readable row** adds its entries, and counts unless it is blank. -/
theorem readRows_written_cons (h : Readable row) (rows : List (List Char)) (n : Nat) :
    readRows n (written (row :: rows)) =
      if trim row = [] then readRows n (written rows)
      else (readRows (n + 1) (written rows)).map (rowEntries row :: ·) := by
  split
  · next hblank => exact readRows_written_of_blank hblank rows n
  · next hblank =>
      rw [readRows_written_of_not_blank hblank, readTokens_eq_ok h]
      rfl

/-- The reader leaves out rows that hold blanks only, and these have no entries. -/
theorem exists_readRows_eq (h : ∀ row ∈ rows, Readable row) (n : Nat) :
    ∃ read, readRows n (written rows) = .ok read ∧
      read.filter (· ≠ []) = (rows.map rowEntries).filter (· ≠ []) := by
  induction rows generalizing n with
  | nil => exact ⟨[], rfl, rfl⟩
  | cons row rows ih =>
      obtain ⟨hrow, hrows⟩ := List.forall_mem_cons.mp h
      rw [readRows_written_cons hrow, List.map_cons]
      split
      · next hblank =>
          obtain ⟨read, hread, hkept⟩ := ih hrows n
          have hentries : rowEntries row = [] := by
            rw [rowEntries, rowTokens_of_trim_eq_nil hblank, List.filterMap_nil]
          exact ⟨read, hread, by rw [hkept, hentries, List.filter_cons_of_neg (by simp)]⟩
      · obtain ⟨read, hread, hkept⟩ := ih hrows (n + 1)
        refine ⟨rowEntries row :: read, by rw [hread, Except.map], ?_⟩
        rw [List.filter_cons, List.filter_cons, hkept]

/-- The rows of entries are those of the rows that contribute. -/
theorem filter_map_rowEntries (h : ∀ row ∈ rows, Readable row) :
    (rows.map rowEntries).filter (· ≠ []) = (rows.filter (Contributes ·)).map rowEntries := by
  rw [List.filter_map]
  refine congrArg _ (List.filter_congr fun row hrow => ?_)
  exact decide_eq_decide.mpr (h row hrow).rowEntries_ne_nil_iff

/-- **A readable text denotes the matrix of its rows that contribute entries.** -/
theorem parse_of_readable {text : List Char} (h : ∀ row ∈ textRows text, Readable row) :
    parse text =
      if ((textRows text).filter (Contributes ·)).isEmpty then .error .emptyMatrix
      else ofRows (((textRows text).filter (Contributes ·)).map rowEntries) := by
  obtain ⟨read, hread, hkept⟩ := exists_readRows_eq h 0
  rw [filter_map_rowEntries h] at hkept
  rw [parse, rowTexts_eq, hread, ← List.isEmpty_map, ← hkept]
  rfl

end ExchangeMatrix

end MutationFinite
