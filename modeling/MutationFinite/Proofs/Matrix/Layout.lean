import MutationFinite.Matrix.Layout.Printer
import MutationFinite.Proofs.Matrix.Reading
import Mathlib.Data.List.Forall2
import Mathlib.Data.List.OfFn

/-!
# Layouts of a matrix

The texts that write a matrix, as a grammar of rows, lines and texts, and the reader on them.

* `WritesRow`, `WritesLine`, `WritesLines`: rows of entries written out, with gaps, comments and
  rows without entries as one likes; `Writes`: a text writes a matrix.
* `WritesRow.pieces`, `WritesLines.textRows`: the reader finds the rows, and the numerals in a row.
* `parse_of_writesLines`: what the reader answers is the matrix of the rows that have entries.
* `ofRows_entryRows`: the matrix of the rows of a matrix; `writes_text`: the printed text.
-/

namespace MutationFinite

namespace ExchangeMatrix

open Text (digits pieces splitWhere)

variable {m : ExchangeMatrix} {e : Entry} {entries : List Entry} {rows below : List (List Entry)}
  {c : Char} {gap token s rest comment : List Char}

/-! ### The grammar -/

/-- The character may stand between the entries of a row: white space, a comma or a bracket. -/
def Separates (c : Char) : Prop := Text.isBlank c = true ∨ c = ',' ∨ c = '[' ∨ c = ']'

instance (c : Char) : Decidable (Separates c) := inferInstanceAs (Decidable (_ ∨ _))

/-- Characters that separate entries and do not end a line. -/
def IsGap (gap : List Char) : Prop := ∀ c ∈ gap, Separates c ∧ c ≠ '\n'

instance (gap : List Char) : Decidable (IsGap gap) := List.decidableBAll _ gap

/-- The text is empty or starts with a gap. -/
def IsApart (rest : List Char) : Prop := ∀ c ∈ rest.head?, Separates c

instance : (rest : List Char) → Decidable (IsApart rest)
  | [] => .isTrue nofun
  | c :: _ => decidable_of_iff (Separates c)
    ⟨fun h _ hc => Option.some.inj hc ▸ h, fun h => h c rfl⟩

/-- A decimal numeral of an entry, with leading zeros as one likes and with `+` or without. -/
inductive IsNumeral : Entry → List Char → Prop where
  | bare {e : Entry} (zeros : Nat) (h : 0 ≤ e.val) : IsNumeral e (digits zeros e.val.natAbs)
  | plus {e : Entry} (zeros : Nat) (h : 0 ≤ e.val) : IsNumeral e ('+' :: digits zeros e.val.natAbs)
  | minus {e : Entry} (zeros : Nat) (h : e.val ≤ 0) :
      IsNumeral e ('-' :: digits zeros e.val.natAbs)

/-- The text writes one row: numerals in gaps, which may be empty before the first and after the
last one. -/
inductive WritesRow : List Entry → List Char → Prop where
  | blank {gap : List Char} (h : IsGap gap) : WritesRow [] gap
  | entry {gap token rest : List Char} {e : Entry} {entries : List Entry} (hgap : IsGap gap)
      (htoken : IsNumeral e token) (hrest : WritesRow entries rest) (hapart : IsApart rest) :
      WritesRow (e :: entries) (gap ++ (token ++ rest))

/-- The text writes one line: rows with semicolons between them, and perhaps a comment. -/
inductive WritesLine : List (List Entry) → List Char → Prop where
  | row {s : List Char} {entries : List Entry} (h : WritesRow entries s) : WritesLine [entries] s
  | comment {s comment : List Char} {entries : List Entry} (h : WritesRow entries s)
      (hcomment : '\n' ∉ comment) : WritesLine [entries] (s ++ '#' :: comment)
  | semicolon {s rest : List Char} {entries : List Entry} {rows : List (List Entry)}
      (h : WritesRow entries s) (hrest : WritesLine rows rest) :
      WritesLine (entries :: rows) (s ++ ';' :: rest)

/-- The text writes rows on lines. -/
inductive WritesLines : List (List Entry) → List Char → Prop where
  | last {s : List Char} {rows : List (List Entry)} (h : WritesLine rows s) : WritesLines rows s
  | lineFeed {s rest : List Char} {rows below : List (List Entry)} (h : WritesLine rows s)
      (hrest : WritesLines below rest) : WritesLines (rows ++ below) (s ++ '\n' :: rest)
  | carriageReturn {s rest : List Char} {rows below : List (List Entry)} (h : WritesLine rows s)
      (hrest : WritesLines below rest) : WritesLines (rows ++ below) (s ++ '\r' :: '\n' :: rest)

/-- The entries of the matrix row by row. -/
def entryRows (m : ExchangeMatrix) : List (List Entry) := (List.range m.rows).map m.row

/-- The text writes the rows of the matrix in order, and perhaps rows without entries among them. -/
def Writes (m : ExchangeMatrix) (s : List Char) : Prop :=
  ∃ rows, WritesLines rows s ∧ rows.filter (· ≠ []) = m.entryRows

/-! ### Numerals -/

theorem isSeparator_iff : isSeparator c = true ↔ Separates c := by
  simp [isSeparator, Separates, or_assoc]

theorem isSeparator_of_isDigit (h : c.isDigit = true) : isSeparator c = false := by
  have hrange : 48 ≤ c.toNat ∧ c.toNat ≤ 57 := by
    simpa [Char.isDigit, UInt32.le_iff_toNat_le] using h
  have hne : ∀ d : Char, d.toNat < 48 ∨ 57 < d.toNat → c ≠ d := by
    rintro d hd rfl
    omega
  have hblank : Text.isBlank c = false := by
    simp only [Text.isBlank, Bool.or_eq_false_iff, Bool.and_eq_false_iff, beq_eq_false_iff_ne,
      decide_eq_false_iff_not, ne_eq]
    omega
  rw [← Bool.not_eq_true, isSeparator_iff, Separates, hblank]
  simpa using ⟨hne ',' (by decide), hne '[' (by decide), hne ']' (by decide)⟩

namespace IsNumeral

theorem ne_nil (h : IsNumeral e token) : token ≠ [] := by
  cases h with
  | bare => exact Text.digits_ne_nil _ _
  | plus | minus => exact List.cons_ne_nil _ _

theorem of_mem (h : IsNumeral e token) (hc : c ∈ token) : c.isDigit = true ∨ c = '+' ∨ c = '-' := by
  cases h with
  | bare => exact .inl (Text.isDigit_of_mem_digits hc)
  | plus =>
      rcases List.mem_cons.mp hc with rfl | hc
      · exact .inr (.inl rfl)
      · exact .inl (Text.isDigit_of_mem_digits hc)
  | minus =>
      rcases List.mem_cons.mp hc with rfl | hc
      · exact .inr (.inr rfl)
      · exact .inl (Text.isDigit_of_mem_digits hc)

theorem isSeparator_eq_false (h : IsNumeral e token) : ∀ c ∈ token, isSeparator c = false := by
  intro c hc
  rcases h.of_mem hc with hdigit | rfl | rfl
  · exact isSeparator_of_isDigit hdigit
  · decide
  · decide

/-- **A numeral denotes its entry.** -/
theorem reads (h : IsNumeral e token) : readEntry? token = some e := by
  have hread : Text.signed? token = some e.val := by
    cases h with
    | bare zeros h =>
        rw [Text.signed?_of_natural? (Text.natural?_digits _ _), Int.natAbs_of_nonneg h]
    | plus zeros h =>
        rw [Text.signed?_plus (Text.natural?_digits _ _), Int.natAbs_of_nonneg h]
    | minus zeros h =>
        rw [Text.signed?_minus (Text.natural?_digits _ _), Int.ofNat_natAbs_of_nonpos h,
          Int.neg_neg]
  rw [ readEntry?, hread, Option.bind_some, Entry.ofInt?_val]

end IsNumeral

/-! ### Rows -/

/-- The character ends no row. -/
def InRow (c : Char) : Prop := c ≠ '\n' ∧ c ≠ '#' ∧ c ≠ ';'

instance (c : Char) : Decidable (InRow c) := inferInstanceAs (Decidable (_ ∧ _))

theorem IsGap.isSeparator (h : IsGap gap) : ∀ c ∈ gap, isSeparator c = true :=
  fun c hc => isSeparator_iff.mpr (h c hc).1

theorem IsGap.inRow (h : IsGap gap) : ∀ c ∈ gap, InRow c := by
  intro c hc
  refine ⟨(h c hc).2, ?_, ?_⟩ <;> rintro rfl <;> exact absurd (h _ hc).1 (by decide)

theorem IsNumeral.inRow (h : IsNumeral e token) : ∀ c ∈ token, InRow c := by
  intro c hc
  rcases h.of_mem hc with hdigit | rfl | rfl
  · refine ⟨?_, ?_, ?_⟩ <;> rintro rfl <;> cases hdigit
  · decide
  · decide

theorem WritesRow.inRow (h : WritesRow entries s) : ∀ c ∈ s, InRow c := by
  induction h with
  | blank hgap => exact hgap.inRow
  | entry hgap htoken _ _ ih =>
      exact List.forall_mem_append.mpr
        ⟨hgap.inRow, List.forall_mem_append.mpr ⟨htoken.inRow, ih⟩⟩

/-- **The pieces of a row are its numerals.** -/
theorem WritesRow.pieces (h : WritesRow entries s) :
    List.Forall₂ IsNumeral entries (pieces isSeparator s) := by
  induction h with
  | blank hgap =>
      rw [Text.pieces_of_gap hgap.isSeparator]
      exact .nil
  | entry hgap htoken _ hapart ih =>
      rw [Text.pieces_gap_append hgap.isSeparator, Text.pieces_word_append htoken.ne_nil
        htoken.isSeparator_eq_false fun c hc => isSeparator_iff.mpr (hapart c hc)]
      exact .cons htoken ih

theorem denotes_of_isNumeral {tokens : List (List Char)}
    (h : List.Forall₂ IsNumeral entries tokens) :
    (∀ token ∈ tokens, Denotes token) ∧ tokens.filterMap readEntry? = entries := by
  induction h with
  | nil => exact ⟨nofun, rfl⟩
  | cons hnumeral _ ih =>
      rw [List.filterMap_cons_some hnumeral.reads, ih.2]
      exact ⟨List.forall_mem_cons.mpr ⟨by rw [Denotes, hnumeral.reads, Option.isSome_some], ih.1⟩,
        rfl⟩

theorem WritesRow.readable (h : WritesRow entries s) : Readable s :=
  (denotes_of_isNumeral h.pieces).1

theorem WritesRow.rowEntries (h : WritesRow entries s) : rowEntries s = entries :=
  (denotes_of_isNumeral h.pieces).2

/-! ### Lines and texts -/

/-- A gap may follow a row. -/
theorem WritesRow.append_gap (h : WritesRow entries s) (hgap : IsGap gap) :
    WritesRow entries (s ++ gap) := by
  induction h with
  | blank hbefore => exact .blank (List.forall_mem_append.mpr ⟨hbefore, hgap⟩)
  | @entry before token rest e entries hbefore htoken _ hapart ih =>
      rw [List.append_assoc, List.append_assoc]
      refine .entry hbefore htoken ih ?_
      cases rest with
      | nil => exact fun c hc => (hgap c (List.mem_of_mem_head? hc)).1
      | cons => exact hapart

/-- A carriage return may end a line; after a comment it belongs to that. -/
theorem WritesLine.append_carriageReturn (h : WritesLine rows s) :
    WritesLine rows (s ++ ['\r']) := by
  induction h with
  | row h => exact .row (h.append_gap (by decide))
  | comment h hcomment =>
      rw [List.append_assoc, List.cons_append]
      exact .comment h (by simpa using hcomment)
  | semicolon h _ ih =>
      rw [List.append_assoc, List.cons_append]
      exact .semicolon h ih

theorem WritesLine.ne_of_mem (h : WritesLine rows s) : ∀ c ∈ s, c ≠ '\n' := by
  have hrow : ∀ {entries s}, WritesRow entries s → ∀ c ∈ s, c ≠ '\n' :=
    fun h c hc => (h.inRow c hc).1
  induction h with
  | row h => exact hrow h
  | comment h hcomment =>
      refine List.forall_mem_append.mpr ⟨hrow h, List.forall_mem_cons.mpr ⟨by decide, ?_⟩⟩
      rintro c hc rfl
      exact hcomment hc
  | semicolon h _ ih =>
      exact List.forall_mem_append.mpr ⟨hrow h, List.forall_mem_cons.mpr ⟨by decide, ih⟩⟩

/-- **The reader finds the rows of a line.** -/
theorem WritesLine.lineRows (h : WritesLine rows s) : List.Forall₂ WritesRow rows (lineRows s) := by
  have hdata : ∀ {entries s}, WritesRow entries s → ∀ c ∈ s, (c != '#') = true :=
    fun h c hc => bne_iff_ne.mpr (h.inRow c hc).2.1
  have hpart : ∀ {entries s}, WritesRow entries s → ∀ c ∈ s, (c == ';') = false :=
    fun h c hc => beq_eq_false_iff_ne.mpr (h.inRow c hc).2.2
  induction h with
  | row h =>
      rw [ExchangeMatrix.lineRows, List.takeWhile_eq_self_iff.mpr (hdata h),
        Text.splitWhere_of_forall (hpart h)]
      exact .cons h .nil
  | comment h _ =>
      rw [ExchangeMatrix.lineRows, List.takeWhile_append_of_pos (hdata h),
        List.takeWhile_cons_of_neg (by decide), List.append_nil,
        Text.splitWhere_of_forall (hpart h)]
      exact .cons h .nil
  | semicolon h _ ih =>
      rw [ExchangeMatrix.lineRows, List.takeWhile_append_of_pos (hdata h),
        List.takeWhile_cons_of_pos (by decide), Text.splitWhere_append_cons (hpart h) (by decide)]
      exact .cons h ih

/-- **The reader finds the rows of a text.** -/
theorem WritesLines.textRows (h : WritesLines rows s) :
    List.Forall₂ WritesRow rows (textRows s) := by
  have hline : ∀ {rows s}, WritesLine rows s → ∀ c ∈ s, (c == '\n') = false :=
    fun h c hc => beq_eq_false_iff_ne.mpr (h.ne_of_mem c hc)
  induction h with
  | last h =>
      rw [ExchangeMatrix.textRows, Text.splitWhere_of_forall (hline h), List.flatMap_singleton]
      exact h.lineRows
  | lineFeed h _ ih =>
      rw [ExchangeMatrix.textRows, Text.splitWhere_append_cons (hline h) (by decide),
        List.flatMap_cons]
      exact List.rel_append h.lineRows ih
  | carriageReturn h _ ih =>
      -- lines are split at the line feed, so that the carriage return stays on the line
      have h := h.append_carriageReturn
      rw [List.append_cons, ExchangeMatrix.textRows,
        Text.splitWhere_append_cons (hline h) (by decide), List.flatMap_cons]
      exact List.rel_append h.lineRows ih

theorem readable_of_writesRow {texts : List (List Char)} (h : List.Forall₂ WritesRow rows texts) :
    (∀ text ∈ texts, Readable text) ∧ texts.map rowEntries = rows := by
  induction h with
  | nil => exact ⟨nofun, rfl⟩
  | cons hrow _ ih =>
      rw [List.map_cons, hrow.rowEntries, ih.2]
      exact ⟨List.forall_mem_cons.mpr ⟨hrow.readable, ih.1⟩, rfl⟩

/-- **On a text of rows the reader answers the matrix of those that have entries.** -/
theorem parse_of_writesLines (h : WritesLines rows s) :
    parse s =
      if (rows.filter (· ≠ [])).isEmpty then .error .emptyMatrix
      else ofRows (rows.filter (· ≠ [])) := by
  obtain ⟨hreadable, hentries⟩ := readable_of_writesRow h.textRows
  rw [parse_of_readable hreadable, ← List.isEmpty_map, ← filter_map_rowEntries hreadable, hentries]

/-! ### Matrices of rows -/

theorem length_entryRows (m : ExchangeMatrix) : m.entryRows.length = m.rows := by
  rw [entryRows, List.length_map, List.length_range]

theorem length_row (m : ExchangeMatrix) (i : Nat) : (m.row i).length = m.cols := by
  rw [row, List.length_map, List.length_range]

theorem row_ne_nil (hcols : 0 < m.cols) (i : Nat) : m.row i ≠ [] :=
  List.ne_nil_of_length_pos (by rwa [length_row])

theorem map_range_eq_ofFn {α : Type} (n : Nat) (f : Nat → α) :
    (List.range n).map f = List.ofFn fun i : Fin n => f i := by
  apply List.ext_getElem <;> simp

/-- The rows one after another are the entries. -/
theorem flatten_entryRows (m : ExchangeMatrix) : m.entryRows.flatten = m.entries.toList := by
  have hentries : m.entries.toList = List.ofFn fun p : Fin (m.rows * m.cols) =>
      m.cell (p / m.cols) (p % m.cols) := by
    refine List.ext_getElem (by simp [m.size_entries]) fun p hp hp' => ?_
    rw [List.getElem_ofFn, Array.getElem_toList, entry_eq_cell]
  rw [hentries, List.ofFn_mul, entryRows, map_range_eq_ofFn]
  refine congrArg List.flatten (congrArg List.ofFn (funext fun i => ?_))
  rw [row, map_range_eq_ofFn]
  refine congrArg List.ofFn (funext fun j => ?_)
  obtain ⟨-, hdiv, hmod⟩ := pos_div_mod i.isLt j.isLt
  show m.cell i j = m.cell ((i * m.cols + j) / m.cols) ((i * m.cols + j) % m.cols)
  rw [hdiv, hmod]

theorem raggedRow?_entryRows (m : ExchangeMatrix) : raggedRow? m.cols m.entryRows = none := by
  rw [raggedRow?, Option.map_eq_none_iff, List.find?_eq_none]
  rintro ⟨row, i⟩ hrow
  obtain ⟨v, -, rfl⟩ := List.mem_map.mp (List.fst_mem_of_mem_zipIdx hrow)
  simp [length_row]

/-- **The matrix of the rows of a matrix** is the matrix. -/
theorem ofRows_entryRows (hrows : 0 < m.rows) : ofRows m.entryRows = .ok m := by
  have hcols : (m.entryRows.head?.map List.length).getD 0 = m.cols := by
    rw [entryRows, List.head?_map, List.head?_range, if_neg (by omega)]
    exact m.length_row 0
  simp only [ofRows]
  rw [hcols, raggedRow?_entryRows]
  simp only [length_entryRows, flatten_entryRows]
  rw [ofEntries, dif_pos m.size_entries]

/-! ### The printed text -/

theorem isNumeral_numeral (e : Entry) : IsNumeral e (numeral e) := by
  have hdigits : Nat.toDigits 10 e.val.natAbs = digits 0 e.val.natAbs := rfl
  rw [numeral, hdigits]
  split
  · next h => exact .minus 0 h.le
  · next h => exact .bare 0 (Int.not_lt.mp h)

theorem IsNumeral.writesRow {pad : Nat} (h : IsNumeral e token) (hrest : WritesRow entries rest)
    (hapart : IsApart rest) :
    WritesRow (e :: entries) (List.replicate pad ' ' ++ (token ++ rest)) :=
  .entry (fun c hc => by rw [List.eq_of_mem_replicate hc]; decide) h hrest hapart

/-- A gap may stand before a row. -/
theorem WritesRow.gap_append (h : WritesRow entries s) (hgap : IsGap gap) :
    WritesRow entries (gap ++ s) := by
  cases h with
  | blank hbefore => exact .blank (List.forall_mem_append.mpr ⟨hgap, hbefore⟩)
  | entry hbefore htoken hrest hapart =>
      rw [← List.append_assoc]
      exact .entry (List.forall_mem_append.mpr ⟨hgap, hbefore⟩) htoken hrest hapart

/-- Entries that are padded to some width and written one space apart. -/
theorem writesRow_intercalate (width : Nat) (entries : List Entry) :
    WritesRow entries
      ([' '].intercalate (entries.map fun e => padLeft width (numeral e)) ++ [']']) := by
  induction entries with
  | nil => exact .blank (show IsGap [']'] by decide)
  | cons e entries ih =>
      cases entries with
      | nil =>
          rw [List.map_singleton, List.intercalate_singleton, padLeft, List.append_assoc]
          exact (isNumeral_numeral e).writesRow ih (by decide)
      | cons f entries =>
          rw [List.map_cons, List.intercalate_cons_of_ne_nil (by simp), padLeft]
          simp only [List.append_assoc]
          have hrest := ih.gap_append (show IsGap [' '] by decide)
          exact (isNumeral_numeral e).writesRow hrest fun c hc => Option.some.inj hc ▸ by decide

theorem writesRow_rowText (m : ExchangeMatrix) (i : Nat) : WritesRow (m.row i) (m.rowText i) := by
  rw [rowText, List.append_assoc]
  exact (writesRow_intercalate _ _).gap_append (by decide)

theorem writesLines_intercalate {texts : List (List Char)}
    (h : List.Forall₂ WritesRow rows texts) (hne : rows ≠ []) :
    WritesLines rows (['\n'].intercalate texts) := by
  induction h with
  | nil => exact absurd rfl hne
  | @cons entries text rows texts hrow hrows ih =>
      cases hrows with
      | nil =>
          rw [List.intercalate_singleton]
          exact .last (.row hrow)
      | cons =>
          rw [List.intercalate_cons_of_ne_nil (List.cons_ne_nil _ _), List.append_assoc]
          exact .lineFeed (.row hrow) (ih (List.cons_ne_nil _ _))

theorem filter_entryRows (hcols : 0 < m.cols) : m.entryRows.filter (· ≠ []) = m.entryRows := by
  refine List.filter_eq_self.mpr fun row hrow => ?_
  obtain ⟨i, -, rfl⟩ := List.mem_map.mp hrow
  simpa using row_ne_nil hcols i

theorem entryRows_ne_nil (hrows : 0 < m.rows) : m.entryRows ≠ [] :=
  List.ne_nil_of_length_pos (by rwa [length_entryRows])

/-- **The printed text writes the matrix.** -/
theorem writes_text (hrows : 0 < m.rows) (hcols : 0 < m.cols) : m.Writes m.text := by
  refine ⟨m.entryRows, writesLines_intercalate ?_ (entryRows_ne_nil hrows), filter_entryRows hcols⟩
  rw [entryRows, List.forall₂_map_left_iff, List.forall₂_map_right_iff]
  exact List.forall₂_same.mpr fun i _ => m.writesRow_rowText i

/-! ### Reading undoes writing -/

theorem parse_of_writes (hrows : 0 < m.rows) (h : m.Writes s) : parse s = .ok m := by
  obtain ⟨rows, hs, hkept⟩ := h
  rw [parse_of_writesLines hs, hkept, if_neg (by simpa using entryRows_ne_nil hrows),
    ofRows_entryRows hrows]

/-- **Reading undoes every layout**, that of the printed text among them. -/
theorem ofString_of_writes (m : ExchangeMatrix) (hrows : 0 < m.rows) (hcols : 0 < m.cols) :
    (∀ s : String, m.Writes s.toList → ofString s = .ok m) ∧
      m.Writes (toString m).toList ∧ ofString (toString m) = .ok m := by
  have htext : m.Writes (toString m).toList := by
    show m.Writes (String.ofList m.text).toList
    rw [String.toList_ofList]
    exact writes_text hrows hcols
  exact ⟨fun s => parse_of_writes hrows, htext, parse_of_writes hrows htext⟩

/-- An arrow from vertex 0 to 1, and the least entry at the other end. -/
def leastPair : ExchangeMatrix :=
  .ofFn 2 2 fun i j =>
    let rows : List (List Int) := [[0, 1], [-2147483648, 0]]
    .ofInt ((rows.getD i []).getD j 0)

/-- A comment, signs, a leading zero and a row without entries make no difference. -/
theorem ofString_of_writes_leastPair :
    0 < leastPair.rows ∧ 0 < leastPair.cols ∧
      ofString "# two; rows\r\n[[0,+01] ;\n-2147483648 -0]]" = .ok leastPair ∧
      ofString (toString leastPair) = .ok leastPair := by
  obtain ⟨hread, -, hback⟩ := ofString_of_writes leastPair (by decide) (by decide)
  refine ⟨by decide, by decide, hread _ ?_, hback⟩
  have hcomment : WritesLine [[]] ([] ++ '#' :: " two; rows".toList) :=
    .comment (.blank (by decide)) (by decide)
  have hfirst : WritesRow [0, 1] ("[[".toList ++ ("0".toList ++ (",".toList ++ ("+01".toList ++
      "] ".toList)))) :=
    .entry (by decide) (.bare 0 (by decide))
      (.entry (by decide) (.plus 1 (by decide)) (.blank (by decide)) (by decide)) (by decide)
  have hsecond : WritesRow [.ofInt (-2147483648), 0] ([] ++ ("-2147483648".toList ++
      (" ".toList ++ ("-0".toList ++ "]]".toList)))) :=
    .entry (by decide) (.minus 0 (by decide))
      (.entry (by decide) (.minus 0 (by decide)) (.blank (by decide)) (by decide)) (by decide)
  have htext := WritesLines.carriageReturn hcomment (.lineFeed
    (.semicolon hfirst (.row (.blank (show IsGap [] by decide)))) (.last (.row hsecond)))
  exact ⟨_, by simpa using htext, by decide⟩

end ExchangeMatrix

end MutationFinite
