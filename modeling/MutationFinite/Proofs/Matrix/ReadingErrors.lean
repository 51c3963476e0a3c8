import MutationFinite.Proofs.Matrix.Reading

/-!
# Where a reading error points

The reader numbers the rows twice: those that are not blank while it reads their entries, and those
that have entries once it compares their lengths.  A row of brackets and commas is counted the first
time only.

* `contributing`, `bare`: the numbers of rows with entries, and of rows with separators only.
* `Misread`: the first token of a text that denotes no entry; `Ragged`: the first row of a readable
  text whose length is not that of the first one.
* `Misread.parse`, `Ragged.parse`: the error that the reader answers in each case.
* `ofString_eq_error_iff`: it answers these errors in these cases only.
-/

namespace MutationFinite

namespace ExchangeMatrix

open Text (trim)

variable {text row token : List Char} {before rows : List (List Char)}
  {kept : List (List Entry)} {n k col cols expected got : Nat}

/-! ### Counting rows -/

/-- The row is not blank and has no token, like a row of brackets. -/
def IsBare (row : List Char) : Prop := trim row ≠ [] ∧ ¬ Contributes row

instance (row : List Char) : Decidable (IsBare row) := inferInstanceAs (Decidable (_ ∧ _))

/-- The number of rows that contribute entries. -/
def contributing (rows : List (List Char)) : Nat := rows.countP (Contributes ·)

/-- The number of rows that are not blank and contribute no entry. -/
def bare (rows : List (List Char)) : Nat := rows.countP (IsBare ·)

/-- A row that is not blank either contributes entries or is bare. -/
theorem contributing_add_bare_cons (row : List Char) (rows : List (List Char)) :
    contributing (row :: rows) + bare (row :: rows) =
      contributing rows + bare rows + if trim row = [] then 0 else 1 := by
  by_cases hblank : trim row = []
  · have hno : ¬ Contributes row := not_not.mpr (rowTokens_of_trim_eq_nil hblank)
    simp [contributing, bare, IsBare, hblank, hno]
  · by_cases hrow : Contributes row <;> simp [contributing, bare, IsBare, hblank, hrow] <;> omega

/-! ### The first failure -/

/-- The first token of the row that denotes no entry is `token`, with `col` tokens before it. -/
def MisreadAt (row : List Char) (col : Nat) (token : List Char) : Prop :=
  ∃ start, (∃ rest, rowTokens row = start ++ token :: rest) ∧ (∀ t ∈ start, Denotes t) ∧
    ¬ Denotes token ∧ start.length = col

/-- The first token of the text that denotes no entry is `token`, in the row that follows the rows
`before`, with `col` tokens before it in that row. -/
def Misread (text : List Char) (before : List (List Char)) (col : Nat) (token : List Char) : Prop :=
  ∃ row, (∃ below, textRows text = before ++ row :: below) ∧ (∀ r ∈ before, Readable r) ∧
    MisreadAt row col token

/-- All tokens of the text denote entries, and the first row with entries that has not as many as
the first one of them is the row that follows the rows `before`: it has `got` entries, and the first
one has `expected`. -/
def Ragged (text : List Char) (before : List (List Char)) (expected got : Nat) : Prop :=
  (∀ row ∈ textRows text, Readable row) ∧ (∃ first ∈ before, Contributes first) ∧
    (∀ r ∈ before, Contributes r → (rowTokens r).length = expected) ∧
    ∃ row, (∃ below, textRows text = before ++ row :: below) ∧ Contributes row ∧
      (rowTokens row).length = got ∧ got ≠ expected

/-- A list has a first element that fails, unless all pass. -/
theorem forall_mem_or_exists_first {α : Type} (P : α → Prop) [DecidablePred P] (xs : List α) :
    (∀ x ∈ xs, P x) ∨
      ∃ before x, (∃ after, xs = before ++ x :: after) ∧ (∀ y ∈ before, P y) ∧ ¬ P x := by
  cases hfind : xs.find? (¬ P ·) with
  | none => exact .inl (by simpa using hfind)
  | some x =>
      obtain ⟨hx, before, after, hsplit, hbefore⟩ := List.find?_eq_some_iff_append.mp hfind
      exact .inr ⟨before, x, ⟨after, hsplit⟩, by simpa using hbefore, by simpa using hx⟩

theorem readable_or_misreadAt (row : List Char) :
    Readable row ∨ ∃ col token, MisreadAt row col token :=
  (forall_mem_or_exists_first Denotes (rowTokens row)).imp_right
    fun ⟨start, token, hsplit, hstart, htoken⟩ =>
      ⟨start.length, token, start, hsplit, hstart, htoken, rfl⟩

theorem readable_or_misread (text : List Char) :
    (∀ row ∈ textRows text, Readable row) ∨ ∃ before col token, Misread text before col token := by
  refine (forall_mem_or_exists_first Readable (textRows text)).imp_right ?_
  rintro ⟨before, row, hsplit, hbefore, hrow⟩
  obtain ⟨col, token, hmisread⟩ := (readable_or_misreadAt row).resolve_left hrow
  exact ⟨before, col, token, row, hsplit, hbefore, hmisread⟩

/-! ### Malformed entries -/

/-- Reading fails at the first token that denotes no entry. -/
theorem readTokens_eq_error {start : List (List Char)} (hstart : ∀ t ∈ start, Denotes t)
    (htoken : ¬ Denotes token) (rest : List (List Char)) (n k : Nat) :
    readTokens n k (start ++ token :: rest) =
      .error (.invalidEntry n (k + start.length) (String.ofList token)) := by
  induction start generalizing k with
  | nil =>
      rw [List.nil_append, readTokens, Option.not_isSome_iff_eq_none.mp htoken]
      rfl
  | cons t start ih =>
      obtain ⟨ht, hstart⟩ := List.forall_mem_cons.mp hstart
      obtain ⟨e, he⟩ := Option.isSome_iff_exists.mp ht
      rw [List.cons_append, readTokens, he]
      simp only [ih hstart, Except.map, List.length_cons, Nat.add_right_comm]
      rfl

namespace MisreadAt

theorem readTokens (h : MisreadAt row col token) (n : Nat) :
    readTokens n 0 (rowTokens row) = .error (.invalidEntry n col (String.ofList token)) := by
  obtain ⟨start, ⟨rest, hsplit⟩, hstart, htoken, rfl⟩ := h
  rw [hsplit, readTokens_eq_error hstart htoken, Nat.zero_add]

theorem trim_ne_nil (h : MisreadAt row col token) : trim row ≠ [] := by
  obtain ⟨start, ⟨rest, hsplit⟩, -⟩ := h
  intro hblank
  rw [rowTokens_of_trim_eq_nil hblank] at hsplit
  simp at hsplit

end MisreadAt

/-- **Reading fails in the first row that is not readable**, which it numbers among the rows that
are not blank. -/
theorem readRows_eq_error (hbefore : ∀ r ∈ before, Readable r) (h : MisreadAt row col token)
    (below : List (List Char)) (n : Nat) :
    readRows n (written (before ++ row :: below)) =
      .error (.invalidEntry (n + (contributing before + bare before)) col
        (String.ofList token)) := by
  induction before generalizing n with
  | nil =>
      rw [List.nil_append, readRows_written_of_not_blank h.trim_ne_nil, h.readTokens]
      rfl
  | cons r before ih =>
      obtain ⟨hr, hbefore⟩ := List.forall_mem_cons.mp hbefore
      rw [List.cons_append, readRows_written_cons hr, contributing_add_bare_cons, ih hbefore,
        ih hbefore]
      split
      · rw [Nat.add_zero]
      · rw [Except.map, Nat.add_right_comm, Nat.add_assoc]

theorem Misread.parse (h : Misread text before col token) :
    parse text = .error (.invalidEntry (contributing before + bare before) col
      (String.ofList token)) := by
  obtain ⟨row, ⟨below, hsplit⟩, hbefore, hrow⟩ := h
  rw [ExchangeMatrix.parse, rowTexts_eq, hsplit, readRows_eq_error hbefore hrow, Nat.zero_add]
  rfl

/-! ### Ragged rows -/

theorem raggedRow?_eq_none (h : ∀ r ∈ kept, r.length = cols) : raggedRow? cols kept = none := by
  rw [raggedRow?, Option.map_eq_none_iff, List.find?_eq_none]
  rintro ⟨r, i⟩ hr
  simp [h r (List.fst_mem_of_mem_zipIdx hr)]

/-- The first row that differs from the others in length is found. -/
theorem raggedRow?_append {above below : List (List Entry)} {entries : List Entry}
    (habove : ∀ r ∈ above, r.length = cols) (h : entries.length ≠ cols) :
    raggedRow? cols (above ++ entries :: below) = some (above.length, entries.length) := by
  have hnone := raggedRow?_eq_none habove
  rw [raggedRow?, Option.map_eq_none_iff] at hnone
  rw [raggedRow?, List.zipIdx_append, List.find?_append, hnone, Option.none_or, List.zipIdx_cons,
    List.find?_cons_of_pos (by simpa using h), Option.map_some, Nat.zero_add]

theorem ofRows_cons (entries : List Entry) (kept : List (List Entry)) :
    ofRows (entries :: kept) =
      match raggedRow? entries.length (entries :: kept) with
      | some (i, length) => .error (.raggedRow i entries.length length)
      | none => ofEntries (kept.length + 1) entries.length (entries :: kept).flatten.toArray := rfl

/-- Rows that are all as long as the first one are not refused for their lengths. -/
theorem ofRows_ne_raggedRow {entries : List Entry} (h : ∀ r ∈ kept, r.length = entries.length) :
    ofRows (entries :: kept) ≠ .error (.raggedRow n expected got) := by
  have hnone : raggedRow? entries.length (entries :: kept) = none :=
    raggedRow?_eq_none (List.forall_mem_cons.mpr ⟨rfl, h⟩)
  rw [ofRows_cons, hnone]
  simp only [ofEntries]
  intro h
  split at h <;> cases h

/-- The rows of entries above the ragged one are as long as the first of them. -/
theorem ofRows_eq_raggedRow {first : List Char} {later : List (List Char)}
    (heven : ∀ r ∈ first :: later, Readable r ∧ (rowTokens r).length = expected)
    (hrow : Readable row) (hne : (rowTokens row).length ≠ expected) (below : List (List Char)) :
    ofRows ((first :: later ++ row :: below).map rowEntries) =
      .error (.raggedRow (later.length + 1) expected (rowTokens row).length) := by
  have hlength : ∀ r ∈ first :: later, (rowEntries r).length = expected :=
    fun r hr => (heven r hr).1.length_rowEntries.trans (heven r hr).2
  have hfirst : (rowEntries first).length = expected := hlength first (List.mem_cons_self ..)
  have hragged : raggedRow? expected
      ((first :: later).map rowEntries ++ rowEntries row :: below.map rowEntries) =
        some (later.length + 1, (rowTokens row).length) := by
    rw [raggedRow?_append (List.forall_mem_map.mpr hlength) (by rwa [hrow.length_rowEntries]),
      List.length_map, List.length_cons, hrow.length_rowEntries]
  rw [List.map_append, List.map_cons, List.map_cons, List.cons_append, ofRows_cons, hfirst]
  rw [List.map_cons, List.cons_append] at hragged
  rw [hragged]

theorem Ragged.parse (h : Ragged text before expected got) :
    parse text = .error (.raggedRow (contributing before) expected got) := by
  obtain ⟨hreadable, ⟨first, hfirst, hcontributes⟩, heven, row, ⟨below, hsplit⟩, hrow, rfl, hne⟩ :=
    h
  have habove : ∀ r ∈ before.filter (Contributes ·),
      Readable r ∧ (rowTokens r).length = expected := by
    intro r hr
    obtain ⟨hr, hrcontributes⟩ := List.mem_filter.mp hr
    exact ⟨hreadable r (by simp [hsplit, hr]), heven r hr (of_decide_eq_true hrcontributes)⟩
  have hkept : (textRows text).filter (Contributes ·) =
      before.filter (Contributes ·) ++ row :: below.filter (Contributes ·) := by
    rw [hsplit, List.filter_append, List.filter_cons_of_pos (by simpa using hrow)]
  rw [parse_of_readable hreadable, hkept, contributing, List.countP_eq_length_filter]
  cases habove' : before.filter (Contributes ·) with
  | nil => exact absurd hcontributes (by simpa using List.filter_eq_nil_iff.mp habove' first hfirst)
  | cons first later =>
      rw [habove'] at habove
      rw [if_neg (by simp), ofRows_eq_raggedRow habove (hreadable row (by simp [hsplit])) hne,
        List.length_cons]

/-- The rows of a readable text that have entries are all as long as the first one, or the text is
ragged. -/
theorem even_or_ragged (hreadable : ∀ row ∈ textRows text, Readable row) :
    (∃ cols, ∀ row ∈ textRows text, Contributes row → (rowTokens row).length = cols) ∨
      ∃ before expected got, Ragged text before expected got := by
  cases hkept : (textRows text).filter (Contributes ·) with
  | nil =>
      refine .inl ⟨0, fun row hrow hcontributes => ?_⟩
      have hno := List.filter_eq_nil_iff.mp hkept row hrow
      exact absurd hcontributes (by simpa using hno)
  | cons first later =>
      obtain ⟨above, rest, hsplit, habove, hfirst, -⟩ := List.filter_eq_cons_iff.mp hkept
      have hfirst : Contributes first := by simpa using hfirst
      have hempty : ∀ row ∈ above, ¬ Contributes row := by simpa using habove
      rcases forall_mem_or_exists_first
          (fun row => Contributes row → (rowTokens row).length = (rowTokens first).length) rest with
        hall | ⟨middle, row, ⟨below, hrest⟩, hmiddle, hrow⟩
      · refine .inl ⟨(rowTokens first).length, ?_⟩
        rw [hsplit]
        refine List.forall_mem_append.mpr ⟨fun row hrow h => absurd h (hempty row hrow), ?_⟩
        exact List.forall_mem_cons.mpr ⟨fun _ => rfl, hall⟩
      · obtain ⟨hcontributes, hne⟩ := Classical.not_imp.mp hrow
        refine .inr ⟨above ++ first :: middle, (rowTokens first).length, (rowTokens row).length,
          hreadable, ⟨first, by simp, hfirst⟩, ?_, row, ⟨below, by simp [hsplit, hrest]⟩,
          hcontributes, rfl, hne⟩
        refine List.forall_mem_append.mpr ⟨fun row hrow h => absurd h (hempty row hrow), ?_⟩
        exact List.forall_mem_cons.mpr ⟨fun _ => rfl, hmiddle⟩

/-- A readable text has no malformed entry to report. -/
theorem parse_ne_invalidEntry (hreadable : ∀ row ∈ textRows text, Readable row)
    {name : String} : parse text ≠ .error (.invalidEntry n col name) := by
  rw [parse_of_readable hreadable]
  simp only [ofRows, ofEntries]
  intro h
  split at h
  · cases h
  · split at h
    · cases h
    · split at h <;> cases h

/-- A readable text is refused for the lengths of its rows only if it is ragged. -/
theorem exists_ragged_of_parse (hreadable : ∀ row ∈ textRows text, Readable row)
    (h : parse text = .error (.raggedRow n expected got)) :
    ∃ before expected got, Ragged text before expected got := by
  refine (even_or_ragged hreadable).resolve_left ?_
  rintro ⟨cols, heven⟩
  have hlength : ∀ row ∈ (textRows text).filter (Contributes ·),
      (rowEntries row).length = cols := by
    intro row hrow
    obtain ⟨hrow, hcontributes⟩ := List.mem_filter.mp hrow
    rw [(hreadable row hrow).length_rowEntries]
    exact heven row hrow (of_decide_eq_true hcontributes)
  rw [parse_of_readable hreadable] at h
  cases hkept : (textRows text).filter (Contributes ·) with
  | nil =>
      rw [hkept] at h
      cases h
  | cons first later =>
      rw [hkept] at h hlength
      obtain ⟨hfirst, hlater⟩ := List.forall_mem_cons.mp hlength
      rw [if_neg (by simp), List.map_cons] at h
      refine ofRows_ne_raggedRow (List.forall_mem_map.mpr fun r hr => ?_) h
      rw [hlater r hr, hfirst]

/-! ### Both errors -/

/-- **What the row and the column of a reading error count.**  A malformed entry is reported with
the number of rows above it that are not blank, bare ones among them, and a ragged row with the
number of rows above it that contribute entries. -/
theorem ofString_eq_error_iff (s : String) :
    (∀ row col token, ofString s = .error (.invalidEntry row col token) ↔
        ∃ before t, Misread s.toList before col t ∧ token = String.ofList t ∧
          row = contributing before + bare before) ∧
      ∀ row expected got, ofString s = .error (.raggedRow row expected got) ↔
        ∃ before, Ragged s.toList before expected got ∧ row = contributing before := by
  have hmis : ∀ {before col t}, Misread s.toList before col t → ofString s = _ := Misread.parse
  have hragged : ∀ {before expected got}, Ragged s.toList before expected got → ofString s = _ :=
    Ragged.parse
  refine ⟨fun row col token => ⟨fun h => ?_, ?_⟩, fun row expected got => ⟨fun h => ?_, ?_⟩⟩
  · rcases readable_or_misread s.toList with hreadable | ⟨before, col', t, hm⟩
    · exact absurd h (parse_ne_invalidEntry hreadable)
    · rw [hmis hm] at h
      obtain ⟨rfl, rfl, rfl⟩ := Error.invalidEntry.inj (Except.error.inj h)
      exact ⟨before, t, hm, rfl, rfl⟩
  · rintro ⟨before, t, hm, rfl, rfl⟩
    exact hmis hm
  · rcases readable_or_misread s.toList with hreadable | ⟨before, col', t, hm⟩
    · obtain ⟨before, expected', got', hr⟩ := exists_ragged_of_parse hreadable h
      rw [hragged hr] at h
      obtain ⟨rfl, rfl, rfl⟩ := Error.raggedRow.inj (Except.error.inj h)
      exact ⟨before, hr, rfl⟩
    · rw [hmis hm] at h
      cases h
  · rintro ⟨before, hr, rfl⟩
    exact hragged hr

/-- A row of brackets above shifts the number of a row with a malformed entry, and not that of a
row of the wrong length. -/
theorem ofString_bracketRow :
    Misread "[]\n0 x".toList ["[]".toList] 1 "x".toList ∧ contributing ["[]".toList] = 0 ∧
      ofString "[]\n0 x" = .error (.invalidEntry 1 1 "x") ∧
      ofString "[]\n0 1\n0" = .error (.raggedRow 1 2 1) ∧
      ofString "[]\n0 1\nx" = .error (.invalidEntry 2 0 "x") := by
  refine ⟨⟨"0 x".toList, ⟨[], by decide⟩, by decide, ["0".toList], ⟨[], by decide⟩, by decide,
    by decide, by decide⟩, by decide, by decide, by decide, by decide⟩

end ExchangeMatrix

end MutationFinite
