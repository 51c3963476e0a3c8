import MutationFinite.Text.Lexeme
import Mathlib.Data.List.TakeWhile

/-!
# Pieces of a text, and numerals

A text is split at its separators one separator at a time, so that it can be read from left to
right.

* `splitWhere_eq_splitOnP`: splitting is that of lists.
* `pieces_append_cons`: **a separator divides the pieces.**  `pieces_of_gap`, `pieces_gap_append`,
  `pieces_word_append`: separators hold no pieces, and a word is the piece before them.
* `pieces_trim`: outer blanks do not matter where blanks separate.
* `natural?_digits`, `signed?_of_natural?`, `signed?_plus`, `signed?_minus`: what a decimal numeral
  denotes.
-/

namespace MutationFinite.Text

variable {p : Char → Bool} {c : Char} {gap word s t : List Char} {n : Nat}

/-! ### Splitting -/

theorem splitWhere_eq_splitOnP (p : Char → Bool) (s : List Char) :
    splitWhere p s = s.splitOnP p := by
  induction s with
  | nil => rfl
  | cons c s ih =>
      rw [splitWhere, List.splitOnP_cons_eq_if_modifyHead, ih]
      split
      · rfl
      · cases hs : s.splitOnP p with
        | nil => exact absurd hs (List.splitOnP_ne_nil p s)
        | cons part parts => rfl

/-- A text without separators is one part. -/
theorem splitWhere_of_forall (h : ∀ c ∈ s, p c = false) : splitWhere p s = [s] := by
  rw [splitWhere_eq_splitOnP, List.splitOnP_eq_singleton h]

/-- The first separator ends the first part. -/
theorem splitWhere_append_cons (h : ∀ c ∈ s, p c = false) (hc : p c = true) :
    splitWhere p (s ++ c :: t) = s :: splitWhere p t := by
  simp only [splitWhere_eq_splitOnP]
  exact List.splitOnP_append_cons_of_forall_mem h c hc t

/-! ### Pieces -/

/-- **A separator divides the pieces.** -/
theorem pieces_append_cons (s t : List Char) (hc : p c = true) :
    pieces p (s ++ c :: t) = pieces p s ++ pieces p t := by
  simp only [pieces, splitWhere_eq_splitOnP]
  rw [List.splitOnP_append_cons s t hc, List.filter_append]

theorem pieces_nil (p : Char → Bool) : pieces p [] = [] := rfl

/-- Separators in front hold no pieces. -/
theorem pieces_gap_append (h : ∀ c ∈ gap, p c = true) (s : List Char) :
    pieces p (gap ++ s) = pieces p s := by
  induction gap with
  | nil => rfl
  | cons c gap ih =>
      rw [List.forall_mem_cons] at h
      exact (pieces_append_cons [] (gap ++ s) h.1).trans (ih h.2)

/-- Separators hold no pieces. -/
theorem pieces_of_gap (h : ∀ c ∈ gap, p c = true) : pieces p gap = [] := by
  rw [← List.append_nil gap, pieces_gap_append h, pieces_nil]

/-- Separators at the end hold no pieces. -/
theorem pieces_append_gap (s : List Char) (h : ∀ c ∈ gap, p c = true) :
    pieces p (s ++ gap) = pieces p s := by
  cases gap with
  | nil => rw [List.append_nil]
  | cons c gap =>
      rw [List.forall_mem_cons] at h
      rw [pieces_append_cons s gap h.1, pieces_of_gap h.2, List.append_nil]

theorem pieces_of_word (hne : word ≠ []) (h : ∀ c ∈ word, p c = false) :
    pieces p word = [word] := by
  rw [pieces, splitWhere_of_forall h, List.filter_cons_of_pos (by simpa using hne), List.filter_nil]

/-- A word up to the end or a separator is a piece. -/
theorem pieces_word_append (hne : word ≠ []) (h : ∀ c ∈ word, p c = false)
    (hs : ∀ c ∈ s.head?, p c = true) : pieces p (word ++ s) = word :: pieces p s := by
  cases s with
  | nil => rw [List.append_nil, pieces_of_word hne h, pieces_nil]
  | cons c s =>
      have hc : p c = true := hs c rfl
      rw [pieces_append_cons word s hc, pieces_of_word hne h]
      exact congrArg (word :: ·) (pieces_append_cons [] s hc).symm

/-! ### Outer blanks -/

theorem exists_trim_eq (s : List Char) :
    ∃ before after, before ++ (trim s ++ after) = s ∧ (∀ c ∈ before, isBlank c = true) ∧
      ∀ c ∈ after, isBlank c = true := by
  let after := ((s.dropWhile isBlank).reverse.takeWhile isBlank).reverse
  have hback : trim s ++ after = s.dropWhile isBlank := by
    rw [trim, ← List.reverse_append, List.takeWhile_append_dropWhile, List.reverse_reverse]
  refine ⟨s.takeWhile isBlank, after, ?_, fun c => List.mem_takeWhile_imp, fun c hc => ?_⟩
  · rw [hback, List.takeWhile_append_dropWhile]
  · exact List.mem_takeWhile_imp (List.mem_reverse.mp hc)

/-- **Outer blanks do not matter** where blanks separate. -/
theorem pieces_trim (h : ∀ c, isBlank c = true → p c = true) (s : List Char) :
    pieces p (trim s) = pieces p s := by
  obtain ⟨before, after, hs, hbefore, hafter⟩ := exists_trim_eq s
  calc pieces p (trim s) = pieces p (trim s ++ after) :=
        (pieces_append_gap _ fun c hc => h c (hafter c hc)).symm
    _ = pieces p (before ++ (trim s ++ after)) :=
        (pieces_gap_append (fun c hc => h c (hbefore c hc)) _).symm
    _ = pieces p s := by rw [hs]

/-! ### Numerals -/

theorem natural?_eq (hne : s ≠ []) (h : ∀ c ∈ s, c.isDigit = true) :
    natural? s = some (Nat.ofDigitChars 10 s 0) := by
  rw [natural?, if_pos ⟨hne, List.all_eq_true.mpr h⟩, Nat.ofDigitChars_eq_foldl]

/-- The decimal digits of `n` after `zeros` leading zeros. -/
def digits (zeros n : Nat) : List Char := List.replicate zeros '0' ++ Nat.toDigits 10 n

theorem digits_ne_nil (zeros n : Nat) : digits zeros n ≠ [] :=
  List.append_ne_nil_of_right_ne_nil _ Nat.toDigits_ne_nil

theorem isDigit_of_mem_digits {zeros : Nat} (h : c ∈ digits zeros n) : c.isDigit = true := by
  rcases List.mem_append.mp h with hzero | hdigit
  · rw [List.eq_of_mem_replicate hzero]
    rfl
  · exact Nat.isDigit_of_mem_toDigits (by decide) (by decide) hdigit

/-- **Digits denote their number**, whatever zeros lead. -/
theorem natural?_digits (zeros n : Nat) : natural? (digits zeros n) = some n := by
  rw [natural?_eq (digits_ne_nil zeros n) fun c => isDigit_of_mem_digits, digits,
    Nat.ofDigitChars_append, Nat.ofDigitChars_replicate_zero, Nat.mul_zero,
    Nat.ofDigitChars_toDigits (by decide) (by decide)]

/-- A numeral without a sign denotes itself. -/
theorem signed?_of_natural? (h : natural? s = some n) : signed? s = some (n : Int) := by
  have hsign : ∀ c t, s = c :: t → c ≠ '-' ∧ c ≠ '+' := by
    rintro c t rfl
    have hc : c.isDigit = true := by
      by_contra hc
      simp [natural?, hc] at h
    constructor <;> rintro rfl <;> cases hc
  rw [signed?, unsigned?, h, Option.map_some]
  · rfl
  · exact fun t ht => (hsign _ t ht).2 rfl
  · exact fun t ht => (hsign _ t ht).1 rfl

theorem signed?_plus (h : natural? s = some n) : signed? ('+' :: s) = some (n : Int) := by
  show (natural? s).map Int.ofNat = some (n : Int)
  rw [h, Option.map_some, Int.ofNat_eq_natCast]

theorem signed?_minus (h : natural? s = some n) : signed? ('-' :: s) = some (-(n : Int)) := by
  rw [signed?, h]
  rfl

end MutationFinite.Text
