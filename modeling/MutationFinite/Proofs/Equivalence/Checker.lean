import MutationFinite.Proofs.Equivalence.Oracle

/-!
# Checkers that were asked before

A checker remembers the answers of its searches, one for each unordered pair, and forgets them all
when it is full.  None of this shows in what it answers.

* `EquivalenceChecker.witness_fst`: the answer to a question, without the memory.
* `EquivalenceChecker.witness_swap`: the reversed question has the inverse answer.
* `EquivalenceChecker.Bounded`: a checker remembers no more pairs than it may; `Bounded.witness`
  says that it does so after another question, `Bounded.afterQueries` after any number of them.
* `EquivalenceChecker.witness_afterQueries`: what a checker answers after any questions.
-/

namespace MutationFinite

open ExchangeMatrix

/-! ### The order of matrices -/

instance : Std.OrientedOrd Entry := by
  refine ⟨fun {a b} => ?_⟩
  show compare a.val b.val = (compare b.val a.val).swap
  exact Std.OrientedCmp.eq_swap

instance : Std.LawfulEqOrd Entry := by
  refine ⟨fun {a b} h => Entry.ext ?_⟩
  have hval : compare a.val b.val = .eq := h
  exact Std.LawfulEqCmp.eq_of_compare hval

/-- Of two matrices one is smaller exactly when the other is greater. -/
instance : Std.OrientedOrd ExchangeMatrix := by
  refine ⟨fun {a b} => ?_⟩
  show ExchangeMatrix.compare a b = (ExchangeMatrix.compare b a).swap
  simp only [ExchangeMatrix.compare, Ordering.swap_then]
  refine congrArg₂ _ Std.OrientedCmp.eq_swap (congrArg₂ _ Std.OrientedCmp.eq_swap ?_)
  exact Std.OrientedCmp.eq_swap

/-- Only equal matrices are neither smaller nor greater than one another. -/
instance : Std.LawfulEqOrd ExchangeMatrix := by
  refine ⟨fun {a b} h => ?_⟩
  have hcompare : ExchangeMatrix.compare a b = .eq := h
  obtain ⟨hrows, hrest⟩ := Ordering.then_eq_eq.mp hcompare
  obtain ⟨hcols, hentries⟩ := Ordering.then_eq_eq.mp hrest
  have hcols' : a.cols = b.cols := Std.LawfulEqCmp.eq_of_compare hcols
  have he : a.entries = b.entries := Array.ext' (Std.LawfulEqCmp.eq_of_compare hentries)
  exact ext_cell (Std.LawfulEqCmp.eq_of_compare hrows) hcols' fun i _ j _ => by
    rw [cell, cell, he, hcols']

namespace EquivalenceChecker

variable {c c' : EquivalenceChecker} {a b : ExchangeMatrix} {n maxPairs : Nat}

/-! ### Answers -/

/-- The answer to a question, without the memory of the checker. -/
theorem witness_fst (c : EquivalenceChecker) (a b : ExchangeMatrix) :
    (c.witness a b).1 =
      if ¬ SameShape a b ∨ a.rank ≠ c.degree then none
      else if a = b then some (.identity c.degree)
      else if Fingerprint.of a ≠ Fingerprint.of b then none
      else if compare a b = .gt then (b.findWitness? a).map .inverse
      else a.findWitness? b := by
  rw [← c.lookup_fst, ← c.lookup_fst]
  unfold witness
  split_ifs <;> rfl

/-- Checkers for the same rank answer alike, whatever they remember. -/
theorem witness_fst_congr (h : c.degree = c'.degree) (a b : ExchangeMatrix) :
    (c.witness a b).1 = (c'.witness a b).1 := by
  rw [witness_fst, witness_fst, h]

/-- The reversed question has the inverse answer. -/
theorem witness_swap (c : EquivalenceChecker) (hs : SameShape a b) :
    (c.witness b a).1 = (c.witness a b).1.map .inverse := by
  rw [witness_fst, witness_fst]
  by_cases hrank : a.rank = c.degree
  case neg => simp [hrank, ← hs.rank_eq]
  by_cases heq : a = b
  · subst heq
    simp [hrank, hs]
  by_cases hkey : Fingerprint.of a = Fingerprint.of b
  case neg => simp [heq, hkey, Ne.symm heq, Ne.symm hkey, hs, hs.symm]
  -- exactly one of the two questions is the one that is searched for
  simp only [hs, hs.symm, hrank, ← hs.rank_eq, heq, Ne.symm heq, hkey, not_true, ne_eq, or_self,
    if_false]
  have hne : compare a b ≠ .eq := fun h => heq (Std.LawfulEqCmp.eq_of_compare h)
  have hswap : compare b a = (compare a b).swap := Std.OrientedCmp.eq_swap
  cases horder : compare a b with
  | lt => simp [hswap, horder]
  | eq => exact absurd horder hne
  | gt => simp [hswap, horder, Function.comp_def]

/-! ### Sequences of questions -/

/-- The checker after the questions for witnesses between the pairs of `queries`. -/
def afterQueries (c : EquivalenceChecker) (queries : List (ExchangeMatrix × ExchangeMatrix)) :
    EquivalenceChecker :=
  queries.foldl (fun c query => (c.witness query.1 query.2).2) c

theorem degree_afterQueries (c : EquivalenceChecker)
    (queries : List (ExchangeMatrix × ExchangeMatrix)) :
    (c.afterQueries queries).degree = c.degree := by
  induction queries generalizing c with
  | nil => rfl
  | cons query queries ih => exact (ih _).trans (c.degree_witness query.1 query.2)

/-- The checker may remember `maxPairs` pairs, at least one, and remembers no more. -/
structure Bounded (maxPairs : Nat) (c : EquivalenceChecker) : Prop where
  maxPairs_eq : c.maxPairs = maxPairs
  maxPairs_pos : 1 ≤ maxPairs
  size_le : c.pairs.size ≤ maxPairs

theorem bounded_new (n maxPairs : Nat) : Bounded (max maxPairs 1) (new n maxPairs) :=
  ⟨rfl, Nat.le_max_right _ _, by simp [new]⟩

/-- A full checker forgets before it remembers another pair. -/
theorem Bounded.remember (h : Bounded maxPairs c) {found : Option Permutation}
    (sound : found = a.findWitness? b) : Bounded maxPairs (c.remember a b found sound) := by
  refine ⟨h.maxPairs_eq, h.maxPairs_pos, Std.HashMap.size_insert_le.trans ?_⟩
  have := h.maxPairs_pos
  rw [h.maxPairs_eq]
  split
  · simpa using h.maxPairs_pos
  · omega

theorem Bounded.lookup (h : Bounded maxPairs c) (a b : ExchangeMatrix) :
    Bounded maxPairs (c.lookup a b).2 := by
  unfold EquivalenceChecker.lookup
  split
  · exact ⟨h.maxPairs_eq, h.maxPairs_pos, h.size_le⟩
  · exact h.remember rfl

theorem Bounded.witness (h : Bounded maxPairs c) (a b : ExchangeMatrix) :
    Bounded maxPairs (c.witness a b).2 := by
  unfold EquivalenceChecker.witness
  split_ifs
  · exact h
  · exact h
  · exact h
  · exact h.lookup b a
  · exact h.lookup a b

theorem Bounded.afterQueries (h : Bounded maxPairs c)
    (queries : List (ExchangeMatrix × ExchangeMatrix)) :
    Bounded maxPairs (c.afterQueries queries) := by
  induction queries generalizing c with
  | nil => exact h
  | cons query queries ih => exact ih (h.witness query.1 query.2)

/-- **A checker is sound and complete, and what it was asked before does not show.**  After any
questions it remembers no more pairs than it may.  Its answer to a question about two matrices of
its rank and of one shape is the same after any other questions and with any other room for pairs;
it is none exactly when no relabelling of the first is the second, and otherwise such a relabelling;
and the reversed question has the inverse answer. -/
theorem witness_afterQueries (n maxPairs : Nat) (queries : List (ExchangeMatrix × ExchangeMatrix)) :
    let c := (new n maxPairs).afterQueries queries
    c.pairs.size ≤ max 1 maxPairs ∧
      ∀ a b, SameShape a b → a.rank = n →
        (∀ maxPairs' queries',
          (((new n maxPairs').afterQueries queries').witness a b).1 = (c.witness a b).1) ∧
        ((c.witness a b).1 = none ↔ ∀ p : Permutation, p.size = n → a.relabel p ≠ b) ∧
        (∀ p, (c.witness a b).1 = some p → p.size = n ∧ a.relabel p = b) ∧
        (c.witness b a).1 = (c.witness a b).1.map .inverse := by
  intro c
  have hdegree : c.degree = n := degree_afterQueries _ _
  refine ⟨?_, fun a b hs ha =>
    ⟨fun maxPairs' queries' => ?_, ?_, fun p hp => ?_, c.witness_swap hs⟩⟩
  · rw [Nat.max_comm]
    exact ((bounded_new n maxPairs).afterQueries queries).size_le
  · exact witness_fst_congr ((degree_afterQueries _ _).trans hdegree.symm) a b
  · have hanswer := c.witness_isAnswer (b := b) (ha.trans hdegree.symm)
    subst ha
    constructor
    · intro hnone p hp hb
      rw [hnone] at hanswer
      exact hanswer p (carries_iff.mpr ⟨hp, hb⟩)
    · intro hno
      cases hfound : (c.witness a b).1 with
      | none => rfl
      | some p =>
          rw [hfound] at hanswer
          obtain ⟨hp, hb⟩ := carries_iff.mp hanswer
          exact absurd hb (hno p hp)
  · have hanswer := c.witness_isAnswer (b := b) (ha.trans hdegree.symm)
    rw [hp] at hanswer
    exact ha ▸ carries_iff.mp hanswer

/-- A checker with room for one pair was asked about an arrow and the reverse arrow, and has
forgotten it over another pair. -/
theorem witness_afterQueries_arrow :
    let arrow : ExchangeMatrix := .ofFn 2 2 fun i j => .ofInt (j - i)
    let reverse : ExchangeMatrix := .ofFn 2 2 fun i j => .ofInt (i - j)
    let c := (new 2 0).afterQueries [(reverse, arrow), (arrow, .zeros 2 2)]
    SameShape arrow reverse ∧ arrow.rank = 2 ∧ c.pairs.size ≤ 1 ∧
      ∃ p, (c.witness arrow reverse).1 = some p ∧ arrow.relabel p = reverse ∧
        (c.witness reverse arrow).1 = some p.inverse := by
  intro arrow reverse c
  obtain ⟨hsize, hanswer⟩ := witness_afterQueries 2 0 [(reverse, arrow), (arrow, .zeros 2 2)]
  obtain ⟨-, hnone, hsome, hback⟩ := hanswer arrow reverse ⟨rfl, rfl⟩ rfl
  refine ⟨⟨rfl, rfl⟩, rfl, hsize, ?_⟩
  have hswap : arrow.relabel ⟨#[1, 0], by decide⟩ = reverse := by decide
  cases hfound : (c.witness arrow reverse).1 with
  | none => exact absurd hswap (hnone.mp hfound _ rfl)
  | some p => exact ⟨p, rfl, (hsome p hfound).2, by rw [hback, hfound]; rfl⟩

end EquivalenceChecker

end MutationFinite
