import MutationFinite.Dynkin.Recognition
import MutationFinite.Proofs.Matrix.Certificate
import MutationFinite.Proofs.MutationClass.Unstopped

/-!
# Recognition of Dynkin types

A search through candidates finds the first one that the answers speak for.  The matrix of each
candidate exists, so that the search has a result, whatever it is asked about.

* `exists_matrix_eq`: a diagram that exists has a matrix.
* `FoundBy`: what a search through candidates finds, by what is known of the answers.
* `recognize_returns`: recognition has a result.
* `Matches`: the mutation class of a diagram holds a relabelling of a matrix.
* `FoundBy.eq_find?`: where answers say just that, the first match is found.
-/

namespace MutationFinite

open ExchangeMatrix

namespace DynkinType

variable {t : DynkinType} {n i j k : Nat} {m : ExchangeMatrix} {e : Entry}

/-! ### Matrices of diagrams -/

theorem exists_withArrow_eq (hm : SameShape m (.zeros n n)) (hi : i < n) (hj : j < n) (e : Entry) :
    ∃ m', m.withArrow i j e = .ok m' ∧ SameShape m' (.zeros n n) := by
  have hrank : m.rank = n := by
    rw [hm.rank_eq]
    exact Nat.min_self n
  refine ⟨(m.setCell i j e).setCell j i e.neg, ?_, hm⟩
  rw [withArrow, if_neg (by omega), if_neg (by omega)]

/-- The path of a diagram exists. -/
theorem exists_path_eq (n : Nat) (hk : k ≤ n - 1) :
    ∃ m, (List.range k).foldlM (fun m i => m.withArrow i (i + 1) 1) (ExchangeMatrix.zeros n n) =
        .ok m ∧ SameShape m (.zeros n n) := by
  induction k with
  | zero => exact ⟨_, rfl, rfl, rfl⟩
  | succ k ih =>
      obtain ⟨m, hfold, hm⟩ := ih (by omega)
      rw [List.range_succ, List.foldlM_append, hfold]
      obtain ⟨m', harrow, hm'⟩ := exists_withArrow_eq hm (i := k) (j := k + 1) (by omega)
        (by omega) 1
      refine ⟨m', ?_, hm'⟩
      show (m.withArrow k (k + 1) 1 >>= pure) = _
      rw [bind_pure, harrow]

/-- **A diagram that exists has a matrix.** -/
theorem exists_matrix_eq (h : t.isValid = true) :
    ∃ d, t.matrix = .ok d ∧ SameShape d (.zeros t.rank t.rank) := by
  obtain ⟨path, hpath, hshape⟩ := exists_path_eq t.rank (k := t.spine - 1) (by
    cases t <;> simp only [spine, rank] <;> omega)
  have hmatrix : t.matrix =
      t.fork?.elim (.ok path) fun v => path.withArrow v (t.rank - 1) 1 := by
    simp only [matrix, h, Bool.not_true, Bool.false_eq_true, if_false, hpath]
    cases t.fork? <;> rfl
  cases t with
  | a n => exact ⟨path, hmatrix, hshape⟩
  | d n =>
      have hn : 4 ≤ n := of_decide_eq_true h
      rw [hmatrix]
      exact exists_withArrow_eq hshape (by show n - 3 < n; omega) (by show n - 1 < n; omega) 1
  | e n =>
      have hn : 6 ≤ n ∧ n ≤ 8 := of_decide_eq_true h
      rw [hmatrix]
      exact exists_withArrow_eq hshape (by show 2 < n; omega) (by show n - 1 < n; omega) 1

/-! ### The search through candidates -/

/-- What a search through candidates finds, where the answer on each candidate is one of those that
`A` allows: the first candidate on which the answer is yes. -/
inductive FoundBy (A : DynkinType → Option Bool → Prop) :
    List DynkinType → Option DynkinType → Prop where
  | none : FoundBy A [] none
  | here {t : DynkinType} {rest : List DynkinType} (h : A t (some true)) :
      FoundBy A (t :: rest) (some t)
  | later {t : DynkinType} {rest : List DynkinType} {found : Option DynkinType}
      {answer : Option Bool} (h : A t answer) (hno : answer ≠ some true)
      (hrest : FoundBy A rest found) : FoundBy A (t :: rest) found

/-- The search asks about one candidate after another. -/
theorem firstMatch_returns {A : DynkinType → Option Bool → Prop} (candidates : List DynkinType)
    (h : ∀ t ∈ candidates, ∃ d, t.matrix = .ok d ∧
      Session.Returns (areMutationEquivalent? d m) (A t)) :
    Session.Returns (firstMatch m candidates) (FoundBy A candidates) := by
  induction candidates with
  | nil => exact .pure .none
  | cons t rest ih =>
      obtain ⟨d, hd, hanswer⟩ := h t List.mem_cons_self
      rw [firstMatch]
      refine .bind (P := (· = d)) (.ofExcept hd rfl) ?_
      rintro _ rfl
      refine hanswer.bind fun answer ha => ?_
      by_cases hyes : answer = some true
      · rw [if_pos hyes]
        exact .pure (.here (hyes ▸ ha))
      · rw [if_neg hyes]
        exact (ih fun u hu => h u (List.mem_cons_of_mem t hu)).mono fun _ => .later ha hyes

/-- Some diagram matrix of a type reaches a relabelling of `m`. -/
def Matches (m : ExchangeMatrix) (t : DynkinType) : Prop :=
  ∃ d, t.matrix = .ok d ∧ ReachesRelabelling d m

/-- What may be answered on a candidate. -/
def Answer (m : ExchangeMatrix) (t : DynkinType) (answer : Option Bool) : Prop :=
  ∃ d, t.matrix = .ok d ∧ SearchAnswer d m answer

theorem mem_ofRank : t ∈ ofRank n ↔ t.rank = n ∧ t.isValid = true := by
  rw [ofRank, List.mem_filter]
  refine and_congr_left fun _ => ?_
  cases t <;> simp [rank]

/-- The candidates are searched in order. -/
theorem firstMatch_ofRank_returns (hrank : m.rank ≤ 64) :
    Session.Returns (firstMatch m (ofRank m.rank)) (FoundBy (Answer m) (ofRank m.rank)) := by
  refine firstMatch_returns _ fun t ht => ?_
  obtain ⟨hn, hvalid⟩ := mem_ofRank.mp ht
  obtain ⟨d, hd, hshape⟩ := exists_matrix_eq hvalid
  have hdrank : d.rank = t.rank := hshape.rank_eq.trans (Nat.min_self _)
  refine ⟨d, hd, ?_⟩
  exact (areMutationEquivalent?_returns d m (by omega)).mono fun answer ha => ⟨d, hd, ha⟩

/-- **Recognition has a result**, in every session that nobody stops. -/
theorem recognize_returns (hrank : m.rank ≤ 64) :
    Session.Returns (recognize m) fun found =>
      if isCandidate m = true then FoundBy (Answer m) (ofRank m.rank) found else found = none := by
  unfold recognize
  by_cases h : isCandidate m = true
  · simp only [h, if_true]
    exact firstMatch_ofRank_returns hrank
  · simp only [h]
    exact .pure rfl

open Classical in
/-- **Where answers say which candidates match, the first match is found.** -/
theorem FoundBy.eq_find? {A : DynkinType → Option Bool → Prop} {candidates : List DynkinType}
    {found : Option DynkinType} (h : FoundBy A candidates found)
    (hA : ∀ t ∈ candidates, ∀ answer, A t answer → (answer = some true ↔ Matches m t)) :
    found = candidates.find? fun t => decide (Matches m t) := by
  induction h with
  | none => rfl
  | here h =>
      rw [List.find?_cons_of_pos]
      simpa using (hA _ List.mem_cons_self _ h).mp rfl
  | later h hno _ ih =>
      rw [List.find?_cons_of_neg, ← ih fun u hu => hA u (List.mem_cons_of_mem _ hu)]
      simpa using mt (hA _ List.mem_cons_self _ h).mpr hno

end DynkinType

end MutationFinite
