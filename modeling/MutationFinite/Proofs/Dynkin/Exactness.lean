import MutationFinite.Proofs.Classification.Relabelling
import MutationFinite.Proofs.Classification.SkewSymmetric
import MutationFinite.Proofs.Dynkin.Diagram
import Mathlib.Data.List.Find

/-!
# Recognition is exact

When the classes of all candidates can be exhausted, recognition finds the first candidate that
matches, and finds none if none does.  Neither the filters before the search nor the search itself
miss a member of a candidate's class.

* `Enumerable`: an enumeration exhausts the class of a diagram, which then does not escape.
* `Matches.not_escapes`, `Matches.isCandidate`: members of the class pass the filters.
* `matches_iff_of_reaches`: the diagrams that match are shared by a mutation class.
* `recognize_returns_first`: so the first match is found.
* `recognize_exact`: and the answer is shared by relabellings and by the mutation class.
-/

namespace MutationFinite

open ExchangeMatrix

namespace DynkinType

variable {t : DynkinType} {d m m' : ExchangeMatrix} {k : Nat}

/-- Some enumeration up to relabelling exhausts the class of the diagram. -/
def Enumerable (t : DynkinType) : Prop :=
  ∃ (d : ExchangeMatrix) (cfg : EnumerationConfig) (s : Session) (e : Enumeration) (size : Nat),
    t.matrix = .ok d ∧ cfg.mode = .upToEquivalence ∧ (s.ask (enumerate cfg d)).1 = .ok e ∧
      e.outcome = .finite size

/-- The diagram does not escape. -/
theorem Enumerable.not_escapes (h : Enumerable t) (hd : t.matrix = .ok d) (hrank : d.rank ≤ 64) :
    ¬ d.Escapes := by
  obtain ⟨d', cfg, s, e, size, hd', hmode, hask, hsize⟩ := h
  obtain rfl := Except.ok.inj (hd.symm.trans hd')
  have hdiagram := isDiagram_of_matrix hd
  exact hdiagram.skew.not_escapes_of_finite hdiagram.isSquare hrank hmode hask hsize

/-- **A class can be exhausted when the diagram does not escape.** -/
theorem enumerable_iff (hd : t.matrix = .ok d) (hrank : d.rank ≤ 64) :
    Enumerable t ↔ ¬ d.Escapes := by
  refine ⟨fun h => h.not_escapes hd hrank, fun hesc => ?_⟩
  let s := Session.new .standard .running
  let cfg := EnumerationConfig.withMode .upToEquivalence
  have ht : s.token.NeverStops := Token.neverStops_running
  have hmode : cfg.mode = .upToEquivalence := rfl
  obtain ⟨halt, w, hj, hask⟩ := Session.ask_enumerate_collapsed hmode hrank ht
  cases hsize : ClassSize.ofHalt halt w.stats.discovered with
  | finite size => exact ⟨d, cfg, s, _, size, hd, hmode, hask, hsize⟩
  | cancelled => exact absurd hsize hj.decided
  | infinite =>
      rcases hj.infinite_cause hsize with ⟨x, hx, k, hk, hover⟩ | ⟨-, x, hx, hcert⟩
      · exact absurd ⟨x, hx, .inr ⟨k, hk, hover⟩⟩ hesc
      · exact absurd ⟨x, hx, .inl hcert⟩ hesc

/-! ### Members of the class of a candidate -/

/-- A matrix that matches does not escape. -/
theorem Matches.not_escapes (h : Matches m t) (ht : Enumerable t) (hrank : m.rank ≤ 64) :
    ¬ m.Escapes := by
  obtain ⟨d, hd, x, hx, hxm⟩ := h
  have hdiagram := isDiagram_of_matrix hd
  have hxrank : x.rank ≤ 64 := hxm.rank_eq.trans_le hrank
  have hxsymm := (hdiagram.skew.symmetrizable hdiagram.isSquare).reaches hx
  rw [← escapes_iff_of_same hxm hxsymm hxrank, ← escapes_iff_of_reaches hx]
  exact ht.not_escapes hd (hx.shape.rank_eq.symm.trans_le hxrank)

/-- What a diagram that does not escape reaches passes the filters. -/
theorem IsDiagram.isCandidate (h : IsDiagram t d) (hrank : d.rank ≤ 64) (hesc : ¬ d.Escapes)
    {x : ExchangeMatrix} (hx : Reaches d x) : isCandidate x = true := by
  have hxrank : x.rank = d.rank := hx.shape.rank_eq
  have hpos : 0 < x.rank := hxrank ▸ h.rank_pos
  have hcert : x.certifiesInfinite = false :=
    Bool.eq_false_iff.mpr fun hcert => hesc ⟨x, hx, .inl hcert⟩
  have hempty : x.isEmpty = false := by
    have hrows : 0 < x.rows := hpos.trans_le (Nat.min_le_left _ _)
    have hcols : 0 < x.cols := hpos.trans_le (Nat.min_le_right _ _)
    rw [isEmpty, Array.isEmpty, x.size_entries]
    exact decide_eq_false (Nat.mul_pos hrows hcols).ne'
  have hconnected := (h.connected hrank).reaches hx hrank
  have hcomponents : x.components.length = 1 := by
    rw [components_length_eq_one_iff, trackedRank_eq (hxrank.trans_le hrank)]
    exact ⟨hpos, hconnected⟩
  simp only [DynkinType.isCandidate, isSquare_of_sameShape hx.shape h.isSquare, hempty, hcert,
    hcomponents]
  rfl

/-- **A matrix that matches passes the filters.** -/
theorem Matches.isCandidate (h : Matches m t) (ht : Enumerable t) (hrank : m.rank ≤ 64) :
    isCandidate m = true := by
  have hesc := h.not_escapes ht hrank
  obtain ⟨d, hd, x, hx, hxm⟩ := h
  have hxrank : x.rank ≤ 64 := hxm.rank_eq.trans_le hrank
  have hdrank : d.rank ≤ 64 := hx.shape.rank_eq.symm.trans_le hxrank
  exact isCandidate_of_same hxm hxrank hesc
    ((isDiagram_of_matrix hd).isCandidate hdrank (ht.not_escapes hd hdrank) hx)

/-! ### Diagrams that match one class -/

/-- A mutation of a matrix that matches matches. -/
theorem Matches.mutate? (h : Matches m t) (hto : m.mutate? k = .ok m') : Matches m' t := by
  obtain ⟨d, hd, x, hx, p, -, hc⟩ := h
  have hp : p.inverse.size = m'.rank := by
    rw [p.size_inverse, hc.size, hc.shape.rank_eq, (mutatesTo_of_mutate? hto).shape.rank_eq]
  exact ⟨d, hd, _, .step hx (hc.inverse.mutate? hto),
    Identification.Same.symm ⟨p.inverse, trivial, carries_relabel hp⟩⟩

/-- The diagrams whose classes can be exhausted match both ends of a mutation or none. -/
theorem matches_iff_of_mutate? (ht : Enumerable t) (hrank : m.rank ≤ 64)
    (hto : m.mutate? k = .ok m') : Matches m t ↔ Matches m' t := by
  refine ⟨fun h => h.mutate? hto, fun h => ?_⟩
  have hshape := (mutatesTo_of_mutate? hto).shape
  rcases mutate?_back hto with hback | hover
  · exact h.mutate? hback
  · -- nothing in the class of the diagram overflows
    have hk : k < m'.rank := (mutatesTo_of_mutate? hto).symm.pivot
    exact absurd ⟨m', .refl m', .inr ⟨k, hk, hover⟩⟩
      (h.not_escapes ht (hshape.rank_eq.trans_le hrank))

theorem matches_iff_of_reaches (ht : Enumerable t) (hrank : m.rank ≤ 64) (hr : Reaches m m') :
    Matches m t ↔ Matches m' t := by
  induction hr with
  | refl => exact Iff.rfl
  | step hb hto ih =>
      exact ih.trans (matches_iff_of_mutate? ht (hb.shape.rank_eq.trans_le hrank) hto)

/-! ### What is found -/

/-- The answer on a candidate whose class can be exhausted says whether it matches. -/
theorem Enumerable.answer_iff (ht : Enumerable t) (hrank : t.rank ≤ 64) {answer : Option Bool}
    (h : Answer m t answer) : answer = some true ↔ Matches m t := by
  obtain ⟨d, hd, ha⟩ := h
  have hmatches : Matches m t ↔ ReachesRelabelling d m := by
    refine ⟨?_, fun h => ⟨d, hd, h⟩⟩
    rintro ⟨d', hd', h⟩
    obtain rfl := Except.ok.inj (hd.symm.trans hd')
    exact h
  rw [hmatches]
  rcases answer with _ | _ | _
  · obtain ⟨x, hx, k, hk, hover⟩ := ha
    exact absurd ⟨x, hx, .inr ⟨k, hk, hover⟩⟩
      (ht.not_escapes hd ((isDiagram_of_matrix hd).rank_eq.trans_le hrank))
  · exact iff_of_false nofun ha.1
  · exact iff_of_true rfl ha

open Classical in
/-- **The first match is found.** -/
theorem recognize_returns_first (hrank : m.rank ≤ 64)
    (henum : ∀ t ∈ ofRank m.rank, Enumerable t) :
    Session.Returns (recognize m)
      (· = (ofRank m.rank).find? fun t => decide (Matches m t)) := by
  refine (recognize_returns hrank).mono fun found h => ?_
  by_cases hcandidate : isCandidate m = true
  · rw [if_pos hcandidate] at h
    exact h.eq_find? fun t ht answer ha =>
      (henum t ht).answer_iff ((mem_ofRank.mp ht).1.trans_le hrank) ha
  · rw [if_neg hcandidate] at h
    rw [h, eq_comm, List.find?_eq_none]
    intro t ht hmatches
    exact hcandidate ((of_decide_eq_true hmatches).isCandidate (henum t ht) hrank)

/-- **Recognition is exact, and constant on mutation classes.**  Let the classes of all diagrams of
the rank of a matrix be exhausted by enumeration.  Then the first of these diagrams is found that
reaches a relabelling of the matrix, and none if there is none; and the same is found for all
relabellings of the matrix and for all that its mutations reach. -/
theorem recognize_exact (m : ExchangeMatrix) (hrank : m.rank ≤ 64)
    (henum : ∀ t ∈ ofRank m.rank, Enumerable t) :
    ∃ found : Option DynkinType,
      (∀ t, found = some t ↔ ∃ before after, ofRank m.rank = before ++ t :: after ∧
        Matches m t ∧ ∀ u ∈ before, ¬ Matches m u) ∧
      (found = none ↔ ∀ t ∈ ofRank m.rank, ¬ Matches m t) ∧
      ∀ s : Session, s.token.NeverStops →
        (s.ask (recognize m)).1 = .ok found ∧
        (∀ p : Permutation, p.size = m.rank → (s.ask (recognize (m.relabel p))).1 = .ok found) ∧
        ∀ m', Reaches m m' → (s.ask (recognize m')).1 = .ok found := by
  classical
  have hfirst : ∀ {x : ExchangeMatrix}, x.rank = m.rank →
      (∀ t ∈ ofRank m.rank, (Matches m t ↔ Matches x t)) →
      Session.Returns (recognize x)
        (· = (ofRank m.rank).find? fun t => decide (Matches m t)) := by
    intro x hx hiff
    have hreturns := recognize_returns_first (hx.trans_le hrank) (by rwa [hx])
    rw [hx] at hreturns
    have hsame : (ofRank m.rank).find? (fun t => decide (Matches x t)) =
        (ofRank m.rank).find? fun t => decide (Matches m t) :=
      List.find?_congr fun t ht => decide_eq_decide.mpr (hiff t ht).symm
    rwa [hsame] at hreturns
  refine ⟨(ofRank m.rank).find? fun t => decide (Matches m t), fun t => ?_, ?_,
    fun s hs => ⟨?_, fun p hp => ?_, fun m' hr => ?_⟩⟩
  · simp only [List.find?_eq_some_iff_append, decide_eq_true_eq, Bool.not_eq_true',
      decide_eq_false_iff_not]
    constructor
    · rintro ⟨hmatches, before, after, hsplit, hbefore⟩
      exact ⟨before, after, hsplit, hmatches, hbefore⟩
    · rintro ⟨before, after, hsplit, hmatches, hbefore⟩
      exact ⟨hmatches, before, after, hsplit, hbefore⟩
  · simp only [List.find?_eq_none, decide_eq_true_eq]
  · exact (hfirst rfl fun _ _ => Iff.rfl).ask_eq hs
  · have hsame : Identification.relabelling.Same m (m.relabel p) :=
      ⟨p, trivial, carries_relabel hp⟩
    exact (hfirst hsame.rank_eq.symm fun _ _ => matches_iff_of_same hsame).ask_eq hs
  · exact (hfirst hr.shape.rank_eq fun t ht =>
      matches_iff_of_reaches (henum t ht) hrank hr).ask_eq hs

/-! ### Three vertices -/

/-- The weights of the quivers in the class of a path of three vertices: the orientations of paths,
and the two directions of the cycle. -/
def pathClass : List (Int × Int × Int) :=
  [(1, 1, 0), (1, -1, 0), (-1, 1, 0), (-1, -1, 0), (1, 0, 1), (1, 0, -1), (-1, 0, 1), (-1, 0, -1),
    (0, 1, 1), (0, 1, -1), (0, -1, 1), (0, -1, -1), (1, 1, -1), (-1, -1, 1)]

/-- The quiver of three weights. -/
def weighted (w : Int × Int × Int) : ExchangeMatrix := weightedPath w.1 w.2.1 w.2.2

theorem matrix_a_three : (a 3).matrix = .ok (weighted (1, 1, 0)) := by
  rw [matrix_eq (by decide)]
  rfl

theorem exists_mutate?_pathClass : ∀ w ∈ pathClass, ∀ k < 3,
    ∃ w' ∈ pathClass, (weighted w).mutate? k = .ok (weighted w') := by
  simp only [mutate?_eq_ok_iff]
  decide

theorem exists_of_reaches_path {x : ExchangeMatrix} (hx : Reaches (weighted (1, 1, 0)) x) :
    ∃ w ∈ pathClass, x = weighted w := by
  induction hx with
  | refl => exact ⟨_, by decide, rfl⟩
  | step _ hto ih =>
      obtain ⟨w, hw, rfl⟩ := ih
      obtain ⟨w', hw', hto'⟩ := exists_mutate?_pathClass w hw _ (mutatesTo_of_mutate? hto).pivot
      exact ⟨w', hw', Except.ok.inj (hto.symm.trans hto')⟩

theorem enumerable_a_three : Enumerable (a 3) := by
  rw [enumerable_iff matrix_a_three (by decide)]
  rintro ⟨x, hx, hescape⟩
  obtain ⟨w, hw, rfl⟩ := exists_of_reaches_path hx
  rcases hescape with hcert | ⟨k, hk, hover⟩
  · have hnone : ∀ w ∈ pathClass, (weighted w).certifiesInfinite = false := by decide
    rw [hnone w hw] at hcert
    cases hcert
  · obtain ⟨w', -, hto⟩ := exists_mutate?_pathClass w hw k hk
    cases hover.symm.trans hto

/-- No weight of 2 is in the class. -/
theorem not_matches_of_two {x : ExchangeMatrix} {i j : Nat} (hx : x.values i j = 2) :
    ¬ Matches x (a 3) := by
  rintro ⟨d, hd, y, hy, p, -, hc⟩
  obtain rfl := Except.ok.inj (matrix_a_three.symm.trans hd)
  obtain ⟨w, hw, rfl⟩ := exists_of_reaches_path hy
  have hbound : ∀ w ∈ pathClass, ∀ i < 3, ∀ j < 3, (weighted w).values i j ≠ 2 := by decide
  have htwo : (weighted w).values (p.inverse.apply i) (p.inverse.apply j) = 2 := by
    rw [← hc.values, p.apply_inverse, p.apply_inverse, hx]
  by_cases hin : p.inverse.apply i < 3 ∧ p.inverse.apply j < 3
  · exact hbound w hw _ hin.1 _ hin.2 htwo
  · rw [values_eq_zero (weighted w) (show 3 ≤ _ ∨ 3 ≤ _ by omega)] at htwo
    cases htwo

/-- The cyclic triangle has the type of a path.  The acyclic one has none: a mutation of it has a
double arrow. -/
theorem recognize_exact_triangle :
    let s := Session.new .standard .running
    (weighted (-1, -1, 1)).rank ≤ 64 ∧ (∀ t ∈ ofRank 3, Enumerable t) ∧
      (s.ask (recognize (weighted (-1, -1, 1)))).1 = .ok (some (a 3)) ∧
      (s.ask (recognize (weighted (1, 1, 1)))).1 = .ok none := by
  intro s
  have hs : s.token.NeverStops := Token.neverStops_running
  have hcandidates : ofRank 3 = [a 3] := rfl
  have henum : ∀ t ∈ ofRank 3, Enumerable t := by
    rw [hcandidates]
    exact List.forall_mem_singleton.mpr enumerable_a_three
  refine ⟨by decide, henum, ?_, ?_⟩
  · obtain ⟨found, hsome, -, hask⟩ := recognize_exact (weighted (-1, -1, 1)) (by decide) henum
    have hto : (weighted (1, 1, 0)).mutate? 1 = .ok (weighted (-1, -1, 1)) :=
      mutate?_eq_ok_iff.mpr (by decide)
    have hmatches : Matches (weighted (-1, -1, 1)) (a 3) :=
      ⟨_, matrix_a_three, _, .one hto, .refl _⟩
    rw [(hask s hs).1, (hsome (a 3)).mpr ⟨[], [], hcandidates, hmatches, nofun⟩]
  · obtain ⟨found, -, hnone, hask⟩ := recognize_exact (weighted (1, 1, 1)) (by decide) henum
    have hto : (weighted (1, 1, 1)).mutate? 1 = .ok (weighted (-1, -1, 2)) :=
      mutate?_eq_ok_iff.mpr (by decide)
    rw [(hask s hs).1, hnone.mpr]
    show ∀ t ∈ ofRank 3, ¬ Matches (weighted (1, 1, 1)) t
    rw [hcandidates, List.forall_mem_singleton]
    exact fun h => not_matches_of_two (i := 0) (j := 2) (by decide) (h.mutate? hto)

end DynkinType

end MutationFinite
