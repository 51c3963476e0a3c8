import MutationFinite.Proofs.Classification.Result

/-!
# Classification does not depend on labels

The order of the vertices decides which edges a walk takes first, where the random walks go and
which deletion comes first.  What is found out about a symmetrizable matrix is about its quiver.

* `escapes_iff_of_same`, `classCount_eq_of_same`: what relabelled matrices share.
* `HasVerdict.of_same`: so they share their verdict.
* `DynkinType.matches_iff_of_same`, `DynkinType.isCandidate_of_same`: and their Dynkin type.
* `classify_relabel`: so classification finds the same.
-/

namespace MutationFinite

open ExchangeMatrix

/-! ### Verdicts -/

theorem Identification.Same.rank_eq {I : Identification} {a b : ExchangeMatrix} (h : I.Same a b) :
    a.rank = b.rank := by
  obtain ⟨p, -, hc⟩ := h
  exact hc.shape.rank_eq

namespace ExchangeMatrix

variable {a b x : ExchangeMatrix} {mode : EnumerationMode}

theorem Symmetrizable.of_same (ha : Symmetrizable a) (h : Identification.relabelling.Same a b) :
    Symmetrizable b := by
  obtain ⟨p, -, hc⟩ := h
  exact (hc.inverse.embeds (hc.embeds ha.square).squareOuter).symmetrizable ha

/-- Escape is shared by relabelled matrices. -/
theorem escapes_iff_of_same (h : Identification.relabelling.Same a b) (ha : Symmetrizable a)
    (hrank : a.rank ≤ 64) : a.Escapes ↔ b.Escapes := by
  have hb := ha.of_same h
  obtain ⟨p, -, hc⟩ := h
  have hbrank : b.rank ≤ 64 := hc.shape.rank_eq ▸ hrank
  exact not_iff_not.mp ⟨(hc.inverse.embeds hb.square).not_escapes ha hrank,
    (hc.embeds ha.square).not_escapes hb hbrank⟩

/-- What one of two relabelled matrices reaches the other one reaches up to relabelling. -/
theorem classes_subset_of_same (h : Identification.relabelling.Same a b) :
    Identification.relabelling.classes a.mutationClass ⊆
      Identification.relabelling.classes b.mutationClass := by
  obtain ⟨p, -, hc⟩ := h
  rintro _ ⟨x, hx, rfl⟩
  obtain ⟨y, hy, hxy⟩ := hc.reaches hx
  exact ⟨y, hy, Identification.mk_eq_mk_iff.mpr ⟨_, trivial, hxy.inverse⟩⟩

/-- **Relabelled matrices reach as many matrices, and as many classes.** -/
theorem classCount_eq_of_same (h : Identification.relabelling.Same a b) :
    a.classCount mode = b.classCount mode := by
  cases mode with
  | exact =>
      obtain ⟨p, -, hc⟩ := h
      exact le_antisymm hc.encard_mutationClass_le hc.inverse.encard_mutationClass_le
  | upToEquivalence =>
      exact congrArg Set.encard
        (Set.Subset.antisymm (classes_subset_of_same h) (classes_subset_of_same h.symm))

/-- A relabelling of a matrix with one component has one component. -/
theorem components_length_of_same (h : Identification.relabelling.Same a b) (hrank : a.rank ≤ 64)
    (hone : a.components.length = 1) : b.components.length = 1 := by
  obtain ⟨p, -, hc⟩ := h
  have hbrank : b.rank ≤ 64 := hc.shape.rank_eq ▸ hrank
  rw [components_length_eq_one_iff, trackedRank_eq hrank] at hone
  rw [components_length_eq_one_iff, trackedRank_eq hbrank, ← hc.shape.rank_eq]
  refine ⟨hone.1, fun i hi j hj => ?_⟩
  rw [← p.apply_inverse i, ← p.apply_inverse j]
  rw [← p.apply_inverse i] at hi
  rw [← p.apply_inverse j] at hj
  have hlt : ∀ {v}, p.apply v < a.rank → v < a.rank :=
    fun hv => hc.pivot_lt.mp (hc.shape.rank_eq ▸ hv)
  exact hc.linked hrank (hone.2 _ (hlt hi) _ (hlt hj))

end ExchangeMatrix

section Relabelled

variable [Generator] {cfg cfg' : ClassifierConfig} {a b m : ExchangeMatrix} {v : Finiteness}

/-- **Relabelled matrices have one verdict**, whatever else is set. -/
theorem HasVerdict.of_same (h : HasVerdict cfg a v) (hs : Identification.relabelling.Same a b)
    (ha : Symmetrizable a) (hrank : a.rank ≤ 64) (hmode : cfg.mode = cfg'.mode) :
    HasVerdict cfg' b v := by
  have hb := ha.of_same hs
  have hbrank : b.rank ≤ 64 := hs.rank_eq ▸ hrank
  rcases hasVerdict_decides cfg ha hrank with ⟨h', hesc⟩ | ⟨size, h', hesc, hcount⟩
  · obtain rfl := h.unique h'
    exact (hasVerdict_infinite_iff cfg' hb hbrank).mpr
      ((escapes_iff_of_same hs ha hrank).mp hesc)
  · obtain rfl := h.unique h'
    refine (hasVerdict_finite_iff cfg' hb hbrank).mpr
      ⟨mt (escapes_iff_of_same hs ha hrank).mpr hesc, ?_⟩
    rw [← hmode, ← classCount_eq_of_same hs, hcount]

/-- The deletions of a relabelling are finite when those of the matrix are, each in its turn. -/
theorem forall_deletions_of_same (hs : Identification.relabelling.Same a b) (ha : Symmetrizable a)
    (hrank : a.rank ≤ 64) (hmode : cfg.mode = cfg'.mode)
    (h : ∀ k < a.rank, ∃ size, HasVerdict (cfg.later (k + 1)) (a.deletion k) (.finite size)) :
    ∀ k < b.rank, ∃ size, HasVerdict (cfg'.later (k + 1)) (b.deletion k) (.finite size) := by
  obtain ⟨p, -, hc⟩ := hs
  intro k hk
  rw [← p.apply_inverse k] at hk
  have hk : p.inverse.apply k < a.rank := hc.pivot_lt.mp hk
  obtain ⟨size, hverdict⟩ := h _ hk
  have hsame := hc.same_deletion ha.square hk
  rw [p.apply_inverse] at hsame
  exact ⟨size, hverdict.of_same hsame (ha.deletion hk)
    ((rank_deletion_le a _).trans hrank) hmode⟩

/-- The deletions of relabelled matrices are finite alike. -/
theorem forall_deletions_iff_of_same (hs : Identification.relabelling.Same a b)
    (ha : Symmetrizable a) (hrank : a.rank ≤ 64) (hmode : cfg.mode = cfg'.mode) :
    (∀ k < a.rank, ∃ size, HasVerdict (cfg.later (k + 1)) (a.deletion k) (.finite size)) ↔
      ∀ k < b.rank, ∃ size, HasVerdict (cfg'.later (k + 1)) (b.deletion k) (.finite size) :=
  ⟨forall_deletions_of_same hs ha hrank hmode,
    forall_deletions_of_same hs.symm (ha.of_same hs) (hs.rank_eq ▸ hrank) hmode.symm⟩

end Relabelled

/-! ### Dynkin types -/

namespace DynkinType

variable {a b m : ExchangeMatrix} {t : DynkinType}

theorem matches_iff_of_same (h : Identification.relabelling.Same a b) :
    Matches a t ↔ Matches b t := by
  refine exists_congr fun d => and_congr_right fun _ => ⟨?_, ?_⟩
  · rintro ⟨x, hx, hxa⟩
    exact ⟨x, hx, hxa.trans h⟩
  · rintro ⟨x, hx, hxb⟩
    exact ⟨x, hx, hxb.trans h.symm⟩

/-- The search from a diagram is not cut short when it has a matrix to find that does not escape. -/
theorem answer_iff_matches (hm : Symmetrizable m) (hrank : m.rank ≤ 64) (hesc : ¬ m.Escapes)
    {answer : Option Bool} (h : Answer m t answer) : answer = some true ↔ Matches m t := by
  obtain ⟨d, hd, ha⟩ := h
  have hmatches : Matches m t ↔ ReachesRelabelling d m := by
    refine ⟨?_, fun h => ⟨d, hd, h⟩⟩
    rintro ⟨d', hd', h⟩
    obtain rfl := Except.ok.inj (hd.symm.trans hd')
    exact h
  rw [hmatches]
  rcases answer with _ | _ | _
  · -- the diagram escapes, and so does all that it reaches
    obtain ⟨x, hx, k, hk, hover⟩ := ha
    refine iff_of_false nofun ?_
    rintro ⟨y, hy, hym⟩
    have hescd : d.Escapes := ⟨x, hx, .inr ⟨k, hk, hover⟩⟩
    exact hesc ((escapes_iff_of_same hym.symm hm hrank).mpr
      ((escapes_iff_of_reaches hy).mp hescd))
  · exact iff_of_false nofun ha.1
  · exact iff_of_true rfl ha

theorem isCandidate_of_same (h : Identification.relabelling.Same a b) (hrank : a.rank ≤ 64)
    (hesc : ¬ b.Escapes) (ha : isCandidate a = true) : isCandidate b = true := by
  have hcert : b.certifiesInfinite = false :=
    Bool.eq_false_iff.mpr fun hcert => hesc ⟨b, .refl b, .inl hcert⟩
  have hone := components_length_of_same h hrank
  obtain ⟨p, -, hc⟩ := h
  have hsquare : b.isSquare = a.isSquare := by
    rw [isSquare, isSquare, hc.shape.1, hc.shape.2]
  have hempty : b.isEmpty = a.isEmpty := by
    rw [isEmpty, isEmpty, Array.isEmpty, Array.isEmpty, b.size_entries, a.size_entries,
      hc.shape.1, hc.shape.2]
  simp only [isCandidate, Bool.and_eq_true, Bool.not_eq_true', beq_iff_eq] at ha ⊢
  rw [hsquare, hempty]
  exact ⟨⟨ha.1.1, hcert⟩, hone ha.2⟩

open Classical in
/-- **On a matrix that does not escape recognition finds the first match.** -/
theorem recognize_returns_find? (hm : Symmetrizable m) (hrank : m.rank ≤ 64)
    (hesc : ¬ m.Escapes) :
    Session.Returns (recognize m) (· = if isCandidate m = true then
      (ofRank m.rank).find? fun t => decide (Matches m t) else none) := by
  refine (recognize_returns hrank).mono fun found h => ?_
  by_cases hcandidate : isCandidate m = true
  · rw [if_pos hcandidate] at h ⊢
    exact h.eq_find? fun t _ answer ha => answer_iff_matches hm hrank hesc ha
  · rw [if_neg hcandidate] at h ⊢
    exact h

/-- **Relabelled matrices have one Dynkin type.** -/
theorem exists_recognize_eq_of_same (h : Identification.relabelling.Same a b)
    (ha : Symmetrizable a) (hrank : a.rank ≤ 64) (hesc : ¬ a.Escapes) :
    ∃ found, Session.Returns (recognize a) (· = found) ∧
      Session.Returns (recognize b) (· = found) := by
  classical
  have hesc' : ¬ b.Escapes := mt (escapes_iff_of_same h ha hrank).mpr hesc
  have hbrank : b.rank ≤ 64 := h.rank_eq ▸ hrank
  have hcandidate : isCandidate b = true ↔ isCandidate a = true :=
    ⟨isCandidate_of_same h.symm hbrank hesc, isCandidate_of_same h hrank hesc'⟩
  refine ⟨_, recognize_returns_find? ha hrank hesc, ?_⟩
  have hb := recognize_returns_find? (ha.of_same h) hbrank hesc'
  simpa only [hcandidate, ← h.rank_eq, ← matches_iff_of_same h] using hb

end DynkinType

/-! ### Classification -/

/-- **Classification does not depend on labels.**  Whatever else is set, when a mode is fixed, a
symmetrizable matrix and its relabellings have one result, in every session that nobody stops, and
one answer to whether they are minimally mutation-infinite. -/
theorem classify_relabel [Generator] (m : ExchangeMatrix) (hm : Symmetrizable m)
    (hrank : m.rank ≤ 64) (p : Permutation) (hp : p.size = m.rank) (cfg cfg' : ClassifierConfig)
    (hmode : cfg.mode = cfg'.mode) :
    ∃ (result : ClassificationResult) (minimal : Bool),
      ((∃ size, HasVerdict cfg m (.finite size) ∧
          result = ⟨some true, some size, some false, result.dynkinType⟩) ∨
        (HasVerdict cfg m .infinite ∧ result = ⟨some false, none, some minimal, none⟩)) ∧
      ∀ s : Session, s.token.NeverStops →
        (s.ask (classify cfg m)).1 = .ok result ∧
          (s.ask (classify cfg' (m.relabel p))).1 = .ok result ∧
          (s.ask (isMinimallyInfinite? cfg m)).1 = .ok (some minimal) ∧
          (s.ask (isMinimallyInfinite? cfg' (m.relabel p))).1 = .ok (some minimal) := by
  have hsame : Identification.relabelling.Same m (m.relabel p) := ⟨p, trivial, carries_relabel hp⟩
  have hrank' : (m.relabel p).rank ≤ 64 := hsame.rank_eq ▸ hrank
  rcases hasVerdict_cases cfg hrank with ⟨size, hverdict⟩ | hverdict
  · have hverdict' : HasVerdict cfg' (m.relabel p) (.finite size) :=
      hverdict.of_same hsame hm hrank hmode
    have hesc := ((hasVerdict_finite_iff cfg hm hrank).mp hverdict).1
    obtain ⟨found, hfound, hfound'⟩ :=
      DynkinType.exists_recognize_eq_of_same hsame hm hrank hesc
    have hresult := classify_returns_of_finite hverdict hfound
    have hresult' := classify_returns_of_finite hverdict' hfound'
    simp only [exists_eq_left] at hresult hresult'
    exact ⟨_, false, .inl ⟨size, hverdict, rfl⟩, fun s ht =>
      ⟨hresult.ask_eq ht, hresult'.ask_eq ht,
        (isMinimallyInfinite?_returns_of_finite hverdict).ask_eq ht,
        (isMinimallyInfinite?_returns_of_finite hverdict').ask_eq ht⟩⟩
  · have hverdict' : HasVerdict cfg' (m.relabel p) .infinite :=
      hverdict.of_same hsame hm hrank hmode
    obtain ⟨minimal, hdeletions, hiff⟩ := deletionsAllFinite?_returns cfg hrank
    obtain ⟨minimal', hdeletions', hiff'⟩ := deletionsAllFinite?_returns cfg' hrank'
    obtain rfl : minimal = minimal' := by
      rw [Bool.eq_iff_iff, hiff, hiff', forall_deletions_iff_of_same hsame hm hrank hmode]
    exact ⟨_, minimal, .inr ⟨hverdict, rfl⟩, fun s ht =>
      ⟨(classify_returns_of_infinite hverdict hdeletions).ask_eq ht,
        (classify_returns_of_infinite hverdict' hdeletions').ask_eq ht,
        (isMinimallyInfinite?_returns_of_infinite hverdict hdeletions).ask_eq ht,
        (isMinimallyInfinite?_returns_of_infinite hverdict' hdeletions').ask_eq ht⟩⟩

/-- An arrow is the diagram of two vertices, and its class has two matrices. -/
theorem classify_returns_arrow [Generator] (cfg : ClassifierConfig) (hmode : cfg.mode = .exact) :
    Session.Returns (classify cfg (rankTwo (.ofInt 1) (.ofInt (-1))))
      (· = ⟨some true, some 2, some false, some (.a 2)⟩) := by
  classical
  have hopposed : Opposed (.ofInt 1) (.ofInt (-1)) := by decide
  have hverdict : HasVerdict cfg (rankTwo (.ofInt 1) (.ofInt (-1))) (.finite 2) :=
    hasVerdict_rankTwo_of_exact hmode hopposed (by decide) (by decide)
  have hmatches : DynkinType.Matches (rankTwo (.ofInt 1) (.ofInt (-1))) (.a 2) :=
    ⟨rankTwo (.ofInt 1) (.ofInt (-1)), by decide, _, .refl _, .refl _⟩
  have hrecognize := DynkinType.recognize_returns_find? (symmetrizable_rankTwo hopposed)
    (by decide) ((hasVerdict_finite_iff cfg (symmetrizable_rankTwo hopposed) (by decide)).mp
      hverdict).1
  refine (classify_returns_of_finite hverdict hrecognize).mono ?_
  rintro _ ⟨found, hfound, rfl⟩
  have hfirst : found = some (.a 2) := by
    rw [hfound, if_pos (by decide)]
    exact List.find?_cons_of_pos (decide_eq_true hmatches)
  rw [hfirst]

/-- An arrow turned around, and the path with its first two vertices exchanged, asked about with
other seeds and with three workers. -/
theorem classify_relabel_arrows :
    let arrow := rankTwo (.ofInt 1) (.ofInt (-1))
    let p : Permutation := ⟨#[1, 0], by decide⟩
    let q : Permutation := ⟨#[1, 0, 2], by decide⟩
    let s := Session.new .standard .running
    let cfg := ClassifierConfig.standard 1 0
    let cfg' := ClassifierConfig.standard 3 7
    let finite : ClassificationResult := ⟨some true, some 2, some false, some (.a 2)⟩
    let infinite : ClassificationResult := ⟨some false, none, some true, none⟩
    (arrow.rank ≤ 64 ∧ p.size = arrow.rank ∧ arrow.relabel p ≠ arrow ∧
      (s.ask (classify cfg arrow)).1 = .ok finite ∧
      (s.ask (classify cfg' (arrow.relabel p))).1 = .ok finite ∧
      (s.ask (isMinimallyInfinite? cfg' (arrow.relabel p))).1 = .ok (some false)) ∧
    (tripleArrow.rank ≤ 64 ∧ q.size = tripleArrow.rank ∧ tripleArrow.relabel q ≠ tripleArrow ∧
      (s.ask (classify cfg tripleArrow)).1 = .ok infinite ∧
      (s.ask (classify cfg' (tripleArrow.relabel q))).1 = .ok infinite ∧
      (s.ask (isMinimallyInfinite? cfg' (tripleArrow.relabel q))).1 = .ok (some true)) := by
  intro arrow p q s cfg cfg' finite infinite
  have hrunning : s.token.NeverStops := Token.neverStops_running
  constructor
  · have hopposed : Opposed (.ofInt 1) (.ofInt (-1)) := by decide
    have harrow := (classify_returns_arrow cfg rfl).ask_eq hrunning
    obtain ⟨result, minimal, hcases, hask⟩ := classify_relabel arrow
      (symmetrizable_rankTwo hopposed) (by decide) p rfl cfg cfg' rfl
    obtain ⟨hresult, hresult', hminimal, hminimal'⟩ := hask s hrunning
    obtain rfl : result = finite := Except.ok.inj (hresult.symm.trans harrow)
    have hno := (isMinimallyInfinite?_returns_of_finite
      (hasVerdict_rankTwo cfg hopposed (by decide))).ask_eq hrunning
    obtain rfl : minimal = false := Option.some.inj (Except.ok.inj (hminimal.symm.trans hno))
    exact ⟨by decide, rfl, by decide, hresult, hresult', hminimal'⟩
  · obtain ⟨result, minimal, hcases, hask⟩ := classify_relabel tripleArrow
      symmetrizable_tripleArrow (by decide) q rfl cfg cfg' rfl
    obtain ⟨hresult, hresult', hminimal, hminimal'⟩ := hask s hrunning
    have hverdict := hasVerdict_tripleArrow cfg
    obtain ⟨answer, hreturns, hiff⟩ :=
      isMinimallyInfinite?_returns cfg (by decide : tripleArrow.rank ≤ 64)
    obtain rfl : answer = true :=
      hiff.mpr ⟨hverdict, fun k hk => ⟨_, hasVerdict_deletion_tripleArrow _ rfl k hk⟩⟩
    obtain rfl : true = minimal :=
      Option.some.inj (Except.ok.inj ((hreturns.ask_eq hrunning).symm.trans hminimal))
    rcases hcases with ⟨size, hfinite, -⟩ | ⟨-, rfl⟩
    · cases hverdict.unique hfinite
    · exact ⟨by decide, rfl, by decide, hresult, hresult', hminimal'⟩

end MutationFinite
