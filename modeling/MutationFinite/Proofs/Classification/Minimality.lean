import MutationFinite.Classification.Minimality
import MutationFinite.Proofs.Classification.Checks
import MutationFinite.Proofs.Classification.Deletion

/-!
# Minimally mutation-infinite matrices

The verdicts on the deletions decide, in whatever order they are folded and wherever the fold is
cut off: the fold never says more than the whole list does.

* `allFinite?`: what a list of verdicts says together.
* `finish_foldUntilStop`: what the fold has found out.
* `isMinimallyInfinite?_returns`: the answer in every session that nobody stops.
* `isMinimallyInfinite?_anyOrder`: the answer does not depend on the order.
-/

namespace MutationFinite

open ExchangeMatrix

/-- What verdicts say together: no if one is infinite, yes if all are finite, and nothing
otherwise. -/
def allFinite? (verdicts : List Finiteness) : Option Bool :=
  if .infinite ∈ verdicts then some false
  else if ∀ v ∈ verdicts, v.size?.isSome = true then some true
  else none

/-- Without an infinite verdict it is an unknown one that leaves the answer open. -/
theorem allFinite?_of_not_mem {verdicts : List Finiteness} (h : .infinite ∉ verdicts) :
    allFinite? verdicts = if .unknown ∈ verdicts then none else some true := by
  rw [allFinite?, if_neg h]
  by_cases hunknown : .unknown ∈ verdicts
  · rw [if_pos hunknown, if_neg fun hall => Bool.false_ne_true (hall _ hunknown)]
  · rw [if_neg hunknown, if_pos]
    intro v hv
    cases v with
    | finite size => rfl
    | infinite => exact absurd hv h
    | unknown => exact absurd hv hunknown

/-- Verdicts that are decided say together whether all of them are finite. -/
theorem exists_allFinite?_eq {verdicts : List Finiteness} (h : .unknown ∉ verdicts) :
    ∃ answer : Bool, allFinite? verdicts = some answer ∧
      (answer = true ↔ ∀ v ∈ verdicts, ∃ size, v = .finite size) := by
  by_cases hinfinite : .infinite ∈ verdicts
  · refine ⟨false, if_pos hinfinite, iff_of_false nofun fun hall => ?_⟩
    obtain ⟨size, hsize⟩ := hall _ hinfinite
    cases hsize
  · refine ⟨true, by rw [allFinite?_of_not_mem hinfinite, if_neg h], iff_of_true rfl fun v hv => ?_⟩
    cases v with
    | finite size => exact ⟨size, rfl⟩
    | infinite => exact absurd hv hinfinite
    | unknown => exact absurd hv h

/-- The order of the verdicts does not matter. -/
theorem allFinite?_perm {order verdicts : List Finiteness} (h : order.Perm verdicts) :
    allFinite? order = allFinite? verdicts := by
  simp only [allFinite?, h.mem_iff]

namespace MinimalityFold

variable {verdicts cut : List Finiteness}

/-- **What the fold has found out** after the verdicts, when it had no answer before. -/
theorem finish_foldUntilStop (verdicts : List Finiteness) (f : MinimalityFold)
    (herror : f.error = none) (hinfinite : f.infiniteFound = false) :
    (foldUntilStop fold f (verdicts.map .ok)).finish = .ok
      (if .infinite ∈ verdicts then some false
      else if f.unknownFound = true ∨ .unknown ∈ verdicts ∨ f.folded + verdicts.length < f.expected
      then none else some true) := by
  induction verdicts generalizing f with
  | nil => simp [foldUntilStop, finish, herror, hinfinite]
  | cons v verdicts ih =>
      cases v with
      | finite size =>
          simp only [List.map_cons, foldUntilStop, fold]
          rw [ih]
          · simp [Nat.add_assoc, Nat.add_comm 1]
          · exact herror
          · exact hinfinite
      | infinite => simp [foldUntilStop, fold, finish, herror]
      | unknown =>
          simp only [List.map_cons, foldUntilStop, fold]
          rw [ih]
          · simp
          · exact herror
          · exact hinfinite

/-- Where nothing was folded before, an answer is that of the verdicts, if none of them is
missing. -/
theorem finish_start (verdicts : List Finiteness) (expected : Nat) :
    (foldUntilStop fold (.start expected) (verdicts.map .ok)).finish = .ok
      (if .infinite ∈ verdicts then some false
      else if .unknown ∈ verdicts ∨ verdicts.length < expected then none else some true) := by
  rw [finish_foldUntilStop verdicts (.start expected) rfl rfl]
  simp [start]

/-- **A fold of all verdicts says what they say together.** -/
theorem finish_complete {expected : Nat} (h : verdicts.length = expected) :
    (foldUntilStop fold (.start expected) (verdicts.map .ok)).finish =
      .ok (allFinite? verdicts) := by
  rw [finish_start, h]
  by_cases hinfinite : .infinite ∈ verdicts
  · rw [if_pos hinfinite, allFinite?, if_pos hinfinite]
  · rw [if_neg hinfinite, allFinite?_of_not_mem hinfinite]
    simp

/-- **A fold that is cut off says nothing else**: it has the answer of the whole list, or none. -/
theorem finish_of_prefix {expected : Nat} (h : verdicts.length = expected)
    (hcut : cut <+: verdicts) :
    (foldUntilStop fold (.start expected) (cut.map .ok)).finish = .ok none ∨
      (foldUntilStop fold (.start expected) (cut.map .ok)).finish = .ok (allFinite? verdicts) := by
  by_cases hinfinite : .infinite ∈ cut
  · refine .inr ?_
    rw [finish_start, if_pos hinfinite, allFinite?, if_pos (hcut.subset hinfinite)]
  · by_cases hlength : cut.length < expected
    · rw [finish_start, if_neg hinfinite, if_pos (.inr hlength)]
      exact .inl rfl
    · -- nothing was cut off
      obtain rfl : cut = verdicts := hcut.eq_of_length_le (h ▸ Nat.not_lt.mp hlength)
      exact .inr (finish_complete h)

end MinimalityFold

/-! ### Deletions -/

theorem matrix_deletionChecks (cfg : ClassifierConfig) (m : ExchangeMatrix) (k : Nat) :
    (deletionChecks cfg m).matrix k = if k < m.rank then m.deletion k else m := by
  by_cases hk : k < m.rank <;> simp [deletionChecks, vertexDeletions_eq, Array.getD, hk]

theorem count_deletionChecks (cfg : ClassifierConfig) (m : ExchangeMatrix) :
    (deletionChecks cfg m).count = m.rank := by
  simp [deletionChecks, vertexDeletions_eq]

/-- The fold of the verdicts on all deletions, in whatever order, says what they say together. -/
theorem finish_folded_deletionChecks (cfg : ClassifierConfig) (m : ExchangeMatrix)
    (verdict : Nat → Finiteness) {order : List Nat} (horder : order.Perm (List.range m.rank)) :
    ((deletionChecks cfg m).folded verdict order).finish =
      .ok (allFinite? ((List.range m.rank).map verdict)) := by
  have hfolded : (deletionChecks cfg m).folded verdict order =
      foldUntilStop MinimalityFold.fold (.start m.rank) ((order.map verdict).map .ok) := by
    rw [Checks.folded, foldUntilStop_map, List.map_map, foldUntilStop_map,
      ← count_deletionChecks cfg m]
    rfl
  rw [hfolded, ← allFinite?_perm (horder.map verdict)]
  exact MinimalityFold.finish_complete (by simpa using horder.length_eq)

section Answer

variable [Generator] {cfg : ClassifierConfig} {m : ExchangeMatrix} {matrices : List ExchangeMatrix}
  {verdicts : List Finiteness}

theorem mem_verdicts_iff (h : List.Forall₂ (HasVerdict cfg) matrices verdicts) {v : Finiteness} :
    v ∈ verdicts ↔ ∃ d ∈ matrices, HasVerdict cfg d v := by
  induction h with
  | nil => simp
  | cons hd _ ih =>
      rw [List.mem_cons, List.exists_mem_cons_iff, ih]
      refine or_congr_left ⟨?_, fun h => h.unique hd⟩
      rintro rfl
      exact hd

theorem forall_finite_iff (h : List.Forall₂ (HasVerdict cfg) matrices verdicts) :
    (∀ v ∈ verdicts, ∃ size, v = .finite size) ↔
      ∀ d ∈ matrices, ∃ size, HasVerdict cfg d (.finite size) := by
  induction h with
  | nil => simp
  | cons hd _ ih =>
      rw [List.forall_mem_cons, List.forall_mem_cons, ih]
      exact and_congr_left fun _ =>
        exists_congr fun size => ⟨fun hsize => hsize ▸ hd, fun hsize => hd.unique hsize⟩

/-- Matrices of at most 64 mutable vertices have verdicts that are decided. -/
theorem unknown_not_mem (h : List.Forall₂ (HasVerdict cfg) matrices verdicts)
    (hrank : ∀ d ∈ matrices, d.rank ≤ 64) : .unknown ∉ verdicts := by
  intro hmem
  obtain ⟨d, hd, hverdict⟩ := (mem_verdicts_iff h).mp hmem
  obtain ⟨v, hv, hverdict'⟩ := exists_hasVerdict cfg (hrank d hd)
  exact hv (hverdict'.unique hverdict)

/-- Each deletion has its verdict when its turn comes. -/
theorem exists_decided_deletionChecks (cfg : ClassifierConfig) (hrank : m.rank ≤ 64) :
    ∃ verdict : Nat → Finiteness, (∀ k, verdict k ≠ .unknown) ∧
      (deletionChecks cfg m).Decided verdict ∧
      ∀ k < m.rank, HasVerdict (cfg.later (k + 1)) (m.deletion k) (verdict k) := by
  have hranks : ∀ k, ((deletionChecks cfg m).matrix k).rank ≤ 64 := by
    intro k
    rw [matrix_deletionChecks]
    split
    · exact (m.rank_deletion_le k).trans hrank
    · exact hrank
  choose verdict hknown hverdict using fun k =>
    exists_hasVerdict (cfg.later (k + 1)) (hranks k)
  refine ⟨verdict, hknown, hverdict, fun k hk => ?_⟩
  have h := hverdict k
  rwa [matrix_deletionChecks, if_pos hk] at h

/-- **Whether all deletions are finite is decided** in every session that nobody stops, each by the
check whose turn it is. -/
theorem deletionsAllFinite?_returns (cfg : ClassifierConfig) (hrank : m.rank ≤ 64) :
    ∃ answer : Bool, Session.Returns (deletionsAllFinite? cfg m) (· = some answer) ∧
      (answer = true ↔ ∀ k < m.rank, ∃ size,
        HasVerdict (cfg.later (k + 1)) (m.deletion k) (.finite size)) := by
  obtain ⟨verdict, hknown, hdecided, hverdict⟩ := exists_decided_deletionChecks cfg hrank
  have hunknown : .unknown ∉ (List.range m.rank).map verdict := by
    rintro hmem
    obtain ⟨k, -, hk⟩ := List.mem_map.mp hmem
    exact hknown k hk
  obtain ⟨answer, hanswer, hiff⟩ := exists_allFinite?_eq hunknown
  refine ⟨answer, hdecided.run_returns.bind ?_, hiff.trans ?_⟩
  · rintro _ ⟨order, horder, rfl⟩
    rw [count_deletionChecks] at horder
    exact .ofExcept (finish_folded_deletionChecks cfg m verdict horder) hanswer
  · simp only [List.forall_mem_map, List.mem_range]
    refine forall₂_congr fun k hk => exists_congr fun size => ⟨?_, (hverdict k hk).unique⟩
    intro h
    exact h ▸ hverdict k hk

/-- A finite matrix is not minimally mutation-infinite. -/
theorem isMinimallyInfinite?_returns_of_finite {size : Nat} (h : HasVerdict cfg m (.finite size)) :
    Session.Returns (isMinimallyInfinite? cfg m) (· = some false) :=
  h.bind_eq (.pure rfl)

/-- An infinite matrix is minimal when its deletions are all finite. -/
theorem isMinimallyInfinite?_returns_of_infinite {minimal : Bool}
    (h : HasVerdict cfg m .infinite)
    (hdeletions : Session.Returns (deletionsAllFinite? cfg m) (· = some minimal)) :
    Session.Returns (isMinimallyInfinite? cfg m) (· = some minimal) :=
  h.bind_eq hdeletions

/-- **Minimality is decided** in every session that nobody stops. -/
theorem isMinimallyInfinite?_returns (cfg : ClassifierConfig) (hrank : m.rank ≤ 64) :
    ∃ answer : Bool, Session.Returns (isMinimallyInfinite? cfg m) (· = some answer) ∧
      (answer = true ↔ HasVerdict cfg m .infinite ∧ ∀ k < m.rank, ∃ size,
        HasVerdict (cfg.later (k + 1)) (m.deletion k) (.finite size)) := by
  rcases hasVerdict_cases cfg hrank with ⟨size, hverdict⟩ | hverdict
  · exact ⟨false, isMinimallyInfinite?_returns_of_finite hverdict,
      iff_of_false nofun fun h => nomatch h.1.unique hverdict⟩
  · obtain ⟨answer, hreturns, hiff⟩ := deletionsAllFinite?_returns cfg hrank
    exact ⟨answer, isMinimallyInfinite?_returns_of_infinite hverdict hreturns,
      hiff.trans (and_iff_right hverdict).symm⟩

theorem forall_deleteVertex_iff : (∀ k < m.rank, ∃ d size, m.deleteVertex k = .ok d ∧
      HasVerdict cfg d (.finite size)) ↔
    ∀ k < m.rank, ∃ size, HasVerdict cfg (m.deletion k) (.finite size) := by
  refine forall₂_congr fun k hk => ?_
  simp only [deleteVertex_eq hk, Except.ok.injEq, exists_and_left, exists_eq_left']

/-- With a fixed seed the checks of the deletions are made like that of the matrix, wherever the
workers and the order of their steps take them. -/
theorem isMinimallyInfinite?_returns_of_seed (cfg : ClassifierConfig)
    (hseed : cfg.heuristic.seed.isSome = true) (hrank : m.rank ≤ 64) :
    ∃ answer : Bool,
      (∀ pipeline schedules, Session.Returns
        (isMinimallyInfinite? { cfg with pipeline, schedules } m) (· = some answer)) ∧
      (answer = true ↔ HasVerdict cfg m .infinite ∧ ∀ k < m.rank, ∃ d size,
        m.deleteVertex k = .ok d ∧ HasVerdict cfg d (.finite size)) := by
  obtain ⟨answer, -, hiff⟩ := isMinimallyInfinite?_returns cfg hrank
  refine ⟨answer, fun pipeline schedules => ?_, hiff.trans (and_congr_right fun _ => ?_)⟩
  · obtain ⟨answer', hreturns', hiff'⟩ :=
      isMinimallyInfinite?_returns { cfg with pipeline, schedules } hrank
    -- a check reads neither the sizes of the pipeline nor the schedules
    obtain rfl : answer = answer' := Bool.eq_iff_iff.mpr (hiff.trans hiff'.symm)
    exact hreturns'
  · simp only [forall_deleteVertex_iff, HasVerdict.later_iff hseed]

/-- **Minimality is decided correctly in any order.**  Whatever the order in which a complete list
of verdicts is folded, the answer is what the list says, and where the fold is cut off it is that or
none.  So, with a fixed seed, a matrix is called minimally mutation-infinite exactly when its own
verdict is infinite and those on its deletions are finite, whatever the sizes of the pipeline are
and the order in which its parties take their steps; there always are schedules that end.  Folding
the verdicts on the deletions gives this answer in any order. -/
theorem isMinimallyInfinite?_anyOrder :
    (∀ verdicts order : List Finiteness, order.Perm verdicts →
      let folded := foldUntilStop MinimalityFold.fold (.start verdicts.length)
      (folded (order.map .ok)).finish = .ok (allFinite? verdicts) ∧
        ∀ cut, cut <+: order → (folded (cut.map .ok)).finish = .ok none ∨
          (folded (cut.map .ok)).finish = .ok (allFinite? verdicts)) ∧
      ∀ (cfg : ClassifierConfig) (m : ExchangeMatrix), cfg.heuristic.seed.isSome = true →
        m.rank ≤ 64 →
        ∃ answer : Bool,
          (∀ (pipeline : PipelineConfig) (schedules : Nat → List Pipeline.Move) (s : Session),
            s.token.NeverStops →
            (s.ask (isMinimallyInfinite? { cfg with pipeline, schedules } m)).1 =
              .ok (some answer)) ∧
          (answer = true ↔ HasVerdict cfg m .infinite ∧ ∀ k < m.rank, ∃ d size,
            m.deleteVertex k = .ok d ∧ HasVerdict cfg d (.finite size)) ∧
          (∀ s : Session, s.token.NeverStops →
            ∃ schedule, ((deletionChecks cfg m).onPool? schedule s).isSome = true) ∧
          (HasVerdict cfg m .infinite → ∀ deletions verdicts, deletions.Perm m.vertexDeletions →
            List.Forall₂ (HasVerdict cfg) deletions verdicts →
            (foldUntilStop MinimalityFold.fold (.start m.rank) (verdicts.map .ok)).finish =
              .ok (some answer)) := by
  refine ⟨fun verdicts order horder => ?_, fun cfg m hseed hrank => ?_⟩
  · intro folded
    rw [← allFinite?_perm horder]
    exact ⟨MinimalityFold.finish_complete horder.length_eq,
      fun cut => MinimalityFold.finish_of_prefix horder.length_eq⟩
  · obtain ⟨answer, hreturns, hiff⟩ := isMinimallyInfinite?_returns_of_seed cfg hseed hrank
    refine ⟨answer, fun pipeline schedules s ht => (hreturns pipeline schedules).ask_eq ht, hiff,
      fun s ht => ?_, fun hverdict deletions verdicts hperm hverdicts => ?_⟩
    · obtain ⟨verdict, -, hdecided, -⟩ := exists_decided_deletionChecks cfg hrank
      obtain ⟨schedule, s', hpool⟩ := hdecided.exists_schedule ht
      exact ⟨schedule, by rw [hpool]; rfl⟩
    · have hlength : verdicts.length = m.rank := by
        rw [← hverdicts.length_eq, hperm.length_eq, vertexDeletions_eq, List.length_map,
          List.length_range]
      obtain ⟨answer', hanswer', hiff'⟩ := exists_allFinite?_eq (unknown_not_mem hverdicts
        fun d hd => (rank_le_of_mem_vertexDeletions (hperm.mem_iff.mp hd)).trans hrank)
      have hsame : answer' = answer := by
        rw [Bool.eq_iff_iff, hiff, hiff', and_iff_right hverdict, forall_finite_iff hverdicts,
          forall_deleteVertex_iff]
        simp only [hperm.mem_iff, vertexDeletions_eq, List.forall_mem_map, List.mem_range]
      rw [MinimalityFold.finish_complete hlength, hanswer', hsame]

end Answer

/-- A path of three vertices whose first arrow is triple. -/
def tripleArrow : ExchangeMatrix :=
  .ofFn 3 3 fun i j =>
    let rows : List (List Int) := [[0, 3, 0], [-3, 0, 1], [0, -1, 0]]
    .ofInt ((rows.getD i []).getD j 0)

theorem symmetrizable_tripleArrow : Symmetrizable tripleArrow :=
  ⟨rfl, fun _ => 1, by decide, by decide⟩

/-- The class of a matrix without mutable vertices has one matrix. -/
theorem hasVerdict_of_rank_eq_zero [Generator] (cfg : ClassifierConfig) {m : ExchangeMatrix}
    (hm : Symmetrizable m) (hzero : m.rank = 0) : HasVerdict cfg m (.finite 1) := by
  have hclass := mutationClass_of_rank_eq_zero hzero
  rw [hasVerdict_finite_iff cfg hm (by omega)]
  constructor
  · rintro ⟨x, hx, hescape⟩
    rw [hclass] at hx
    obtain rfl : x = m := hx
    rcases hescape with hcert | ⟨k, hk, -⟩
    · rw [hm.uncertified_of_rank_le (by omega)] at hcert
      cases hcert
    · omega
  · cases cfg.mode with
    | exact =>
        rw [classCount, hclass, Set.encard_singleton]
        rfl
    | upToEquivalence =>
        rw [classCount, hclass, Identification.classes, Set.image_singleton, Set.encard_singleton]
        rfl

/-- Without an end the path is an arrow, and without its middle it is empty. -/
theorem hasVerdict_deletion_tripleArrow [Generator] (cfg : ClassifierConfig)
    (hmode : cfg.mode = .exact) :
    ∀ k < 3, HasVerdict cfg (tripleArrow.deletion k) (.finite ([2, 1, 2].getD k 0)) := by
  intro k hk
  have hk : k = 0 ∨ k = 1 ∨ k = 2 := by omega
  rcases hk with rfl | rfl | rfl
  · have hdeletion : tripleArrow.deletion 0 = rankTwo (.ofInt 1) (.ofInt (-1)) := by
      rw [deletion, dropIsolated_eq_self (by decide)]
      decide
    exact hdeletion ▸ hasVerdict_rankTwo_of_exact hmode (by decide) (by decide) (by decide)
  · refine hasVerdict_of_rank_eq_zero cfg (symmetrizable_tripleArrow.deletion (by decide)) ?_
    rw [deletion, dropIsolated_eq_minor (v := 0) (by decide),
      dropIsolated_eq_minor (v := 0) (by decide), dropIsolated_eq_self (by decide)]
    decide
  · have hdeletion : tripleArrow.deletion 2 = rankTwo (.ofInt 3) (.ofInt (-3)) := by
      rw [deletion, dropIsolated_eq_self (by decide)]
      decide
    exact hdeletion ▸ hasVerdict_rankTwo_of_exact hmode (by decide) (by decide) (by decide)

theorem hasVerdict_tripleArrow [Generator] (cfg : ClassifierConfig) :
    HasVerdict cfg tripleArrow .infinite :=
  (hasVerdict_infinite_iff cfg symmetrizable_tripleArrow (by decide)).mpr
    ⟨_, .refl _, .inl (by decide)⟩

/-- Two workers come to an end with the deletions of the path when the second one overtakes the
first. -/
theorem onPool?_overtaking [Generator] {cfg : ClassifierConfig} (hmode : cfg.mode = .exact)
    (hpipeline : cfg.pipeline = ⟨2, 1, 50⟩) {s : Session} (ht : s.token.NeverStops) :
    ((deletionChecks cfg tripleArrow).onPool? Pipeline.overtaking s).isSome = true := by
  let verdict : Nat → Finiteness := fun k =>
    if k < 3 then .finite ([2, 1, 2].getD k 0) else .infinite
  have hdecided : (deletionChecks cfg tripleArrow).Decided verdict := by
    intro k
    rw [matrix_deletionChecks]
    show HasVerdict (cfg.later (k + 1)) (if k < 3 then tripleArrow.deletion k else tripleArrow)
      (if k < 3 then .finite ([2, 1, 2].getD k 0) else .infinite)
    split_ifs with hk
    · exact hasVerdict_deletion_tripleArrow (cfg.later (k + 1)) hmode k hk
    · exact hasVerdict_tripleArrow _
  let c := deletionChecks { ClassifierConfig.standard 1 0 with pipeline := ⟨2, 1, 50⟩ } tripleArrow
  have hplan : (deletionChecks cfg tripleArrow).planOf verdict = c.planOf verdict := by
    simp only [Checks.planOf, deletionChecks, hpipeline, c]
  have hrun : (followSchedule (c.planOf verdict).step Pipeline.overtaking
      ((c.planOf verdict).initial false)).map (fun p => (p.aggregator, p.callerStopped)) =
        some (.returned, false) := by decide +kernel
  obtain ⟨p, hfollow, hend⟩ := Option.map_eq_some_iff.mp hrun
  obtain ⟨hreturned, hquiet⟩ := Prod.mk.inj hend
  obtain ⟨s', hpool⟩ := hdecided.onPool?_of_follow ht (hplan ▸ hfollow) hreturned hquiet
  rw [hpool]
  rfl

/-- The path is minimally mutation-infinite, also when the second of two workers overtakes the
first; and a list with an undecided verdict before an infinite one has no answer until that is
folded. -/
theorem isMinimallyInfinite?_tripleArrow :
    let cfg := { ClassifierConfig.standard 1 0 with heuristic := ⟨10, 2, some 7⟩ }
    let cfg' := { cfg with pipeline := ⟨2, 1, 50⟩, schedules := fun _ => Pipeline.overtaking }
    let s := Session.new .standard .running
    let folded := foldUntilStop MinimalityFold.fold (.start 3)
    cfg.heuristic.seed.isSome = true ∧ tripleArrow.rank ≤ 64 ∧
      (s.ask (isMinimallyInfinite? cfg tripleArrow)).1 = .ok (some true) ∧
      ((deletionChecks cfg' tripleArrow).onPool? Pipeline.overtaking s).isSome = true ∧
      (s.ask (isMinimallyInfinite? cfg' tripleArrow)).1 = .ok (some true) ∧
      (folded [.ok (.finite 2), .ok .unknown, .ok .infinite]).finish = .ok (some false) ∧
      (folded [.ok (.finite 2), .ok .unknown]).finish = .ok none := by
  intro cfg cfg' s folded
  obtain ⟨horder, hanswers⟩ := isMinimallyInfinite?_anyOrder
  obtain ⟨answer, hask, hiff, -, -⟩ := hanswers cfg tripleArrow rfl (by decide)
  have hminimal : answer = true := by
    refine hiff.mpr ⟨hasVerdict_tripleArrow _, fun k hk => ?_⟩
    exact ⟨_, _, deleteVertex_eq hk, hasVerdict_deletion_tripleArrow cfg rfl k hk⟩
  obtain ⟨hwhole, hcut⟩ := horder [.infinite, .finite 2, .unknown] [.finite 2, .unknown, .infinite]
    (by decide)
  refine ⟨rfl, by decide, ?_, onPool?_overtaking rfl rfl Token.neverStops_running, ?_, hwhole, ?_⟩
  · exact hminimal ▸ hask cfg.pipeline cfg.schedules s Token.neverStops_running
  · exact hminimal ▸ hask ⟨2, 1, 50⟩ (fun _ => Pipeline.overtaking) s Token.neverStops_running
  · exact (hcut [.finite 2, .unknown] ⟨[.infinite], rfl⟩).resolve_right (by decide)

end MutationFinite
