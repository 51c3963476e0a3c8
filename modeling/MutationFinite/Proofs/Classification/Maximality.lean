import MutationFinite.Classification.Survey
import MutationFinite.CommandLine.Program
import MutationFinite.Proofs.Classification.Result
import MutationFinite.Proofs.Matrix.Extension

/-!
# Maximally mutation-finite matrices

Whether a matrix is maximally mutation-finite is read off two surveys of its extensions: one that
stops at the first finite extension, and a full one, whose counts are reported.  Both give the
answer that the list of all verdicts has, in whatever order they come in.

* `noneFinite?`: what the verdicts on all extensions say together.
* `SurveyFold.finish_of_proceeds`, `SurveyFold.finish_of_stops`: what a survey has counted.
* `maximalAnswer?`: the answer from a survey that may have stopped.
* `maximality?`: the answer from all verdicts; `exists_surveys_agree` says that both surveys lead to
  it.
* `isMaximallyFinite?_returns`, `execute_extensions`: the answers of a session and of the program.
* `isMaximallyFinite?_eq_execute`: they agree.
-/

namespace MutationFinite

open ExchangeMatrix

/-- What the verdicts on all extensions say together: no if one is finite, yes if all are infinite,
and nothing otherwise. -/
def noneFinite? (verdicts : List Finiteness) : Option Bool :=
  if ∃ v ∈ verdicts, v.isFinite? = some true then some false
  else if .unknown ∈ verdicts then none
  else some true

/-- The order of the verdicts does not matter. -/
theorem noneFinite?_perm {order verdicts : List Finiteness} (h : order.Perm verdicts) :
    noneFinite? order = noneFinite? verdicts := by
  simp only [noneFinite?, h.mem_iff]

/-! ### Surveys -/

namespace SurveyFold

variable {f : SurveyFold} {results : List (ExchangeMatrix × Finiteness)} {m : ExchangeMatrix}
  {v : Finiteness}

/-- Folds verdicts on extensions. -/
def foldVerdicts (f : SurveyFold) (results : List (ExchangeMatrix × Finiteness)) : SurveyFold :=
  foldUntilStop (fun f r => fold f r.1 (.ok r.2)) f results

/-- The number of finite verdicts. -/
def finiteCount (results : List (ExchangeMatrix × Finiteness)) : Nat :=
  results.countP fun r => r.2.isFinite? == some true

/-- The number of verdicts that were not decided. -/
def unknownCount (results : List (ExchangeMatrix × Finiteness)) : Nat :=
  results.countP fun r => r.2 == .unknown

/-- A verdict is counted, and nothing else changes. -/
theorem fold_verdict (f : SurveyFold) (m : ExchangeMatrix) (v : Finiteness) :
    let next := (f.fold m (.ok v)).2
    next.error = f.error ∧ next.stopAtFirstFinite = f.stopAtFirstFinite ∧
      next.expected = f.expected ∧ next.survey.checked = f.survey.checked + 1 ∧
      next.survey.finite = f.survey.finite + (if v.isFinite? == some true then 1 else 0) ∧
      next.survey.unknown = f.survey.unknown + (if v == .unknown then 1 else 0) := by
  cases v <;> exact ⟨rfl, rfl, rfl, rfl, rfl, rfl⟩

/-- A survey that may stop does so at a finite extension. -/
theorem fold_stops_iff :
    (f.fold m (.ok v)).1 = .stop ↔ f.stopAtFirstFinite = true ∧ v.isFinite? = some true := by
  cases v with
  | finite size =>
      refine Iff.trans ?_ (and_iff_left rfl).symm
      show (if f.stopAtFirstFinite = true then Flow.stop else Flow.proceed) = .stop ↔ _
      split
      · next hstop => exact iff_of_true rfl hstop
      · next hgo => exact iff_of_false nofun hgo
  | infinite => exact iff_of_false nofun nofun
  | unknown => exact iff_of_false nofun nofun

theorem finish_eq (herror : f.error = none) :
    f.finish = .ok { f.survey with complete := f.survey.checked == f.expected } := by
  rw [finish, herror]

/-- **A survey that nothing stops counts all verdicts.** -/
theorem finish_of_proceeds (results : List (ExchangeMatrix × Finiteness)) (f : SurveyFold)
    (herror : f.error = none)
    (hproceed : f.stopAtFirstFinite = false ∨ ∀ r ∈ results, r.2.isFinite? ≠ some true) :
    ∃ survey, (f.foldVerdicts results).finish = .ok survey ∧
      survey.finite = f.survey.finite + finiteCount results ∧
      survey.unknown = f.survey.unknown + unknownCount results ∧
      survey.complete = (f.survey.checked + results.length == f.expected) := by
  induction results generalizing f with
  | nil =>
      exact ⟨_, finish_eq herror, rfl, rfl, rfl⟩
  | cons r results ih =>
      obtain ⟨herror', hstop, hexpected, hchecked, hfinite, hunknown⟩ := f.fold_verdict r.1 r.2
      have hgo : (f.fold r.1 (.ok r.2)).1 ≠ .stop := by
        rw [Ne, fold_stops_iff]
        rintro ⟨hstops, hyes⟩
        rcases hproceed with hno | hnone
        · exact Bool.false_ne_true (hno.symm.trans hstops)
        · exact hnone r List.mem_cons_self hyes
      obtain ⟨survey, hfinish, hfinite', hunknown', hcomplete⟩ :=
        ih (f.fold r.1 (.ok r.2)).2 (herror'.trans herror)
          (hproceed.imp hstop.trans fun h r hr => h r (List.mem_cons_of_mem _ hr))
      refine ⟨survey, ?_, ?_, ?_, ?_⟩
      · rw [foldVerdicts, foldUntilStop_cons, if_neg hgo]
        exact hfinish
      · rw [hfinite', hfinite, finiteCount, finiteCount, List.countP_cons]
        omega
      · rw [hunknown', hunknown, unknownCount, unknownCount, List.countP_cons]
        omega
      · rw [hcomplete, hchecked, hexpected, List.length_cons, Nat.add_assoc, Nat.add_comm 1]

/-- **A survey that may stop has counted a finite extension** when there is one. -/
theorem finish_of_stops (results : List (ExchangeMatrix × Finiteness)) (f : SurveyFold)
    (herror : f.error = none) (hstop : f.stopAtFirstFinite = true)
    (hfinite : ∃ r ∈ results, r.2.isFinite? = some true) :
    ∃ survey, (f.foldVerdicts results).finish = .ok survey ∧ 0 < survey.finite := by
  induction results generalizing f with
  | nil =>
      obtain ⟨r, hr, -⟩ := hfinite
      cases hr
  | cons r results ih =>
      obtain ⟨herror', hstop', -, -, hcount, -⟩ := f.fold_verdict r.1 r.2
      rw [foldVerdicts, foldUntilStop_cons]
      by_cases hyes : r.2.isFinite? = some true
      · rw [if_pos (fold_stops_iff.mpr ⟨hstop, hyes⟩)]
        have hpositive : 0 < (f.fold r.1 (.ok r.2)).2.survey.finite := by
          rw [hcount, hyes]
          exact Nat.succ_pos _
        exact ⟨_, finish_eq (herror'.trans herror), hpositive⟩
      · rw [if_neg fun h => hyes (fold_stops_iff.mp h).2]
        refine ih _ (herror'.trans herror) (hstop'.trans hstop) ?_
        obtain ⟨r', hr', hyes'⟩ := hfinite
        rcases List.mem_cons.mp hr' with rfl | hr'
        · exact absurd hyes' hyes
        · exact ⟨r', hr', hyes'⟩

/-- The counts say whether some verdict is finite, and whether all are decided. -/
theorem noneFinite?_eq (results : List (ExchangeMatrix × Finiteness)) :
    noneFinite? (results.map Prod.snd) =
      if 0 < finiteCount results then some false
      else if unknownCount results = 0 then some true else none := by
  have hfinite : (∃ v ∈ results.map Prod.snd, v.isFinite? = some true) ↔
      0 < finiteCount results := by
    simp only [finiteCount, List.countP_pos_iff, beq_iff_eq]
    constructor
    · rintro ⟨v, hv, hyes⟩
      obtain ⟨r, hr, rfl⟩ := List.mem_map.mp hv
      exact ⟨r, hr, hyes⟩
    · rintro ⟨r, hr, hyes⟩
      exact ⟨_, List.mem_map_of_mem hr, hyes⟩
  have hunknown : .unknown ∈ results.map Prod.snd ↔ ¬ unknownCount results = 0 := by
    simp [unknownCount, List.countP_eq_zero]
  simp only [noneFinite?, hfinite, hunknown, ite_not]

/-- **The survey that may stop gives the answer of all verdicts.** -/
theorem exists_allInfinite?_eq (results : List (ExchangeMatrix × Finiteness)) {expected : Nat}
    (h : results.length = expected) :
    ∃ survey, ((start expected true).foldVerdicts results).finish = .ok survey ∧
      survey.allInfinite? = noneFinite? (results.map Prod.snd) := by
  by_cases hfinite : ∃ r ∈ results, r.2.isFinite? = some true
  · obtain ⟨survey, hfinish, hpositive⟩ := finish_of_stops results (start expected true) rfl rfl
      hfinite
    refine ⟨survey, hfinish, ?_⟩
    obtain ⟨r, hr, hyes⟩ := hfinite
    rw [noneFinite?, if_pos ⟨r.2, List.mem_map_of_mem hr, hyes⟩, ExtensionSurvey.allInfinite?,
      if_pos hpositive]
  · have hnone : ∀ r ∈ results, r.2.isFinite? ≠ some true := by simpa using hfinite
    obtain ⟨survey, hfinish, hcount, hunknown, hcomplete⟩ :=
      finish_of_proceeds results (start expected true) rfl (.inr hnone)
    refine ⟨survey, hfinish, ?_⟩
    rw [noneFinite?_eq, ExtensionSurvey.allInfinite?, hcount, hunknown, hcomplete]
    simp [start, h]

/-- **The full survey gives the answer of all verdicts, too.** -/
theorem exists_maximalVerdict?_finite (results : List (ExchangeMatrix × Finiteness))
    {expected : Nat} (h : results.length = expected) :
    ∃ survey, ((start expected false).foldVerdicts results).finish = .ok survey ∧
      maximalVerdict? (some true) survey = noneFinite? (results.map Prod.snd) := by
  obtain ⟨survey, hfinish, hcount, hunknown, hcomplete⟩ :=
    finish_of_proceeds results (start expected false) rfl (.inl rfl)
  refine ⟨survey, hfinish, ?_⟩
  rw [noneFinite?_eq, maximalVerdict?, hcount, hunknown, hcomplete]
  simp only [start, h, Nat.zero_add, beq_self_eq_true, Bool.true_and, beq_iff_eq]
  rcases Nat.eq_zero_or_pos (finiteCount results) with hzero | hpos
  · rw [hzero, if_neg (lt_irrefl 0)]
    rfl
  · rw [if_pos hpos, if_pos hpos, beq_false_of_ne hpos.ne', ite_self]

end SurveyFold

/-- The answer of a session, from the verdict on a matrix and a survey that may have stopped. -/
def maximalAnswer? (verdict : Finiteness) (survey : ExtensionSurvey) : Option Bool :=
  match verdict with
  | .infinite => some false
  | .unknown => none
  | .finite _ => survey.allInfinite?

/-- Whether a matrix is maximally mutation-finite, from its verdict and those on all extensions. -/
def maximality? (verdict : Finiteness) (verdicts : List Finiteness) : Option Bool :=
  match verdict with
  | .infinite => some false
  | .unknown => none
  | .finite _ => noneFinite? verdicts

theorem exists_maximalAnswer?_eq (verdict : Finiteness)
    (results : List (ExchangeMatrix × Finiteness)) {expected : Nat}
    (h : results.length = expected) :
    ∃ survey, ((SurveyFold.start expected true).foldVerdicts results).finish = .ok survey ∧
      maximalAnswer? verdict survey = maximality? verdict (results.map Prod.snd) := by
  obtain ⟨survey, hfinish, hanswer⟩ := SurveyFold.exists_allInfinite?_eq results h
  refine ⟨survey, hfinish, ?_⟩
  cases verdict with
  | finite size => exact hanswer
  | infinite => rfl
  | unknown => rfl

theorem exists_maximalVerdict?_eq (verdict : Finiteness)
    (results : List (ExchangeMatrix × Finiteness)) {expected : Nat}
    (h : results.length = expected) :
    ∃ survey, ((SurveyFold.start expected false).foldVerdicts results).finish = .ok survey ∧
      maximalVerdict? verdict.isFinite? survey = maximality? verdict (results.map Prod.snd) := by
  obtain ⟨survey, hfinish, hanswer⟩ := SurveyFold.exists_maximalVerdict?_finite results h
  refine ⟨survey, hfinish, ?_⟩
  cases verdict with
  | finite size => exact hanswer
  | infinite => rfl
  | unknown => rfl

/-- The order of the verdicts does not matter. -/
theorem maximality?_perm {verdict : Finiteness} {order verdicts : List Finiteness}
    (h : order.Perm verdicts) : maximality? verdict order = maximality? verdict verdicts := by
  cases verdict with
  | finite size => exact noneFinite?_perm h
  | infinite => rfl
  | unknown => rfl

/-- **The two surveys of the same verdicts lead to one answer**, in whatever orders they come in. -/
theorem exists_surveys_agree (verdict : Finiteness)
    {results order order' : List (ExchangeMatrix × Finiteness)} (h : order.Perm results)
    (h' : order'.Perm results) :
    ∃ stopped full,
      ((SurveyFold.start results.length true).foldVerdicts order).finish = .ok stopped ∧
        ((SurveyFold.start results.length false).foldVerdicts order').finish = .ok full ∧
        maximalAnswer? verdict stopped = maximalVerdict? verdict.isFinite? full ∧
        maximalVerdict? verdict.isFinite? full = maximality? verdict (results.map Prod.snd) := by
  obtain ⟨stopped, hstopped, hanswer⟩ := exists_maximalAnswer?_eq verdict order h.length_eq
  obtain ⟨full, hfull, hanswer'⟩ := exists_maximalVerdict?_eq verdict order' h'.length_eq
  rw [maximality?_perm (h.map Prod.snd)] at hanswer
  rw [maximality?_perm (h'.map Prod.snd)] at hanswer'
  exact ⟨stopped, full, hstopped, hfull, hanswer.trans hanswer'.symm, hanswer'⟩

/-- Verdicts that are decided say together whether all of them are infinite. -/
theorem exists_noneFinite?_eq {verdicts : List Finiteness} (h : .unknown ∉ verdicts) :
    ∃ answer : Bool, noneFinite? verdicts = some answer ∧
      (answer = true ↔ ∀ v ∈ verdicts, v = .infinite) := by
  by_cases hfinite : ∃ v ∈ verdicts, v.isFinite? = some true
  · refine ⟨false, if_pos hfinite, iff_of_false nofun fun hall => ?_⟩
    obtain ⟨v, hv, hyes⟩ := hfinite
    obtain rfl := hall v hv
    cases hyes
  · refine ⟨true, by rw [noneFinite?, if_neg hfinite, if_neg h], iff_of_true rfl fun v hv => ?_⟩
    cases v with
    | finite size => exact absurd ⟨_, hv, rfl⟩ hfinite
    | infinite => rfl
    | unknown => exact absurd hv h

/-- So they say with the verdict on the matrix whether it is finite while all of them are
infinite. -/
theorem exists_maximality?_eq {v : Finiteness} {verdicts : List Finiteness} (hv : v ≠ .unknown)
    (h : .unknown ∉ verdicts) :
    ∃ answer : Bool, maximality? v verdicts = some answer ∧
      (answer = true ↔ (∃ size, v = .finite size) ∧ ∀ w ∈ verdicts, w = .infinite) := by
  cases v with
  | finite size =>
      obtain ⟨answer, hanswer, hiff⟩ := exists_noneFinite?_eq h
      exact ⟨answer, hanswer, hiff.trans (and_iff_right ⟨size, rfl⟩).symm⟩
  | infinite => exact ⟨false, rfl, iff_of_false nofun fun ⟨⟨_, hfinite⟩, _⟩ => nomatch hfinite⟩
  | unknown => exact absurd rfl hv

/-- The report of a survey ends with the answer. -/
theorem exists_surveyReport_eq (weight : Entry) (finite : Option Bool)
    (survey : ExtensionSurvey) :
    ∃ counts : String, CommandLine.surveyReport weight finite survey =
      counts ++ "maximally mutation-finite: " ++ yesNo (maximalVerdict? finite survey) ++ "\n" :=
  ⟨_, rfl⟩

section Answer

variable [Generator] {cfg : ClassifierConfig} {m : ExchangeMatrix} {x : Extensions}
  {verdict : Nat → Finiteness} {stopAtFirstFinite : Bool} {P : ExtensionSurvey → Prop}

/-- The extensions, in some order, with their verdicts. -/
def Extensions.verdicts (x : Extensions) (verdict : Nat → Finiteness) (order : List Nat) :
    List (ExchangeMatrix × Finiteness) :=
  order.map fun t => (x.get t, verdict t)

/-- **A survey folds the verdicts on the extensions in some order**, in sessions that nobody
stops. -/
theorem runSurvey_returns {weight : Entry} (hx : m.extensions weight = .ok x)
    (htotal : x.total = x.count)
    (hdecided : (extensionChecks cfg x stopAtFirstFinite).Decided verdict)
    (hfinish : ∀ order, order.Perm (List.range x.count) → ∃ survey,
      ((SurveyFold.start x.count stopAtFirstFinite).foldVerdicts
        (x.verdicts verdict order)).finish = .ok survey ∧ P survey) :
    Session.Returns (runSurvey cfg m weight stopAtFirstFinite) P := by
  unfold runSurvey
  refine .bind_eq (.ofExcept hx rfl) (hdecided.run_returns.bind ?_)
  rintro _ ⟨order, horder, rfl⟩
  obtain ⟨survey, hsurvey, hP⟩ := hfinish order horder
  refine .ofExcept ?_ hP
  rw [← hsurvey, SurveyFold.foldVerdicts, Extensions.verdicts, foldUntilStop_map, Checks.folded,
    foldUntilStop_map]
  simp only [extensionChecks, htotal]

/-- Without weights there are no extensions, and the survey is empty and complete. -/
theorem runSurvey_returns_weightless (cfg : ClassifierConfig) (hsquare : m.isSquare = true)
    (hrank : m.rank ≤ 63) (stopAtFirstFinite : Bool) :
    Session.Returns (runSurvey cfg m 0 stopAtFirstFinite) (· = ⟨0, 0, 0, 0, none, true⟩) := by
  let x : Extensions := ⟨m, 0⟩
  have hvectors : x.vectors = 1 := x.vectors_eq.trans (Nat.one_pow _)
  have hcount : x.count = 0 := by rw [Extensions.count, hvectors]
  have htotal : x.total = x.count := if_pos (hvectors ▸ by decide)
  have hx : m.extensions 0 = .ok x := if_pos hsquare
  choose verdict _ hverdict using fun t => exists_hasVerdict (cfg.later (t + 1))
    ((x.rank_get t).trans_le (Nat.succ_le_succ hrank))
  refine runSurvey_returns hx htotal hverdict fun order horder => ?_
  rw [hcount] at horder ⊢
  obtain rfl : order = [] := horder.eq_nil
  exact ⟨_, rfl, rfl⟩

/-- The answer of a session is read off its verdict and, if that is finite, its survey, whether or
not somebody stops the session. -/
theorem isMaximallyFinite?_run {s s' s'' : Session} {v : Finiteness} {survey : ExtensionSurvey}
    (hsquare : m.isSquare = true) (h : s.ask (checkFinite cfg m) = (.ok v, s'))
    (hsurvey : v.isFinite? = some true →
      s'.ask (runSurvey cfg m cfg.extensionWeight true) = (.ok survey, s'')) :
    s.ask (isMaximallyFinite? cfg m) =
      (.ok (maximalAnswer? v survey), if v.isFinite? = some true then s'' else s') := by
  unfold isMaximallyFinite?
  simp only [hsquare, Bool.not_true, Bool.false_eq_true, if_false]
  refine (Session.run_bind h).trans ?_
  cases v with
  | finite size => exact Session.run_bind (hsurvey rfl)
  | infinite => rfl
  | unknown => rfl

/-- So it is in the sessions that nobody stops. -/
theorem isMaximallyFinite?_returns {v : Finiteness} {answer : Option Bool}
    (hsquare : m.isSquare = true) (h : HasVerdict cfg m v)
    (hsurvey : Session.Returns (runSurvey cfg m cfg.extensionWeight true)
      fun survey => maximalAnswer? v survey = answer) :
    Session.Returns (isMaximallyFinite? cfg m) (· = answer) := by
  intro s ht
  obtain ⟨_, s', hrun, ht', rfl⟩ := h s ht
  obtain ⟨survey, s'', hrun', ht'', rfl⟩ := hsurvey s' ht'
  refine ⟨_, _, isMaximallyFinite?_run hsquare hrun fun _ => hrun', ?_, rfl⟩
  split
  · exact ht''
  · exact ht'

/-- The program prints the answer that it reads off its result and its survey. -/
theorem execute_extensions {o : CommandLine.Options} {v : Finiteness} {answer : Option Bool}
    (hmatrix : o.matrix = some m) (hvalidate : o.validateOnly = false)
    (hminimal : o.minimalOnly = false) (hextensions : o.extensions = true)
    (h : HasVerdict o.config m v) (hrank : m.rank ≤ 64)
    (hsurvey : Session.Returns
      (runSurvey (o.config.later (m.rank + 1)) m o.config.extensionWeight false)
      fun survey => maximalVerdict? v.isFinite? survey = answer) :
    (CommandLine.execute o).exitCode = 0 ∧ ∃ report : String, (CommandLine.execute o).stdout =
      report ++ "maximally mutation-finite: " ++ yesNo answer ++ "\n" := by
  have hrunning : (Session.new o.config.equivalence .running).token.NeverStops :=
    Token.neverStops_running
  obtain ⟨result, s, hrun, ht, hresult⟩ := classify_returns h hrank _ hrunning
  obtain ⟨survey, hask, rfl⟩ := hsurvey.ask ht
  obtain ⟨counts, hcounts⟩ := exists_surveyReport_eq o.config.extensionWeight v.isFinite? survey
  have hresultAsk : (Session.new o.config.equivalence .running).ask (classify o.config m) =
      (.ok result, s) := hrun
  simp only [CommandLine.execute, CommandLine.classification, hmatrix, hvalidate, hminimal,
    hextensions, hresultAsk, surveyExtensions, hask, hresult, hcounts, if_true,
    Bool.false_eq_true, if_false, true_and]
  exact ⟨m.render ++ "\n" ++ CommandLine.ruler ++ result.text ++ "\n" ++ counts,
    by simp only [String.append_assoc]⟩

/-- With a fixed seed each extension has its verdict when its turn comes, in all surveys. -/
theorem decided_extensionChecks (hseed : cfg.heuristic.seed.isSome = true)
    (hverdict : ∀ t, HasVerdict cfg (x.get t) (verdict t)) (count : Nat) :
    (extensionChecks (cfg.later count) x stopAtFirstFinite).Decided verdict := by
  have hlater : (cfg.later count).heuristic.seed.isSome = true := hseed
  intro t
  exact (HasVerdict.later_iff hlater (t + 1)).mpr
    ((HasVerdict.later_iff hseed count).mpr (hverdict t))

/-- **The answers of a session and of the program agree**, and are decided, when the seed is
fixed. -/
theorem exists_maximal_returns {o : CommandLine.Options} (hmatrix : o.matrix = some m)
    (hvalidate : o.validateOnly = false) (hminimal : o.minimalOnly = false)
    (hextensions : o.extensions = true) (hseed : o.config.heuristic.seed.isSome = true)
    (hrank : m.rank ≤ 63) (hx : m.extensions o.config.extensionWeight = .ok x)
    (htotal : x.total = x.count) :
    ∃ answer : Bool,
      (∀ pipeline schedules, Session.Returns
        (isMaximallyFinite? { o.config with pipeline, schedules } m) (· = some answer)) ∧
      ((CommandLine.execute o).exitCode = 0 ∧ ∃ report : String, (CommandLine.execute o).stdout =
        report ++ "maximally mutation-finite: " ++ yesNo (some answer) ++ "\n") ∧
      (answer = true ↔ (∃ size, HasVerdict o.config m (.finite size)) ∧
        ∀ t < x.count, HasVerdict o.config (x.get t) .infinite) := by
  obtain ⟨hsquare, hbase⟩ := extensions_eq_ok_iff.mp hx
  have hm : m.rank ≤ 64 := hrank.trans (by decide)
  have hranks : ∀ t, (x.get t).rank ≤ 64 := by
    intro t
    rw [x.rank_get, hbase]
    exact Nat.succ_le_succ hrank
  obtain ⟨v, hknown, hv⟩ := exists_hasVerdict o.config hm
  choose verdict hdecided hverdict using fun t => exists_hasVerdict o.config (hranks t)
  have hunknown : .unknown ∉ (List.range x.count).map verdict := by
    rintro hmem
    obtain ⟨t, -, ht⟩ := List.mem_map.mp hmem
    exact hdecided t ht
  obtain ⟨answer, hanswer, hiff⟩ := exists_maximality?_eq hknown hunknown
  have hverdicts {order : List Nat} (horder : order.Perm (List.range x.count)) :
      (x.verdicts verdict order).length = x.count ∧
        maximality? v ((x.verdicts verdict order).map Prod.snd) = some answer := by
    refine ⟨by simpa [Extensions.verdicts] using horder.length_eq, ?_⟩
    rw [Extensions.verdicts, List.map_map, ← hanswer]
    exact maximality?_perm (horder.map verdict)
  refine ⟨answer, fun pipeline schedules => ?_, ?_, hiff.trans ?_⟩
  · refine isMaximallyFinite?_returns hsquare hv (runSurvey_returns hx htotal
      (fun t => (HasVerdict.later_iff hseed (t + 1)).mpr (hverdict t)) fun order horder => ?_)
    obtain ⟨hlength, hmaximality⟩ := hverdicts horder
    obtain ⟨survey, hfinish, hsurvey⟩ := exists_maximalAnswer?_eq v _ hlength
    exact ⟨survey, hfinish, hsurvey.trans hmaximality⟩
  · refine execute_extensions hmatrix hvalidate hminimal hextensions hv hm (runSurvey_returns hx
      htotal (decided_extensionChecks hseed hverdict (m.rank + 1)) fun order horder => ?_)
    obtain ⟨hlength, hmaximality⟩ := hverdicts horder
    obtain ⟨survey, hfinish, hsurvey⟩ := exists_maximalVerdict?_eq v _ hlength
    exact ⟨survey, hfinish, hsurvey.trans hmaximality⟩
  · simp only [List.forall_mem_map, List.mem_range]
    refine and_congr (exists_congr fun size => ⟨?_, hv.unique⟩)
      (forall₂_congr fun t _ => ⟨?_, (hverdict t).unique⟩)
    · rintro rfl
      exact hv
    · intro h
      exact h ▸ hverdict t

/-- **Maximality agrees between the session and the program.**  Whatever the verdict on a matrix
and those on its extensions, in whatever orders they come in, the survey that may stop and the full
one lead to one answer.  So, with a fixed seed, the session answers what the program prints: yes, if
the verdict on the matrix is finite while those on all of its extensions by weight vectors in range,
but zero, are infinite, and no otherwise.  The sizes of the pipeline do not matter, nor does the
order in which its parties take their steps; there always are schedules that end. -/
theorem isMaximallyFinite?_eq_execute :
    (∀ (verdict : Finiteness) (results order order' : List (ExchangeMatrix × Finiteness)),
      order.Perm results → order'.Perm results → ∃ stopped full,
        ((SurveyFold.start results.length true).foldVerdicts order).finish = .ok stopped ∧
          ((SurveyFold.start results.length false).foldVerdicts order').finish = .ok full ∧
          maximalAnswer? verdict stopped = maximalVerdict? verdict.isFinite? full ∧
          maximalVerdict? verdict.isFinite? full =
            maximality? verdict (results.map Prod.snd)) ∧
      (∀ (cfg : ClassifierConfig) (m : ExchangeMatrix) (s s' s'' : Session) (verdict : Finiteness)
        (stopped : ExtensionSurvey), m.isSquare = true →
        s.ask (checkFinite cfg m) = (.ok verdict, s') →
        (verdict.isFinite? = some true →
          s'.ask (runSurvey cfg m cfg.extensionWeight true) = (.ok stopped, s'')) →
        (s.ask (isMaximallyFinite? cfg m)).1 = .ok (maximalAnswer? verdict stopped)) ∧
      ∀ (o : CommandLine.Options) (m : ExchangeMatrix), o.matrix = some m →
        o.validateOnly = false → o.minimalOnly = false → o.extensions = true →
        o.config.heuristic.seed.isSome = true →
        m.isSquare = true → m.rank ≤ 63 → o.config.extensionWeight.val ≠ -2147483648 →
        (2 * o.config.extensionWeight.val.natAbs + 1) ^ m.rank < UInt64.size →
        ∃ answer : Bool,
          (∀ (pipeline : PipelineConfig) (schedules : Nat → List Pipeline.Move) (s : Session),
            s.token.NeverStops →
            (s.ask (isMaximallyFinite? { o.config with pipeline, schedules } m)).1 =
              .ok (some answer)) ∧
            ((CommandLine.execute o).exitCode = 0 ∧
              ∃ report : String, (CommandLine.execute o).stdout =
                report ++ "maximally mutation-finite: " ++ yesNo (some answer) ++ "\n") ∧
            (answer = true ↔ (∃ size, HasVerdict o.config m (.finite size)) ∧
              ∀ (w : Nat → Int) (e : ExchangeMatrix),
                (∀ i < m.rank, |w i| ≤ |o.config.extensionWeight.val|) →
                (∃ i < m.rank, w i ≠ 0) → Extends m w e → HasVerdict o.config e .infinite) ∧
            ∀ x, m.extensions o.config.extensionWeight = .ok x → ∀ (stopAtFirstFinite : Bool)
              (s : Session), s.token.NeverStops → ∃ schedule,
                ((extensionChecks o.config x stopAtFirstFinite).onPool? schedule s).isSome =
                  true := by
  refine ⟨fun verdict results order order' => exists_surveys_agree verdict, ?_, ?_⟩
  · intro cfg m s s' s'' verdict stopped hsquare h hsurvey
    exact congrArg Prod.fst (isMaximallyFinite?_run hsquare h hsurvey)
  · intro o m hmatrix hvalidate hminimal hextensions hseed hsquare hrank hweight hcount
    have hfits : o.config.extensionWeight.val.natAbs ≤ 2147483647 := by
      have := o.config.extensionWeight.least_le
      have := o.config.extensionWeight.le_greatest
      omega
    let x : Extensions := ⟨m, o.config.extensionWeight.val.natAbs⟩
    have hx : m.extensions o.config.extensionWeight = .ok x := if_pos hsquare
    have htotal : x.total = x.count := if_pos (x.vectors_eq ▸ hcount)
    obtain ⟨answer, hreturns, hexecute, hiff⟩ := exists_maximal_returns hmatrix hvalidate hminimal
      hextensions hseed hrank hx htotal
    refine ⟨answer, fun pipeline schedules s ht => (hreturns pipeline schedules).ask_eq ht,
      hexecute, ?_, fun x' hx' stopAtFirstFinite s ht => ?_⟩
    · rw [hiff, Int.abs_eq_natAbs]
      exact and_congr_right fun _ =>
        x.forall_get_iff hfits (P := fun e => HasVerdict o.config e .infinite)
    · obtain rfl := Except.ok.inj (hx.symm.trans hx')
      choose verdict _ hverdict using fun t => exists_hasVerdict (o.config.later (t + 1))
        ((x.rank_get t).trans_le (Nat.succ_le_succ hrank))
      have hdecided : (extensionChecks o.config x stopAtFirstFinite).Decided verdict := hverdict
      obtain ⟨schedule, s', hpool⟩ := hdecided.exists_schedule ht
      exact ⟨schedule, by rw [hpool]; rfl⟩

end Answer

/-- The double arrow as a part of the doubled cycle. -/
theorem extends_doubledCycle : Extends (rankTwo (.ofInt 2) (.ofInt (-2)))
    (fun i => if i = 0 then 2 else -2) (doubledCycle 1) :=
  ⟨rfl, rfl, by decide, by decide, by decide, by decide⟩

/-- The double arrow is not maximally mutation-finite, as the doubled cycle is finite, but without
weights it is.  One finite extension decides, before or after one that is not decided. -/
theorem isMaximallyFinite?_doubleArrow :
    let m := rankTwo (.ofInt 2) (.ofInt (-2))
    let s := Session.new .standard .running
    let o := { (CommandLine.Options.standard 1 0).withHeuristic fun h => { h with seed := some 7 }
      with extensions := true, matrix := some m }
    let weightless := { o.config with extensionWeight := 0 }
    m.rank ≤ 63 ∧ (s.ask (isMaximallyFinite? o.config m)).1 = .ok (some false) ∧
      (∃ report : String, (CommandLine.execute o).stdout =
        report ++ "maximally mutation-finite: " ++ yesNo (some false) ++ "\n") ∧
      (s.ask (isMaximallyFinite? weightless m)).1 = .ok (some true) ∧
      ∃ stopped full,
        ((SurveyFold.start 2 true).foldVerdicts
          [(doubledCycle 1, .finite 2), (m, .unknown)]).finish = .ok stopped ∧
        ((SurveyFold.start 2 false).foldVerdicts
          [(m, .unknown), (doubledCycle 1, .finite 2)]).finish = .ok full ∧
        stopped.checked = 1 ∧ full.checked = 2 ∧
        maximalAnswer? (.finite 2) stopped = some false ∧
        maximalVerdict? (some true) full = some false := by
  intro m s o weightless
  obtain ⟨hsurveys, hread, hanswers⟩ := isMaximallyFinite?_eq_execute
  have hrunning : s.token.NeverStops := Token.neverStops_running
  obtain ⟨answer, hask, ⟨-, report, hexecute⟩, hiff, -⟩ := hanswers o m rfl rfl rfl rfl rfl
    (by decide) (by decide) (by decide) (by decide)
  have hno : answer = false := by
    refine Bool.eq_false_iff.mpr fun hyes => ?_
    have hinfinite : HasVerdict o.config (doubledCycle 1) .infinite :=
      (hiff.mp hyes).2 _ _ (by decide) ⟨0, by decide, by decide⟩ extends_doubledCycle
    cases hinfinite.unique (hasVerdict_doubledCycle rfl)
  have hempty : (s.ask (isMaximallyFinite? weightless m)).1 = .ok (some true) := by
    obtain ⟨v, s', hverdict, ht', rfl⟩ :=
      hasVerdict_rankTwo weightless (by decide : Opposed (.ofInt 2) (.ofInt (-2))) (by decide) s
        hrunning
    obtain ⟨survey, s'', hsurvey, -, rfl⟩ :=
      runSurvey_returns_weightless weightless (m := m) (by decide) (by decide) true s' ht'
    exact hread weightless m s s' s'' _ _ (by decide) hverdict fun _ => hsurvey
  obtain ⟨stopped, full, hstopped, hfull, hagree, hverdict⟩ := hsurveys (.finite 2)
    [(m, .unknown), (doubledCycle 1, .finite 2)] [(doubledCycle 1, .finite 2), (m, .unknown)]
    [(m, .unknown), (doubledCycle 1, .finite 2)] (.swap _ _ _) (.refl _)
  have hfalse : maximality? (.finite 2) [.unknown, .finite 2] = some false := by decide
  have hanswer := hask o.config.pipeline o.config.schedules s hrunning
  refine ⟨by decide, hno ▸ hanswer, ⟨report, hno ▸ hexecute⟩, hempty, stopped, full, hstopped,
    hfull, ?_, ?_, hagree.trans (hverdict.trans hfalse), hverdict.trans hfalse⟩
  · obtain rfl := Except.ok.inj hstopped
    rfl
  · obtain rfl := Except.ok.inj hfull
    rfl

end MutationFinite
