import MutationFinite.Classification.Minimality
import MutationFinite.Proofs.MutationClass.Session

/-!
# Results that do not contradict themselves

Facts about a class are recorded one after another, and a later one may contradict what was recorded
before.  The record is then brought into line with the later fact, so that no two of its entries
contradict each other.

* `Finding`, `record`, `recordAll`: the facts that can be recorded, and the record after any of them
  in any order.
* `Consistent`: no two entries contradict each other; `Consistent.record` says that each fact keeps
  it so, and `shows_record` that the fact is then on record.
* `consistent_iff`: the consistent results are exactly those that facts can be recorded to.
* `exists_recorded_of_classify`: what a classification answers is recorded fact by fact.
* `recorded_consistent`: the record after any facts, and the result of any classification.
-/

namespace MutationFinite

/-- A fact about a mutation class that can be recorded. -/
inductive Finding where
  | finite (value : Bool)
  | size (value : Nat)
  | minimallyInfinite (value : Bool)
  | dynkinType (value : DynkinType)
deriving DecidableEq

namespace ClassificationResult

/-- Records one fact. -/
def record (r : ClassificationResult) : Finding → ClassificationResult
  | .finite value => r.setFinite value
  | .size value => r.setSize value
  | .minimallyInfinite value => r.setMinimallyInfinite value
  | .dynkinType value => r.setDynkinType value

/-- Records facts one after another. -/
def recordAll (r : ClassificationResult) (findings : List Finding) : ClassificationResult :=
  findings.foldl record r

/-- The fact is on record. -/
def Shows (r : ClassificationResult) : Finding → Prop
  | .finite value => r.finite = some value
  | .size value => r.size = some value
  | .minimallyInfinite value => r.minimallyInfinite = some value
  | .dynkinType value => r.dynkinType = some value

/-- No two entries contradict each other. -/
structure Consistent (r : ClassificationResult) : Prop where
  finite_of_size : ∀ n, r.size = some n → r.finite = some true
  finite_of_type : ∀ t, r.dynkinType = some t → r.finite = some true
  notMinimal_of_finite : r.finite = some true → r.minimallyInfinite = some false
  infinite_of_minimal : r.minimallyInfinite = some true →
    r.finite = some false ∧ r.size = none ∧ r.dynkinType = none

variable {r : ClassificationResult}

/-! ### One fact -/

theorem consistent_unknown : unknown.Consistent where
  finite_of_size _ h := by cases h
  finite_of_type _ h := by cases h
  notMinimal_of_finite h := by cases h
  infinite_of_minimal h := by cases h

/-- The result of a finite class, whatever its size and its type are. -/
theorem consistent_of_finite (hfinite : r.finite = some true)
    (hminimal : r.minimallyInfinite = some false) : r.Consistent where
  finite_of_size _ _ := hfinite
  finite_of_type _ _ := hfinite
  notMinimal_of_finite _ := hminimal
  infinite_of_minimal h := by cases hminimal.symm.trans h

/-- The result of an infinite class, minimally infinite or not. -/
theorem consistent_of_infinite (hfinite : r.finite = some false) (hsize : r.size = none)
    (htype : r.dynkinType = none) : r.Consistent where
  finite_of_size _ h := by cases hsize.symm.trans h
  finite_of_type _ h := by cases htype.symm.trans h
  notMinimal_of_finite h := by cases hfinite.symm.trans h
  infinite_of_minimal _ := ⟨hfinite, hsize, htype⟩

/-- Whatever was recorded before, whether the class is finite settles the other entries. -/
theorem consistent_setFinite (r : ClassificationResult) (finite : Bool) :
    (r.setFinite finite).Consistent := by
  cases finite with
  | true => exact consistent_of_finite rfl rfl
  | false => exact consistent_of_infinite rfl rfl rfl

theorem Consistent.setMinimallyInfinite (h : r.Consistent) (minimal : Bool) :
    (r.setMinimallyInfinite minimal).Consistent := by
  cases minimal with
  | true => exact consistent_of_infinite rfl rfl rfl
  | false =>
      -- a class that is not minimally infinite may be finite or not: the other entries stay
      refine ⟨h.finite_of_size, h.finite_of_type, fun _ => rfl, fun hminimal => ?_⟩
      cases hminimal

/-- **Recording a fact keeps a result consistent.** -/
theorem Consistent.record (h : r.Consistent) (f : Finding) : (r.record f).Consistent := by
  cases f with
  | finite value => exact consistent_setFinite r value
  | size value => exact consistent_of_finite rfl rfl
  | minimallyInfinite value => exact h.setMinimallyInfinite value
  | dynkinType value => exact consistent_of_finite rfl rfl

/-- The fact just recorded is on record, whatever was recorded before. -/
theorem shows_record (r : ClassificationResult) (f : Finding) : (r.record f).Shows f := by
  cases f with
  | finite value => cases value <;> rfl
  | size value => rfl
  | minimallyInfinite value => rfl
  | dynkinType value => rfl

/-! ### Any facts in any order -/

theorem Consistent.recordAll (h : r.Consistent) (findings : List Finding) :
    (r.recordAll findings).Consistent := by
  induction findings generalizing r with
  | nil => exact h
  | cons f findings ih => exact ih (h.record f)

/-- The facts on record, whether the class is finite first. -/
def findings (r : ClassificationResult) : List Finding :=
  (r.finite.map .finite).toList ++ (r.size.map .size).toList ++
    (r.dynkinType.map .dynkinType).toList ++ (r.minimallyInfinite.map .minimallyInfinite).toList

theorem Consistent.eq_none_of_ne (h : r.Consistent) (hfinite : r.finite ≠ some true) :
    r.size = none ∧ r.dynkinType = none :=
  ⟨Option.eq_none_iff_forall_ne_some.mpr fun n hn => hfinite (h.finite_of_size n hn),
    Option.eq_none_iff_forall_ne_some.mpr fun t ht => hfinite (h.finite_of_type t ht)⟩

/-- A consistent result is what recording its own facts gives. -/
theorem Consistent.recordAll_findings (h : r.Consistent) : unknown.recordAll r.findings = r := by
  obtain ⟨finite, size, minimal, type⟩ := r
  rcases finite with _ | _ | _
  case none =>
    obtain ⟨rfl, rfl⟩ : size = none ∧ type = none := h.eq_none_of_ne fun he => by cases he
    rcases minimal with _ | _ | _
    · rfl
    · rfl
    · cases (h.infinite_of_minimal rfl).1
  case some.false =>
    obtain ⟨rfl, rfl⟩ : size = none ∧ type = none := h.eq_none_of_ne fun he => by cases he
    rcases minimal with _ | _ | _ <;> rfl
  case some.true =>
    obtain rfl : minimal = some false := h.notMinimal_of_finite rfl
    cases size <;> cases type <;> rfl

/-- **The consistent results are those that facts can be recorded to**, starting from nothing. -/
theorem consistent_iff : r.Consistent ↔ ∃ findings, unknown.recordAll findings = r :=
  ⟨fun h => ⟨r.findings, h.recordAll_findings⟩, fun ⟨_, h⟩ => h ▸ consistent_unknown.recordAll _⟩

/-! ### Classifications -/

variable [Generator]

/-- **What a classification answers is recorded fact by fact**, in any session and whether or not
somebody stops it. -/
theorem exists_recorded_of_classify {cfg : ClassifierConfig} {m : ExchangeMatrix}
    {s s' : Session} (h : (classify cfg m).run s = (.ok r, s')) :
    ∃ findings, unknown.recordAll findings = r := by
  obtain ⟨verdict, s₁, -, hverdict⟩ := Session.exists_of_run_bind h
  cases verdict with
  | finite size =>
      obtain ⟨found, s₂, -, hfound⟩ := Session.exists_of_run_bind hverdict
      cases found with
      | none =>
          cases hfound
          exact ⟨[.size size], rfl⟩
      | some t =>
          cases hfound
          exact ⟨[.size size, .dynkinType t], rfl⟩
  | infinite =>
      obtain ⟨answer, s₂, -, hanswer⟩ := Session.exists_of_run_bind hverdict
      cases answer with
      | none =>
          cases hanswer
          exact ⟨[.finite false], rfl⟩
      | some minimal =>
          cases hanswer
          exact ⟨[.finite false, .minimallyInfinite minimal], rfl⟩
  | unknown =>
      cases hverdict
      exact ⟨[], rfl⟩

/-- **A result never contradicts itself.**  Whatever facts are recorded, in any order and however
they contradict one another, after each of them the result is consistent and the fact is on record;
and so every classification answers a consistent result. -/
theorem recorded_consistent :
    (∀ findings f, (unknown.recordAll (findings ++ [f])).Consistent ∧
      (unknown.recordAll (findings ++ [f])).Shows f) ∧
    ∀ cfg m (s : Session), ∀ r, (s.ask (classify cfg m)).1 = .ok r → r.Consistent := by
  refine ⟨fun findings f => ⟨consistent_unknown.recordAll _, ?_⟩, fun cfg m s r h => ?_⟩
  · rw [recordAll, List.foldl_append]
    exact shows_record _ f
  · exact consistent_iff.mpr (exists_recorded_of_classify (Prod.ext h rfl))

end ClassificationResult

end MutationFinite
