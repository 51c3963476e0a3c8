import MutationFinite.Proofs.MutationClass.Walk
import Mathlib.Data.Set.Card

/-!
# Explorations

The states that an exploration goes through are those of its opening after any number of steps.

* `Identification.classes`: a set of matrices up to an identification.
* `Progress.next`: the state after one more step, if there is one.
* `Walk.Tracked`: what every state of an exploration satisfies.
* `explore_justified`: an exploration halts for a reason, and so never runs out of steps.
* `Walk.Tracks.encard_classes`: an exhausted walk has discovered each class once.
* `not_stored_of_discovers`: what a walk discovers was not stored at any earlier time.
-/

namespace MutationFinite

open ExchangeMatrix

/-! ### Classes -/

namespace Identification

/-- The classes of the matrices of a set. -/
def classes (I : Identification) (S : Set ExchangeMatrix) : Set (Quotient I.setoid) :=
  Quotient.mk I.setoid '' S

theorem mk_eq_mk_iff {I : Identification} {a b : ExchangeMatrix} :
    Quotient.mk I.setoid a = Quotient.mk I.setoid b ↔ I.Same a b :=
  Quotient.eq

/-- Up to equality each matrix is a class of its own. -/
theorem encard_classes_equality (S : Set ExchangeMatrix) :
    (equality.classes S).encard = S.encard := by
  refine Function.Injective.encard_image (fun a b h => ?_) S
  exact same_equality_iff.mp (mk_eq_mk_iff.mp h)

end Identification

namespace Walk

variable {V : Type} [Visited V] {I : Identification} {Valid : V → Prop} {rules : WalkRules V}
  {seed : ExchangeMatrix} {w : Walk V} {L : Ledger}

/-- All edges are marked when nothing is stored any more. -/
theorem Tracks.all_marked (h : Tracks I Valid rules seed w L) (hq : w.queue = []) :
    ∀ y ∈ L.found, ∀ i < y.rank, L.marks y i := by
  intro y hy i hi
  refine (h.agrees y hy i hi).mpr fun r hr => ?_
  have hmem : y ∈ w.queue := h.mem_queue_of_record hr
  rw [hq] at hmem
  exact absurd hmem List.not_mem_nil

theorem Tracks.encard_found (h : Tracks I Valid rules seed w L) :
    {x | x ∈ L.found}.encard = w.stats.discovered := by
  classical
  have hset : {x | x ∈ L.found} = (L.found.toFinset : Set ExchangeMatrix) := by
    ext x
    simp
  rw [hset, Set.encard_coe_eq_coe_finsetCard, List.toFinset_card_of_nodup h.paired.nodup,
    h.discovered]

/-- **An exhausted walk has discovered each class once.** -/
theorem Tracks.encard_classes (h : Tracks I Valid rules seed w L) (hq : w.queue = []) :
    (I.classes seed.mutationClass).encard = w.stats.discovered := by
  have hclasses : I.classes seed.mutationClass = Quotient.mk I.setoid '' {x | x ∈ L.found} := by
    refine Set.Subset.antisymm ?_ (Set.image_mono h.reached)
    rintro _ ⟨c, hc, rfl⟩
    obtain ⟨y, hy, hs⟩ := h.paired.complete (h.all_marked hq) h.seed_found hc
    exact ⟨y, hy, (Identification.mk_eq_mk_iff.mpr hs).symm⟩
  have hinj : Set.InjOn (Quotient.mk I.setoid) {x | x ∈ L.found} := fun x hx y hy he =>
    h.paired.eq_of_same hx hy (Identification.mk_eq_mk_iff.mp he)
  rw [hclasses, hinj.encard_image, h.encard_found]

/-- The step from `w` discovers `x`: an edge leads there, and `x` is not recognised. -/
def Discovers (w : Walk V) (x : ExchangeMatrix) : Prop :=
  ∃ m k, w.current = some m ∧ (Visited.record? w.visited m).bind LinkRecord.nextUnmarked? = some k ∧
    m.mutate? k = .ok x ∧ (Visited.reach w.visited x k).1 = none

/-- What is discovered was never found before, whether or not it is still stored. -/
theorem Tracks.not_same_of_discovers (laws : StoreLaws I seed.rank Valid)
    (h : Tracks I Valid rules seed w L) {x : ExchangeMatrix} (hd : Discovers w x) :
    ∀ z ∈ L.found, ¬ I.Same z x := by
  obtain ⟨m, k, hcur, hsome, hto, hreach⟩ := hd
  obtain ⟨hm, -, hunmarked⟩ := h.unmarked_of_lowest laws hcur hsome
  rcases he : Visited.reach w.visited x k with ⟨answer, v'⟩
  rw [he] at hreach
  obtain rfl : answer = none := hreach
  exact h.not_same_of_reach laws hm hunmarked (mutatesTo_of_mutate? hto) he

end Walk

/-! ### The states of an exploration -/

namespace Progress

variable {V : Type} [Visited V]

/-- The state after one more step; a walk that has halted stays as it is. -/
def next (rules : WalkRules V) : Progress V → Progress V
  | .going w => Walk.step rules w
  | .halted h w => .halted h w

end Progress

section Explore

variable {V : Type} [Visited V] {I : Identification} {Valid : V → Prop} {rules : WalkRules V}
  {seed : ExchangeMatrix} {visited : V} {token : Token} {L : Ledger} {p : Progress V}

/-- A walk that goes on is tracked by a ledger that has lost nothing of `L`, and one that has halted
did so for a reason. -/
def Walk.Tracked (I : Identification) (Valid : V → Prop) (rules : WalkRules V)
    (seed : ExchangeMatrix) (L : Ledger) : Progress V → Prop
  | .going w => w.token.NeverStops ∧
      ∃ L', Walk.Tracks I Valid rules seed w L' ∧ L.found ⊆ L'.found
  | .halted h w => Walk.Justified I Valid rules seed h w

/-- The walk that stores its seed after the question for it is tracked. -/
theorem tracks_opening (laws : StoreLaws I seed.rank Valid) (asks : Walk.AsksOnly Valid rules)
    (hvalid : Valid visited) (hempty : ∀ y, Visited.record? visited y = none) {v : V}
    (hask : rules.isTarget visited seed = (false, v))
    (hcert : (rules.stopOnCertificate && seed.certifiesInfinite) = false) (token : Token) :
    Walk.Tracks I Valid rules seed (Walk.start seed v token) (.start seed) := by
  obtain ⟨hvalid', hrec⟩ := asks visited seed hvalid
  rw [hask] at hvalid' hrec
  exact Walk.tracks_start laws hvalid' (fun y => (hrec y).trans (hempty y))
    ⟨visited, hvalid, by rw [hask]⟩ (fun hs => by simpa [hs] using hcert) token

theorem tracked_opening (laws : StoreLaws I seed.rank Valid) (asks : Walk.AsksOnly Valid rules)
    (hvalid : Valid visited) (hempty : ∀ y, Visited.record? visited y = none)
    (ht : token.NeverStops) :
    Walk.Tracked I Valid rules seed (.start seed) (Walk.opening rules seed visited token) := by
  rcases hask : rules.isTarget visited seed with ⟨found, v⟩
  cases found with
  | true =>
      simp only [Walk.opening, hask]
      exact ⟨seed, visited, .refl seed, hvalid, by rw [hask]⟩
  | false =>
      by_cases hstop : rules.stopOnCertificate && seed.certifiesInfinite
      · simp only [Walk.opening, hask, hstop, if_true]
        rw [Bool.and_eq_true] at hstop
        exact ⟨hstop.1, seed, .refl seed, hstop.2⟩
      · simp only [Walk.opening, hask, hstop, Bool.false_eq_true, if_false]
        exact ⟨ht, .start seed, tracks_opening laws asks hvalid hempty hask
          (Bool.eq_false_iff.mpr hstop) token, List.Subset.refl _⟩

/-- A step keeps what is known of a state. -/
theorem Walk.Tracked.next (laws : StoreLaws I seed.rank Valid) (asks : Walk.AsksOnly Valid rules)
    (h : Walk.Tracked I Valid rules seed L p) :
    Walk.Tracked I Valid rules seed L (p.next rules) := by
  cases p with
  | halted halt w => exact h
  | going w =>
      obtain ⟨ht, L', htracks, hsub⟩ := h
      have hstep := htracks.step laws asks ht
      show Walk.Tracked I Valid rules seed L (Walk.step rules w)
      cases hp : Walk.step rules w with
      | going w' =>
          rw [hp] at hstep
          obtain ⟨ht', L'', htracks', hsub', -⟩ := hstep
          exact ⟨ht', L'', htracks', fun _ hx => hsub' (hsub hx)⟩
      | halted halt w' =>
          rw [hp] at hstep
          exact hstep

theorem Walk.Tracked.iterate (laws : StoreLaws I seed.rank Valid) (asks : Walk.AsksOnly Valid rules)
    (h : Walk.Tracked I Valid rules seed L p) (t : Nat) :
    Walk.Tracked I Valid rules seed L ((Progress.next rules)^[t] p) := by
  induction t with
  | zero => exact h
  | succ t ih =>
      rw [Function.iterate_succ_apply']
      exact ih.next laws asks

/-- A walk that halts within its steps is in the state in which it halted ever after. -/
theorem run_eq_iterate (fuel : Nat) (w : Walk V) :
    (Walk.run rules fuel w).1 = .outOfSteps ∨
      ∃ t, (Progress.next rules)^[t] (.going w) =
        .halted (Walk.run rules fuel w).1 (Walk.run rules fuel w).2 := by
  induction fuel generalizing w with
  | zero => exact .inl rfl
  | succ fuel ih =>
      unfold Walk.run
      cases hp : Walk.step rules w with
      | going w' =>
          rcases ih w' with hout | ⟨t, h⟩
          · exact .inl hout
          · refine .inr ⟨t + 1, ?_⟩
            rw [Function.iterate_succ_apply, show Progress.next rules (.going w) = _ from hp, h]
      | halted halt w' => exact .inr ⟨1, hp⟩

/-- The states of an exploration end with what it returns, unless it ran out of steps. -/
theorem explore_eq_iterate (h : (explore rules seed visited token).1 ≠ .outOfSteps) :
    ∃ t, (Progress.next rules)^[t] (Walk.opening rules seed visited token) =
      .halted (explore rules seed visited token).1 (explore rules seed visited token).2 := by
  unfold explore at h ⊢
  cases hp : Walk.opening rules seed visited token with
  | halted halt w => exact ⟨0, rfl⟩
  | going w =>
      rw [hp] at h
      exact (run_eq_iterate (Walk.stepBound seed) w).resolve_left h

/-- **An exploration halts for a reason.** -/
theorem explore_justified (laws : StoreLaws I seed.rank Valid) (asks : Walk.AsksOnly Valid rules)
    (hvalid : Valid visited) (hempty : ∀ y, Visited.record? visited y = none)
    (ht : token.NeverStops) :
    Walk.Justified I Valid rules seed (explore rules seed visited token).1
      (explore rules seed visited token).2 := by
  have hopen := tracked_opening laws asks hvalid hempty ht
  unfold explore
  cases hp : Walk.opening rules seed visited token with
  | halted halt w =>
      rw [hp] at hopen
      exact hopen
  | going w =>
      rw [hp] at hopen
      obtain ⟨ht', L, htracks, -⟩ := hopen
      refine htracks.run laws asks _ ht' ?_
      rw [Walk.stepBound, Nat.shiftLeft_eq, Nat.one_mul]
      omega

/-- **What a walk discovers was not stored at any earlier time**, not even up to the
identification. -/
theorem not_stored_of_discovers (laws : StoreLaws I seed.rank Valid)
    (asks : Walk.AsksOnly Valid rules) (hvalid : Valid visited)
    (hempty : ∀ y, Visited.record? visited y = none) (ht : token.NeverStops) {s t : Nat}
    (hst : s ≤ t) {w₁ w₂ : Walk V} {x : ExchangeMatrix}
    (h₁ : (Progress.next rules)^[s] (Walk.opening rules seed visited token) = .going w₁)
    (h₂ : (Progress.next rules)^[t] (Walk.opening rules seed visited token) = .going w₂)
    (hd : w₂.Discovers x) :
    ∀ z r, Visited.record? w₁.visited z = some r → ¬ I.Same z x := by
  intro z r hr
  have hopen : Walk.Tracked I Valid rules seed (.start seed)
      (Walk.opening rules seed visited token) :=
    tracked_opening laws asks hvalid hempty ht
  have hs := hopen.iterate laws asks s
  rw [h₁] at hs
  obtain ⟨ht₁, L₁, htracks₁, -⟩ := hs
  have hz : z ∈ L₁.found := htracks₁.queue_found z (htracks₁.mem_queue_of_record hr)
  -- what is found by then stays found, although the store may forget it
  have hgoing : Walk.Tracked I Valid rules seed L₁ (.going w₁) :=
    ⟨ht₁, L₁, htracks₁, List.Subset.refl _⟩
  have hlater := hgoing.iterate laws asks (t - s)
  rw [← h₁, ← Function.iterate_add_apply, Nat.sub_add_cancel hst, h₂] at hlater
  obtain ⟨-, L₂, htracks₂, hsub⟩ := hlater
  exact htracks₂.not_same_of_discovers laws hd z (hsub hz)

end Explore

end MutationFinite
